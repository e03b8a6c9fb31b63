import GenHeap.Diagnostics.Catalogue

/-!
The board on which a heap publishes its fields for readers that take no lock. A publication makes
the sequence number odd, writes fields, and makes it even again; a reading is consistent if the
number is even. What a field shows is the last value written, cut to the room it has.
-/

namespace GenHeap.Diagnostics

/-- The words of one field. The first of them are shown; those behind may be left from values that
were longer. -/
structure Cell where
  store : List Nat
  shown : Nat
  elementWords : Nat
  deriving DecidableEq, Repr

structure Board where
  sequence : Nat := 0
  cycleActive : Bool := false
  /-- in the order of the catalogue -/
  cells : List Cell
  deriving DecidableEq, Repr

namespace Board

/-- The most words that a field shows. -/
def room (eventCapacity : Nat) (f : Field) : Nat :=
  match f.descriptor.shape with
  | .direct | .pointer => 1
  | .fixed words => words
  | .varying elementWords =>
    elementWords * if f = .outOfMemoryEvents then eventCapacity else maxInternalRoots

/-- The words of one element of a field. -/
def elementWords (f : Field) : Nat :=
  match f.descriptor.shape with
  | .varying words => words
  | _ => 1

/-- The longest part at the start of `values` that fits and consists of whole elements. -/
def fitting (room elementWords : Nat) (values : List Nat) : List Nat :=
  let fits := min values.length room
  values.take (fits - fits % elementWords)

end Board

namespace Cell

/-- Zeros, of which none are shown if the length varies. -/
def ofField (eventCapacity : Nat) (f : Field) : Cell :=
  let room := Board.room eventCapacity f
  let shown :=
    match f.descriptor.shape with
    | .varying _ => 0
    | _ => room
  { store := List.replicate room 0, shown, elementWords := Board.elementWords f }

def words (c : Cell) : List Nat := c.store.take c.shown

/-- Writes the first word, if there is room for one, and shows as many as before. -/
def set (c : Cell) (value : Nat) : Cell := { c with store := c.store.set 0 value }

/-- Writes what fits of `values` over the first words, and shows no others. -/
def setArray (c : Cell) (values : List Nat) : Cell :=
  let written := Board.fitting c.store.length c.elementWords values
  { c with store := written ++ c.store.drop written.length, shown := written.length }

end Cell

namespace Board

def ofCapacity (eventCapacity : Nat) : Checked Board := do
  let words ← Word.mul OutOfMemory.Event.words eventCapacity
  Word.requireCapacity words 8
  return { cells := Field.all.map (.ofField eventCapacity) }

/-- What a field shows. -/
def words (b : Board) (f : Field) : List Nat := (b.cells[f.index]?).elim [] Cell.words

def isConsistent (b : Board) : Bool := b.sequence % 2 == 0

def modifyCell (b : Board) (f : Field) (write : Cell → Cell) : Board :=
  { b with cells := b.cells.modify f.index write }

/-- Writes the first word of a field. -/
def set (b : Board) (f : Field) (value : Nat) : Board := b.modifyCell f (·.set value)

def setFlag (b : Board) (f : Field) (value : Bool) : Board := b.set f (if value then 1 else 0)

def setArray (b : Board) (f : Field) (values : List Nat) : Board :=
  b.modifyCell f (·.setArray values)

/-- Begins or ends a publication. -/
def turn (b : Board) : Board := { b with sequence := b.sequence + 1 }

/-- One publication of the given writes. -/
def publish (b : Board) (write : Board → Board) : Board := (write b.turn).turn

end Board

end GenHeap.Diagnostics
