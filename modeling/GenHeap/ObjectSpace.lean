import GenHeap.Object
import Std.Data.TreeMap

/-!
The objects of all heaps, ordered by address, with their total size.

`entries` is the view: the pairs of address and record in ascending order. `overlapping` looks at
one predecessor only, which is enough where objects do not overlap.
-/

namespace GenHeap

structure ObjectSpace where
  objects : Std.TreeMap Nat Record := ∅
  totalBytes : Nat := 0
  /-- whether an object was ever inserted; before that a range is not even looked at -/
  touched : Bool := false

namespace ObjectSpace

def empty : ObjectSpace := {}

/-- The objects in ascending order of their addresses. -/
def entries (s : ObjectSpace) : List (Nat × Record) := s.objects.toList

def get? (s : ObjectSpace) (a : Nat) : Option Record := s.objects[a]?

def contains (s : ObjectSpace) (a : Nat) : Bool := s.objects.contains a

def count (s : ObjectSpace) : Nat := s.objects.size

def isEmpty (s : ObjectSpace) : Bool := s.objects.isEmpty

/-- The size of the object at an address, zero if there is none. -/
def sizeAt (s : ObjectSpace) (a : Nat) : Nat := (s.get? a).elim 0 Record.size

/-- Puts an object at an address, in place of one that starts there. -/
def insert (s : ObjectSpace) (a : Nat) (r : Record) : Checked ObjectSpace := do
  let total ← Word.add s.totalBytes r.size
  return { objects := s.objects.insert a r, totalBytes := total - s.sizeAt a, touched := true }

def erase (s : ObjectSpace) (a : Nat) : ObjectSpace :=
  { s with objects := s.objects.erase a, totalBytes := s.totalBytes - s.sizeAt a }

/-- Changes the record at an address; `f` keeps its size. -/
def update (s : ObjectSpace) (a : Nat) (f : Record → Record) : ObjectSpace :=
  { s with objects := s.objects.modify a f }

/-- Changes every record; `f` keeps their sizes. -/
def mapRecords (s : ObjectSpace) (f : Nat → Record → Record) : ObjectSpace :=
  { s with objects := s.objects.map f }

/-- The objects that start from `start` on and before `stop`. -/
def startingIn (s : ObjectSpace) (start stop : Nat) : Checked (List (Nat × Record)) :=
  if s.touched && stop < start then .error .reversedRange
  else .ok (s.entries.filter fun (a, _) => start ≤ a && a < stop)

/-- The last object that starts before an address. -/
def predecessor? (s : ObjectSpace) (a : Nat) : Option (Nat × Record) :=
  (s.entries.filter fun (b, _) => b < a).getLast?

/-- The last object that starts before an address, if it extends beyond that address. -/
def straddling (s : ObjectSpace) (a : Nat) : Checked (List Nat) :=
  match s.predecessor? a with
  | none => .ok []
  | some (b, r) => do return if a < (← Word.add b r.size) then [b] else []

/-- The addresses of the objects that reach into the range: the last one before it, if it extends
beyond `start`, and those that start inside. -/
def overlapping (s : ObjectSpace) (start stop : Nat) : Checked (List Nat) := do
  let before ← s.straddling start
  let inside ← s.startingIn start stop
  return before ++ inside.map (·.1)

/-- The objects that satisfy `p`, and the space without them. -/
def removeWhere (s : ObjectSpace) (p : Nat → Record → Bool) :
    List (Nat × Record) × ObjectSpace :=
  let gone := s.entries.filter fun (a, r) => p a r
  (gone, { s with
    objects := s.objects.filter fun a r => !p a r
    totalBytes := s.totalBytes - Word.total (gone.map (·.2.size)) })

def clearMarks (s : ObjectSpace) : ObjectSpace :=
  s.mapRecords fun _ r => { r with marked := false }

def slotCount (s : ObjectSpace) : Nat := Word.total (s.entries.map (·.2.slots.length))

end ObjectSpace

end GenHeap
