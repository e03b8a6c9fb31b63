import GenHeap.Address
import Std.Data.TreeSet

/-!
Card tables. The covered range is divided into cards of one size, a power of two, and the table
holds the set of dirty cards and, beside it, their number. `dirtyRuns` lists that set as maximal
runs of neighbours.
-/

namespace GenHeap

structure CardTable where
  base : Nat
  covered : Nat
  cardSize : Nat
  dirty : Std.TreeSet Nat := ∅
  /-- how often a clean card became dirty, less how often a dirty one became clean -/
  dirtyCount : Nat := 0

namespace CardTable

def ofRange (range : AddressRange) (cardSize : Nat) : Checked CardTable := do
  unless Word.isPowerOfTwo cardSize do throw .alignment
  Word.requireCapacity (Word.pieces range.size cardSize) 1
  return { base := range.start, covered := range.size, cardSize }

/-- The number of cards; the last one may be covered in part. -/
def count (t : CardTable) : Nat := Word.pieces t.covered t.cardSize

def index? (t : CardTable) (a : Nat) : Option Nat :=
  if a < t.base ∨ t.covered ≤ a - t.base then none else some ((a - t.base) / t.cardSize)

/-- The first address of a card and the first one behind it. -/
def bounds (t : CardTable) (card : Nat) : Checked (Nat × Nat) := do
  let start ← Word.add t.base (card * t.cardSize % Word.count)
  return (start, ← Word.add start t.cardSize)

def isCardDirty (t : CardTable) (card : Nat) : Bool := t.dirty.contains card

def isDirty (t : CardTable) (a : Nat) : Bool := (t.index? a).any t.isCardDirty

/-- Makes the card of an address dirty, if it is covered. -/
def mark (t : CardTable) (a : Nat) : CardTable :=
  match t.index? a with
  | none => t
  | some card =>
    if t.isCardDirty card then t
    else { t with dirty := t.dirty.insert card, dirtyCount := t.dirtyCount + 1 }

/-- Whether marking an address makes a clean card dirty. -/
def isNews (t : CardTable) (a : Nat) : Bool := (t.index? a).any (!t.isCardDirty ·)

def dirtyCards (t : CardTable) : List Nat := t.dirty.toList

/-- The dirty cards from that of `start` to that of the last address before `stop`; to the end of
the table where that address is not covered. Nothing for an uncovered start. -/
def dirtyIn (t : CardTable) (start stop : Nat) : List Nat :=
  match t.index? start with
  | none => []
  | some first =>
    let last := (t.index? (stop - 1)).getD (t.count - 1)
    t.dirtyCards.filter fun card => first ≤ card && card ≤ last

/-- Makes a card clean. -/
def clear (t : CardTable) (card : Nat) : CardTable :=
  if t.isCardDirty card then
    { t with dirty := t.dirty.erase card, dirtyCount := t.dirtyCount - 1 }
  else t

def clearIn (t : CardTable) (start stop : Nat) : CardTable :=
  (t.dirtyIn start stop).foldl clear t

def clearAll (t : CardTable) : CardTable := { t with dirty := ∅, dirtyCount := 0 }

/-- Ascending numbers as maximal runs, each from its first number to the one behind its last. -/
def runs : List Nat → List (Nat × Nat)
  | [] => []
  | n :: rest =>
    match runs rest with
    | (first, stop) :: more =>
      if first = n + 1 then (n, stop) :: more else (n, n + 1) :: (first, stop) :: more
    | [] => [(n, n + 1)]

def dirtyRuns (t : CardTable) : List (Nat × Nat) := runs t.dirtyCards

def dirtyRatio (cards dirty : Nat) : Float := Word.ratio dirty cards

end CardTable

end GenHeap
