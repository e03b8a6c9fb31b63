import GenHeap.SegmentTable
import GenHeap.Worklist
import Std.Data.TreeSet

/-!
Checks on a heap as a whole: that objects and segments agree, and what is reachable from roots.
-/

namespace GenHeap

inductive Violation where
  | overlap (object previousEnd : Nat)
  | unknownHeap (object heap : Nat)
  | releasedSegment (object segment : Nat)
  | outsideSegment (object stop segment start allocated : Nat)
  | danglingSlot (object target : Nat)
  deriving DecidableEq, Repr

def Violation.text : Violation → String
  | overlap object previousEnd =>
    "object " ++ Address.text object ++ " overlaps the previous object ending at "
      ++ Address.text previousEnd
  | unknownHeap object heap =>
    "object " ++ Address.text object ++ " names unknown heap " ++ toString heap
  | releasedSegment object segment =>
    "object " ++ Address.text object ++ " names a released segment " ++ toString segment
  | outsideSegment object stop segment start allocated =>
    "object " ++ Address.text object ++ ".." ++ Address.text stop ++ " lies outside segment "
      ++ toString segment ++ " (" ++ Address.text start ++ ".." ++ Address.text allocated ++ ")"
  | danglingSlot object target =>
    "object " ++ Address.text object ++ " references " ++ Address.text target
      ++ ", which is not a live object"

namespace HeapCheck

/-- Checks one object that follows an object ending at `previousEnd`; answers its end. -/
def object (space : ObjectSpace) (tables : List SegmentTable) (previousEnd a : Nat) (r : Record) :
    Checked (Except Violation Nat) := do
  if a < previousEnd then return .error (.overlap a previousEnd)
  let stop ← Word.add a r.size
  let some table := tables[r.heap]? | return .error (.unknownHeap a r.heap)
  let some s := table.find? r.segment | return .error (.releasedSegment a r.segment)
  if a < s.start ∨ s.allocated < stop then
    return .error (.outsideSegment a stop r.segment s.start s.allocated)
  match r.references.find? (!space.contains ·) with
  | some target => return .error (.danglingSlot a target)
  | none => return .ok stop

def objects (space : ObjectSpace) (tables : List SegmentTable) (previousEnd : Nat) :
    List (Nat × Record) → Checked (Except Violation Unit)
  | [] => .ok (.ok ())
  | (a, r) :: rest => do
    match ← object space tables previousEnd a r with
    | .error v => return .error v
    | .ok stop => objects space tables stop rest

/-- The first violation in the whole space, if there is one. -/
def verify (space : ObjectSpace) (tables : List SegmentTable) : Checked (Except Violation Unit) :=
  objects space tables 0 space.entries

end HeapCheck

structure HeapAnalysis where
  /-- whether every reached address names an object -/
  success : Bool := true
  /-- the first of the roots -/
  roots : List Nat := []
  rootCount : Nat := 0
  reachableObjects : Nat := 0
  reachableBytes : Nat := 0
  unreachableObjects : Nat := 0
  /-- the address without an object that was met last -/
  dangling : Option Nat := none
  deriving DecidableEq, Repr

namespace HeapAnalysis

def error? (h : HeapAnalysis) : Option String :=
  h.dangling.map fun a => "dangling reference to " ++ Address.text a

def visit (space : ObjectSpace) (p : Std.TreeSet Nat × HeapAnalysis) (a : Nat) :
    (Std.TreeSet Nat × HeapAnalysis) × List Nat :=
  let (seen, h) := p
  if seen.contains a then ((seen, h), [])
  else
    match space.get? a with
    | none => ((seen.insert a, { h with success := false, dangling := some a }), [])
    | some r =>
      ((seen.insert a, { h with
        reachableObjects := h.reachableObjects + 1
        reachableBytes := h.reachableBytes + r.size }), r.references)

/-- Walks the objects reachable from the roots and keeps the first `limit` roots. -/
def ofRoots (space : ObjectSpace) (roots : List Nat) (limit : Nat) : HeapAnalysis :=
  let start : HeapAnalysis := { roots := roots.take limit, rootCount := roots.length }
  let (_, h) := Worklist.drain (visit space) (roots.length + space.slotCount) (∅, start)
    (Worklist.add [] roots)
  { h with unreachableObjects := space.count - h.reachableObjects }

end HeapAnalysis

end GenHeap
