import GenHeap.Address
import GenHeap.Generation
import GenHeap.Object
import GenHeap.ObjectSpace

/-!
One segment of a heap: a reserved range, of which a part at its start is committed and a part of
that is allocated, with the free spans below the allocation pointer. `sweepPlan` computes spans and
pointer from the objects alone, so sweeping twice changes nothing.
-/

namespace GenHeap

/-- Free bytes below the allocation pointer of a segment. -/
structure FreeSpan where
  start : Nat
  size : Nat
  deriving DecidableEq, Repr

def FreeSpan.stop (s : FreeSpan) : Checked Nat := Word.add s.start s.size

/-- The block at the start of the first span with room, and the spans that are left. A rest too
small for an object is given up. -/
def FreeSpan.takeFirst? (size : Nat) : List FreeSpan → Checked (Option (Nat × List FreeSpan))
  | [] => .ok none
  | span :: rest =>
    if size ≤ span.size then
      if Object.minBytes ≤ span.size - size then do
        return some (span.start, ⟨← Word.add span.start size, span.size - size⟩ :: rest)
      else .ok (some (span.start, rest))
    else do
      return (← takeFirst? size rest).map fun (a, spans) => (a, span :: spans)

inductive SegmentKind where
  /-- of any size -/
  | segment
  /-- of the region size, or of a multiple of it -/
  | region
  deriving DecidableEq, Repr

structure Segment where
  id : Nat
  kind : SegmentKind
  range : AddressRange
  /-- the committed bytes, from the start on -/
  committed : Nat
  /-- the allocation pointer -/
  allocated : Nat
  owner : Generation
  freeSpans : List FreeSpan
  deriving DecidableEq, Repr

namespace Segment

def start (s : Segment) : Nat := s.range.start

def reservedEnd (s : Segment) : Checked Nat := s.range.stop

def committedEnd (s : Segment) : Checked Nat := Word.add s.range.start s.committed

def freeBytes (s : Segment) : Checked Nat := Word.fit (Word.total (s.freeSpans.map (·.size)))

/-- The bytes below the allocation pointer. -/
def usedBytes (s : Segment) : Checked Nat := Word.sub s.allocated s.start

/-- The bytes behind the allocation pointer. -/
def remaining (s : Segment) : Checked Nat := do
  Word.sub (← s.reservedEnd) s.allocated

def contains (s : Segment) (a : Nat) : Checked Bool := s.range.contains a

/-- Sets allocation pointer and free spans; the pointer must lie in the committed part. -/
def reset (s : Segment) (allocated : Nat) (freeSpans : List FreeSpan) : Checked Segment := do
  if allocated < s.start then throw .outsideSegment
  if (← s.committedEnd) < allocated then throw .outsideSegment
  return { s with allocated, freeSpans }

structure SweepPlan where
  /-- the end of the last object -/
  allocated : Nat
  /-- the gaps between objects that an object fits in -/
  freeSpans : List FreeSpan
  liveBytes : Nat
  deriving DecidableEq, Repr

/-- The gap up to an object, if it is large enough to be used. -/
def gapBefore (cursor a : Nat) : List FreeSpan :=
  if Object.minBytes ≤ a - cursor then [⟨cursor, a - cursor⟩] else []

/-- Passes over objects in ascending order, with a cursor at the end of those passed. -/
def sweepObjects (cursor : Nat) : List (Nat × Record) → Checked SweepPlan
  | [] => .ok ⟨cursor, [], 0⟩
  | (a, r) :: rest => do
    let plan ← sweepObjects (max cursor (← Word.add a r.size)) rest
    return { plan with
      freeSpans := gapBefore cursor a ++ plan.freeSpans
      liveBytes := r.size + plan.liveBytes }

/-- Free spans and allocation pointer as the objects of the segment have them. -/
def sweepPlan (s : Segment) (space : ObjectSpace) : Checked SweepPlan := do
  sweepObjects s.start (← space.startingIn s.start s.allocated)

/-- The segment after a sweep, and what the sweep found. -/
def rebuild (s : Segment) (space : ObjectSpace) : Checked (SweepPlan × Segment) := do
  let plan ← s.sweepPlan space
  return (plan, ← s.reset plan.allocated plan.freeSpans)

end Segment

end GenHeap
