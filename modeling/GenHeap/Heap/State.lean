import GenHeap.BackgroundMark
import GenHeap.Budget
import GenHeap.Counters
import GenHeap.Diagnostics.Board
import GenHeap.FinalizationQueue
import GenHeap.HandleTable
import GenHeap.Marking
import GenHeap.SegmentTable
import GenHeap.Statistics

/-!
The state of a heap. Objects, handles and card tables are shared; budgets, segments, finalization
queues and records of failures belong to one of the logical heaps, into which objects are allocated
independently.
-/

namespace GenHeap

open Diagnostics (Board Capabilities)

structure LogicalHeap where
  budgets : BudgetTable
  segments : SegmentTable
  finalization : FinalizationQueue := {}
  /-- the latest failed allocations -/
  failures : OutOfMemory.History
  counters : Counters := {}
  /-- the roots that the last analysis found in this heap -/
  internalRoots : List Nat := []
  /-- whether the last analysis found no broken reference -/
  analysisSucceeded : Bool := false
  /-- start and allocation pointer of the ephemeral segment when the background cycle began -/
  savedEphemeral : Option (Nat × Nat) := none
  board : Board

namespace LogicalHeap

def ofConfig (c : Config) : Checked LogicalHeap := do
  return {
    budgets := .ofConfig c
    segments := .ofConfig c
    failures := ← OutOfMemory.History.empty c.oomHistoryCapacity
    board := ← Board.ofCapacity c.oomHistoryCapacity }

def ephemeral? (l : LogicalHeap) : Option Segment := l.segments.ephemeral.bind l.segments.find?

/-- Where the youngest generation allocates next, zero without a segment. -/
def allocationPointer (l : LogicalHeap) : Nat :=
  (((l.segments.allocSegment? .gen0).bind l.segments.find?).map (·.allocated)).getD 0

/-- The start of the ephemeral segment, zero without one. -/
def ephemeralStart (l : LogicalHeap) : Nat := (l.ephemeral?.map (·.start)).getD 0

end LogicalHeap

structure Heap where
  config : Config
  provider : Provider
  /-- cards with references from older to younger objects -/
  cards : CardTable
  /-- cards written during a background cycle -/
  writeWatch : CardTable
  /-- whether writes are watched -/
  watching : Bool := false
  space : ObjectSpace := {}
  heaps : List LogicalHeap
  handles : HandleTable := {}
  /-- how far the last marking in a pause got -/
  pausePhase : MarkPhase := .idle
  background : Option BackgroundMark := none
  sweeper : Sweeper := {}
  /-- the collections begun so far -/
  collections : Nat := 0
  statistics : Statistics := {}
  last : Option CollectionSummary := none
  /-- nanoseconds since the start of 1970, UTC -/
  clock : Int := 0

namespace Heap

def capabilities (h : Heap) : Capabilities := .ofConfig h.config

def phase (h : Heap) : MarkPhase := (h.background.map (·.phase)).getD h.pausePhase

def fetchHeap (h : Heap) (i : Nat) : Except HeapError LogicalHeap :=
  match h.heaps[i]? with
  | some l => .ok l
  | none => .error (.invalidHeap i)

def modifyHeap (h : Heap) (i : Nat) (f : LogicalHeap → LogicalHeap) : Heap :=
  { h with heaps := h.heaps.modify i f }

def modifyHeaps (h : Heap) (f : LogicalHeap → LogicalHeap) : Heap :=
  { h with heaps := h.heaps.map f }

/-- Changes a logical heap by a computation that may fault. -/
def updateHeap (h : Heap) (i : Nat) (f : LogicalHeap → Checked LogicalHeap) : Checked Heap :=
  match h.heaps[i]? with
  | none => .ok h
  | some l => do return { h with heaps := h.heaps.set i (← f l) }

def count (h : Heap) (i : Nat) (p : DataPoint) (amount : Nat) : Checked Heap :=
  h.updateHeap i fun l => do return { l with counters := ← l.counters.add p amount }

def countExpansion (h : Heap) (i : Nat) (x : Expansion) : Heap :=
  h.modifyHeap i fun l => { l with counters := l.counters.recordExpansion x }

def countMechanism (h : Heap) (m : Mechanism) : Heap :=
  h.modifyHeaps fun l => { l with counters := l.counters.recordMechanism m }

/-- An operation on the segments of a logical heap and their provider. -/
def onArena {α : Type} (i : Nat) (t : Transition SegmentArena α) : Transition Heap α := do
  let l ← Transition.ofExcept ((← get).fetchHeap i)
  t.onPart (fun h => { table := l.segments, provider := h.provider })
    fun arena h =>
      { h.modifyHeap i fun l => { l with segments := arena.table } with provider := arena.provider }

/-- What keeps objects alive: handles, and finalizers that are ready or running. -/
def roots (h : Heap) : List Nat :=
  h.handles.roots ++ h.heaps.flatMap (·.finalization.roots)

/-- The start and the allocation pointer of every segment. -/
def ranges (h : Heap) : List (Nat × Nat) := h.heaps.flatMap (·.segments.ranges)

def tables (h : Heap) : List SegmentTable := h.heaps.map (·.segments)

end Heap

end GenHeap
