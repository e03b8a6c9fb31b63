import GenHeap.Heap.Reclaim

/-!
Background cycles. A cycle begins with the roots of the moment and watches every write from then
on; the tracer runs between operations of the embedder; the cycle ends in a pause that traces from
the written cards and frees what was not reached, or is given up and leaves nothing behind.
-/

namespace GenHeap.Heap

/-- The lowest start and the highest allocation pointer of all segments, zero without any. -/
def cycleBounds (h : Heap) : Nat × Nat :=
  match h.tables.filterMap SegmentTable.bounds? with
  | [] => (0, 0)
  | b :: bs => bs.foldl (fun (low, high) (l, r) => (min low l, max high r)) b

def canStartCycle (h : Heap) : Bool := h.config.concurrent && h.background.isNone

def beginCycle (h : Heap) : Heap :=
  let (low, high) := h.cycleBounds
  let cycle := { BackgroundMark.ofRoots low high h.roots with phase := .trace }
  let h := h.modifyHeaps fun l =>
    { l with savedEphemeral := l.ephemeral?.map fun s => (s.start, s.allocated) }
  { h with
    writeWatch := h.writeWatch.clearAll
    watching := true
    sweeper := { h.sweeper with next := low }
    pausePhase := .trace
    background := some cycle }.publish

/-- Begins a cycle, unless there is one or cycles are not wanted. Answers whether it did. -/
def startBackground : Transition Heap Bool := do
  let h ← get
  unless h.canStartCycle do return false
  set h.beginCycle
  return true

def trace (h : Heap) : Heap :=
  let run := BackgroundMark.run h.space h.config.tuning.backgroundChunk
  { h with background := h.background.map run }

def traceStep (h : Heap) : Heap :=
  let step := BackgroundMark.step h.space h.config.tuning.backgroundChunk
  { h with background := h.background.map step }

/-- Whether there is a cycle whose tracer has ended. -/
def tracerFinished (h : Heap) : Bool := h.background.any (·.finished)

/-- Gives up the cycle in progress, if there is one. -/
def discardCycle (h : Heap) : Heap :=
  match h.background with
  | none => h
  | some _ =>
    let h := (h.countMechanism .backgroundAborted).modifyHeaps fun l =>
      { l with savedEphemeral := none }
    { h with
      background := none
      watching := false
      writeWatch := h.writeWatch.clearAll
      statistics := { h.statistics with backgroundAborts := h.statistics.backgroundAborts + 1 }
      pausePhase := .idle
      sweeper := { h.sweeper with next := 0 } }

/-- Gives up the cycle in progress; answers whether there was one. -/
def abortBackground : Transition Heap Bool := do
  let h ← get
  unless h.background.isSome do return false
  set h.discardCycle.publish
  return true

def mechanismOf : CollectionReason → Option Mechanism
  | .induced | .inducedCompacting => some .induced
  | .lastBeforeOutOfMemory => some .lastBeforeOutOfMemory
  | _ => none

/-- Records a collection that is over, and publishes. -/
def finishCollection (summary : CollectionSummary) (h : Heap) : Checked Heap := do
  let h := match mechanismOf summary.reason with
    | some m => h.countMechanism m
    | none => h
  let h := if summary.background then h.countMechanism .background else h
  let statistics ← h.statistics.recordCollection summary
  return { h with statistics, last := some summary, pausePhase := .idle }.publish

/-- The entries that become ready in all logical heaps, and the heap with them ready. -/
def scanFinalizable (condemned : Generation) (live : Nat → Bool) (h : Heap) :
    List Nat × Heap :=
  (h.heaps.flatMap fun l => (l.finalization.unreachable condemned live).map (·.object),
   h.modifyHeaps fun l =>
    { l with finalization := l.finalization.scanUnreachable condemned live })

/-- The end of marking in the pause that ends a cycle; answers the summary so far. -/
def finishMarking (cycle : BackgroundMark) (h : Heap) :
    Checked (CollectionSummary × BackgroundMark × Heap) := do
  let (cards, cycle) ←
    BackgroundMark.finishUnderPause h.space cycle h.roots h.writeWatch h.ranges
  let (revived, h) := h.scanFinalizable .gen2 cycle.isLive
  let cycle := BackgroundMark.traceToClosure h.space cycle revived
  let summary : CollectionSummary := {
    index := h.collections, condemned := .gen2, reason := .background, background := true
    cardsScanned := cards, finalizersReady := revived.length }
  return (summary, cycle, { h with writeWatch := h.writeWatch.clearAll })

def stopCycle (h : Heap) : Heap := { h with
  background := none, watching := false, pausePhase := .finalPause
  collections := h.collections + 1 }

/-- Ends the cycle in progress, if there is one: waits for the tracer, then frees what it did not
reach. -/
def completeBackground : Transition Heap (Option CollectionSummary) := do
  let h := (← get).trace
  let some cycle := h.background | return none
  let (summary, cycle, h) ← h.stopCycle.finishMarking cycle
  set h
  let summary ← reclaim .gen2 (fun a _ => cycle.isLive a) false none summary
  modify fun h => { h with sweeper := { h.sweeper with next := cycle.high } }.modifyHeaps fun l =>
    { l with savedEphemeral := none }
  set (← (← get).finishCollection summary)
  return some summary

end GenHeap.Heap
