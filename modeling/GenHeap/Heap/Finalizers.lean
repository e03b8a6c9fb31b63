import GenHeap.Heap.Allocate

/-!
Running finalizers, and the end of a heap. All ready objects are taken at once and stay alive and
in place while their finalizers run, one after the other; a finalizer may use the heap. One that
fails or crashes is reported and does not keep the others from running.
-/

namespace GenHeap

/-- How a finalizer ends. -/
inductive FinalizerOutcome where
  | done
  | failed (message : String)
  /-- it crashed, with a text or with something else -/
  | crashed (payload : Option String)
  deriving DecidableEq, Repr

namespace FinalizerOutcome

/-- What went wrong, if anything did. -/
def fault? : FinalizerOutcome → Option String
  | done => none
  | failed message => some message
  | crashed payload => some (payload.getD "finalizer panicked")

end FinalizerOutcome

structure FinalizerReport where
  /-- the finalizers that went well -/
  ran : Nat := 0
  /-- what went wrong with the others -/
  faults : List HeapError := []
  deriving DecidableEq, Repr

namespace FinalizerReport

def add (r : FinalizerReport) (e : FinalizableEntry) (outcome : FinalizerOutcome) :
    FinalizerReport :=
  match outcome.fault? with
  | none => { r with ran := r.ran + 1 }
  | some message => { r with faults := r.faults ++ [.finalizerFault e.object message] }

end FinalizerReport

namespace Heap

/-- Takes all ready entries, heap by heap; their objects are running then. -/
def takeReady (h : Heap) : List (Nat × FinalizableEntry) × Heap :=
  let batch := (h.heaps.mapIdx fun i l => l.finalization.ready.map fun e => (i, e)).flatten
  (batch, h.modifyHeaps fun l =>
    { l with finalization := (l.finalization.takeReady l.finalization.readyCount).2 })

def finishReady (batch : List (Nat × FinalizableEntry)) (r : FinalizerReport) (h : Heap) : Heap :=
  let h := batch.foldl (fun h (i, e) => h.modifyHeap i fun l =>
    { l with finalization := l.finalization.finishRunning e.object }) h
  { h with statistics := { h.statistics with
      finalizersRun := h.statistics.finalizersRun + r.ran
      finalizerFaults := h.statistics.finalizerFaults + r.faults.length } }.publish

/-- Runs the finalizers of a batch, one after the other. -/
def runBatch {m : Type → Type} [Monad m] (run : FinalizableEntry → m FinalizerOutcome)
    (batch : List (Nat × FinalizableEntry)) : m FinalizerReport :=
  batch.foldlM (fun r (_, e) => return r.add e (← run e)) {}

/-- Runs all ready finalizers of a heap inside a state `σ`; each may change all of that state. -/
def runFinalizers {σ : Type} {m : Type → Type} [Monad m] (heap : σ → Heap)
    (setHeap : Heap → σ → σ) (run : FinalizableEntry → StateT σ m FinalizerOutcome) :
    StateT σ m FinalizerReport := do
  let (batch, h) := (heap (← get)).takeReady
  modify (setHeap h)
  let report ← runBatch run batch
  modify fun s => setHeap (finishReady batch report (heap s)) s
  return report

/-- Gives all memory back; a cycle in progress is given up. -/
def shutdown : Transition Heap Unit := do
  modify discardCycle
  (List.range (← get).heaps.length).forM fun i => onArena i SegmentArena.releaseAll
  modify fun h => { h with space := {} }

end Heap

end GenHeap
