import GenHeap.Address
import GenHeap.Generation
import GenHeap.SwapErase

/-!
The finalization queue of one heap. Registered objects wait in a bucket per generation, in the
order of registration. An object found unreachable moves to the ready list, from there to the
running objects while its finalizer runs, and is forgotten then.
-/

namespace GenHeap

structure FinalizableEntry where
  object : Nat
  generation : Generation
  deriving DecidableEq, Repr

structure FinalizationQueue where
  pending : PerGeneration (List FinalizableEntry) := .const []
  ready : List FinalizableEntry := []
  running : List Nat := []
  /-- how many entries were ever registered, suppressed and made ready -/
  registered : Nat := 0
  suppressed : Nat := 0
  madeReady : Nat := 0
  deriving DecidableEq, Repr

namespace FinalizationQueue

def register (q : FinalizationQueue) (object : Nat) (g : Generation) : FinalizationQueue :=
  { q with
    pending := q.pending.modify g (· ++ [⟨object, g⟩])
    registered := q.registered + 1 }

/-- The first bucket with an entry for an object. -/
def bucketOf? (q : FinalizationQueue) (object : Nat) : Option Generation :=
  Generation.all.find? fun g => (q.pending.get g).any (·.object == object)

def isRegistered (q : FinalizationQueue) (object : Nat) : Bool := (q.bucketOf? object).isSome

/-- Takes the first registration of an object back, if it has one. -/
def suppress (q : FinalizationQueue) (object : Nat) : FinalizationQueue :=
  match q.bucketOf? object with
  | none => q
  | some g => { q with
      pending := q.pending.modify g (·.eraseP (·.object == object))
      suppressed := q.suppressed + 1 }

/-- The entries that a collection makes ready, bucket by bucket. -/
def unreachable (q : FinalizationQueue) (condemned : Generation) (live : Nat → Bool) :
    List FinalizableEntry :=
  (Generation.all.filter (·.condemnedBy condemned)).flatMap fun g =>
    (q.pending.get g).filter (!live ·.object)

/-- Moves the entries of dead objects in the condemned buckets to the end of the ready list. -/
def scanUnreachable (q : FinalizationQueue) (condemned : Generation) (live : Nat → Bool) :
    FinalizationQueue :=
  let dead := q.unreachable condemned live
  { q with
    pending := .ofFn fun g =>
      if g.condemnedBy condemned then (q.pending.get g).filter (live ·.object) else q.pending.get g
    ready := q.ready ++ dead
    madeReady := q.madeReady + dead.length }

/-- Buckets in the order in which they are sorted anew, older entries before younger ones. -/
def sortOrder : List Generation := [.gen2, .gen1, .gen0, .large, .pinned]

/-- Puts each entry into the bucket of its object's generation; an object of none keeps its own. -/
def syncGenerations (q : FinalizationQueue) (generationOf : Nat → Option Generation) :
    FinalizationQueue :=
  let entries := (sortOrder.flatMap q.pending.get).map fun e =>
    { e with generation := (generationOf e.object).getD e.generation }
  { q with pending := .ofFn fun g => entries.filter (·.generation == g) }

def relocate (q : FinalizationQueue) (forward : Nat → Nat) : FinalizationQueue :=
  let move (e : FinalizableEntry) : FinalizableEntry := { e with object := forward e.object }
  { q with
    pending := q.pending.map (·.map move)
    ready := q.ready.map move
    running := q.running.map forward }

/-- The objects that the queue keeps alive: ready ones and running ones. -/
def roots (q : FinalizationQueue) : List Nat := q.ready.map (·.object) ++ q.running

/-- Takes up to `limit` entries from the ready list; their objects are running then. -/
def takeReady (q : FinalizationQueue) (limit : Nat) :
    List FinalizableEntry × FinalizationQueue :=
  let batch := q.ready.take limit
  (batch, { q with ready := q.ready.drop limit, running := q.running ++ batch.map (·.object) })

/-- Forgets one running occurrence of an object. -/
def finishRunning (q : FinalizationQueue) (object : Nat) : FinalizationQueue :=
  match q.running.idxOf? object with
  | none => q
  | some i => { q with running := swapErase q.running i }

def pendingCount (q : FinalizationQueue) (g : Generation) : Nat := (q.pending.get g).length

def totalPending (q : FinalizationQueue) : Nat := Word.total (q.pending.toList.map List.length)

def readyCount (q : FinalizationQueue) : Nat := q.ready.length

end FinalizationQueue

end GenHeap
