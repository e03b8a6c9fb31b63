import GenHeap.Heap.Publication
import GenHeap.HeapCheck

/-!
What the embedder does with objects between collections: reading and writing slots, handles,
registering for finalization, and questions about objects. A write is refused unless object, slot
and target exist; it makes the card of the slot dirty if the target is younger, and is noted in the
write watch during a background cycle.
-/

namespace GenHeap

structure ObjectInfo where
  address : Nat
  size : Nat
  generation : Generation
  heap : Nat
  segment : Nat
  slots : Nat
  finalizable : Bool
  pinned : Bool
  deriving DecidableEq, Repr

namespace Heap

def fetchObject (h : Heap) (a : Nat) : Except HeapError Record :=
  match h.space.get? a with
  | some r => .ok r
  | none => .error (.invalidAddress a)

/-- Refuses an address that is neither zero nor that of an object. -/
def requireTarget (h : Heap) (a : Nat) : Except HeapError Unit :=
  if a = 0 ∨ h.space.contains a then .ok () else .error (.invalidAddress a)

/-- Whether a slot of an object of generation `g` that holds `target` refers to a younger object. -/
def isYounger (space : ObjectSpace) (g : Generation) (target : Nat) : Bool :=
  target != 0 && (space.get? target).any (·.generation.tier < g.tier)

/-- Stores a reference, or nothing if the target is zero. -/
def writeSlot (object slot target : Nat) : Transition Heap Unit := do
  let h ← get
  Transition.ofExcept (h.requireTarget target)
  let r ← Transition.ofExcept (h.fetchObject object)
  unless slot < r.slots.length do throw (.invalidSlot object slot)
  let space := h.space.update object fun r => { r with slots := r.slots.set slot target }
  let address ← Object.slotAddress object slot
  let cards := if isYounger h.space r.generation target then h.cards.mark address else h.cards
  let writeWatch := if h.watching then h.writeWatch.mark address else h.writeWatch
  set { h with space, cards, writeWatch }

def readSlot (h : Heap) (object slot : Nat) : Except HeapError (Option Nat) := do
  match (← h.fetchObject object).slots[slot]? with
  | none => .error (.invalidSlot object slot)
  | some target => return if target = 0 then none else some target

def createHandle (kind : HandleKind) (target : Nat) : Transition Heap Nat := do
  let h ← get
  Transition.ofExcept (h.requireTarget target)
  let (id, handles) ← h.handles.create kind target
  set { h with handles }
  return id

def freeHandle (id : Nat) : Transition Heap Unit := do
  let h ← get
  set { h with handles := ← Transition.ofExcept (h.handles.release id) }

def handleTarget (h : Heap) (id : Nat) : Except HeapError (Option Nat) := h.handles.target id

/-- The target of a handle, or what slots lead to from there; zero behind an empty one. -/
def follow (h : Heap) (id : Nat) (slots : List Nat) : Except HeapError Nat := do
  slots.foldlM (fun a slot => return (← h.readSlot a slot).getD 0) ((← h.handleTarget id).getD 0)

/-- Makes an object finalizable, and registers it unless it is registered. -/
def registerForFinalization (object : Nat) : Transition Heap Unit := do
  let h ← get
  let r ← Transition.ofExcept (h.fetchObject object)
  set ({ h with space := h.space.update object fun r => { r with finalizable := true } }.modifyHeap
    r.heap fun l =>
      if l.finalization.isRegistered object then l
      else { l with finalization := l.finalization.register object r.generation })

/-- Makes an object not finalizable; answers whether it was registered. -/
def suppressFinalization (object : Nat) : Transition Heap Bool := do
  let h ← get
  let r ← Transition.ofExcept (h.fetchObject object)
  set ({ h with space := h.space.update object fun r => { r with finalizable := false } }.modifyHeap
    r.heap fun l => { l with finalization := l.finalization.suppress object })
  return (h.heaps[r.heap]?).any (·.finalization.isRegistered object)

def info? (h : Heap) (a : Nat) : Option ObjectInfo :=
  (h.space.get? a).map fun r => {
    address := a, size := r.size, generation := r.generation, heap := r.heap
    segment := r.segment, slots := r.slots.length, finalizable := r.finalizable
    pinned := r.pinned }

/-- The objects that start at `start` or a whole number of words behind it, in front of a limit. -/
def scan (h : Heap) (start length : Nat) : List ObjectInfo :=
  (List.range ((length + 7) / 8)).filterMap fun i => h.info? (start + 8 * i)

def isAlive (h : Heap) (a : Nat) : Bool := h.space.contains a

/-- The first roots that name objects of a logical heap, as many as a board has room for. -/
def rootsIn (h : Heap) (i : Nat) : List Nat :=
  (h.roots.filter fun a => (h.space.get? a).any (·.heap == i)).take Diagnostics.maxInternalRoots

/-- Walks the heap from its roots and publishes what it found. -/
def analyze : Transition Heap HeapAnalysis := do
  let h ← get
  let analysis := HeapAnalysis.ofRoots h.space h.roots Diagnostics.maxInternalRoots
  let heaps := h.heaps.mapIdx fun i l =>
    { l with internalRoots := h.rootsIn i, analysisSucceeded := analysis.success }
  set { h with heaps }.publish
  return analysis

end Heap

end GenHeap
