import GenHeap.Heap.Collect

/-!
Allocation. A generation over its budget is collected first, the oldest one in the background where
possible. An object takes the first free span with room, else space behind the allocation pointer,
else a new segment; if there is none, a last collection is made and all is tried once more.
-/

namespace GenHeap.Heap

/-- The generation of an object: large objects go to a space of their own, pinned ones too. -/
def targetOf (c : Config) (requested : Generation) (size : Nat) : Generation :=
  match requested with
  | .pinned => .pinned
  | .large => .large
  | g => if c.largeThreshold ≤ size then .large else g

/-- Records a failed allocation, publishes, and fails. -/
def fail {α : Type} (i : Nat) (reason : OutOfMemory.Reason) (size : Nat) (target : Generation) :
    Transition Heap α := do
  modify fun h =>
    let event : OutOfMemory.Event :=
      { time := h.clock, reason, size, generation := target, collection := h.collections }
    let h := h.modifyHeap i fun l => { l with failures := l.failures.record event }
    { h with statistics := { h.statistics with
        allocationFailures := h.statistics.allocationFailures + 1 } }.publish
  throw (.outOfMemory reason size target)

/-! ## Budgets -/

/-- Whether a generation may overrun its budget by `size` bytes while a cycle is in progress. -/
def withinOverrun (c : Config) (s : GenerationState) (size : Nat) : Bool :=
  Word.addSat s.allocated size
    ≤ Word.ofFloat (Word.toFloat s.budget * c.tuning.backgroundBudgetOverrun)

/-- The collection that an allocation in a logical heap calls for. -/
def condemned? (h : Heap) (i : Nat) (target : Generation) (size : Nat) : Option Generation :=
  (h.heaps[i]?).bind (·.budgets.condemned? target size)

/-- Collects for an allocation over budget: a full collection goes to the background, and during a
cycle some overrun is put up with. -/
def collectFor (i : Nat) (target : Generation) (size : Nat) (condemned : Generation) :
    Transition Heap Unit := do
  let h ← get
  if h.background.isSome then
    if (h.heaps[i]?).any fun l => withinOverrun h.config (l.budgets.get target) size then return
  else if condemned = .gen2 ∧ target.tier = 2 then
    if ← startBackground then return
  let _ ← collect condemned .allocationBudget

/-- Makes room in the budget. A cycle whose tracer has ended is completed first. -/
def requireBudget (i : Nat) (target : Generation) (size : Nat) : Transition Heap Unit := do
  let h ← get
  let some condemned := h.condemned? i target size | return
  if h.tracerFinished then
    let _ ← completeBackground
    let some condemned := (← get).condemned? i target size | return
    collectFor i target size condemned
  else
    collectFor i target size condemned

/-! ## Placement -/

/-- An attempt to place an object: its address and segment, or why there is no place. -/
abbrev Placement := ExceptT OutOfMemory.Reason (StateT Heap Checked) (Nat × Nat)

/-- An operation on segments, with its error for an answer. -/
def tryArena {α : Type} (i : Nat) (t : Transition SegmentArena α) :
    ExceptT OutOfMemory.Reason (StateT Heap Checked) (Except HeapError α) := fun h => do
  let (r, h) ← (onArena i t).apply h
  return (.ok r, h)

/-- The first of some segments with a free span, and the address in it. -/
def takeFree (size : Nat) (t : SegmentTable) :
    List Nat → Checked (Option (Nat × Nat × SegmentTable))
  | [] => .ok none
  | id :: rest => do
    match ← t.takeFree id size with
    | (some a, t) => return some (a, id, t)
    | (none, t) => takeFree size t rest

def expansionOf (c : Config) (l : LogicalHeap) (target : Generation) (size : Nat)
    (fragmented : Bool) (g : Growth) : Expansion :=
  let spike := c.tuning.largeSpikeRatio * Word.toFloat (l.budgets.get .large).budget
  if target = .large ∧ spike ≤ Word.toFloat size then .largeObjectSpike
  else if fragmented then .fragmentationGrowth
  else if g.reused then .reusedRegion
  else if g.newEphemeral then .newEphemeralSegment
  else if c.layout = .regions then .newRegion
  else .newSegment

def growthFailure (fragmented : Bool) : HeapError → OutOfMemory.Reason
  | .commitFailed .. => .commitFailed
  | _ => if fragmented then .fragmentation else .addressSpaceExhausted

def placeInNew (i : Nat) (target : Generation) (size : Nat) (l : LogicalHeap) : Placement := do
  let fragmented := size ≤ (← l.segments.freeBytesFor target)
  match ← tryArena i (SegmentArena.grow target size) with
  | .error e =>
    modify fun h => h.countExpansion i .noMemory
    throw (growthFailure fragmented e)
  | .ok growth =>
    modify fun h => h.countExpansion i (expansionOf h.config l target size fragmented growth)
    match ← tryArena i (SegmentArena.bump growth.segment size) with
    | .ok (some a) => return (a, growth.segment)
    | .ok none => throw .addressSpaceExhausted
    | .error _ => throw .commitFailed

def place (i : Nat) (target : Generation) (size : Nat) : Placement := do
  let h ← get
  if h.config.hardLimit.any (· < Word.addSat h.space.totalBytes size) then throw .budgetExceeded
  let some l := h.heaps[i]? | throw .addressSpaceExhausted
  if let some (a, id, segments) ← takeFree size l.segments (l.segments.candidates target) then
    set (h.modifyHeap i fun l => { l with segments })
    return (a, id)
  if let some id := l.segments.allocSegment? target then
    match ← tryArena i (SegmentArena.bump id size) with
    | .ok (some a) => return (a, id)
    | .ok none => pure ()
    | .error _ => throw .commitFailed
  placeInNew i target size l

/-- An attempt to place an object, with the reason of its failure for an answer. -/
def tryPlace (i : Nat) (target : Generation) (size : Nat) :
    Transition Heap (Except OutOfMemory.Reason (Nat × Nat)) := fun h => do
  let (r, h) ← (place i target size).run h
  return (.ok r, h)

/-- Finds a place, after a last collection if need be. -/
def placeOrCollect (i : Nat) (target : Generation) (size : Nat) : Transition Heap (Nat × Nat) := do
  match ← tryPlace i target size with
  | .ok p => return p
  | .error _ =>
    let _ ← collect .gen2 .lastBeforeOutOfMemory
    match ← tryPlace i target size with
    | .ok p => return p
    | .error reason => fail i reason size target

/-! ## Allocation -/

def newRecord (i : Nat) (request : AllocRequest) (target : Generation) (size segment : Nat) :
    Record where
  size := size
  generation := target
  heap := i
  segment := segment
  slots := List.replicate request.slots 0
  finalizable := request.finalizable
  pinned := request.pinned || target == .pinned

def install (i : Nat) (request : AllocRequest) (target : Generation) (size a segment : Nat)
    (h : Heap) : Checked Heap := do
  let space ← h.space.insert a (newRecord i request target size segment)
  let statistics ← h.statistics.recordAllocation size
  let background := h.background.map (BackgroundMark.allocateBlack · a)
  let h := { h with space, statistics, background }
  h.updateHeap i fun l => do
    let budgets ← l.budgets.charge target size
    let finalization :=
      if request.finalizable then l.finalization.register a target else l.finalization
    return { l with budgets, finalization }.publishAllocation

/-- The bytes that a request takes, if the address space can hold them. -/
def sizeOf? (h : Heap) (request : AllocRequest) : Option Nat :=
  request.effectiveSize?.filter (· ≤ h.provider.space.range.size)

/-- Allocates an object in a logical heap; answers its address. -/
def allocate (i : Nat) (request : AllocRequest) : Transition Heap Nat := do
  let h ← get
  unless i < h.config.heapCount do throw (.invalidHeap i)
  match h.sizeOf? request with
  | none =>
    fail i .addressSpaceExhausted request.size (targetOf h.config request.generation Word.largest)
  | some size =>
    let target := targetOf h.config request.generation size
    requireBudget i target size
    let (a, segment) ← placeOrCollect i target size
    set (← (← get).install i request target size a segment)
    return a

end GenHeap.Heap
