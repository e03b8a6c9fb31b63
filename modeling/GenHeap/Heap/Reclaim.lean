import GenHeap.Heap.Mutator

/-!
What follows marking in every collection: weak handles are cleared, dead objects removed, segments
swept and perhaps compacted, budgets tuned, survivors promoted, empty segments given back, and the
cards of references to younger objects made dirty anew. The heap is checked at the end.
-/

namespace GenHeap

structure Survival where
  /-- surviving bytes of each condemned generation -/
  survived : PerGeneration Nat
  /-- bytes freed in each generation -/
  freed : PerGeneration Nat
  objects : Nat
  pinnedObjects : Nat

namespace Survival

/-- The share of a generation's bytes that survived, zero for an empty one. -/
def rate (s : Survival) (g : Generation) : Float :=
  Word.ratio (s.survived.get g) (s.survived.get g + s.freed.get g)

def bytesOf (objects : List (Nat × Record)) (g : Generation) : Nat :=
  Word.total ((objects.filter (·.2.generation == g)).map (·.2.size))

end Survival

namespace Heap

/-- Removes the objects that are not live and charges them off; answers them. -/
def sweepDead (live : Nat → Record → Bool) (h : Heap) : List (Nat × Record) × Heap :=
  let (gone, sweeper, space) := h.sweeper.sweep h.space fun a r => !live a r
  let h := gone.foldl (fun h (_, r) => h.modifyHeap r.heap fun l =>
    { l with budgets := l.budgets.discharge r.generation r.size }) h
  (gone, { h with sweeper, space })

def rebuildSegments (h : Heap) : Checked Heap := do
  let heaps ← h.heaps.mapM fun l => do return { l with segments := ← l.segments.rebuild h.space }
  return { h with heaps }

/-- The objects that must keep their place for now: targets of pinned handles, and objects whose
finalizers run. -/
def fixedAddresses (h : Heap) : Std.TreeSet Nat :=
  .ofList (h.handles.pinnedTargets ++ h.heaps.flatMap (·.finalization.running))

def survival (h : Heap) (condemned : Generation) (gone : List (Nat × Record))
    (fixed : Std.TreeSet Nat) (i : Nat) : Survival :=
  let left := h.space.entries.filter fun (_, r) => r.heap == i && r.generation.condemnedBy condemned
  { survived := .ofFn (Survival.bytesOf left)
    freed := .ofFn (Survival.bytesOf (gone.filter (·.2.heap == i)))
    objects := left.length
    pinnedObjects := left.countP fun (a, r) => r.pinned || fixed.contains a }

/-! ## Compaction -/

/-- Adds one segment to what the decision to compact rests on. -/
def addInputs (condemned : Generation) (inputs : CompactionInputs) (s : Segment) :
    Checked CompactionInputs := do
  match s.owner with
  | .large =>
    return { inputs with
      largeFreeBytes := ← Word.add inputs.largeFreeBytes (← s.freeBytes)
      largeAllocatedBytes := ← Word.add inputs.largeAllocatedBytes (← s.usedBytes) }
  | .pinned => return inputs
  | owner =>
    if owner.condemnedBy condemned then
      return { inputs with
        freeBytes := ← Word.add inputs.freeBytes (← s.freeBytes)
        allocatedBytes := ← Word.add inputs.allocatedBytes (← s.usedBytes) }
    else return inputs

def ephemeralRoom (l : LogicalHeap) : Checked (Option Nat) := do
  match l.ephemeral? with
  | none => return none
  | some s => return some (← Word.add (← s.remaining) (← s.freeBytes))

def compactionInputs (l : LogicalHeap) (condemned : Generation) (reason : CollectionReason)
    (s : Survival) : Checked CompactionInputs := do
  let inputs : CompactionInputs := {
    survivors := s.objects
    pinnedSurvivors := s.pinnedObjects
    inducedCompacting := reason == .inducedCompacting
    lastBeforeOutOfMemory := reason == .lastBeforeOutOfMemory
    youngBudget := (l.budgets.get .gen0).budget
    full := condemned == .gen2
    ephemeralAvailable := ← ephemeralRoom l }
  l.segments.segments.foldlM (addInputs condemned) inputs

/-- Whether a compaction for some reason moves large objects too. -/
def movesLarge (c : Config) : CompactionReason → Bool
  | .largeObjectFragmentation | .lastBeforeOutOfMemory => true
  | .induced => c.compactLargeOnInduced
  | _ => false

def isMovable (condemned : Generation) (fixed : Std.TreeSet Nat) (large : Bool) (a : Nat)
    (r : Record) : Bool :=
  r.generation.condemnedBy condemned && !r.pinned && !fixed.contains a &&
    match r.generation with
    | .pinned => false
    | .large => large
    | _ => true

/-- Adds the segments of one logical heap to a plan, if it is to be compacted. Answers why it is. -/
def planHeap (h : Heap) (condemned : Generation) (reason : CollectionReason)
    (fixed : Std.TreeSet Nat) (l : LogicalHeap) (s : Survival) (plan : CompactionPlan) :
    Checked (Option CompactionReason × LogicalHeap × CompactionPlan) := do
  let some why := (← compactionInputs l condemned reason s).decide? h.config.tuning
    | return (none, l, plan)
  let movable := isMovable condemned fixed (movesLarge h.config why)
  let segments := l.segments.segments.filter (·.owner != .pinned)
  let after ← segments.foldlM (fun p s => p.addSegment s h.space movable) plan
  let counters := (l.counters.recordCompaction why).recordMechanism .compacted
  let counters ← counters.add .objectsRelocated (after.movedObjects - plan.movedObjects)
  let counters ← counters.add .bytesRelocated (after.movedBytes - plan.movedBytes)
  return (some why, { l with counters }, after)

/-- Plans the compaction of all logical heaps. Answers the first reason for it. -/
def planHeaps (h : Heap) (condemned : Generation) (reason : CollectionReason)
    (fixed : Std.TreeSet Nat) :
    List (LogicalHeap × Survival) → CompactionPlan →
    Checked (Option CompactionReason × List LogicalHeap × CompactionPlan)
  | [], plan => return (none, [], plan)
  | (l, s) :: rest, plan => do
    let (why, l, plan) ← h.planHeap condemned reason fixed l s plan
    let (later, heaps, plan) ← planHeaps h condemned reason fixed rest plan
    return (why.or later, l :: heaps, plan)

def applyPlan (plan : CompactionPlan) (h : Heap) : Checked Heap := do
  if plan.isEmpty then return h
  let h := h.modifyHeaps fun l => { l with finalization := l.finalization.relocate plan.forward }
  rebuildSegments { h with
    space := ← plan.apply h.space, handles := h.handles.relocate plan.forward }

def compact (condemned : Generation) (fixed : Std.TreeSet Nat) (survivals : List Survival)
    (summary : CollectionSummary) (h : Heap) : Checked (CollectionSummary × Heap) := do
  let (compaction, heaps, plan) ←
    h.planHeaps condemned summary.reason fixed (h.heaps.zip survivals) {}
  return ({ summary with compaction, objectsRelocated := plan.movedObjects },
    ← applyPlan plan { h with heaps })

/-! ## Generations -/

def tuneBudgets (condemned : Generation) (survivals : List Survival) (h : Heap) : Checked Heap := do
  let heaps ← (h.heaps.zip survivals).mapM fun (l, s) => do
    return { l with
      budgets := ← l.budgets.finishCollection condemned (.ofFn s.rate) h.config.tuning
      counters := ← l.counters.add .pinnedSurvivors s.pinnedObjects }
  return { h with heaps }

def isPromoted (condemned : Generation) (r : Record) : Bool :=
  r.generation.ephemeral && r.generation.condemnedBy condemned

/-- Moves one survivor to the next generation, with its bytes. -/
def promote (h : Heap) (a : Nat) (r : Record) : Checked Heap := do
  let older := r.generation.promoted
  let h ← h.updateHeap r.heap fun l => do
    return { l with
      budgets := ← (l.budgets.discharge r.generation r.size).charge older r.size
      counters := ← l.counters.add .objectsPromoted 1 }
  return { h with space := h.space.update a fun r => { r with generation := older } }

def promoteSurvivors (condemned : Generation) (summary : CollectionSummary) (h : Heap) :
    Checked (CollectionSummary × Heap) := do
  let promoted := h.space.entries.filter fun (_, r) => isPromoted condemned r
  return ({ summary with
      objectsPromoted := promoted.length
      bytesPromoted := Word.total (promoted.map (·.2.size)) },
    ← promoted.foldlM (fun h (a, r) => h.promote a r) h)

/-- Sorts finalization queues by the generations of now, and makes the young regions older. -/
def syncHeap (condemned : Generation) (i : Nat) : Transition Heap Unit := do
  modify fun h => h.modifyHeap i fun l => { l with
    finalization := l.finalization.syncGenerations fun a => (h.space.get? a).map (·.generation) }
  onArena i (SegmentArena.onTable (SegmentTable.promoteRegions condemned))

/-! ## Empty segments -/

/-- Gives one segment back, if it is empty and enough empty ones are kept. Answers the number of
empty segments kept. -/
def decommitSegment (i : Nat) (active : Option Nat) (kept id : Nat) : Transition Heap Nat := do
  if active = some id then return kept
  let h ← get
  let l ← Transition.ofExcept (h.fetchHeap i)
  let s ← Transition.ofExcept (l.segments.fetch id)
  if ← SegmentArena.holdsObject s h.space then return kept
  if kept < h.config.tuning.retainedEmptySegments then return kept + 1
  let _ ← onArena i (SegmentArena.decommitIfEmpty id h.space)
  return kept

/-- Gives back the empty segments of one generation, except the one it allocates in. -/
def decommitGeneration (i kept : Nat) (g : Generation) : Transition Heap Nat := do
  let l ← Transition.ofExcept ((← get).fetchHeap i)
  (l.segments.owned.get g).foldlM (decommitSegment i (l.segments.allocSegment? g)) kept

/-- Gives back the empty segments of one logical heap beyond the number to be kept. -/
def decommitEmpty (i : Nat) : Transition Heap Unit := do
  let _ ← Generation.all.foldlM (decommitGeneration i) 0

/-! ## Cards -/

/-- Makes the cards of an object's references to younger objects dirty. -/
def markYounger (space : ObjectSpace) (cards : CardTable) (a : Nat) (r : Record) :
    Checked CardTable :=
  r.slots.zipIdx.foldlM (fun cards (target, slot) => do
    if isYounger space r.generation target then
      return cards.mark (← Object.slotAddress a slot)
    return cards) cards

def markYoungerAll (space : ObjectSpace) (cards : CardTable) (objects : List (Nat × Record)) :
    Checked CardTable :=
  objects.foldlM (fun cards (a, r) => markYounger space cards a r) cards

/-- Makes a scanned card dirty again, if its objects still refer to younger ones. -/
def refreshCard (space : ObjectSpace) (cards : CardTable) (card : Nat) : Checked CardTable := do
  let (start, stop) ← cards.bounds card
  let objects := (← space.overlapping start stop).filterMap fun a =>
    (space.get? a).map fun r => (a, r)
  markYoungerAll space cards objects

/-- Computes the dirty cards anew: all of them after a full collection, else the scanned ones and
those of objects that were promoted. -/
def refreshCards (condemned : Generation) (consumed : Option (List Nat)) (h : Heap) :
    Checked Heap := do
  let objects := h.space.entries
  match consumed with
  | none => return { h with cards := ← markYoungerAll h.space h.cards.clearAll objects }
  | some consumed =>
    let cards ← consumed.foldlM (refreshCard h.space) (consumed.foldl CardTable.clear h.cards)
    let young := objects.filter fun (_, r) => r.generation.tier ≤ condemned.tier + 1
    return { h with cards := ← markYoungerAll h.space cards young }

/-! ## The whole -/

/-- Faults on a heap that breaks an invariant. -/
def requireSound (h : Heap) : Checked Unit := do
  match ← HeapCheck.verify h.space h.tables with
  | .ok () => return ()
  | .error _ => throw .corruptHeap

/-- What follows sweeping and compaction: budgets, generations, empty segments, and cards. -/
def settle (condemned : Generation) (survivals : List Survival) (consumed : Option (List Nat))
    (summary : CollectionSummary) : Transition Heap CollectionSummary := do
  let h ← (← get).tuneBudgets condemned survivals
  let (summary, h) ← h.promoteSurvivors condemned summary
  set h
  (List.range h.heaps.length).forM (syncHeap condemned)
  (List.range h.heaps.length).forM decommitEmpty
  set (← (← get).refreshCards condemned consumed)
  return summary

/-- Reclaims without a look at the outcome. -/
def reclaimUnchecked (condemned : Generation) (live : Nat → Record → Bool) (compacts : Bool)
    (consumed : Option (List Nat)) (summary : CollectionSummary) :
    Transition Heap CollectionSummary := do
  modify fun h => { h with
    handles := h.handles.clearDeadWeak fun a => (h.space.get? a).any (live a) }
  let (gone, h) := (← get).sweepDead live
  let h ← h.rebuildSegments
  let fixed := h.fixedAddresses
  let survivals := (List.range h.heaps.length).map (h.survival condemned gone fixed)
  let summary := { summary with
    objectsFreed := gone.length, bytesFreed := Word.total (gone.map (·.2.size)) }
  let (summary, h) ←
    if compacts then h.compact condemned fixed survivals summary else pure (summary, h)
  set h
  settle condemned survivals consumed summary

/-- Checks a heap that was compacted, and every heap where the configuration asks for it. -/
def checkReclaimed (summary : CollectionSummary) : Transition Heap Unit := do
  let h ← get
  if h.config.verifyHeap || summary.compaction.isSome then h.requireSound

def reclaim (condemned : Generation) (live : Nat → Record → Bool) (compacts : Bool)
    (consumed : Option (List Nat)) (summary : CollectionSummary) :
    Transition Heap CollectionSummary := do
  let summary ← reclaimUnchecked condemned live compacts consumed summary
  checkReclaimed summary
  return summary

end Heap

end GenHeap
