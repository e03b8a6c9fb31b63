import GenHeap.Proofs.Heap.Memory
import GenHeap.Proofs.Effect

/-!
The stages of a collection in a row, each with the heap it leaves. A collection answers a summary if
and only if each of its stages can be run on what the one before it left. After marking it breaks off
only where reclaiming does.
-/

namespace GenHeap

namespace Heap

variable {h h' : Heap} {i : Nat} {l : LogicalHeap} {condemned : Generation}
  {live : Nat → Record → Bool} {consumed : Option (List Nat)}
  {summary summary' : CollectionSummary} {survivals : List Survival}

/-- The queue that holds the entries of `q` by the generations of the objects in `s`. -/
def sortedBy (s : ObjectSpace) (q : FinalizationQueue) : FinalizationQueue :=
  q.syncGenerations fun a => (s.get? a).map (·.generation)

/-- The heap with the finalization queue of one logical heap sorted. -/
def sortQueue (i : Nat) (h : Heap) : Heap :=
  h.modifyHeap i fun l => { l with finalization := sortedBy h.space l.finalization }

theorem memory_sortQueue : (h.sortQueue i).memory =
    { h.memory with queues := h.memory.queues.modify i (sortedBy h.space) } :=
  memory_modifyHeap_queues (fun _ => rfl) fun _ => rfl

theorem getElem?_sortQueue (hl : h.heaps[i]? = some l) : (h.sortQueue i).heaps[i]? =
    some { l with finalization := sortedBy h.space l.finalization } := getElem?_modifyHeap hl

theorem syncHeap_apply : syncHeap condemned i h =
    onArena i (SegmentArena.onTable (SegmentTable.promoteRegions condemned)) (h.sortQueue i) := by
  unfold syncHeap
  rw [Effect.modify_bind]
  rfl

/-- The queue of a logical heap is sorted, and its segments are those with older regions. -/
theorem syncHeap_promotes (hl : h.heaps[i]? = some l) {x : Except HeapError Unit}
    (hrun : syncHeap condemned i h = .ok (x, h')) :
    ∃ table, SegmentTable.promoteRegions condemned l.segments = .ok (x, table) ∧
      h' = (h.sortQueue i).withArena i { table, provider := h.provider } := by
  rw [syncHeap_apply] at hrun
  obtain ⟨arena, harena, rfl⟩ := (onArena_eq_ok (getElem?_sortQueue hl)).1 hrun
  obtain ⟨table, hpromote, rfl⟩ := SegmentArena.onTable_eq_ok.1 harena
  exact ⟨table, hpromote, rfl⟩

/-- What follows when the budgets are tuned and the survivors promoted. -/
def tidyUp (condemned : Generation) (consumed : Option (List Nat)) (summary : CollectionSummary)
    (n : Nat) : Transition Heap CollectionSummary := do
  (List.range n).forM (syncHeap condemned)
  (List.range n).forM decommitEmpty
  set (← (← get).refreshCards condemned consumed)
  return summary

theorem settle_regroups {x : Except HeapError CollectionSummary} :
    settle condemned survivals consumed summary h = .ok (x, h') ↔ ∃ h₁ summary₁ h₂,
      h.tuneBudgets condemned survivals = .ok h₁ ∧
      h₁.promoteSurvivors condemned summary = .ok (summary₁, h₂) ∧
      tidyUp condemned consumed summary₁ h₂.heaps.length h₂ = .ok (x, h') := by
  unfold settle
  simp only [Effect.get_bind, Effect.lift_bind, Effect.set_bind, Checked.bind_eq_ok, Prod.exists]
  constructor
  · rintro ⟨h₁, htune, summary₁, h₂, hpromote, hrun⟩
    exact ⟨h₁, summary₁, h₂, htune, hpromote, hrun⟩
  · rintro ⟨h₁, summary₁, h₂, htune, hpromote, hrun⟩
    exact ⟨h₁, htune, summary₁, h₂, hpromote, hrun⟩

/-- What follows sweeping and compaction, stage by stage. -/
theorem settle_stages :
    settle condemned survivals consumed summary h = .ok (.ok summary', h') ↔
      ∃ h₁ h₂ h₃ h₄, h.tuneBudgets condemned survivals = .ok h₁ ∧
        h₁.promoteSurvivors condemned summary = .ok (summary', h₂) ∧
        (List.range h₂.heaps.length).forM (syncHeap condemned) h₂ = .ok (.ok ⟨⟩, h₃) ∧
        (List.range h₂.heaps.length).forM decommitEmpty h₃ = .ok (.ok ⟨⟩, h₄) ∧
        h₄.refreshCards condemned consumed = .ok h' := by
  unfold settle
  simp only [Effect.get_bind, Effect.lift_bind, Effect.set_bind, Effect.pure_apply,
    Effect.bind_eq_ok_ok, Checked.bind_eq_ok, Prod.exists, Except.ok.injEq, Prod.mk.injEq]
  constructor
  · rintro ⟨h₁, htune, s, h₂, hpromote, _, h₃, hsync, _, h₄, hback, h₅, hrefresh, rfl, rfl⟩
    exact ⟨h₁, h₂, h₃, h₄, htune, hpromote, hsync, hback, hrefresh⟩
  · rintro ⟨h₁, h₂, h₃, h₄, htune, hpromote, hsync, hback, hrefresh⟩
    exact ⟨h₁, htune, _, h₂, hpromote, _, h₃, hsync, _, h₄, hback, h', hrefresh, rfl, rfl⟩

/-- The round of one segment: it stays because it is active or holds an object, it stays because not
enough empty ones are kept, or the provider is asked to take it back. -/
theorem decommitSegment_cases {active : Option Nat} {kept id : Nat} {s : Segment}
    {x : Except HeapError Nat} (hheap : h.heaps[i]? = some l) (hs : l.segments.find? id = some s)
    (hrun : decommitSegment i active kept id h = .ok (x, h')) :
    (active = some id ∨ SegmentArena.holdsObject s h.space = .ok true) ∧ x = .ok kept ∧ h = h' ∨
      active ≠ some id ∧ SegmentArena.holdsObject s h.space = .ok false ∧
        (kept < h.config.tuning.retainedEmptySegments ∧ x = .ok (kept + 1) ∧ h = h' ∨
          h.config.tuning.retainedEmptySegments ≤ kept ∧ ∃ y arena,
            SegmentArena.decommitIfEmpty id h.space (h.arena l) = .ok (y, arena) ∧
              x = y.map (fun _ => kept) ∧ h' = h.withArena i arena) := by
  unfold decommitSegment at hrun
  split at hrun
  next hactive =>
    cases hrun
    exact .inl ⟨.inl hactive, rfl, rfl⟩
  next hactive =>
    simp only [Effect.get_bind, fetchHeap, hheap, Transition.ofExcept_bind, SegmentTable.fetch, hs,
      Effect.lift_bind, Checked.bind_eq_ok] at hrun
    obtain ⟨holds, hholds, hrun⟩ := hrun
    cases holds with
    | true =>
      cases hrun
      exact .inl ⟨.inr hholds, rfl, rfl⟩
    | false =>
      refine .inr ⟨hactive, hholds, ?_⟩
      simp only [Bool.false_eq_true, if_false] at hrun
      split at hrun
      next hfew =>
        cases hrun
        exact .inl ⟨hfew, rfl, rfl⟩
      next hmany =>
        refine .inr ⟨Nat.le_of_not_lt hmany, ?_⟩
        rw [Effect.bind_eq_ok] at hrun
        rcases hrun with ⟨b, _, hback, hrun⟩ | ⟨e, hback, rfl⟩
        · obtain ⟨arena, harena, rfl⟩ := (onArena_eq_ok hheap).1 hback
          cases hrun
          exact ⟨_, arena, harena, rfl, rfl⟩
        · obtain ⟨arena, harena, rfl⟩ := (onArena_eq_ok hheap).1 hback
          exact ⟨_, arena, harena, rfl, rfl⟩

/-- A segment stays, or it is given back if it is not the active one. -/
theorem decommitSegment_stays {active : Option Nat} {kept id : Nat} {x : Except HeapError Nat}
    (hrun : decommitSegment i active kept id h = .ok (x, h')) :
    h = h' ∨ active ≠ some id ∧ ∃ l, h.heaps[i]? = some l ∧
      ∃ y, onArena i (SegmentArena.decommitIfEmpty id h.space) h = .ok (y, h') := by
  cases hheap : h.heaps[i]? with
  | none =>
    unfold decommitSegment at hrun
    split at hrun
    · cases hrun
      exact .inl rfl
    · simp only [Effect.get_bind, fetchHeap, hheap, Transition.ofExcept_bind] at hrun
      cases hrun
      exact .inl rfl
  | some l =>
    cases hs : l.segments.find? id with
    | none =>
      unfold decommitSegment at hrun
      split at hrun
      · cases hrun
        exact .inl rfl
      · simp only [Effect.get_bind, fetchHeap, hheap, Transition.ofExcept_bind, SegmentTable.fetch,
          hs] at hrun
        cases hrun
        exact .inl rfl
    | some s =>
      obtain ⟨-, -, rfl⟩ | ⟨hactive, -, ⟨-, -, rfl⟩ | ⟨-, y, arena, harena, -, rfl⟩⟩ :=
        decommitSegment_cases hheap hs hrun
      · exact .inl rfl
      · exact .inl rfl
      · exact .inr ⟨hactive, l, rfl, y, (onArena_eq_ok hheap).2 ⟨arena, harena, rfl⟩⟩

/-- The heap whose objects are those of `space`, with the handles and the queued finalizers at the
addresses that a plan gives, before the segments are made anew. -/
def forwarded (p : CompactionPlan) (space : ObjectSpace) (h : Heap) : Heap :=
  { h.modifyHeaps fun l => { l with finalization := l.finalization.relocate p.forward } with
    space, handles := h.handles.relocate p.forward }

theorem memory_forwarded {p : CompactionPlan} {space : ObjectSpace} :
    (h.forwarded p space).memory =
      { h.memory with
        space, handles := h.handles.relocate p.forward
        queues := h.memory.queues.map (·.relocate p.forward) } := by
  have hqueues := memory_modifyHeaps_queues (h := h)
    (f := fun l => { l with finalization := l.finalization.relocate p.forward })
    (q := fun q => q.relocate p.forward) (fun _ => rfl) fun _ => rfl
  exact congrArg (fun m : Memory => { m with space, handles := h.handles.relocate p.forward })
    hqueues

/-- A plan that moves nothing is dropped; any other one moves the objects, and then the segments are
made anew. -/
theorem applyPlan_stages {p : CompactionPlan} :
    applyPlan p h = .ok h' ↔ p.isEmpty = true ∧ h = h' ∨
      p.isEmpty = false ∧ ∃ space, p.apply h.space = .ok space ∧
        (h.forwarded p space).rebuildSegments = .ok h' := by
  unfold applyPlan
  cases p.isEmpty with
  | true =>
    simp only [if_true, Checked.pure_eq_ok, true_and, Bool.true_eq_false, false_and, or_false]
  | false =>
    simp only [Bool.false_eq_true, if_false, Checked.bind_eq_ok, false_and, true_and, false_or]
    exact Iff.rfl

theorem compact_stages {fixed : Std.TreeSet Nat} :
    h.compact condemned fixed survivals summary = .ok (summary', h') ↔ ∃ why heaps p,
      h.planHeaps condemned summary.reason fixed (h.heaps.zip survivals) {} =
        .ok (why, heaps, p) ∧
      summary' = { summary with compaction := why, objectsRelocated := p.movedObjects } ∧
      applyPlan p { h with heaps } = .ok h' := by
  simp only [compact, Checked.bind_eq_ok, Checked.pure_eq_ok, Prod.exists, Prod.mk.injEq]
  constructor
  · rintro ⟨why, heaps, p, hplan, _, happly, rfl, rfl⟩
    exact ⟨why, heaps, p, hplan, rfl, happly⟩
  · rintro ⟨why, heaps, p, hplan, rfl, happly⟩
    exact ⟨why, heaps, p, hplan, h', happly, rfl, rfl⟩

/-- The heap without the objects that are not live, before anything is made of the room. -/
def swept (live : Nat → Record → Bool) (h : Heap) : List (Nat × Record) × Heap :=
  sweepDead live { h with
    handles := h.handles.clearDeadWeak fun a => (h.space.get? a).any (live a) }

/-- What a sweep that removed some objects adds to a summary. -/
def freed (gone : List (Nat × Record)) (summary : CollectionSummary) : CollectionSummary :=
  { summary with
    objectsFreed := gone.length, bytesFreed := Word.total (gone.map (·.2.size)) }

/-- How the logical heaps of `h` got through a sweep. -/
def survivalsOf (condemned : Generation) (gone : List (Nat × Record)) (h : Heap) : List Survival :=
  (List.range h.heaps.length).map (h.survival condemned gone h.fixedAddresses)

theorem length_survivalsOf {gone : List (Nat × Record)} :
    (h.survivalsOf condemned gone).length = h.heaps.length := by
  unfold survivalsOf
  rw [List.length_map, List.length_range]

/-- The compaction of a swept heap, if there is to be one. -/
def compactIf (compacts : Bool) (condemned : Generation) (survivals : List Survival)
    (summary : CollectionSummary) (h : Heap) : Checked (CollectionSummary × Heap) :=
  if compacts then h.compact condemned h.fixedAddresses survivals summary
  else .ok (summary, h)

theorem compactIf_stages {compacts : Bool} :
    h.compactIf compacts condemned survivals summary = .ok (summary', h') ↔
      compacts = true ∧
        h.compact condemned h.fixedAddresses survivals summary = .ok (summary', h') ∨
      compacts = false ∧ summary = summary' ∧ h = h' := by
  cases compacts with
  | true => simp only [compactIf, if_true, true_and, Bool.true_eq_false, false_and, or_false]
  | false => simp only [compactIf, Bool.false_eq_true, if_false, false_and, true_and, false_or,
      Except.ok.injEq, Prod.mk.injEq]

/-- Reclaiming without a look at the outcome: what it ends in is what settling ends in. -/
theorem reclaimUnchecked_stages {compacts : Bool} {x : Except HeapError CollectionSummary} :
    reclaimUnchecked condemned live compacts consumed summary h = .ok (x, h') ↔
      ∃ h₁ summary₂ h₂, (h.swept live).2.rebuildSegments = .ok h₁ ∧
        h₁.compactIf compacts condemned (h₁.survivalsOf condemned (h.swept live).1)
          (freed (h.swept live).1 summary) = .ok (summary₂, h₂) ∧
        settle condemned (h₁.survivalsOf condemned (h.swept live).1) consumed summary₂ h₂ =
          .ok (x, h') := by
  unfold reclaimUnchecked
  rw [Effect.modify_bind, Effect.get_bind]
  cases compacts with
  | false =>
    simp only [Bool.false_eq_true, if_false, Effect.lift_bind, Effect.pure_bind, Effect.set_bind,
      Checked.bind_eq_ok, compactIf, Except.ok.injEq, Prod.mk.injEq]
    constructor
    · rintro ⟨h₁, hsweep, hsettle⟩
      exact ⟨h₁, _, _, hsweep, ⟨rfl, rfl⟩, hsettle⟩
    · rintro ⟨h₁, _, _, hsweep, ⟨rfl, rfl⟩, hsettle⟩
      exact ⟨h₁, hsweep, hsettle⟩
  | true =>
    simp only [if_true, Effect.lift_bind, Effect.set_bind, Checked.bind_eq_ok, Prod.exists,
      compactIf]
    constructor
    · rintro ⟨h₁, hsweep, summary₂, h₂, hcompact, hsettle⟩
      exact ⟨h₁, summary₂, h₂, hsweep, hcompact, hsettle⟩
    · rintro ⟨h₁, summary₂, h₂, hsweep, hcompact, hsettle⟩
      exact ⟨h₁, hsweep, summary₂, h₂, hcompact, hsettle⟩

/-- A check that passes leaves the heap as it is. -/
theorem checkReclaimed_eq_ok {y : Except HeapError Unit}
    (hrun : checkReclaimed summary h = .ok (y, h')) : y = .ok ⟨⟩ ∧ h' = h := by
  unfold checkReclaimed at hrun
  rw [Effect.get_bind] at hrun
  split at hrun
  · obtain ⟨_, _, hrun⟩ := Checked.bind_eq_ok.1 (Effect.lift_apply ▸ hrun)
    cases hrun
    exact ⟨rfl, rfl⟩
  · cases hrun
    exact ⟨rfl, rfl⟩

/-- The check ends in a fault or in nothing, so that what reclaiming answers is answered before it. -/
theorem reclaim_cases {compacts : Bool} {x : Except HeapError CollectionSummary}
    (hrun : reclaim condemned live compacts consumed summary h = .ok (x, h')) :
    reclaimUnchecked condemned live compacts consumed summary h = .ok (x, h') ∧
      ∀ summary', x = .ok summary' → checkReclaimed summary' h' = .ok (.ok ⟨⟩, h') := by
  unfold reclaim at hrun
  rw [Effect.bind_eq_ok] at hrun
  rcases hrun with ⟨summary₁, h₁, hreclaim, hrun⟩ | ⟨e, hreclaim, rfl⟩
  · rw [Effect.bind_eq_ok] at hrun
    rcases hrun with ⟨_, _, hcheck, hrun⟩ | ⟨e, hcheck, rfl⟩
    · obtain ⟨-, rfl⟩ := checkReclaimed_eq_ok hcheck
      cases hrun
      refine ⟨hreclaim, ?_⟩
      rintro _ ⟨⟩
      exact hcheck
    · cases (checkReclaimed_eq_ok hcheck).1
  · exact ⟨hreclaim, nofun⟩

/-- Reclaiming, stage by stage. -/
theorem reclaim_stages {compacts : Bool} :
    reclaim condemned live compacts consumed summary h = .ok (.ok summary', h') ↔
      ∃ h₁ summary₂ h₂, (h.swept live).2.rebuildSegments = .ok h₁ ∧
        h₁.compactIf compacts condemned (h₁.survivalsOf condemned (h.swept live).1)
          (freed (h.swept live).1 summary) = .ok (summary₂, h₂) ∧
        settle condemned (h₁.survivalsOf condemned (h.swept live).1) consumed summary₂ h₂ =
          .ok (.ok summary', h') ∧
        checkReclaimed summary' h' = .ok (.ok ⟨⟩, h') := by
  constructor
  · intro hrun
    obtain ⟨hreclaim, hcheck⟩ := reclaim_cases hrun
    obtain ⟨h₁, summary₂, h₂, hsweep, hcompact, hsettle⟩ := reclaimUnchecked_stages.1 hreclaim
    exact ⟨h₁, summary₂, h₂, hsweep, hcompact, hsettle, hcheck summary' rfl⟩
  · rintro ⟨h₁, summary₂, h₂, hsweep, hcompact, hsettle, hcheck⟩
    have hreclaim := reclaimUnchecked_stages.2 ⟨h₁, summary₂, h₂, hsweep, hcompact, hsettle⟩
    refine Effect.bind_eq_ok_ok.2 ⟨_, _, hreclaim, Effect.bind_eq_ok_ok.2 ⟨_, _, hcheck, rfl⟩⟩

/-- The mechanisms that all logical heaps count when a collection is over. -/
def mechanismsOf (summary : CollectionSummary) : List Mechanism :=
  (mechanismOf summary.reason).toList ++ if summary.background then [.background] else []

/-- The heap in which the mechanisms of a collection are counted. -/
def counted (summary : CollectionSummary) (h : Heap) : Heap :=
  h.modifyHeaps fun l =>
    { l with counters := (mechanismsOf summary).foldl Counters.recordMechanism l.counters }

theorem counted_eq_foldl : h.counted summary = (mechanismsOf summary).foldl countMechanism h := by
  have hall (ms : List Mechanism) (k : Heap) : ms.foldl countMechanism k =
      k.modifyHeaps fun l => { l with counters := ms.foldl Counters.recordMechanism l.counters } := by
    induction ms generalizing k with
    | nil => simp only [List.foldl_nil, modifyHeaps, List.map_id']
    | cons m ms ih =>
      rw [List.foldl_cons, ih]
      simp only [countMechanism, modifyHeaps, List.map_map, Function.comp_def, List.foldl_cons]
  exact (hall _ h).symm

/-- What each count of a mechanism keeps all of them keep. -/
theorem counted_induct {P : Heap → Prop} (hstart : P h)
    (hstep : ∀ k, ∀ m ∈ mechanismsOf summary, P k → P (k.countMechanism m)) :
    P (h.counted summary) := by
  rw [counted_eq_foldl]
  exact List.foldlRecOn _ _ hstart fun k hk m hm => hstep k m hm hk

/-- The mechanisms are counted, then the summary is recorded and shown. -/
theorem finishCollection_stages : h.finishCollection summary = .ok h' ↔
    ∃ statistics, h.statistics.recordCollection summary = .ok statistics ∧
      { h.counted summary with
        statistics, last := some summary, pausePhase := .idle }.publish = h' := by
  have hcounted : h.finishCollection summary = do
      let statistics ← (h.counted summary).statistics.recordCollection summary
      return { h.counted summary with
        statistics, last := some summary, pausePhase := .idle }.publish := by
    rw [counted_eq_foldl]
    unfold finishCollection mechanismsOf
    cases mechanismOf summary.reason <;> cases summary.background <;> rfl
  rw [hcounted]
  simp only [Checked.bind_eq_ok, Checked.pure_eq_ok]
  exact Iff.rfl

/-- A collection in a pause, stage by stage. -/
theorem collect_stages {generation : Generation} {reason : CollectionReason} :
    collect generation reason h = .ok (.ok summary', h') ↔ ∃ scan summary₁ h₁ h₂,
      h.beginCollection.markCondemned (h.condemnedOf generation)
        { index := h.beginCollection.collections, condemned := h.condemnedOf generation, reason
          abortedBackground := h.background.isSome } = .ok (scan, summary₁, h₁) ∧
      reclaim (h.condemnedOf generation) (outlives (h.condemnedOf generation)) true
        (if h.condemnedOf generation = .gen2 then none else some scan.consumed) summary₁ h₁ =
          .ok (.ok summary', h₂) ∧
      finishCollection summary' { h₂ with sweeper := { h₂.sweeper with next := 0 } } = .ok h' := by
  unfold collect
  simp only [Effect.get_bind, Effect.modify_bind, Effect.lift_bind, Effect.set_bind,
    Effect.pure_apply, Effect.bind_eq_ok_ok, Checked.bind_eq_ok, Prod.exists, Except.ok.injEq,
    Prod.mk.injEq]
  constructor
  · rintro ⟨scan, summary₁, h₁, hmark, _, h₂, hreclaim, h₃, hfinish, rfl, rfl⟩
    exact ⟨scan, summary₁, h₁, h₂, hmark, hreclaim, hfinish⟩
  · rintro ⟨scan, summary₁, h₁, h₂, hmark, hreclaim, hfinish⟩
    exact ⟨scan, summary₁, h₁, hmark, _, h₂, hreclaim, h', hfinish, rfl, rfl⟩

/-- A collection in a pause, whatever it answers. -/
theorem collect_cases {generation : Generation} {reason : CollectionReason}
    {x : Except HeapError CollectionSummary} (hrun : collect generation reason h = .ok (x, h')) :
    ∃ scan summary h₁ q h₂,
      h.beginCollection.markCondemned (h.condemnedOf generation)
        { index := h.beginCollection.collections, condemned := h.condemnedOf generation, reason
          abortedBackground := h.background.isSome } = .ok (scan, summary, h₁) ∧
      reclaim (h.condemnedOf generation) (outlives (h.condemnedOf generation)) true
        (if h.condemnedOf generation = .gen2 then none else some scan.consumed) summary h₁ =
          .ok (q, h₂) ∧
      ((∃ e, q = .error e ∧ x = .error e ∧ h₂ = h') ∨ ∃ summary', q = .ok summary' ∧
        x = .ok summary' ∧
        finishCollection summary' { h₂ with sweeper := { h₂.sweeper with next := 0 } } =
          .ok h') := by
  unfold collect at hrun
  simp only [Effect.get_bind, Effect.lift_bind, Effect.set_bind, Checked.bind_eq_ok,
    Prod.exists] at hrun
  obtain ⟨scan, summary, h₁, hmark, hrun⟩ := hrun
  rw [Effect.bind_eq_ok] at hrun
  rcases hrun with ⟨summary', h₂, hreclaim, hrun⟩ | ⟨e, hreclaim, rfl⟩
  · simp only [Effect.modify_bind, Effect.get_bind, Effect.lift_bind, Effect.set_bind,
      Checked.bind_eq_ok] at hrun
    obtain ⟨_, hfinish, hrun⟩ := hrun
    cases hrun
    exact ⟨scan, summary, h₁, _, h₂, hmark, hreclaim, .inr ⟨summary', rfl, rfl, hfinish⟩⟩
  · exact ⟨scan, summary, h₁, _, h', hmark, hreclaim, .inl ⟨e, rfl, rfl, rfl⟩⟩

/-- There is no cycle to complete, or one that ends in a pause, whatever is answered. -/
theorem completeBackground_cases {x : Except HeapError (Option CollectionSummary)}
    (hrun : completeBackground h = .ok (x, h')) :
    h.trace.background = none ∧ x = .ok none ∧ h = h' ∨ ∃ b summary b' k₁ q k₂,
      h.trace.background = some b ∧
      h.trace.stopCycle.finishMarking b = .ok (summary, b', k₁) ∧
      reclaim .gen2 (fun a _ => b'.isLive a) false none summary k₁ = .ok (q, k₂) ∧
      ((∃ e, q = .error e ∧ x = .error e ∧ k₂ = h') ∨ ∃ summary', q = .ok summary' ∧
        x = .ok (some summary') ∧
        finishCollection summary' ({ k₂ with
          sweeper := { k₂.sweeper with next := b'.high } }.modifyHeaps fun l =>
            { l with savedEphemeral := none }) = .ok h') := by
  unfold completeBackground at hrun
  rw [Effect.get_bind] at hrun
  cases hb : h.trace.background with
  | none =>
    simp only [hb] at hrun
    cases hrun
    exact .inl ⟨rfl, rfl, rfl⟩
  | some b =>
    simp only [hb, Effect.lift_bind, Effect.set_bind, Checked.bind_eq_ok, Prod.exists] at hrun
    obtain ⟨summary, b', k₁, hmark, hrun⟩ := hrun
    rw [Effect.bind_eq_ok] at hrun
    rcases hrun with ⟨summary', k₂, hreclaim, hrun⟩ | ⟨e, hreclaim, rfl⟩
    · simp only [Effect.modify_bind, Effect.get_bind, Effect.lift_bind, Effect.set_bind,
        Checked.bind_eq_ok] at hrun
      obtain ⟨_, hfinish, hrun⟩ := hrun
      cases hrun
      exact .inr ⟨b, summary, b', k₁, _, k₂, rfl, hmark, hreclaim,
        .inr ⟨summary', rfl, rfl, hfinish⟩⟩
    · exact .inr ⟨b, summary, b', k₁, _, h', rfl, hmark, hreclaim, .inl ⟨e, rfl, rfl, rfl⟩⟩

/-- Completing a cycle, stage by stage. -/
theorem completeBackground_stages {b : BackgroundMark} (hb : h.trace.background = some b) :
    completeBackground h = .ok (.ok (some summary'), h') ↔ ∃ summary b' k₁ k₂,
      h.trace.stopCycle.finishMarking b = .ok (summary, b', k₁) ∧
      reclaim .gen2 (fun a _ => b'.isLive a) false none summary k₁ = .ok (.ok summary', k₂) ∧
      finishCollection summary' ({ k₂ with sweeper := { k₂.sweeper with next := b'.high } }.modifyHeaps
        fun l => { l with savedEphemeral := none }) = .ok h' := by
  unfold completeBackground
  rw [Effect.get_bind]
  simp only [hb, Effect.modify_bind, Effect.get_bind, Effect.lift_bind, Effect.set_bind,
    Effect.pure_apply, Effect.bind_eq_ok_ok, Checked.bind_eq_ok, Prod.exists, Except.ok.injEq,
    Prod.mk.injEq, Option.some.injEq]
  constructor
  · rintro ⟨summary, b', k₁, hfinish, _, k₂, hreclaim, k₃, hlast, rfl, rfl⟩
    exact ⟨summary, b', k₁, k₂, hfinish, hreclaim, hlast⟩
  · rintro ⟨summary, b', k₁, k₂, hfinish, hreclaim, hlast⟩
    exact ⟨summary, b', k₁, hfinish, _, k₂, hreclaim, h', hlast, rfl, rfl⟩

end Heap

end GenHeap
