import GenHeap.Proofs.Heap.Publication

/-!
What a heap counts of its collections and of its failures: logical heap by logical heap, and once
more for all of them together. Nearly everything that a heap does counts nothing of it.
-/

namespace GenHeap

/-- What a logical heap counts that is counted for all of them too. -/
structure LogicalHeap.Ledger where
  /-- the number of data points that there are -/
  points : Nat
  relocated : Nat
  compactions : List Nat
  mechanisms : List Nat
  failures : Nat

/-- Whether an operation can count a collection or a failure. -/
def Operation.counts : Operation → Bool
  | allocate .. | collect .. | completeBackground | abortBackground => true
  | _ => false

namespace LogicalHeap

def ledger (l : LogicalHeap) : Ledger where
  points := l.counters.dataPoints.length
  relocated := l.counters.dataPoint .objectsRelocated
  compactions := l.counters.compactions
  mechanisms := l.counters.mechanisms
  failures := l.failures.total

variable {l : LogicalHeap} {counters : Counters} {p : DataPoint} {n : Nat}

/-- Of the data points one belongs to the ledger. -/
theorem ledger_add (hp : p ≠ .objectsRelocated) (hrun : l.counters.add p n = .ok counters) :
    ({ l with counters } : LogicalHeap).ledger = l.ledger := by
  have hindex : p.index ≠ DataPoint.objectsRelocated.index := by
    cases p <;> first | decide | exact absurd rfl hp
  simp only [Counters.add, Checked.bind_eq_ok, Checked.pure_eq_ok] at hrun
  obtain ⟨_, _, rfl⟩ := hrun
  simp only [ledger, Counters.dataPoint, List.length_set, List.getD_eq_getElem?_getD,
    List.getElem?_set_ne hindex]

end LogicalHeap

namespace Heap

/-- The counts of the logical heaps, and those of all of them together. -/
structure Ledger where
  /-- the logical heaps that the configuration asks for -/
  heapCount : Nat
  heaps : List LogicalHeap.Ledger
  /-- the collections begun -/
  collections : Nat
  /-- the collections ended, of the three ages -/
  ages : List Nat
  completions : Nat
  aborts : Nat
  relocated : Nat
  failures : Nat

def ledger (h : Heap) : Ledger where
  heapCount := h.config.heapCount
  heaps := h.heaps.map (·.ledger)
  collections := h.collections
  ages := h.statistics.collections
  completions := h.statistics.backgroundCollections
  aborts := h.statistics.backgroundAborts
  relocated := h.statistics.totalRelocated
  failures := h.statistics.allocationFailures

/-- Nothing is counted between one heap and the other. -/
def Uncounted (h h' : Heap) : Prop := h'.ledger = h.ledger

theorem frame_uncounted : Frame Uncounted := ⟨fun _ => rfl, fun h h' => h'.trans h⟩

variable {α : Type} {h h' : Heap} {i x a size : Nat} {condemned target : Generation}
  {live : Nat → Record → Bool} {consumed : Option (List Nat)} {summary summary' : CollectionSummary}
  {survivals : List Survival} {op : Operation}

/-! ## Changes of the logical heaps -/

theorem uncounted_of_heaps {heaps : List LogicalHeap}
    (hheaps : heaps.map (·.ledger) = h.heaps.map (·.ledger)) : h.Uncounted { h with heaps } := by
  unfold Uncounted ledger
  simp only [hheaps]

theorem uncounted_modifyHeap {f : LogicalHeap → LogicalHeap} (hf : ∀ l, (f l).ledger = l.ledger) :
    h.Uncounted (h.modifyHeap i f) := uncounted_of_heaps (map_modify_of_same hf _)

theorem uncounted_modifyHeaps {f : LogicalHeap → LogicalHeap} (hf : ∀ l, (f l).ledger = l.ledger) :
    h.Uncounted (h.modifyHeaps f) := by
  apply uncounted_of_heaps
  rw [List.map_map]
  exact List.map_congr_left fun l _ => hf l

theorem uncounted_updateHeap {f : LogicalHeap → Checked LogicalHeap}
    (hf : ∀ l l', f l = .ok l' → l'.ledger = l.ledger) (hrun : h.updateHeap i f = .ok h') :
    h.Uncounted h' := by
  obtain ⟨he, hheaps⟩ := map_updateHeap hf hrun
  rw [he]
  exact uncounted_of_heaps hheaps

theorem uncounted_publish : h.Uncounted h.publish := uncounted_modifyHeaps fun _ => rfl

/-- A search for a block counts only how the heap has grown. -/
theorem uncounted_of_refits (hr : h.Refits h') : h.Uncounted h' := by
  have hheaps := hr.map (g := LogicalHeap.ledger) fun _ => rfl
  rw [hr.rest]
  exact uncounted_of_heaps hheaps

theorem uncounted_of_scene (hscene : h'.scene = h.scene) : h.Uncounted h' := by
  have hheaps := congrArg (fun s : Scene => s.heaps.map (·.ledger)) hscene
  simp only [scene, List.map_map] at hheaps
  have hheaps : h'.heaps.map (·.ledger) = h.heaps.map (·.ledger) := hheaps
  have hconfig : h'.config = h.config := congrArg Scene.config hscene
  have hcollections : h'.collections = h.collections := congrArg Scene.collections hscene
  have hstatistics : h'.statistics = h.statistics := congrArg Scene.statistics hscene
  unfold Uncounted ledger
  rw [hheaps, hconfig, hcollections, hstatistics]

/-! ## Operations of the embedder -/

theorem uncounted_finishReady (batch : List (Nat × FinalizableEntry)) (report : FinalizerReport) :
    h.Uncounted (finishReady batch report h) := by
  have hdone : h.Uncounted (h.doneRunning batch) :=
    doneRunning_induct (P := h.Uncounted) (frame_uncounted.refl h)
      (fun _ _ _ hk => frame_uncounted.trans hk (uncounted_modifyHeap fun _ => rfl)) batch
  exact frame_uncounted.trans hdone uncounted_publish

theorem uncounted_analyze {r : Except HeapError HeapAnalysis} (hrun : analyze h = .ok (r, h')) :
    h.Uncounted h' := by
  obtain rfl := analyze_cases hrun
  have hanalyzed : h.Uncounted h.analyzed := uncounted_of_heaps (map_analyzed fun _ _ _ => rfl)
  exact frame_uncounted.trans hanalyzed uncounted_publish

theorem uncounted_install {request : AllocRequest}
    (hrun : install i request target size a x h = .ok h') : h.Uncounted h' := by
  simp only [install, Statistics.recordAllocation, Checked.bind_eq_ok, Checked.pure_eq_ok] at hrun
  obtain ⟨space, _, _, ⟨total, _, rfl⟩, hrun⟩ := hrun
  have hupdated := uncounted_updateHeap (fun l l' hl => by
    simp only [Checked.bind_eq_ok, Checked.pure_eq_ok] at hl
    obtain ⟨budgets, _, rfl⟩ := hl
    rfl) hrun
  exact hupdated

theorem uncounted_beginCycle : h.Uncounted h.beginCycle := by
  have hsaved : h.Uncounted (h.modifyHeaps fun l =>
      { l with savedEphemeral := l.ephemeral?.map fun s => (s.start, s.allocated) }) :=
    uncounted_modifyHeaps fun _ => rfl
  exact frame_uncounted.trans hsaved uncounted_publish

theorem uncounted_startBackground : Steady Uncounted startBackground := by
  intro k k' q hrun
  obtain ⟨-, rfl⟩ | ⟨-, -, rfl⟩ := startBackground_cases hrun
  · exact frame_uncounted.refl _
  · exact uncounted_beginCycle

theorem uncounted_apply (hop : op.counts = false) (hrun : op.apply h = .ok h') :
    h.Uncounted h' := by
  cases op with
  | allocate | collect | completeBackground | abortBackground => cases hop
  | findBlock i target size =>
    obtain ⟨r, hrun⟩ := after_eq_ok.1 hrun
    exact uncounted_of_refits (refits_tryPlace hrun)
  | takeReady =>
    cases hrun
    exact uncounted_modifyHeaps fun _ => rfl
  | finishReady batch report =>
    cases hrun
    exact uncounted_finishReady batch report
  | analyze =>
    obtain ⟨r, hrun⟩ := after_eq_ok.1 hrun
    exact uncounted_analyze hrun
  | startBackground =>
    obtain ⟨r, hrun⟩ := after_eq_ok.1 hrun
    exact uncounted_startBackground hrun
  | _ => exact uncounted_of_scene (scene_apply rfl hrun)

/-! ## Stages of a collection -/

theorem uncounted_sweepDead (live : Nat → Record → Bool) : h.Uncounted (h.sweepDead live).2 := by
  have hfold (gone : List (Nat × Record)) (k : Heap) :
      k.Uncounted (gone.foldl (fun h x => h.modifyHeap x.2.heap fun l =>
        { l with budgets := l.budgets.discharge x.2.generation x.2.size }) k) := by
    induction gone generalizing k with
    | nil => exact frame_uncounted.refl k
    | cons x gone ih =>
      have hfirst : k.Uncounted (k.modifyHeap x.2.heap fun l =>
          { l with budgets := l.budgets.discharge x.2.generation x.2.size }) :=
        uncounted_modifyHeap fun _ => rfl
      exact frame_uncounted.trans hfirst (ih _)
  exact hfold (h.space.removeWhere fun a r => !live a r).1 h

theorem uncounted_tuneBudgets (hlen : survivals.length = h.heaps.length)
    (hrun : h.tuneBudgets condemned survivals = .ok h') : h.Uncounted h' := by
  simp only [tuneBudgets, Checked.bind_eq_ok, Checked.pure_eq_ok] at hrun
  obtain ⟨heaps, hheaps, rfl⟩ := hrun
  refine uncounted_of_heaps (Eq.trans (Checked.map_of_mapM (k := fun x => x.1.ledger) hheaps
    fun x l hl => ?_) (map_zip_fst hlen LogicalHeap.ledger))
  simp only [Checked.bind_eq_ok, Checked.pure_eq_ok] at hl
  obtain ⟨budgets, _, counters, hcounters, rfl⟩ := hl
  exact LogicalHeap.ledger_add (p := .pinnedSurvivors) (by decide) hcounters

theorem uncounted_promoteSurvivors
    (hrun : h.promoteSurvivors condemned summary = .ok (summary', h')) : h.Uncounted h' := by
  simp only [promoteSurvivors, Checked.bind_eq_ok, Checked.pure_eq_ok, Prod.mk.injEq] at hrun
  obtain ⟨h₁, hfold, _, rfl⟩ := hrun
  refine Checked.foldlM_induct (fun k => h.Uncounted k) (fun k x k' _ hk hstep => ?_)
    (frame_uncounted.refl h) hfold
  simp only [promote, Checked.bind_eq_ok, Checked.pure_eq_ok] at hstep
  obtain ⟨mid, hmid, rfl⟩ := hstep
  have hupdated : k.Uncounted mid := uncounted_updateHeap (fun l l' hl => by
    simp only [Checked.bind_eq_ok, Checked.pure_eq_ok] at hl
    obtain ⟨budgets, _, counters, hcounters, rfl⟩ := hl
    exact LogicalHeap.ledger_add (p := .objectsPromoted) (by decide) hcounters) hmid
  exact frame_uncounted.trans hk hupdated

theorem uncounted_syncHeap : Steady Uncounted (syncHeap condemned i) := by
  intro k k' q hrun
  rw [syncHeap_apply] at hrun
  have hsorted : k.Uncounted (k.sortQueue i) := uncounted_modifyHeap fun _ => rfl
  exact frame_uncounted.trans hsorted (uncounted_of_refits (refits_onArena
    (fun hq => SegmentArena.conforms_onTable SegmentTable.constants_promoteRegions hq) hrun))

theorem uncounted_refreshCards (hrun : h.refreshCards condemned consumed = .ok h') :
    h.Uncounted h' := by
  cases consumed with
  | none =>
    simp only [refreshCards, Checked.bind_eq_ok, Checked.pure_eq_ok] at hrun
    obtain ⟨_, _, rfl⟩ := hrun
    exact frame_uncounted.refl h
  | some consumed =>
    simp only [refreshCards, Checked.bind_eq_ok, Checked.pure_eq_ok] at hrun
    obtain ⟨_, _, _, _, rfl⟩ := hrun
    exact frame_uncounted.refl h

/-- Settling counts nothing, also where it breaks off. -/
theorem uncounted_settle (hlen : survivals.length = h.heaps.length)
    {q : Except HeapError CollectionSummary}
    (hrun : settle condemned survivals consumed summary h = .ok (q, h')) : h.Uncounted h' := by
  obtain ⟨h₁, summary₁, h₂, htune, hpromote, hrun⟩ := settle_regroups.1 hrun
  have htidied : h₂.Uncounted h' := steady_tidyUp_of frame_uncounted (fun _ => uncounted_syncHeap)
    (fun _ => steady_decommitEmpty.mono uncounted_of_refits) uncounted_refreshCards hrun
  exact frame_uncounted.trans (uncounted_tuneBudgets hlen htune)
    (frame_uncounted.trans (uncounted_promoteSurvivors hpromote) htidied)

theorem uncounted_applyPlan {p : CompactionPlan} (hrun : applyPlan p h = .ok h') :
    h.Uncounted h' := by
  obtain ⟨-, rfl⟩ | ⟨-, space, -, hrebuild⟩ := applyPlan_stages.1 hrun
  · exact frame_uncounted.refl h
  · have hmodified : h.Uncounted (h.modifyHeaps fun l =>
        { l with finalization := l.finalization.relocate p.forward }) :=
      uncounted_modifyHeaps fun _ => rfl
    exact (uncounted_of_refits (refits_rebuildSegments hrebuild)).trans hmodified

theorem uncounted_countCards {p : DataPoint} {cards : List Nat} (hp : p ≠ .objectsRelocated)
    (hrun : h.countCards p cards = .ok h') : h.Uncounted h' := by
  refine Checked.foldlM_induct (fun k => h.Uncounted k) (fun k card k' _ hk hstep => ?_)
    (frame_uncounted.refl h) hrun
  rw [Checked.bind_eq_ok] at hstep
  obtain ⟨_, _, hstep⟩ := hstep
  refine frame_uncounted.trans hk (uncounted_updateHeap (fun l l' hl => ?_) hstep)
  simp only [Checked.bind_eq_ok, Checked.pure_eq_ok] at hl
  obtain ⟨_, hcounters, rfl⟩ := hl
  exact LogicalHeap.ledger_add hp hcounters

theorem uncounted_scanFinalizable (live : Nat → Bool) :
    h.Uncounted (h.scanFinalizable condemned live).2 := uncounted_modifyHeaps fun _ => rfl

theorem uncounted_markCondemned {scan : CardScan}
    (hrun : h.markCondemned condemned summary = .ok (scan, summary', h')) : h.Uncounted h' := by
  simp only [markCondemned, Checked.bind_eq_ok, Checked.pure_eq_ok, Prod.exists, Prod.mk.injEq] at hrun
  obtain ⟨progress, cards, _, h₁, hscanned, h₂, hfalse, _, _, rfl⟩ := hrun
  have hscan : h₂.Uncounted (h₂.scanFinalizable condemned (Marking.survives h₂.space condemned)).2 :=
    uncounted_scanFinalizable _
  have hcounted := frame_uncounted.trans (uncounted_countCards (p := .cardsScanned) (by decide) hscanned)
    (uncounted_countCards (p := .falsePositiveCards) (by decide) hfalse)
  have hmarked := frame_uncounted.trans hcounted hscan
  exact hmarked

theorem uncounted_finishMarking {b b' : BackgroundMark}
    (hrun : h.finishMarking b = .ok (summary, b', h')) : h.Uncounted h' := by
  simp only [finishMarking, Checked.bind_eq_ok, Checked.pure_eq_ok, Prod.exists,
    Prod.mk.injEq] at hrun
  obtain ⟨n, b₁, _, _, _, rfl⟩ := hrun
  have hscan : h.Uncounted (h.scanFinalizable .gen2 b₁.isLive).2 := uncounted_scanFinalizable _
  exact hscan

end Heap

end GenHeap
