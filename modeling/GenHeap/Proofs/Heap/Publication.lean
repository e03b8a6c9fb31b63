import GenHeap.Proofs.Heap.Display
import GenHeap.Proofs.Heap.Lasting

/-!
Which operations publish. What collects, begins or ends a cycle, analyzes or has run finalizers ends
with a full publication, and until then it leaves the boards alone. What the embedder does to objects
and handles, and what the tracer and the provider do, changes nothing that is shown.
-/

namespace GenHeap

/-- Whether an operation changes nothing that is shown. -/
def Operation.isStill : Operation → Bool
  | writeSlot .. | createHandle .. | freeHandle _ | registerForFinalization _
  | suppressFinalization _ | traceStep | dirtyCard _ | limitCommits _ | failNext .. | refuseNext ..
  | setClock _ => true
  | _ => false

/-- Whether an operation publishes, if it does anything. -/
def Operation.publishes : Operation → Bool
  | collect .. | startBackground | completeBackground | abortBackground | analyze
  | finishReady .. => true
  | _ => false

/-- A logical heap without the entries for finalization that are not ready. -/
def LogicalHeap.unqueued (l : LogicalHeap) : LogicalHeap :=
  { l with finalization := { ready := l.finalization.ready } }

namespace Heap

/-- What is shown of a heap, and where it is shown. -/
structure Scene where
  heaps : List LogicalHeap
  config : Config
  phase : MarkPhase
  collections : Nat
  statistics : Statistics

def scene (h : Heap) : Scene where
  heaps := h.heaps.map (·.unqueued)
  config := h.config
  phase := h.phase
  collections := h.collections
  statistics := h.statistics

/-- The heap `h'` is one that has just been published, and before that had the boards of `h`, the
failures on record there and the ways of growing counted there. -/
def Publishes (h h' : Heap) : Prop := ∃ k : Heap, h' = k.publish ∧ k.views = h.views

variable {h h' : Heap} {i x a size : Nat} {target : Generation} {op : Operation}
  {summary summary' : CollectionSummary}

/-! ## Operations that change nothing that is shown -/

theorem scene_of_heaps {heaps : List LogicalHeap}
    (hheaps : heaps.map (·.unqueued) = h.heaps.map (·.unqueued)) :
    ({ h with heaps } : Heap).scene = h.scene := by
  unfold scene
  simp only [hheaps]
  rfl

theorem scene_modifyHeap {f : LogicalHeap → LogicalHeap}
    (hf : ∀ l, (f l).unqueued = l.unqueued) : (h.modifyHeap i f).scene = h.scene :=
  scene_of_heaps (map_modify_of_same hf _)

theorem scene_writeSlot {object slot value : Nat} {r : Except HeapError Unit}
    (hrun : writeSlot object slot value h = .ok (r, h')) : h'.scene = h.scene := by
  obtain rfl | ⟨_, _, _, _, rfl⟩ := writeSlot_cases hrun <;> rfl

theorem scene_createHandle {kind : HandleKind} {r : Except HeapError Nat}
    (hrun : createHandle kind a h = .ok (r, h')) : h'.scene = h.scene := by
  obtain rfl | ⟨_, _, _, _, rfl⟩ := createHandle_cases hrun <;> rfl

theorem scene_freeHandle {id : Nat} {r : Except HeapError Unit}
    (hrun : freeHandle id h = .ok (r, h')) : h'.scene = h.scene := by
  obtain rfl | ⟨_, _, rfl⟩ := freeHandle_cases hrun <;> rfl

theorem scene_registerForFinalization {object : Nat} {r : Except HeapError Unit}
    (hrun : registerForFinalization object h = .ok (r, h')) : h'.scene = h.scene := by
  obtain ⟨-, rfl⟩ | ⟨q, -, rfl⟩ := registerForFinalization_cases hrun
  · rfl
  · refine Eq.trans (scene_modifyHeap fun l => ?_) rfl
    split <;> rfl

theorem scene_suppressFinalization {object : Nat} {r : Except HeapError Bool}
    (hrun : suppressFinalization object h = .ok (r, h')) : h'.scene = h.scene := by
  obtain ⟨-, rfl⟩ | ⟨q, -, rfl⟩ := suppressFinalization_cases hrun
  · rfl
  · refine Eq.trans (scene_modifyHeap fun l => ?_) rfl
    simp only [LogicalHeap.unqueued, FinalizationQueue.ready_suppress]

theorem scene_traceStep : h.traceStep.scene = h.scene := by
  have hphase : h.traceStep.phase = h.phase := by
    unfold phase traceStep
    rw [Option.map_map]
    congr 2
    funext b
    exact BackgroundMark.map_step (g := BackgroundMark.phase) (fun _ _ _ _ _ => rfl) ..
  unfold scene
  rw [hphase]
  rfl

theorem scene_apply (hop : op.isStill = true) (hrun : op.apply h = .ok h') :
    h'.scene = h.scene := by
  cases op with
  | writeSlot object slot value =>
    obtain ⟨r, hrun⟩ := after_eq_ok.1 hrun
    exact scene_writeSlot hrun
  | createHandle kind a =>
    obtain ⟨r, hrun⟩ := after_eq_ok.1 hrun
    exact scene_createHandle hrun
  | freeHandle id =>
    obtain ⟨r, hrun⟩ := after_eq_ok.1 hrun
    exact scene_freeHandle hrun
  | registerForFinalization object =>
    obtain ⟨r, hrun⟩ := after_eq_ok.1 hrun
    exact scene_registerForFinalization hrun
  | suppressFinalization object =>
    obtain ⟨r, hrun⟩ := after_eq_ok.1 hrun
    exact scene_suppressFinalization hrun
  | traceStep =>
    cases hrun
    exact scene_traceStep
  | dirtyCard | limitCommits | failNext | refuseNext | setClock =>
    cases hrun
    rfl
  | _ => cases hop

/-! ## Operations that publish -/

theorem Publishes.of_views {k : Heap} (hk : k.views = h.views) : h.Publishes k.publish :=
  ⟨k, rfl, hk⟩

theorem Publishes.views (hp : h.Publishes h') : h'.views.map (·.expansions) =
    h.views.map (·.expansions) := by
  obtain ⟨k, rfl, hk⟩ := hp
  rw [← hk]
  unfold Heap.views
  rw [heaps_publish, List.map_map, List.map_map, List.map_map]
  rfl

theorem Publishes.trans {k : Heap} (hp : k.Publishes h') (hk : k.views = h.views) :
    h.Publishes h' := by
  obtain ⟨k', rfl, hk'⟩ := hp
  exact ⟨k', rfl, hk'.trans hk⟩

theorem views_modifyHeaps {f : LogicalHeap → LogicalHeap} (hf : ∀ l, (f l).view = l.view) :
    (h.modifyHeaps f).views = h.views := by
  unfold views modifyHeaps
  rw [List.map_map]
  exact List.map_congr_left fun l _ => hf l

theorem views_modifyHeap {f : LogicalHeap → LogicalHeap} (hf : ∀ l, (f l).view = l.view) :
    (h.modifyHeap i f).views = h.views := map_modify_of_same hf _

theorem views_countMechanism (h : Heap) (m : Mechanism) : (h.countMechanism m).views = h.views :=
  views_modifyHeaps fun l => congrArg LogicalHeap.Lasting.view (lasting_recordMechanism l m)

theorem views_discardCycle (h : Heap) : h.discardCycle.views = h.views := by
  unfold discardCycle
  cases h.background with
  | none => rfl
  | some b =>
    have hsaved := views_modifyHeaps (h := h.countMechanism .backgroundAborted)
      (f := fun l => { l with savedEphemeral := none }) fun _ => rfl
    exact hsaved.trans (views_countMechanism h _)

theorem publishes_finishCollection (hrun : h.finishCollection summary = .ok h') :
    h.Publishes h' := by
  obtain ⟨statistics, -, rfl⟩ := finishCollection_stages.1 hrun
  have hcounted : (h.counted summary).views = h.views :=
    counted_induct (P := fun k => k.views = h.views) rfl fun k m _ hk =>
      (views_countMechanism k m).trans hk
  exact .of_views hcounted

theorem views_of_lasting {k : Heap} (hk : k.lasting.heaps = h.lasting.heaps) :
    k.views = h.views := by
  have hviews := congrArg (List.map LogicalHeap.Lasting.view) hk
  simp only [lasting, List.map_map] at hviews
  exact hviews

theorem publishes_collect {generation : Generation} {reason : CollectionReason}
    (hrun : collect generation reason h = .ok (.ok summary, h')) : h.Publishes h' := by
  obtain ⟨scan, summary₁, h₁, h₂, hmark, hreclaim, hfinish⟩ := collect_stages.1 hrun
  have hbegun : h.beginCollection.views = h.views := views_discardCycle h
  have hmarked : h₁.views = h.beginCollection.views := by
    apply views_of_lasting
    rw [lasting_markCondemned hmark]
  have hreclaimed : h₂.views = h₁.views := (lasts_reclaim hreclaim).views
  exact (publishes_finishCollection hfinish).trans (hreclaimed.trans (hmarked.trans hbegun))

theorem publishes_completeBackground
    (hrun : completeBackground h = .ok (.ok (some summary), h')) : h.Publishes h' := by
  obtain ⟨b, hb⟩ : ∃ b, h.background = some b := by
    refine Option.isSome_iff_exists.1 (Option.isSome_iff_ne_none.2 fun hnone => ?_)
    cases (completeBackground_of_none hnone hrun).1
  obtain ⟨summary₁, b', h₁, h₂, hmark, hreclaim, hfinish⟩ :=
    (completeBackground_stages (background_trace hb)).1 hrun
  have hmarked : h₁.views = h.views := by
    apply views_of_lasting
    rw [lasting_finishMarking hmark]
    rfl
  have hreclaimed : h₂.views = h₁.views := (lasts_reclaim hreclaim).views
  refine (publishes_finishCollection hfinish).trans (Eq.trans ?_ (hreclaimed.trans hmarked))
  exact views_modifyHeaps fun _ => rfl

theorem publishes_beginCycle : h.Publishes h.beginCycle := by
  have hsaved : (h.modifyHeaps fun l => { l with
      savedEphemeral := l.ephemeral?.map fun s => (s.start, s.allocated) }).views = h.views :=
    views_modifyHeaps fun _ => rfl
  exact ⟨_, rfl, hsaved⟩

theorem publishes_analyze {r : Except HeapError HeapAnalysis} (hrun : analyze h = .ok (r, h')) :
    h.Publishes h' := by
  obtain rfl := analyze_cases hrun
  exact .of_views (map_analyzed fun _ _ _ => rfl)

theorem publishes_finishReady (batch : List (Nat × FinalizableEntry)) (report : FinalizerReport) :
    h.Publishes (finishReady batch report h) := by
  have hdone : (h.doneRunning batch).views = h.views := by
    refine doneRunning_induct (P := fun k => k.views = h.views) rfl
      (fun k i object hk => Eq.trans ?_ hk) batch
    exact views_modifyHeap fun _ => rfl
  exact ⟨_, rfl, hdone⟩

theorem publishes_abortBackground {answer : Except HeapError Bool}
    (hrun : abortBackground h = .ok (answer, h')) : h' = h ∨ h.Publishes h' := by
  obtain ⟨-, -, rfl⟩ | ⟨-, -, rfl⟩ := abortBackground_cases hrun
  · exact .inl rfl
  · exact .inr (.of_views (views_discardCycle h))

theorem publishes_apply (hm : h.memory.Sound) (hop : op.publishes = true)
    (hrun : op.apply h = .ok h') : h' = h ∨ h.Publishes h' := by
  cases op with
  | collect generation reason =>
    obtain ⟨r, hrun⟩ := after_eq_ok.1 hrun
    obtain ⟨⟨summary, rfl⟩, _⟩ := leads_collect hm hrun
    exact .inr (publishes_collect hrun)
  | startBackground =>
    obtain ⟨r, hrun⟩ := after_eq_ok.1 hrun
    obtain ⟨-, rfl⟩ | ⟨-, -, rfl⟩ := startBackground_cases hrun
    · exact .inl rfl
    · exact .inr publishes_beginCycle
  | completeBackground =>
    obtain ⟨r, hrun⟩ := after_eq_ok.1 hrun
    cases hb : h.background with
    | none => exact .inl (completeBackground_of_none hb hrun).2
    | some b =>
      obtain ⟨summary, _, rfl, _⟩ := completeBackground_eq_ok hm hb hrun
      exact .inr (publishes_completeBackground hrun)
  | abortBackground =>
    obtain ⟨r, hrun⟩ := after_eq_ok.1 hrun
    exact publishes_abortBackground hrun
  | analyze =>
    obtain ⟨r, hrun⟩ := after_eq_ok.1 hrun
    exact .inr (publishes_analyze hrun)
  | finishReady batch report =>
    cases hrun
    exact .inr (publishes_finishReady batch report)
  | _ => cases hop

/-! ## All operations -/

theorem views_of_scene (hscene : h'.scene = h.scene) : h'.views = h.views := by
  have hviews := congrArg (fun s : Scene => s.heaps.map (·.view)) hscene
  simp only [scene, List.map_map] at hviews
  exact hviews

theorem views_takeReady : h.takeReady.2.views = h.views := views_modifyHeaps fun _ => rfl

/-- What is no allocation either leaves boards and failures alone or publishes. -/
theorem faces_apply (hm : h.memory.Sound) (hnew : ∀ i request, op ≠ .allocate i request)
    (hrun : op.apply h = .ok h') : h'.faces = h.faces ∨ h.Publishes h' := by
  have hpublishes (hop : op.publishes = true) : h'.faces = h.faces ∨ h.Publishes h' := by
    rcases publishes_apply hm hop hrun with rfl | hp
    · exact .inl rfl
    · exact .inr hp
  cases op with
  | allocate i request => exact absurd rfl (hnew i request)
  | findBlock i target size =>
    obtain ⟨r, hrun⟩ := after_eq_ok.1 hrun
    exact .inl (faces_of_refits (refits_tryPlace hrun))
  | takeReady =>
    cases hrun
    exact .inl (faces_of_views views_takeReady)
  | collect | startBackground | completeBackground | abortBackground | analyze | finishReady =>
    exact hpublishes rfl
  | _ => exact .inl (faces_of_views (views_of_scene (scene_apply rfl hrun)))

end Heap

end GenHeap
