import GenHeap.Heap.Finalizers
import GenHeap.Proofs.Faults

/-!
No step of a heap but the check after reclaiming finds it corrupt.
-/

namespace GenHeap

open Checked (Intact)

namespace Heap

variable {h : Heap} {i : Nat} {condemned : Generation} {α : Type}

/-! ## Logical heaps and arenas -/

@[simp] theorem intact_updateHeap {f : LogicalHeap → Checked LogicalHeap}
    (hf : ∀ l, (f l).Intact) : (h.updateHeap i f).Intact := by
  unfold updateHeap
  split <;> simp [hf]

@[simp] theorem intact_count (p : DataPoint) (amount : Nat) : (h.count i p amount).Intact := by
  simp [count]

@[simp] theorem intact_onArena {t : Transition SegmentArena α} (ht : ∀ a, Intact (t a)) :
    Intact (onArena i t h) := by
  simp [onArena, ht]

/-! ## Sweeping and compaction -/

@[simp] theorem intact_rebuildSegments : h.rebuildSegments.Intact := by simp [rebuildSegments]

@[simp] theorem intact_addInputs (inputs : CompactionInputs) (s : Segment) :
    (addInputs condemned inputs s).Intact := by
  unfold addInputs
  split <;> simp

@[simp] theorem intact_ephemeralRoom (l : LogicalHeap) : (ephemeralRoom l).Intact := by
  unfold ephemeralRoom
  split <;> simp

@[simp] theorem intact_compactionInputs (l : LogicalHeap) (reason : CollectionReason)
    (s : Survival) : (compactionInputs l condemned reason s).Intact := by
  simp [compactionInputs]

@[simp] theorem intact_planHeap (reason : CollectionReason) (fixed : Std.TreeSet Nat)
    (l : LogicalHeap) (s : Survival) (plan : CompactionPlan) :
    (h.planHeap condemned reason fixed l s plan).Intact := by
  rw [planHeap, Checked.intact_bind]
  refine ⟨intact_compactionInputs l reason s, fun inputs _ => ?_⟩
  cases inputs.decide? h.config.tuning <;> simp

@[simp] theorem intact_planHeaps (reason : CollectionReason) (fixed : Std.TreeSet Nat)
    (heaps : List (LogicalHeap × Survival)) (plan : CompactionPlan) :
    (h.planHeaps condemned reason fixed heaps plan).Intact := by
  induction heaps generalizing plan with
  | nil => simp [planHeaps]
  | cons x heaps ih => simp [planHeaps, ih]

@[simp] theorem intact_compact (fixed : Std.TreeSet Nat) (survivals : List Survival)
    (summary : CollectionSummary) : (h.compact condemned fixed survivals summary).Intact := by
  simp [compact, applyPlan]

/-! ## Settling -/

@[simp] theorem intact_tuneBudgets (survivals : List Survival) :
    (h.tuneBudgets condemned survivals).Intact := by
  simp [tuneBudgets]

@[simp] theorem intact_promote (a : Nat) (r : Record) : (h.promote a r).Intact := by simp [promote]

@[simp] theorem intact_promoteSurvivors (summary : CollectionSummary) :
    (h.promoteSurvivors condemned summary).Intact := by
  simp [promoteSurvivors]

@[simp] theorem intact_syncHeap : Intact (syncHeap condemned i h) := by simp [syncHeap]

@[simp] theorem intact_decommitSegment (active : Option Nat) (kept id : Nat) :
    Intact (decommitSegment i active kept id h) := by
  simp [decommitSegment]

@[simp] theorem intact_decommitGeneration (kept : Nat) (g : Generation) :
    Intact (decommitGeneration i kept g h) := by
  simp [decommitGeneration]

@[simp] theorem intact_decommitEmpty : Intact (decommitEmpty i h) := by simp [decommitEmpty]

@[simp] theorem intact_markYoungerAll (space : ObjectSpace) (cards : CardTable)
    (objects : List (Nat × Record)) : (markYoungerAll space cards objects).Intact := by
  simp [markYoungerAll, markYounger]

@[simp] theorem intact_refreshCard (space : ObjectSpace) (cards : CardTable) (card : Nat) :
    (refreshCard space cards card).Intact := by
  simp [refreshCard]

@[simp] theorem intact_refreshCards (consumed : Option (List Nat)) :
    (h.refreshCards condemned consumed).Intact := by
  unfold refreshCards
  cases consumed <;> simp

@[simp] theorem intact_reclaimUnchecked (live : Nat → Record → Bool) (compacts : Bool)
    (consumed : Option (List Nat)) (summary : CollectionSummary) :
    Intact (reclaimUnchecked condemned live compacts consumed summary h) := by
  simp [reclaimUnchecked, settle]

/-! ## Collections and cycles -/

@[simp] theorem intact_heapOfCard (card : Nat) : (h.heapOfCard card).Intact := by simp [heapOfCard]

@[simp] theorem intact_countCards (p : DataPoint) (cards : List Nat) :
    (h.countCards p cards).Intact := by
  simp [countCards]

@[simp] theorem intact_markCondemned (summary : CollectionSummary) :
    (h.markCondemned condemned summary).Intact := by
  simp [markCondemned]

@[simp] theorem intact_finishCollection (summary : CollectionSummary) :
    (h.finishCollection summary).Intact := by
  simp [finishCollection]

@[simp] theorem intact_finishMarking (cycle : BackgroundMark) : (h.finishMarking cycle).Intact := by
  simp [finishMarking]

@[simp] theorem intact_startBackground : Intact (startBackground h) := by simp [startBackground]

@[simp] theorem intact_abortBackground : Intact (abortBackground h) := by simp [abortBackground]

/-! ## Placing objects -/

@[simp] theorem intact_fail (reason : OutOfMemory.Reason) (size : Nat) (target : Generation) :
    Intact (fail i reason size target h : Checked (Except HeapError α × Heap)) := by
  simp [fail]

@[simp] theorem intact_tryArena {t : Transition SegmentArena α} (ht : ∀ a, Intact (t a)) :
    Intact (tryArena i t h) := by
  rw [tryArena, Checked.intact_bind]
  exact ⟨intact_onArena ht, fun _ _ => Checked.intact_pure _⟩

@[simp] theorem intact_takeFree (size : Nat) (t : SegmentTable) (ids : List Nat) :
    (takeFree size t ids).Intact := by
  induction ids generalizing t with
  | nil => simp [takeFree]
  | cons id ids ih =>
    rw [takeFree, Checked.intact_bind]
    refine ⟨SegmentTable.intact_takeFree id size, fun answer _ => ?_⟩
    obtain ⟨found, t⟩ := answer
    cases found <;> simp [ih]

@[simp] theorem intact_placeInNew (target : Generation) (size : Nat) (l : LogicalHeap) :
    Intact (placeInNew i target size l h) := by
  rw [placeInNew, Effect.lift_bind, Checked.intact_bind]
  refine ⟨SegmentTable.intact_freeBytesFor target, fun free _ => ?_⟩
  rw [Effect.intact_bind]
  refine ⟨intact_tryArena fun _ => SegmentArena.intact_grow target size, fun answer h₁ _ => ?_⟩
  cases answer with
  | error e => simp
  | ok growth =>
    dsimp only
    rw [Effect.modify_bind, Effect.intact_bind]
    refine ⟨intact_tryArena fun _ => SegmentArena.intact_bump growth.segment size,
      fun answer h₂ _ => ?_⟩
    rcases answer with e | _ | a <;> simp

@[simp] theorem intact_place (target : Generation) (size : Nat) :
    Intact (place i target size h) := by
  rw [place, Effect.get_bind, Effect.intact_ite]
  refine ⟨fun _ => Effect.intact_throw _, fun _ => ?_⟩
  cases h.heaps[i]? with
  | none => exact Effect.intact_throw _
  | some l =>
    dsimp only
    rw [Effect.lift_bind, Checked.intact_bind]
    refine ⟨intact_takeFree size l.segments _, fun found _ => ?_⟩
    cases found with
    | some p => simp
    | none =>
      dsimp only
      cases l.segments.allocSegment? target with
      | none => exact intact_placeInNew target size l
      | some id =>
        dsimp only
        rw [Effect.intact_bind]
        refine ⟨intact_tryArena fun _ => SegmentArena.intact_bump id size, fun answer h₁ _ => ?_⟩
        rcases answer with e | _ | a <;> simp

@[simp] theorem intact_tryPlace (target : Generation) (size : Nat) :
    Intact (tryPlace i target size h) := by
  rw [tryPlace, Checked.intact_bind]
  exact ⟨intact_place target size, fun _ _ => Checked.intact_pure _⟩

@[simp] theorem intact_install (request : AllocRequest) (target : Generation)
    (size a segment : Nat) : (h.install i request target size a segment).Intact := by
  simp [install]

/-! ## What the embedder does -/

@[simp] theorem intact_writeSlot (object slot target : Nat) :
    Intact (writeSlot object slot target h) := by
  simp [writeSlot]

@[simp] theorem intact_createHandle (kind : HandleKind) (target : Nat) :
    Intact (createHandle kind target h) := by
  simp [createHandle]

@[simp] theorem intact_freeHandle (id : Nat) : Intact (freeHandle id h) := by simp [freeHandle]

@[simp] theorem intact_registerForFinalization (object : Nat) :
    Intact (registerForFinalization object h) := by
  simp [registerForFinalization]

@[simp] theorem intact_suppressFinalization (object : Nat) :
    Intact (suppressFinalization object h) := by
  simp [suppressFinalization]

@[simp] theorem intact_analyze : Intact (analyze h) := by simp [analyze]

end Heap

end GenHeap
