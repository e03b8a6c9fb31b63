import GenHeap.Proofs.Heap.Stages

/-!
Relations that operations keep between the heap before and after, part by part: what the parts of a
loop keep the loop keeps, and making room in the budget and finding a place keep what their
collections keep.
-/

namespace GenHeap

namespace Heap

variable {α β : Type} {i size : Nat} {condemned target : Generation}

/-- A relation between the states before and after that a run keeps if its steps do. -/
structure Frame (R : Heap → Heap → Prop) : Prop where
  refl : ∀ k, R k k
  trans : ∀ {k k' k''}, R k k' → R k' k'' → R k k''

/-- An operation that keeps a relation, whatever it answers. -/
def Steady {α : Type} (R : Heap → Heap → Prop) (t : Transition Heap α) : Prop :=
  ∀ ⦃k k' : Heap⦄ ⦃q : Except HeapError α⦄, t k = .ok (q, k') → R k k'

variable {R R' : Heap → Heap → Prop}

theorem Steady.mono {t : Transition Heap α} (ht : Steady R t) (hR : ∀ {k k'}, R k k' → R' k k') :
    Steady R' t := fun _ _ _ hrun => hR (ht hrun)

theorem steady_bind (hR : Frame R) {t : Transition Heap α} {f : α → Transition Heap β}
    (ht : Steady R t) (hf : ∀ a, Steady R (f a)) : Steady R (t >>= f) := by
  intro k k' q hrun
  rw [Effect.bind_eq_ok] at hrun
  rcases hrun with ⟨a, k₁, hfirst, hrun⟩ | ⟨e, hfirst, _⟩
  · exact hR.trans (ht hfirst) (hf a hrun)
  · exact ht hfirst

theorem steady_pure (hR : Frame R) (a : α) : Steady R (pure a) := by
  intro k k' q hrun
  cases hrun
  exact hR.refl k

theorem steady_foldlM (hR : Frame R) {f : β → α → Transition Heap β} (hf : ∀ b a, Steady R (f b a))
    (xs : List α) (b : β) : Steady R (xs.foldlM f b) := by
  induction xs generalizing b with
  | nil => exact steady_pure hR b
  | cons x xs ih =>
    rw [List.foldlM_cons]
    exact steady_bind hR (hf b x) fun b' => ih b'

theorem steady_forM (hR : Frame R) {f : α → Transition Heap PUnit} (hf : ∀ a, Steady R (f a))
    (xs : List α) : Steady R (xs.forM f) := by
  induction xs with
  | nil => exact steady_pure hR _
  | cons x xs ih => exact steady_bind hR (hf x) fun _ => ih

theorem steady_fetchHeap (hR : Frame R) {f : LogicalHeap → Transition Heap α}
    (hf : ∀ l, Steady R (f l)) :
    Steady R (do f (← Transition.ofExcept ((← get).fetchHeap i))) := by
  intro k k' q hrun
  rw [Effect.get_bind, Transition.ofExcept_bind] at hrun
  cases hl : k.fetchHeap i with
  | error e =>
    rw [hl] at hrun
    cases hrun
    exact hR.refl k
  | ok l =>
    rw [hl] at hrun
    exact hf l hrun

/-! ## Empty segments -/

theorem steady_decommitSegment_of (hR : Frame R) {active : Option Nat} {kept id : Nat}
    (hone : ∀ ⦃k k' : Heap⦄ ⦃q : Except HeapError Bool⦄,
      onArena i (SegmentArena.decommitIfEmpty id k.space) k = .ok (q, k') → R k k') :
    Steady R (decommitSegment i active kept id) := by
  intro k k' q hrun
  obtain rfl | ⟨-, _, -, b, hback⟩ := decommitSegment_stays hrun
  · exact hR.refl k
  · exact hone hback

/-- Giving empty segments back keeps what giving one back keeps. -/
theorem steady_decommitEmpty_of (hR : Frame R)
    (hone : ∀ (id : Nat) ⦃k k' : Heap⦄ ⦃q : Except HeapError Bool⦄,
      onArena i (SegmentArena.decommitIfEmpty id k.space) k = .ok (q, k') → R k k') :
    Steady R (decommitEmpty i) := by
  have hgeneration (kept : Nat) (g : Generation) : Steady R (decommitGeneration i kept g) :=
    steady_fetchHeap hR fun l =>
      steady_foldlM hR (fun _ id => steady_decommitSegment_of hR (hone id)) _ kept
  exact steady_bind hR (steady_foldlM hR hgeneration _ 0) fun _ => steady_pure hR _

/-- What follows when the budgets are tuned and the survivors promoted keeps what its parts keep. -/
theorem steady_tidyUp_of (hR : Frame R) {consumed : Option (List Nat)} {summary : CollectionSummary}
    (hsync : ∀ i, Steady R (syncHeap condemned i)) (hback : ∀ i, Steady R (decommitEmpty i))
    (hrefresh : ∀ {k k' : Heap}, k.refreshCards condemned consumed = .ok k' → R k k') {n : Nat} :
    Steady R (tidyUp condemned consumed summary n) := by
  refine steady_bind hR (steady_forM hR hsync _) fun _ =>
    steady_bind hR (steady_forM hR hback _) fun _ => ?_
  intro k k' q hlast
  simp only [Effect.get_bind, Effect.lift_bind, Effect.set_bind, Checked.bind_eq_ok] at hlast
  obtain ⟨k₁, hk₁, hlast⟩ := hlast
  cases hlast
  exact hrefresh hk₁

/-! ## Room in the budget -/

theorem steady_collectFor (hR : Frame R)
    (hcollect : ∀ c, Steady R (collect c .allocationBudget)) (hstart : Steady R startBackground) :
    Steady R (collectFor i target size condemned) := by
  have hcollect : Steady R (collect condemned .allocationBudget >>= fun _ => pure ()) :=
    steady_bind hR (hcollect condemned) fun _ => steady_pure hR _
  intro k k' q hrun
  unfold collectFor at hrun
  rw [Effect.get_bind] at hrun
  split at hrun
  · split at hrun
    · cases hrun
      exact hR.refl k
    · exact hcollect hrun
  · split at hrun
    · refine steady_bind hR hstart (fun started => ?_) hrun
      cases started with
      | true => exact steady_pure hR _
      | false => exact hcollect
    · exact hcollect hrun

/-- Making room in the budget keeps what each of its steps keeps. -/
theorem steady_requireBudget_of (hR : Frame R)
    (hcollect : ∀ c, Steady R (collect c .allocationBudget)) (hstart : Steady R startBackground)
    (hcomplete : Steady R completeBackground) : Steady R (requireBudget i target size) := by
  have hcollectFor {c : Generation} : Steady R (collectFor i target size c) :=
    steady_collectFor hR hcollect hstart
  intro k k' q hrun
  unfold requireBudget at hrun
  rw [Effect.get_bind] at hrun
  cases hover : k.condemned? i target size with
  | none =>
    simp only [hover] at hrun
    cases hrun
    exact hR.refl k
  | some condemned =>
    simp only [hover] at hrun
    split at hrun
    · refine steady_bind hR hcomplete (fun _ => ?_) hrun
      intro k₁ k₂ q₁ hrun₁
      rw [Effect.get_bind] at hrun₁
      cases hstill : k₁.condemned? i target size with
      | none =>
        simp only [hstill] at hrun₁
        cases hrun₁
        exact hR.refl k₁
      | some condemned =>
        simp only [hstill] at hrun₁
        exact hcollectFor hrun₁
    · exact hcollectFor hrun

/-! ## A place, or a last collection -/

theorem steady_placeOrCollect_of (hR : Frame R) (hplace : Steady R (tryPlace i target size))
    (hcollect : Steady R (collect .gen2 .lastBeforeOutOfMemory))
    (hfail : ∀ reason, Steady R (fail (α := Nat × Nat) i reason size target)) :
    Steady R (placeOrCollect i target size) := by
  unfold placeOrCollect
  refine steady_bind hR hplace fun first => ?_
  cases first with
  | ok p => exact steady_pure hR p
  | error _ =>
    refine steady_bind hR hcollect fun _ => steady_bind hR hplace fun second => ?_
    cases second with
    | ok p => exact steady_pure hR p
    | error reason => exact hfail reason

end Heap

end GenHeap
