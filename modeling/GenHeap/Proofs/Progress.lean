import GenHeap.Address
import GenHeap.Proofs.Effect

/-!
Computations that do not fault. A sequence runs if its first part runs and what follows runs on
whatever the first part answers, so what is known of an answer can be used for the rest; a loop
runs if every step of it runs and keeps what the next one needs.
-/

namespace GenHeap

variable {ε σ τ α β : Type}

namespace Checked

/-- The computation ends without a fault. -/
def Runs (c : Checked α) : Prop := ∃ a, c = .ok a

variable {c d : Checked α} {f : α → Checked β}

@[simp] theorem runs_ok (a : α) : Runs (.ok a : Checked α) := ⟨a, rfl⟩

@[simp] theorem runs_pure (a : α) : Runs (pure a : Checked α) := ⟨a, rfl⟩

@[simp] theorem not_runs_error (e : Fault) : ¬ Runs (.error e : Checked α) := nofun

@[simp] theorem not_runs_throw (e : Fault) : ¬ Runs (throw e : Checked α) := nofun

@[simp] theorem runs_bind : (c >>= f).Runs ↔ c.Runs ∧ ∀ a, c = .ok a → (f a).Runs := by
  cases c with
  | error e => simp [Runs, bind, Except.bind]
  | ok a => simp [Runs, bind, Except.bind]

@[simp] theorem runs_map {f : α → β} : (f <$> c).Runs ↔ c.Runs := by
  cases c with
  | error e => simp [Runs, Functor.map, Except.map]
  | ok a => simp [Runs, Functor.map, Except.map]

@[simp] theorem runs_ite {p : Prop} [Decidable p] :
    (if p then c else d).Runs ↔ (p → c.Runs) ∧ (¬ p → d.Runs) := by
  split <;> simp [*]

/-- A loop with a condition on the entries to come and the value so far. -/
theorem exists_foldlM_rest {f : β → α → Checked β} (P : List α → β → Prop)
    (hstep : ∀ x rest b, P (x :: rest) b → ∃ b', f b x = .ok b' ∧ P rest b') {xs : List α} {b : β}
    (h : P xs b) : ∃ b', xs.foldlM f b = .ok b' ∧ P [] b' := by
  induction xs generalizing b with
  | nil => exact ⟨b, rfl, h⟩
  | cons x xs ih =>
    obtain ⟨b₁, hx, h₁⟩ := hstep x xs b h
    obtain ⟨b', hxs, h'⟩ := ih h₁
    rw [List.foldlM_cons, hx]
    exact ⟨b', hxs, h'⟩

theorem foldlM_of_fixed {f : β → α → Checked β} {xs : List α} {b : β}
    (h : ∀ x ∈ xs, f b x = .ok b) : xs.foldlM f b = .ok b := by
  induction xs with
  | nil => rfl
  | cons x xs ih =>
    rw [List.forall_mem_cons] at h
    rw [List.foldlM_cons, h.1]
    exact ih h.2

theorem exists_mapM_all {f : α → Checked β} {P : β → Prop} {xs : List α}
    (h : ∀ x ∈ xs, ∃ y, f x = .ok y ∧ P y) : ∃ ys, xs.mapM f = .ok ys ∧ ∀ y ∈ ys, P y := by
  induction xs with
  | nil => exact ⟨[], rfl, fun y hy => nomatch hy⟩
  | cons x xs ih =>
    rw [List.forall_mem_cons] at h
    obtain ⟨y, hy, hP⟩ := h.1
    obtain ⟨ys, hys, hall⟩ := ih h.2
    exact ⟨y :: ys, by rw [List.mapM_cons, hy, hys]; rfl, List.forall_mem_cons.2 ⟨hP, hall⟩⟩

theorem runs_mapM {f : α → Checked β} {xs : List α} (h : ∀ x ∈ xs, (f x).Runs) :
    (xs.mapM f).Runs := by
  obtain ⟨ys, hys, _⟩ := exists_mapM_all (P := fun _ => True) fun x hx =>
    (h x hx).imp fun _ hy => ⟨hy, trivial⟩
  exact ⟨ys, hys⟩

end Checked

open Checked (Runs)

namespace Effect

variable {t : Effect ε σ α} {u : Effect ε σ α} {f : α → Effect ε σ β} {s : σ}

@[simp] theorem runs_bind : Runs ((t >>= f) s) ↔
    Runs (t s) ∧ ∀ a s', t s = .ok (.ok a, s') → Runs (f a s') := by
  change Runs (StateT.bind (ExceptT.run t) _ s) ↔ _
  unfold StateT.bind
  rw [Checked.runs_bind]
  apply and_congr_right
  intro _
  constructor
  · intro h a s' hrun
    exact h (.ok a, s') hrun
  · intro h x hrun
    obtain ⟨q, s'⟩ := x
    cases q with
    | ok a => exact h a s' hrun
    | error e => exact Checked.runs_ok _

@[simp] theorem runs_ite {p : Prop} [Decidable p] :
    Runs ((if p then t else u) s) ↔ (p → Runs (t s)) ∧ (¬ p → Runs (u s)) := by
  split <;> simp [*]

@[simp] theorem runs_get : Runs ((get : Effect ε σ σ) s) := ⟨_, rfl⟩

@[simp] theorem runs_set (x : σ) : Runs ((set x : Effect ε σ PUnit) s) := ⟨_, rfl⟩

@[simp] theorem runs_modify (g : σ → σ) : Runs ((modify g : Effect ε σ PUnit) s) := ⟨_, rfl⟩

@[simp] theorem runs_pure (a : α) : Runs ((pure a : Effect ε σ α) s) := ⟨_, rfl⟩

@[simp] theorem runs_map {f : α → β} : Runs ((f <$> t) s) ↔ Runs (t s) := by
  rw [map_eq_pure_bind, runs_bind]
  simp

@[simp] theorem runs_throw (e : ε) : Runs ((throw e : Effect ε σ α) s) := ⟨_, rfl⟩

@[simp] theorem runs_lift {c : Checked α} : Runs ((liftM c : Effect ε σ α) s) ↔ c.Runs := by
  rw [lift_apply]
  simp

theorem runs_lift_bind {c : Checked α} {f : α → Effect ε σ β} :
    Runs (((liftM c : Effect ε σ α) >>= f) s) ↔ c.Runs ∧ ∀ a, c = .ok a → Runs (f a s) := by
  rw [lift_bind, Checked.runs_bind]

/-- A loop whose steps keep a condition on the state, also where they end in an error. -/
theorem runs_foldlM {f : β → α → Effect ε σ β} (I : σ → Prop) {xs : List α} {b : β}
    (hstep : ∀ b x s, x ∈ xs → I s → Runs (f b x s) ∧ ∀ r s', f b x s = .ok (r, s') → I s') {s : σ}
    (hs : I s) : Runs (xs.foldlM f b s) ∧ ∀ r s', xs.foldlM f b s = .ok (r, s') → I s' := by
  induction xs generalizing b s with
  | nil =>
    constructor
    · exact runs_pure b
    · intro r s' h
      cases h
      exact hs
  | cons x xs ih =>
    have hx := hstep b x s List.mem_cons_self hs
    have hxs : ∀ b s, I s → _ := fun b s => ih (b := b) (s := s)
      fun b y s hy => hstep b y s (List.mem_cons_of_mem x hy)
    rw [List.foldlM_cons]
    constructor
    · rw [runs_bind]
      exact ⟨hx.1, fun b' s' hrun => (hxs b' s' (hx.2 _ _ hrun)).1⟩
    · intro r s' h
      obtain ⟨b', s₁, hrun, hrest⟩ | ⟨e, hrun, rfl⟩ := bind_eq_ok.1 h
      · exact (hxs b' s₁ (hx.2 _ _ hrun)).2 r s' hrest
      · exact hx.2 _ _ hrun

theorem runs_forM {f : α → Effect ε σ PUnit} (I : σ → Prop) {xs : List α}
    (hstep : ∀ x s, x ∈ xs → I s → Runs (f x s) ∧ ∀ r s', f x s = .ok (r, s') → I s') {s : σ}
    (hs : I s) : Runs (xs.forM f s) ∧ ∀ r s', xs.forM f s = .ok (r, s') → I s' := by
  induction xs generalizing s with
  | nil =>
    constructor
    · exact runs_pure PUnit.unit
    · intro r s' h
      cases h
      exact hs
  | cons x xs ih =>
    have hx := hstep x s List.mem_cons_self hs
    have hxs : ∀ s, I s → _ := fun s => ih (s := s)
      fun y s hy => hstep y s (List.mem_cons_of_mem x hy)
    rw [List.forM_eq_forM, List.forM_cons]
    constructor
    · rw [runs_bind]
      exact ⟨hx.1, fun b' s' hrun => (hxs s' (hx.2 _ _ hrun)).1⟩
    · intro r s' h
      obtain ⟨b', s₁, hrun, hrest⟩ | ⟨e, hrun, rfl⟩ := bind_eq_ok.1 h
      · exact (hxs s₁ (hx.2 _ _ hrun)).2 r s' hrest
      · exact hx.2 _ _ hrun

end Effect

namespace Transition

@[simp] theorem runs_ofExcept (r : Except HeapError α) (s : σ) :
    Runs (ofExcept r s : Checked (Except HeapError α × σ)) := ⟨_, rfl⟩

@[simp] theorem runs_onPart {get : σ → τ} {put : τ → σ → σ} {t : Transition τ α} {s : σ} :
    Runs (t.onPart get put s) ↔ Runs (t (get s)) := by
  change Runs (t (get s) >>= fun x => pure (x.1, put x.2 s)) ↔ _
  simp

end Transition

/-! ## Words and ranges -/

namespace Word

variable {a b n : Nat}

@[simp] theorem runs_fit : Runs (fit n) ↔ n < count := by
  unfold fit
  split <;> simp [*]

@[simp] theorem runs_add : Runs (add a b) ↔ a + b < count := runs_fit

@[simp] theorem runs_sub : Runs (sub a b) ↔ b ≤ a := by
  unfold sub
  split <;> simp [*]

@[simp] theorem runs_requireCapacity : Runs (requireCapacity a b) ↔ a * b < signBit := by
  unfold requireCapacity
  split <;> simp [*]

theorem runs_alignUp : Runs (alignUp a b) ↔ isPowerOfTwo b = true ∧ a + b < count := by
  cases h : isPowerOfTwo b <;> simp [alignUp, h]

theorem runs_alignUp? : Runs (alignUp? a b) ↔ isPowerOfTwo b = true := by
  cases h : isPowerOfTwo b <;> simp [alignUp?, h]

end Word

@[simp] theorem AddressRange.runs_stop {r : AddressRange} :
    Runs r.stop ↔ r.start + r.size < Word.count :=
  Word.runs_add

end GenHeap
