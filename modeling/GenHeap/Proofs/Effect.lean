import GenHeap.Transition

/-!
Taking computations apart: what a run that ended in some outcome did on the way. The lemmas on
primitive steps compute, the one on `bind` splits a run into its two halves.
-/

namespace GenHeap

variable {ε σ τ α β : Type}

theorem Checked.bind_eq_ok {c : Checked α} {f : α → Checked β} {b : β} :
    (c >>= f) = .ok b ↔ ∃ a, c = .ok a ∧ f a = .ok b := by
  cases c with
  | error e => simp [bind, Except.bind]
  | ok a => simp [bind, Except.bind]

theorem Checked.stateT_bind_eq_ok {σ : Type} {t : StateT σ Checked α} {f : α → StateT σ Checked β}
    {s s' : σ} {b : β} :
    (t >>= f) s = .ok (b, s') ↔ ∃ a s₁, t s = .ok (a, s₁) ∧ f a s₁ = .ok (b, s') := by
  show (t s >>= fun x => f x.1 x.2) = _ ↔ _
  rw [Checked.bind_eq_ok]
  exact ⟨fun ⟨⟨a, s₁⟩, hab⟩ => ⟨a, s₁, hab⟩, fun ⟨a, s₁, hab⟩ => ⟨(a, s₁), hab⟩⟩

theorem Checked.pure_eq_ok {a b : α} : (pure a : Checked α) = .ok b ↔ a = b := by
  simp [pure, Except.pure]

theorem Checked.throw_ne_ok {f : Fault} {b : α} : (throw f : Checked α) ≠ .ok b := by
  simp [throw, throwThe, MonadExceptOf.throw]

/-- The outcome of a computation that passes a check. -/
theorem Checked.of_any {c : Checked α} {p : α → Bool} (h : c.toOption.any p = true) :
    ∃ a, c = .ok a ∧ p a = true := by
  cases c with
  | error e => cases h
  | ok a => exact ⟨a, rfl, h⟩

/-- What holds at the start of a loop and is kept by every round holds at its end. -/
theorem Checked.foldlM_induct {f : β → α → Checked β} (I : β → Prop) {xs : List α} {b b' : β}
    (hstep : ∀ b x b', x ∈ xs → I b → f b x = .ok b' → I b') (hb : I b)
    (h : xs.foldlM f b = .ok b') : I b' := by
  induction xs generalizing b with
  | nil =>
    rw [List.foldlM_nil, Checked.pure_eq_ok] at h
    exact h ▸ hb
  | cons x xs ih =>
    rw [List.foldlM_cons, Checked.bind_eq_ok] at h
    obtain ⟨b₁, h₁, h₂⟩ := h
    refine ih (fun b y b' hy => hstep b y b' (List.mem_cons_of_mem _ hy)) ?_ h₂
    exact hstep b x b₁ List.mem_cons_self hb h₁

/-- The results of a loop that maps a list stand at the places of their sources. -/
theorem Checked.mapM_getElem? {f : α → Checked β} {xs : List α} {ys : List β}
    (h : xs.mapM f = .ok ys) (i : Nat) :
    (xs[i]? = none ∧ ys[i]? = none) ∨
      ∃ x y, xs[i]? = some x ∧ ys[i]? = some y ∧ f x = .ok y := by
  induction xs generalizing ys i with
  | nil =>
    rw [List.mapM_nil, Checked.pure_eq_ok] at h
    subst h
    exact .inl ⟨rfl, rfl⟩
  | cons x xs ih =>
    rw [List.mapM_cons, Checked.bind_eq_ok] at h
    obtain ⟨y, hy, h⟩ := h
    rw [Checked.bind_eq_ok] at h
    obtain ⟨zs, hzs, h⟩ := h
    rw [Checked.pure_eq_ok] at h
    subst h
    cases i with
    | zero => exact .inr ⟨x, y, rfl, rfl, hy⟩
    | succ i => simpa only [List.getElem?_cons_succ] using ih hzs i

theorem Checked.mapM_length {f : α → Checked β} {xs : List α} {ys : List β}
    (h : xs.mapM f = .ok ys) : ys.length = xs.length := by
  induction xs generalizing ys with
  | nil =>
    rw [List.mapM_nil, Checked.pure_eq_ok] at h
    exact h ▸ rfl
  | cons x xs ih =>
    rw [List.mapM_cons, Checked.bind_eq_ok] at h
    obtain ⟨y, hy, h⟩ := h
    rw [Checked.bind_eq_ok] at h
    obtain ⟨zs, hzs, h⟩ := h
    rw [Checked.pure_eq_ok] at h
    subst h
    rw [List.length_cons, List.length_cons, ih hzs]

/-- What is read off the results can be read off the sources, if one result shows it. -/
theorem Checked.map_of_mapM {γ : Type} {f : α → Checked β} {xs : List α} {ys : List β} {g : β → γ}
    {k : α → γ} (h : xs.mapM f = .ok ys) (hf : ∀ x y, f x = .ok y → g y = k x) :
    ys.map g = xs.map k := by
  apply List.ext_getElem?
  intro i
  rw [List.getElem?_map, List.getElem?_map]
  rcases Checked.mapM_getElem? h i with ⟨hx, hy⟩ | ⟨x, y, hx, hy, hxy⟩
  · rw [hx, hy]
    rfl
  · rw [hx, hy, Option.map_some, Option.map_some, hf x y hxy]

/-- Two loops side by side, over lists of which `c` reads the same: what a round of the one has done,
a round of the other does too, up to `d`. -/
theorem Checked.exists_mapM {γ δ : Type} {f g : α → Checked β} {c : α → γ} {d : β → δ}
    {xs xs' : List α} {ys : List β}
    (hround : ∀ x x' y, c x' = c x → f x = .ok y → ∃ y', g x' = .ok y' ∧ d y' = d y)
    (hxs : xs'.map c = xs.map c) (h : xs.mapM f = .ok ys) :
    ∃ ys', xs'.mapM g = .ok ys' ∧ ys'.map d = ys.map d := by
  induction xs generalizing xs' ys with
  | nil =>
    cases h
    rw [List.map_nil, List.map_eq_nil_iff] at hxs
    subst hxs
    exact ⟨[], rfl, rfl⟩
  | cons x xs ih =>
    cases xs' with
    | nil => cases hxs
    | cons x' xs' =>
      obtain ⟨hx, hxs⟩ := List.cons.inj hxs
      simp only [List.mapM_cons, Checked.bind_eq_ok, Checked.pure_eq_ok] at h ⊢
      obtain ⟨y, hy, zs, hzs, rfl⟩ := h
      obtain ⟨y', hy', hd⟩ := hround x x' y hx hy
      obtain ⟨zs', hzs', hds⟩ := ih hxs hzs
      exact ⟨y' :: zs', ⟨y', hy', zs', hzs', rfl⟩, by rw [List.map_cons, List.map_cons, hd, hds]⟩

theorem Checked.mapM_mono {f g : α → Checked β} {xs : List α} {ys : List β}
    (hround : ∀ x y, f x = .ok y → g x = .ok y) (h : xs.mapM f = .ok ys) :
    xs.mapM g = .ok ys := by
  have hsame (x x' : α) (y : β) (hx : id x' = id x) (hy : f x = .ok y) :
      ∃ y', g x' = .ok y' ∧ id y' = id y := by
    cases hx
    exact ⟨y, hround x y hy, rfl⟩
  obtain ⟨ys', hys', hids⟩ := Checked.exists_mapM hsame rfl h
  rw [List.map_id, List.map_id] at hids
  exact hids ▸ hys'

/-- Two loops side by side with states that stay in a relation. -/
theorem Checked.exists_foldlM {γ : Type} {f : σ → α → Checked σ} {g : τ → α → Checked τ}
    {c : α → γ} {R : σ → τ → Prop} {xs xs' : List α} {s s' : σ} {t : τ}
    (hround : ∀ s t x x' s', R s t → c x' = c x → f s x = .ok s' →
      ∃ t', g t x' = .ok t' ∧ R s' t')
    (hxs : xs'.map c = xs.map c) (hs : R s t) (h : xs.foldlM f s = .ok s') :
    ∃ t', xs'.foldlM g t = .ok t' ∧ R s' t' := by
  induction xs generalizing xs' s t with
  | nil =>
    cases h
    rw [List.map_nil, List.map_eq_nil_iff] at hxs
    subst hxs
    exact ⟨t, rfl, hs⟩
  | cons x xs ih =>
    cases xs' with
    | nil => cases hxs
    | cons x' xs' =>
      obtain ⟨hx, hxs⟩ := List.cons.inj hxs
      simp only [List.foldlM_cons, Checked.bind_eq_ok] at h ⊢
      obtain ⟨s₁, hs₁, h⟩ := h
      obtain ⟨t₁, ht₁, hR⟩ := hround s t x x' s₁ hs hx hs₁
      obtain ⟨t', ht', hR'⟩ := ih hxs hR h
      exact ⟨t', ⟨t₁, ht₁, ht'⟩, hR'⟩

/-- A computation on a state that may answer an error of any kind. -/
abbrev Effect (ε σ α : Type) := ExceptT ε (StateT σ Checked) α

namespace Effect

theorem bind_eq_ok {t : Effect ε σ α} {f : α → Effect ε σ β} {s s' : σ} {r : Except ε β} :
    (t >>= f) s = .ok (r, s') ↔
      (∃ a s₁, t s = .ok (.ok a, s₁) ∧ f a s₁ = .ok (r, s')) ∨
      ∃ e, t s = .ok (.error e, s') ∧ r = .error e := by
  show StateT.bind (ExceptT.run t) _ s = _ ↔ _
  unfold StateT.bind
  rw [Checked.bind_eq_ok]
  constructor
  · rintro ⟨⟨q, s₁⟩, hq, h⟩
    cases q with
    | ok a => exact .inl ⟨a, s₁, hq, h⟩
    | error e =>
      cases h
      exact .inr ⟨e, hq, rfl⟩
  · rintro (⟨a, s₁, hq, h⟩ | ⟨e, hq, rfl⟩)
    · exact ⟨_, hq, h⟩
    · exact ⟨_, hq, rfl⟩

theorem bind_eq_ok_ok {t : Effect ε σ α} {f : α → Effect ε σ β} {s s' : σ} {b : β} :
    (t >>= f) s = .ok (.ok b, s') ↔ ∃ a s₁, t s = .ok (.ok a, s₁) ∧ f a s₁ = .ok (.ok b, s') := by
  rw [bind_eq_ok]
  refine ⟨?_, .inl⟩
  rintro (hok | ⟨e, _, he⟩)
  · exact hok
  · cases he

-- The brackets keep these from being unfolded as definitions, which is slow on large states.

theorem get_bind {f : σ → Effect ε σ β} {s : σ} : (get >>= f) s = f s s := (rfl)

theorem set_bind {f : PUnit → Effect ε σ β} {s x : σ} : (set x >>= f) s = f ⟨⟩ x := (rfl)

theorem modify_bind {g : σ → σ} {f : PUnit → Effect ε σ β} {s : σ} :
    (modify g >>= f) s = f ⟨⟩ (g s) := (rfl)

theorem pure_bind {a : α} {f : α → Effect ε σ β} {s : σ} :
    ((pure a : Effect ε σ α) >>= f) s = f a s := (rfl)

theorem throw_bind {e : ε} {f : α → Effect ε σ β} {s : σ} :
    ((throw e : Effect ε σ α) >>= f) s = .ok (.error e, s) := (rfl)

theorem lift_bind {c : Checked α} {f : α → Effect ε σ β} {s : σ} :
    ((liftM c : Effect ε σ α) >>= f) s = c >>= fun a => f a s := by
  cases c <;> rfl

theorem lift_apply {c : Checked α} {s : σ} :
    (liftM c : Effect ε σ α) s = c >>= fun a => .ok (.ok a, s) := by
  cases c <;> rfl

theorem pure_apply {a : α} {s : σ} : (pure a : Effect ε σ α) s = .ok (.ok a, s) := (rfl)

theorem throw_apply {e : ε} {s : σ} : (throw e : Effect ε σ α) s = .ok (.error e, s) := (rfl)

theorem set_apply {s x : σ} : (set x : Effect ε σ PUnit) s = .ok (.ok ⟨⟩, x) := (rfl)

theorem modify_apply {g : σ → σ} {s : σ} :
    (modify g : Effect ε σ PUnit) s = .ok (.ok ⟨⟩, g s) := (rfl)

/-- A loop whose every round keeps `I` and answers no error keeps `I` and answers none. -/
theorem foldlM_induct {f : β → α → Effect ε σ β} (I : σ → Prop) {xs : List α} {b : β} {s s' : σ}
    {r : Except ε β}
    (hstep : ∀ b x s r s', x ∈ xs → I s → f b x s = .ok (r, s') → (∃ b', r = .ok b') ∧ I s')
    (hs : I s) (h : xs.foldlM f b s = .ok (r, s')) : (∃ b', r = .ok b') ∧ I s' := by
  induction xs generalizing b s with
  | nil =>
    rw [List.foldlM_nil] at h
    cases h
    exact ⟨⟨b, rfl⟩, hs⟩
  | cons x xs ih =>
    rw [List.foldlM_cons, bind_eq_ok] at h
    rcases h with ⟨b₁, s₁, h₁, h₂⟩ | ⟨e, h₁, rfl⟩
    · have hI := (hstep b x s _ s₁ List.mem_cons_self hs h₁).2
      exact ih (fun b y s r s' hy => hstep b y s r s' (List.mem_cons_of_mem _ hy)) hI h₂
    · obtain ⟨⟨b', hb'⟩, _⟩ := hstep b x s _ s' List.mem_cons_self hs h₁
      cases hb'

theorem forM_induct {f : α → Effect ε σ PUnit} (I : σ → Prop) {xs : List α} {s s' : σ}
    {r : Except ε PUnit}
    (hstep : ∀ x s r s', x ∈ xs → I s → f x s = .ok (r, s') → (∃ u, r = .ok u) ∧ I s')
    (hs : I s) (h : xs.forM f s = .ok (r, s')) : (∃ u, r = .ok u) ∧ I s' := by
  induction xs generalizing s with
  | nil =>
    cases h
    exact ⟨⟨_, rfl⟩, hs⟩
  | cons x xs ih =>
    change (f x >>= fun _ => xs.forM f) s = _ at h
    rw [bind_eq_ok] at h
    rcases h with ⟨b₁, s₁, h₁, h₂⟩ | ⟨e, h₁, rfl⟩
    · have hI := (hstep x s _ s₁ List.mem_cons_self hs h₁).2
      exact ih (fun y s r s' hy => hstep y s r s' (List.mem_cons_of_mem _ hy)) hI h₂
    · obtain ⟨⟨b', hb'⟩, _⟩ := hstep x s _ s' List.mem_cons_self hs h₁
      cases hb'

/-- A loop over the numbers below `n`, with what holds before round `k`. -/
theorem forM_range {f : Nat → Effect ε σ PUnit} (P : Nat → σ → Prop) {n : Nat} {s s' : σ}
    {r : Except ε PUnit}
    (hstep : ∀ k s r s', k < n → P k s → f k s = .ok (r, s') → (∃ u, r = .ok u) ∧ P (k + 1) s')
    (hs : P 0 s) (h : (List.range n).forM f s = .ok (r, s')) : (∃ u, r = .ok u) ∧ P n s' := by
  have hall : ∀ m k s, k + m = n → P k s → (List.range' k m).forM f s = .ok (r, s') →
      (∃ u, r = .ok u) ∧ P n s' := by
    intro m
    induction m with
    | zero =>
      intro k s hk hP h
      cases h
      exact ⟨⟨_, rfl⟩, hk ▸ hP⟩
    | succ m ih =>
      intro k s hk hP h
      change (f k >>= fun _ => (List.range' (k + 1) m).forM f) s = _ at h
      rw [bind_eq_ok] at h
      rcases h with ⟨u, s₁, h₁, h₂⟩ | ⟨e, h₁, rfl⟩
      · exact ih (k + 1) s₁ (by omega) (hstep k s _ s₁ (by omega) hP h₁).2 h₂
      · obtain ⟨⟨u, hu⟩, _⟩ := hstep k s _ s' (by omega) hP h₁
        cases hu
  rw [List.range_eq_range'] at h
  exact hall n 0 s (Nat.zero_add n) hs h

/-- Rounds of which each can be run let the whole loop run. -/
theorem exists_forM_range {f : Nat → Effect ε σ PUnit} (P : Nat → σ → Prop) {n : Nat} {s : σ}
    (hstep : ∀ k s, k < n → P k s → ∃ s', f k s = .ok (.ok ⟨⟩, s') ∧ P (k + 1) s') (hs : P 0 s) :
    ∃ s', (List.range n).forM f s = .ok (.ok ⟨⟩, s') ∧ P n s' := by
  have hall : ∀ m k s, k + m = n → P k s →
      ∃ s', (List.range' k m).forM f s = .ok (.ok ⟨⟩, s') ∧ P n s' := by
    intro m
    induction m with
    | zero =>
      intro k s hk hP
      exact ⟨s, rfl, hk ▸ hP⟩
    | succ m ih =>
      intro k s hk hP
      obtain ⟨s₁, h₁, hP₁⟩ := hstep k s (by omega) hP
      obtain ⟨s₂, h₂, hP₂⟩ := ih (k + 1) s₁ (by omega) hP₁
      refine ⟨s₂, ?_, hP₂⟩
      change (f k >>= fun _ => (List.range' (k + 1) m).forM f) s = _
      rw [bind_eq_ok]
      exact .inl ⟨_, s₁, h₁, h₂⟩
  rw [List.range_eq_range']
  exact hall n 0 s (Nat.zero_add n) hs

/-! ## Operations on two states -/

/-- What an operation does to a state it does to any related state, with the same answer. -/
def Respects (R : σ → σ → Prop) (t : Effect ε σ α) : Prop :=
  ∀ ⦃s u s' : σ⦄ ⦃a : α⦄, R s u → t s = .ok (.ok a, s') → ∃ u', t u = .ok (.ok a, u') ∧ R s' u'

variable {R : σ → σ → Prop}

theorem respects_bind {t : Effect ε σ α} {f : α → Effect ε σ β} (ht : Respects R t)
    (hf : ∀ a, Respects R (f a)) : Respects R (t >>= f) := by
  intro s u s' b hs hrun
  rw [bind_eq_ok_ok] at hrun
  obtain ⟨a, s₁, hfirst, hrun⟩ := hrun
  obtain ⟨u₁, hfirst', hs₁⟩ := ht hs hfirst
  obtain ⟨u', hrun', hs'⟩ := hf a hs₁ hrun
  exact ⟨u', bind_eq_ok_ok.2 ⟨a, u₁, hfirst', hrun'⟩, hs'⟩

theorem respects_pure (a : α) : Respects R (pure a : Effect ε σ α) := by
  intro s u s' b hs hrun
  cases hrun
  exact ⟨u, rfl, hs⟩

theorem respects_throw (e : ε) : Respects R (throw e : Effect ε σ α) := by
  intro s u s' b _ hrun
  cases hrun

theorem respects_lift (c : Checked α) : Respects R (liftM c : Effect ε σ α) := by
  intro s u s' b hs hrun
  rw [lift_apply, Checked.bind_eq_ok] at hrun
  obtain ⟨a, ha, hrun⟩ := hrun
  cases hrun
  exact ⟨u, by rw [lift_apply, ha]; rfl, hs⟩

theorem respects_modify {g : σ → σ} (hg : ∀ ⦃s u⦄, R s u → R (g s) (g u)) :
    Respects R (modify g : Effect ε σ PUnit) := by
  intro s u s' b hs hrun
  cases hrun
  exact ⟨g u, rfl, hg hs⟩

theorem respects_foldlM {f : β → α → Effect ε σ β} (hf : ∀ b a, Respects R (f b a)) (xs : List α)
    (b : β) : Respects R (xs.foldlM f b) := by
  induction xs generalizing b with
  | nil => exact respects_pure b
  | cons x xs ih =>
    rw [List.foldlM_cons]
    exact respects_bind (hf b x) fun b' => ih b'

theorem respects_forM {f : α → Effect ε σ PUnit} (hf : ∀ a, Respects R (f a)) (xs : List α) :
    Respects R (xs.forM f) := by
  induction xs with
  | nil => exact respects_pure _
  | cons x xs ih => exact respects_bind (hf x) fun _ => ih

end Effect

namespace Transition

theorem ofExcept_bind {q : Except HeapError α} {f : α → Transition σ β} {s : σ} :
    (ofExcept q >>= f) s = match q with
      | .ok a => f a s
      | .error e => .ok (.error e, s) := by
  cases q <;> rfl

theorem respects_ofExcept {R : σ → σ → Prop} (q : Except HeapError α) :
    Effect.Respects R (ofExcept q) := by
  cases q with
  | ok a => exact Effect.respects_pure a
  | error e => exact Effect.respects_throw e

theorem onPart_eq_ok {get : σ → τ} {put : τ → σ → σ} {t : Transition τ α} {s s' : σ}
    {r : Except HeapError α} :
    t.onPart get put s = .ok (r, s') ↔ ∃ part, t (get s) = .ok (r, part) ∧ s' = put part s := by
  show (t (get s) >>= fun x => pure (x.1, put x.2 s)) = _ ↔ _
  rw [Checked.bind_eq_ok]
  constructor
  · rintro ⟨⟨q, part⟩, h, he⟩
    cases he
    exact ⟨part, h, rfl⟩
  · rintro ⟨part, h, rfl⟩
    exact ⟨_, h, rfl⟩

/-- The state after an operation, whatever its answer. -/
def after (t : Transition σ α) (s : σ) : Checked σ := do
  return (← t.apply s).2

theorem after_eq_ok {t : Transition σ α} {s s' : σ} :
    t.after s = .ok s' ↔ ∃ r, t s = .ok (r, s') := by
  unfold after apply
  simp only [Checked.bind_eq_ok, Checked.pure_eq_ok, Prod.exists]
  constructor
  · rintro ⟨r, _, hrun, rfl⟩
    exact ⟨r, hrun⟩
  · rintro ⟨r, hrun⟩
    exact ⟨r, s', hrun, rfl⟩

end Transition

end GenHeap
