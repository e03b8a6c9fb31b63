import GenHeap.Worklist

/-!
A worklist that visits each node once is a search: it ends with exactly the nodes that were done
before and those reached from the worklist, provided there is fuel for every visit.
-/

namespace GenHeap.Worklist

/-- The nodes in `inside` to which `next` leads from a seed, through nodes in `inside` only. -/
inductive Reached (inside : Nat → Prop) (next : Nat → List Nat) (seeds : Nat → Prop) : Nat → Prop
  | seed {a : Nat} : seeds a → inside a → Reached inside next seeds a
  | step {a b : Nat} : Reached inside next seeds a → b ∈ next a → inside b →
      Reached inside next seeds b

section Reached

variable {inside inside' seeds seeds' done out : Nat → Prop} {next next' : Nat → List Nat} {a b : Nat}

theorem Reached.within (h : Reached inside next seeds a) : inside a := by
  cases h with
  | seed _ ha => exact ha
  | step _ _ ha => exact ha

theorem Reached.mono (h : Reached inside next seeds a)
    (hseeds : ∀ b, seeds b → inside b → Reached inside next seeds' b) :
    Reached inside next seeds' a := by
  induction h with
  | seed hs ha => exact hseeds _ hs ha
  | step _ hb he ih => exact .step ih hb he

theorem Reached.widen (h : Reached inside next seeds a) (he : ∀ b, inside b → inside' b) :
    Reached inside' next seeds a := by
  induction h with
  | seed hs ha => exact .seed hs (he _ ha)
  | step _ hb ha ih => exact .step ih hb (he _ ha)

theorem Reached.along (h : Reached inside next seeds a) (hnext : ∀ b t, t ∈ next b → t ∈ next' b) :
    Reached inside next' seeds a := by
  induction h with
  | seed hs ha => exact .seed hs ha
  | step _ hb ha ih => exact .step ih (hnext _ _ hb) ha

/-- A set that holds the seeds and is closed holds all that is reached. -/
theorem Reached.of_closed (h : Reached inside next seeds a)
    (hseeds : ∀ b, seeds b → inside b → done b)
    (hclosed : ∀ b t, inside b → done b → t ∈ next b → inside t → done t) : done a := by
  induction h with
  | seed hs ha => exact hseeds _ hs ha
  | step hb ht he ih => exact hclosed _ _ hb.within ih ht he

/-- A set that holds no seeds and that nothing else leads into is not reached. -/
theorem Reached.avoids (h : Reached inside next seeds a)
    (hseeds : ∀ b, seeds b → inside b → ¬ out b)
    (hclosed : ∀ b t, inside b → t ∈ next b → out t → out b) : ¬ out a := by
  induction h with
  | seed hs ha => exact hseeds _ hs ha
  | step hb ht _ ih => exact fun hout => ih (hclosed _ _ hb.within ht hout)

theorem reached_congr (h : ∀ b, inside b → (seeds b ↔ seeds' b)) :
    Reached inside next seeds a ↔ Reached inside next seeds' a := by
  constructor
  · intro hr
    exact hr.mono fun b hb hin => .seed ((h b hin).1 hb) hin
  · intro hr
    exact hr.mono fun b hb hin => .seed ((h b hin).2 hb) hin

/-- Seeds given in two lots: what both lots reach, each lot reaches or the other does. -/
theorem reached_or_iff : Reached inside next (fun b => seeds b ∨ seeds' b) a ↔
    Reached inside next seeds a ∨ Reached inside next seeds' a := by
  constructor
  · intro h
    induction h with
    | seed hs ha =>
      rcases hs with hs | hs
      · exact .inl (.seed hs ha)
      · exact .inr (.seed hs ha)
    | step _ hb he ih =>
      rcases ih with ih | ih
      · exact .inl (.step ih hb he)
      · exact .inr (.step ih hb he)
  · rintro (h | h)
    · exact h.mono fun b hs hb => .seed (.inl hs) hb
    · exact h.mono fun b hs hb => .seed (.inr hs) hb

end Reached

variable {σ : Type}

/-- Visits until the worklist is empty, however many it takes. -/
inductive Empties (visit : σ → Nat → σ × List Nat) : σ → List Nat → σ → Prop
  | done {s : σ} : Empties visit s [] s
  | visit {s s' : σ} {a : Nat} {work : List Nat} :
      Empties visit (visit s a).1 (add work (visit s a).2) s' → Empties visit s (a :: work) s'

/-- A visit that enters a node at most once: a node of `inside` that is not done becomes done and
its successors are found, at the expense of `cost`; a visit to any other node changes nothing. -/
structure Search (visit : σ → Nat → σ × List Nat) (inside : Nat → Prop) (next : Nat → List Nat)
    (done : σ → Nat → Prop) (cost : σ → Nat) (Inv : σ → Prop) : Prop where
  keeps : ∀ {s a}, Inv s → inside a → ¬ done s a → Inv (visit s a).1
  finds : ∀ {s a}, Inv s → inside a → ¬ done s a → (visit s a).2 = next a
  marks : ∀ {s a b}, Inv s → inside a → ¬ done s a → inside b →
    (done (visit s a).1 b ↔ done s b ∨ b = a)
  costs : ∀ {s a}, Inv s → inside a → ¬ done s a →
    cost (visit s a).1 + (next a).length ≤ cost s
  skips : ∀ {s a}, Inv s → (inside a → done s a) → visit s a = (s, [])

namespace Search

variable {visit : σ → Nat → σ × List Nat} {inside : Nat → Prop} {next : Nat → List Nat}
  {done : σ → Nat → Prop} {cost : σ → Nat} {Inv : σ → Prop}

/-- Done nodes lead to done nodes or to the worklist. -/
def Closed (inside : Nat → Prop) (next : Nat → List Nat) (done : Nat → Prop) (work : List Nat) :
    Prop :=
  ∀ a t, inside a → done a → t ∈ next a → inside t → done t ∨ t ∈ work

/-- What a drained worklist leaves behind, relative to the state before. -/
structure Drained (inside : Nat → Prop) (next : Nat → List Nat) (done : σ → Nat → Prop)
    (Inv : σ → Prop) (s : σ) (work : List Nat) (s' : σ) : Prop where
  keeps : Inv s'
  keepsDone : ∀ a, inside a → done s a → done s' a
  onlyReached : ∀ a, inside a → done s' a → done s a ∨ Reached inside next (· ∈ work) a
  marksWork : ∀ a ∈ work, inside a → done s' a
  closes : Closed inside next (done s) work → Closed inside next (done s') []

theorem mem_add {work found : List Nat} {t : Nat} : t ∈ add work found ↔ t ∈ found ∨ t ∈ work := by
  simp only [add, List.mem_append, List.mem_reverse]

theorem Drained.refl {s : σ} (hs : Inv s) : Drained inside next done Inv s [] s :=
  ⟨hs, fun _ _ h => h, fun _ _ h => .inl h, fun _ ha => absurd ha List.not_mem_nil, fun h => h⟩

/-- The node in front was new: its successors are in its place on the worklist. -/
theorem Drained.visited (hv : Search visit inside next done cost Inv) {s s' : σ} {a : Nat}
    {work : List Nat} (hs : Inv s) (ha : inside a) (hnew : ¬ done s a)
    (h : Drained inside next done Inv (visit s a).1 (add work (next a)) s') :
    Drained inside next done Inv s (a :: work) s' := by
  have hself : done (visit s a).1 a := (hv.marks hs ha hnew ha).2 (.inr rfl)
  refine ⟨h.keeps, ?_, ?_, ?_, ?_⟩
  · intro b hb hd
    exact h.keepsDone b hb ((hv.marks hs ha hnew hb).2 (.inl hd))
  · intro b hb hd
    rcases h.onlyReached b hb hd with hd | hr
    · rcases (hv.marks hs ha hnew hb).1 hd with hd | rfl
      · exact .inl hd
      · exact .inr (.seed List.mem_cons_self hb)
    · refine .inr (hr.mono fun t ht he => ?_)
      rcases mem_add.1 ht with ht | ht
      · exact .step (.seed List.mem_cons_self ha) ht he
      · exact .seed (List.mem_cons_of_mem _ ht) he
  · intro b hb he
    rcases List.mem_cons.1 hb with rfl | hb
    · exact h.keepsDone _ he hself
    · exact h.marksWork b (mem_add.2 (.inr hb)) he
  · intro hclosed
    refine h.closes fun x t hx hd ht he => ?_
    rcases (hv.marks hs ha hnew hx).1 hd with hd | rfl
    · rcases hclosed x t hx hd ht he with hd' | hw
      · exact .inl ((hv.marks hs ha hnew he).2 (.inl hd'))
      · rcases List.mem_cons.1 hw with rfl | hw
        · exact .inl hself
        · exact .inr (mem_add.2 (.inr hw))
    · exact .inr (mem_add.2 (.inl ht))

/-- The node in front was done already, or is none to be visited. -/
theorem Drained.skipped {s s' : σ} {a : Nat} {work : List Nat} (hold : inside a → done s a)
    (h : Drained inside next done Inv s work s') :
    Drained inside next done Inv s (a :: work) s' := by
  refine ⟨h.keeps, h.keepsDone, ?_, ?_, ?_⟩
  · intro b hb hd
    refine (h.onlyReached b hb hd).imp id fun hr => ?_
    exact hr.mono fun t ht he => .seed (List.mem_cons_of_mem _ ht) he
  · intro b hb he
    rcases List.mem_cons.1 hb with rfl | hb
    · exact h.keepsDone _ he (hold he)
    · exact h.marksWork b hb he
  · intro hclosed
    refine h.closes fun x t hx hd ht he => ?_
    rcases hclosed x t hx hd ht he with hd' | hw
    · exact .inl hd'
    · rcases List.mem_cons.1 hw with rfl | hw
      · exact .inl (hold he)
      · exact .inr hw

/-- With fuel for every visit the worklist is emptied. -/
theorem empties (hv : Search visit inside next done cost Inv) (fuel : Nat) {s : σ} (work : List Nat)
    (hs : Inv s) (hfuel : work.length + cost s ≤ fuel) :
    Empties visit s work (Worklist.drain visit fuel s work) := by
  induction fuel generalizing s work with
  | zero =>
    have hwork : work = [] := List.length_eq_zero_iff.1 (by omega)
    subst hwork
    exact .done
  | succ fuel ih =>
    cases work with
    | nil => exact .done
    | cons a work =>
      rw [List.length_cons] at hfuel
      apply Empties.visit
      show Empties visit _ _ (Worklist.drain visit fuel (visit s a).1 (add work (visit s a).2))
      by_cases hfresh : inside a ∧ ¬ done s a
      · obtain ⟨ha, hnew⟩ := hfresh
        have hcost := hv.costs hs ha hnew
        apply ih _ (hv.keeps hs ha hnew)
        rw [hv.finds hs ha hnew, add, List.length_append, List.length_reverse]
        omega
      · have hold : inside a → done s a := fun ha =>
          Classical.byContradiction fun hn => hfresh ⟨ha, hn⟩
        have hroom : work.length + cost s ≤ fuel := by omega
        rw [hv.skips hs hold]
        exact ih work hs hroom

theorem drained (hv : Search visit inside next done cost Inv) {s s' : σ} {work : List Nat}
    (hs : Inv s) (h : Empties visit s work s') : Drained inside next done Inv s work s' := by
  induction h with
  | done => exact .refl hs
  | @visit s s' a work _ ih =>
    by_cases hfresh : inside a ∧ ¬ done s a
    · obtain ⟨ha, hnew⟩ := hfresh
      rw [hv.finds hs ha hnew] at ih
      exact .visited hv hs ha hnew (ih (hv.keeps hs ha hnew))
    · have hold : inside a → done s a := fun ha =>
        Classical.byContradiction fun hn => hfresh ⟨ha, hn⟩
      rw [hv.skips hs hold] at ih
      exact .skipped hold (ih hs)

theorem drain (hv : Search visit inside next done cost Inv) (fuel : Nat) {s : σ} (work : List Nat)
    (hs : Inv s) (hfuel : work.length + cost s ≤ fuel) :
    Drained inside next done Inv s work (Worklist.drain visit fuel s work) :=
  hv.drained hs (hv.empties fuel work hs hfuel)

/-- From done nodes that lead to done nodes or to the worklist, a drained worklist has done
exactly what was done and what is reached. -/
theorem Drained.done_iff {s s' : σ} {work : List Nat} {a : Nat}
    (h : Drained inside next done Inv s work s') (hclosed : Closed inside next (done s) work)
    (ha : inside a) : done s' a ↔ done s a ∨ Reached inside next (· ∈ work) a := by
  constructor
  · exact h.onlyReached a ha
  · rintro (hd | hr)
    · exact h.keepsDone a ha hd
    · refine hr.of_closed h.marksWork fun b t hb hd ht he => ?_
      exact (h.closes hclosed b t hb hd ht he).resolve_right List.not_mem_nil

end Search

/-- A search that is under way, by however many visitors: what is done is reached, what is pending
may be entered, and of the seeds and the successors of done nodes none is forgotten. -/
structure Underway (inside : Nat → Prop) (next : Nat → List Nat) (seeds done pending : Nat → Prop) :
    Prop where
  reached : ∀ a, done a → Reached inside next seeds a
  leads : ∀ a, pending a → inside a → Reached inside next seeds a
  covers : ∀ a, seeds a → inside a → done a ∨ pending a
  closed : ∀ a t, done a → t ∈ next a → inside t → done t ∨ pending t

namespace Underway

variable {inside seeds done done' pending pending' : Nat → Prop} {next : Nat → List Nat} {a : Nat}

theorem start (hdone : ∀ a, ¬ done a) (hpending : ∀ a, pending a ↔ seeds a) :
    Underway inside next seeds done pending where
  reached a ha := absurd ha (hdone a)
  leads a ha hin := .seed ((hpending a).1 ha) hin
  covers a ha _ := .inr ((hpending a).2 ha)
  closed a _ ha := absurd ha (hdone a)

/-- A pending node is entered: it is done, and its successors are pending. -/
theorem enter (h : Underway inside next seeds done pending) (ha : inside a)
    (hdone : ∀ b, done' b ↔ done b ∨ b = a)
    (hpending : ∀ t, pending t ∨ t ∈ next a ↔ t = a ∨ pending' t) (hp : pending a) :
    Underway inside next seeds done' pending' := by
  have hself := h.leads a hp ha
  have hforget (t : Nat) (ht : done t ∨ pending t ∨ t ∈ next a) : done' t ∨ pending' t := by
    rcases ht with ht | ht
    · exact .inl ((hdone t).2 (.inl ht))
    · rcases (hpending t).1 ht with rfl | ht
      · exact .inl ((hdone _).2 (.inr rfl))
      · exact .inr ht
  refine ⟨?_, ?_, ?_, ?_⟩
  · intro b hb
    rcases (hdone b).1 hb with hb | rfl
    · exact h.reached b hb
    · exact hself
  · intro t ht hin
    rcases (hpending t).2 (.inr ht) with ht | ht
    · exact h.leads t ht hin
    · exact .step hself ht hin
  · intro b hb hin
    exact hforget b ((h.covers b hb hin).imp_right .inl)
  · intro b t hb ht hin
    rcases (hdone b).1 hb with hb | rfl
    · exact hforget t ((h.closed b t hb ht hin).imp_right .inl)
    · exact hforget t (.inr (.inr ht))

/-- A pending node that is done already, or is none to be entered, is dropped. -/
theorem drop (h : Underway inside next seeds done pending) (hold : inside a → done a)
    (hpending : ∀ t, pending t ↔ t = a ∨ pending' t) : Underway inside next seeds done pending' := by
  have hforget (t : Nat) (hin : inside t) (ht : done t ∨ pending t) : done t ∨ pending' t := by
    rcases ht with ht | ht
    · exact .inl ht
    · rcases (hpending t).1 ht with rfl | ht
      · exact .inl (hold hin)
      · exact .inr ht
  refine ⟨h.reached, ?_, ?_, ?_⟩
  · intro t ht
    exact h.leads t ((hpending t).2 (.inr ht))
  · intro b hb hin
    exact hforget b hin (h.covers b hb hin)
  · intro b t hb ht hin
    exact hforget t hin (h.closed b t hb ht hin)

/-- With nothing pending, exactly what is reached is done. -/
theorem done_iff (h : Underway inside next seeds done pending) (hnone : ∀ a, ¬ pending a) :
    done a ↔ Reached inside next seeds a := by
  constructor
  · exact h.reached a
  · intro hr
    apply hr.of_closed
    · intro b hb hin
      exact (h.covers b hb hin).resolve_right (hnone b)
    · intro b t _ hb ht hin
      exact (h.closed b t hb ht hin).resolve_right (hnone t)

end Underway

end GenHeap.Worklist
