import GenHeap.Proofs.BackgroundMark
import Mathlib.Logic.Function.Iterate

/-!
The tracer by itself, while the embedder does nothing. Each step takes addresses off the worklist or
is the last one, and what is found is never more than the slots that were not looked at yet, so the
tracer ends. What it marks its worklist reaches; if that began as the roots, the final pause leaves
exactly what the roots reach.
-/

namespace GenHeap.BackgroundMark

open Worklist (Reached)

variable {b b' : BackgroundMark} {space : ObjectSpace} {a chunk : Nat} {watch : CardTable}
  {next : Nat → List Nat} {seeds pending pending' : Nat → Prop}

/-- What is live or pending the seeds reach, by references of now or others that are known. -/
def Confined (b : BackgroundMark) (space : ObjectSpace) (next : Nat → List Nat)
    (seeds pending : Nat → Prop) : Prop :=
  ∀ a, space.contains a = true → b.isLive a = true ∨ pending a →
    Reached (space.contains · = true) next seeds a

theorem Confined.mono (h : b.Confined space next seeds pending)
    (hp : ∀ t, pending' t → pending t) : b.Confined space next seeds pending' :=
  fun a ha hl => h a ha (hl.imp_right (hp a))

section Steps

variable (hnext : ∀ o t, t ∈ space.references o → t ∈ next o)

include hnext

theorem Confined.visit (h : b.Confined space next seeds fun t => t = a ∨ pending t) (hb : b.Matched)
    (hspace : space.Apart) : (BackgroundMark.visit space b a).1.Confined space next seeds
      fun t => t ∈ (BackgroundMark.visit space b a).2 ∨ pending t := by
  by_cases hlive : space.contains a = true → b.isLive a = true
  · rw [visit_live hb hlive]
    refine h.mono fun t ht => ?_
    exact .inr (ht.resolve_left List.not_mem_nil)
  · obtain ⟨hc, hn⟩ := Classical.not_imp.1 hlive
    obtain ⟨q, hq⟩ := ObjectSpace.contains_iff.1 hc
    have ha := h a hc (.inr (.inl rfl))
    rw [visit_white hb hq (Bool.eq_false_iff.2 hn)]
    rintro c hin (hl | hfound | hp)
    · obtain ⟨r, hr⟩ := ObjectSpace.contains_iff.1 hin
      rw [isLive_traced] at hl
      rcases (isLive_setBit hb hspace hq hr).1 hl with hl | rfl
      · exact h c hin (.inl hl)
      · exact ha
    · exact .step ha (hnext a c (ObjectSpace.references_eq hq ▸ hfound)) hin
    · exact h c hin (.inr (.inr hp))

theorem Confined.visitAll {batch : List Nat}
    (h : b.Confined space next seeds fun t => t ∈ batch ∨ pending t) (hb : b.Matched)
    (hspace : space.Apart) : (BackgroundMark.visitAll space b batch).1.Confined space next seeds
      fun t => t ∈ (BackgroundMark.visitAll space b batch).2 ∨ pending t := by
  unfold BackgroundMark.visitAll
  have h' : b.Confined space next seeds fun t => t ∈ batch ∨ t ∈ ([] : List Nat) ∨ pending t :=
    h.mono fun t ht => ht.imp_right fun hp => hp.resolve_left List.not_mem_nil
  clear h
  generalize ([] : List Nat) = found at h' ⊢
  induction batch generalizing b found with
  | nil => exact h'.mono fun t ht => .inr ht
  | cons a batch ih =>
    refine ih ((advances_visit b a).matched hb) _ ?_
    have hnow : b.Confined space next seeds fun t => t = a ∨ t ∈ batch ∨ t ∈ found ∨ pending t :=
      h'.mono fun t ht => by
        rcases ht with ht | ht | ht
        · exact .inl (ht ▸ List.mem_cons_self)
        · exact .inl (List.mem_cons_of_mem _ ht)
        · exact .inr ht
    refine (hnow.visit hnext hb hspace).mono fun t ht => ?_
    rw [List.mem_append] at ht
    rcases ht with ht | (ht | ht) | ht
    · exact .inr (.inl ht)
    · exact .inr (.inr (.inl ht))
    · exact .inl ht
    · exact .inr (.inr (.inr ht))

/-- A step of the tracer reaches nothing that the worklist did not reach. -/
theorem Confined.step (h : b.Confined space next seeds (· ∈ b.worklist)) (hb : b.Matched)
    (hspace : space.Apart) : (BackgroundMark.step space chunk b).Confined space next seeds
      (· ∈ (BackgroundMark.step space chunk b).worklist) := by
  unfold BackgroundMark.step
  by_cases hempty : ((b.worklist.take chunk).reverse.isEmpty) = true
  · simp only [hempty, if_true]
    exact h
  · simp only [hempty, Bool.false_eq_true, if_false]
    have hb₁ : ({ b with worklist := b.worklist.drop chunk } : BackgroundMark).Matched :=
      ⟨hb.low, hb.high⟩
    have h₁ : ({ b with worklist := b.worklist.drop chunk } : BackgroundMark).Confined space next
        seeds fun t => t ∈ (b.worklist.take chunk).reverse ∨ t ∈ b.worklist.drop chunk := by
      refine fun a ha hl => h a ha (hl.imp_right fun ht => ?_)
      rcases ht with ht | ht
      · exact List.mem_of_mem_take (List.mem_reverse.1 ht)
      · exact List.mem_of_mem_drop ht
    have hadv : Advances { b with worklist := b.worklist.drop chunk }
        (BackgroundMark.visitAll space { b with worklist := b.worklist.drop chunk }
          (b.worklist.take chunk).reverse).1 := advances_visitAll _ _
    refine (h₁.visitAll hnext hb₁ hspace).mono fun t ht => ?_
    have ht : t ∈ Worklist.add _ _ := ht
    rw [Worklist.Search.mem_add, hadv.worklist] at ht
    exact ht

theorem Confined.steps {fuel : Nat} (h : b.Confined space next seeds (· ∈ b.worklist))
    (hb : b.Matched) (hg : b.Guarded space watch (· ∈ b.worklist)) (hspace : space.Apart)
    (hall : space.NoDangling) : (BackgroundMark.steps space chunk fuel b).Confined space next seeds
      (· ∈ (BackgroundMark.steps space chunk fuel b).worklist) := by
  induction fuel generalizing b with
  | zero => exact h
  | succ fuel ih =>
    unfold BackgroundMark.steps
    split
    · exact h
    · have hstep : (BackgroundMark.step space chunk b).Matched ∧
          (BackgroundMark.step space chunk b).Guarded space watch
            (· ∈ (BackgroundMark.step space chunk b).worklist) := hg.step hb hspace hall
      obtain ⟨hb', hg'⟩ := hstep
      exact ih (h.step hnext hb hspace) hb' hg'

/-- The final pause reaches, in addition, only what its roots reach. -/
theorem Confined.closes (h : b.Confined space next seeds (· ∈ b.worklist)) {stack roots : List Nat}
    (hcloses : Closes space b (· ∈ stack) b')
    (hstack : ∀ t ∈ stack, t ∈ b.worklist ∨ t ∈ roots ∨
      ∃ o, space.contains o = true ∧ b.isLive o = true ∧ t ∈ space.references o)
    (ha : space.contains a = true) (hl : b'.isLive a = true) :
    Reached (space.contains · = true) next (fun t => seeds t ∨ t ∈ roots) a := by
  have hold {c : Nat} (hc : space.contains c = true) (hl : b.isLive c = true ∨ c ∈ b.worklist) :
      Reached (space.contains · = true) next (fun t => seeds t ∨ t ∈ roots) c :=
    (h c hc hl).mono fun t ht hin => .seed (.inl ht) hin
  rcases (hcloses.live_iff a ha).1 hl with hl | hr
  · exact hold ha (.inl hl)
  · refine (hr.along hnext).mono fun t ht hin => ?_
    rcases hstack t ht with hw | hroot | ⟨o, ho, hl, ht⟩
    · exact hold hin (.inr hw)
    · exact .seed (.inr hroot) hin
    · exact .step (hold ho (.inl hl)) (hnext o t ht) hin

end Steps

/-! ## The end -/

/-- The addresses that wait and the slots that were not looked at. -/
def workLeft (space : ObjectSpace) (b : BackgroundMark) : Nat :=
  b.worklist.length + space.slotsLeft b.isLive

/-- What visits find they take from the slots that are left. -/
theorem visitAll_found (hspace : space.Apart) (hb : b.Matched) (batch : List Nat) :
    (visitAll space b batch).2.length + space.slotsLeft (visitAll space b batch).1.isLive ≤
      space.slotsLeft b.isLive := by
  have hloop (found : List Nat) (n : Nat) (hn : found.length + space.slotsLeft b.isLive ≤ n) :
      (batch.foldl (fun x a => ((visit space x.1 a).1, x.2 ++ (visit space x.1 a).2))
          (b, found)).2.length +
        space.slotsLeft (batch.foldl
          (fun x a => ((visit space x.1 a).1, x.2 ++ (visit space x.1 a).2)) (b, found)).1.isLive ≤
        n := by
    induction batch generalizing b found with
    | nil => exact hn
    | cons a batch ih =>
      rw [List.foldl_cons]
      refine ih ((advances_visit b a).matched hb) _ ?_
      rw [List.length_append]
      by_cases hlive : space.contains a = true → b.isLive a = true
      · rw [visit_live hb hlive]
        exact hn
      · obtain ⟨hc, hnew⟩ := Classical.not_imp.1 hlive
        have hsearch := search hspace b
        have hinv : b.Matched ∧ b.low = b.low ∧ b.high = b.high := ⟨hb, rfl, rfl⟩
        have hcost := hsearch.costs hinv hc hnew
        have hfound := hsearch.finds hinv hc hnew
        change found.length + (visit space b a).2.length + _ ≤ n
        rw [hfound]
        omega
  have hdone := hloop [] (space.slotsLeft b.isLive) (Nat.le_of_eq (Nat.zero_add _))
  exact hdone

theorem finished_step (h : b.finished = true) : (step space chunk b).finished = true := by
  have hvisit (b : BackgroundMark) (a : Nat) : (visit space b a).1.finished = b.finished := by
    unfold visit
    split
    · rfl
    · split <;> rfl
  have hall (batch : List Nat) (b : BackgroundMark) :
      (visitAll space b batch).1.finished = b.finished := by
    unfold visitAll
    generalize ([] : List Nat) = found
    induction batch generalizing b found with
    | nil => rfl
    | cons a batch ih => exact (ih _ _).trans (hvisit b a)
  unfold step
  by_cases hempty : ((b.worklist.take chunk).reverse.isEmpty) = true
  · simp only [hempty, if_true]
  · simp only [hempty, Bool.false_eq_true, if_false]
    exact (hall _ _).trans h

/-- A step is the last one, or less is left to do after it. -/
theorem step_cases (chunk : Nat) (hspace : space.Apart) (hb : b.Matched) :
    (step space chunk b).finished = true ∨
      workLeft space (step space chunk b) < workLeft space b ∧ (step space chunk b).Matched := by
  unfold step
  by_cases hbatch : ((b.worklist.take chunk).reverse.isEmpty) = true
  · simp only [hbatch, if_true, true_or]
  · simp only [hbatch, Bool.false_eq_true, if_false]
    refine .inr ?_
    have hb₁ : ({ b with worklist := b.worklist.drop chunk } : BackgroundMark).Matched :=
      ⟨hb.low, hb.high⟩
    have hadv : Advances { b with worklist := b.worklist.drop chunk }
        (BackgroundMark.visitAll space { b with worklist := b.worklist.drop chunk }
          (b.worklist.take chunk).reverse).1 := advances_visitAll _ _
    have hfound := visitAll_found hspace hb₁ (b.worklist.take chunk).reverse
    have hlive : ({ b with worklist := b.worklist.drop chunk } : BackgroundMark).isLive = b.isLive :=
      rfl
    rw [hlive] at hfound
    have htaken : 0 < (b.worklist.take chunk).length := by
      rw [← List.length_reverse]
      exact List.length_pos_iff.2 fun hnil => hbatch (by rw [hnil]; rfl)
    have hsplit : (b.worklist.take chunk).length + (b.worklist.drop chunk).length =
        b.worklist.length := by
      rw [← List.length_append, List.take_append_drop]
    refine ⟨?_, ⟨(hadv.matched hb₁).low, (hadv.matched hb₁).high⟩⟩
    unfold workLeft
    simp only [Worklist.add, List.length_append, List.length_reverse, hadv.worklist]
    have hlive' (w : List Nat) : ({ (visitAll space { b with worklist := b.worklist.drop chunk }
        (b.worklist.take chunk).reverse).1 with worklist := w } : BackgroundMark).isLive =
        (visitAll space { b with worklist := b.worklist.drop chunk }
          (b.worklist.take chunk).reverse).1.isLive := rfl
    rw [hlive']
    omega

/-- The tracer ends, and stays at its end. -/
theorem exists_finished (hspace : space.Apart) (hb : b.Matched) :
    ∃ n, ∀ k, n ≤ k → ((step space chunk)^[k] b).finished = true := by
  have hstays {c : BackgroundMark} (hc : c.finished = true) (k : Nat) :
      ((step space chunk)^[k] c).finished = true := by
    induction k generalizing c with
    | zero => exact hc
    | succ k ih => exact ih (finished_step hc)
  induction hleft : workLeft space b using Nat.strongRecOn generalizing b with
  | ind left ih =>
    subst hleft
    rcases step_cases chunk hspace hb with hlast | ⟨hlt, hb'⟩
    · refine ⟨1, fun k hk => ?_⟩
      obtain ⟨k, rfl⟩ := Nat.exists_eq_add_of_le' hk
      exact hstays hlast k
    · obtain ⟨n, hn⟩ := ih _ hlt hb' rfl
      refine ⟨n + 1, fun k hk => ?_⟩
      obtain ⟨k, rfl⟩ := Nat.exists_eq_add_of_le' (Nat.le_of_add_left_le hk)
      exact hn k (by omega)

/-! ## The final pause -/

theorem dirtyCards_clearAll (watch : CardTable) (ranges : List (Nat × Nat)) :
    Marking.dirtyCards watch.clearAll ranges = [] := by
  refine List.eq_nil_iff_forall_not_mem.2 fun card hcard => ?_
  obtain ⟨start, stop, _, hin⟩ := Marking.mem_dirtyCards.1 hcard
  unfold CardTable.dirtyIn at hin
  split at hin
  · cases hin
  · have hdirty := (List.mem_filter.1 hin).1
    rw [CardTable.mem_dirtyCards] at hdirty
    cases hdirty

/-- Where no card was written, the final pause starts from the rest of the worklist and from the
roots only, and leaves live exactly what the roots reach. -/
theorem Confined.finishUnderPause {roots : List Nat} (ranges : List (Nat × Nat))
    (h : b.Confined space space.references (· ∈ roots) (· ∈ b.worklist)) (hb : b.Matched)
    (hg : b.Guarded space watch.clearAll (· ∈ b.worklist)) (hspace : space.Apart) :
    ∃ b', BackgroundMark.finishUnderPause space b roots watch.clearAll ranges = .ok (0, b') ∧
      b'.Matched ∧ ∀ a, space.contains a = true → (b'.isLive a = true ↔
        Reached (space.contains · = true) space.references (· ∈ roots) a) := by
  have hcloses : Closes space { b with worklist := [] } (· ∈ b.worklist.reverse ++ roots)
      (traceToClosure space { b with worklist := [] } (b.worklist.reverse ++ roots)) := by
    refine traceToClosure_closes ⟨hb.low, hb.high⟩ hspace fun o t hl ho ht _ => ?_
    obtain ⟨r, hr, hslot, hne⟩ := ObjectSpace.mem_references.1 ht
    obtain ⟨slot, hslot⟩ := List.mem_iff_getElem?.1 hslot
    rcases hg o r slot t hr hl hslot hne with hl | hw | hdirty
    · exact .inl hl
    · exact .inr (List.mem_append_left _ (List.mem_reverse.2 hw))
    · obtain ⟨card, _, hcard⟩ := CardTable.isDirty_iff.1 hdirty
      cases hcard
  refine ⟨_, ?_, hcloses.matched, fun a ha => (hcloses.live_iff a ha).trans ⟨?_, fun hr => ?_⟩⟩
  · simp only [BackgroundMark.finishUnderPause, dirtyCards_clearAll, List.mapM_nil, pure_bind,
      List.flatten_nil, List.append_nil, List.length_nil]
    rfl
  · rintro (hl | hr)
    · exact h a ha (.inl hl)
    · refine hr.mono fun t ht hin => ?_
      rcases List.mem_append.1 ht with ht | ht
      · exact h t hin (.inr (List.mem_reverse.1 ht))
      · exact .seed ht hin
  · exact .inr (hr.mono fun t ht hin => .seed (List.mem_append_right _ ht) hin)

end GenHeap.BackgroundMark
