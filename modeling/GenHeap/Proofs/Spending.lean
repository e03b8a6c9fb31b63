import GenHeap.Budget
import GenHeap.Proofs.Weight

/-!
What has been spent of the budgets. Bytes are charged to a generation when an object is allocated in it
or promoted to it, and the count begins anew when the generation is condemned; bytes that leave a
generation change nothing.
-/

namespace GenHeap

namespace BudgetTable

variable {t t' : BudgetTable} {g : Generation} {size : Nat}

theorem allocated_discharge (k : Generation) :
    ((t.discharge g size).get k).allocated = (t.get k).allocated := by
  unfold BudgetTable.discharge
  by_cases hk : k = g
  · subst hk
    rw [PerGeneration.get_modify_self]
    rfl
  · rw [PerGeneration.get_modify_of_ne _ _ hk]

theorem allocated_charge (hrun : t.charge g size = .ok t') (k : Generation) :
    (t'.get k).allocated = (if g = k then size else 0) + (t.get k).allocated := by
  simp only [BudgetTable.charge, GenerationState.charge, Checked.bind_eq_ok, Checked.pure_eq_ok,
    Word.add_eq_ok_iff] at hrun
  obtain ⟨_, ⟨_, ⟨_, rfl⟩, _, _, rfl⟩, rfl⟩ := hrun
  unfold PerGeneration.set
  by_cases hk : k = g
  · subst hk
    rw [PerGeneration.get_modify_self, if_pos rfl, Nat.add_comm]
  · rw [PerGeneration.get_modify_of_ne _ _ hk, if_neg (Ne.symm hk), Nat.zero_add]

/-- The condemned generations begin anew, the others go on. -/
theorem allocated_finishCollection {condemned : Generation} {survival : PerGeneration Float}
    {tuning : Tuning} (hrun : t.finishCollection condemned survival tuning = .ok t')
    (k : Generation) : (t'.get k).allocated =
      if k.condemnedBy condemned then 0 else (t.get k).allocated := by
  have hfold (gs : List Generation) {t t' : BudgetTable}
      (hrun : gs.foldlM (fun t g => if g.condemnedBy condemned then do
        return t.set g (← finishGeneration (t.get g) (survival.get g) tuning)
        else pure t) t = .ok t') : (t'.get k).allocated =
          if k ∈ gs ∧ k.condemnedBy condemned = true then 0 else (t.get k).allocated := by
    induction gs generalizing t with
    | nil =>
      cases hrun
      rw [if_neg fun hk => absurd hk.1 List.not_mem_nil]
    | cons g gs ih =>
      rw [List.foldlM_cons, Checked.bind_eq_ok] at hrun
      obtain ⟨t₁, hround, hrun⟩ := hrun
      rw [ih hrun]
      have hfirst : (t₁.get k).allocated =
          if k = g ∧ k.condemnedBy condemned = true then 0 else (t.get k).allocated := by
        split at hround
        next hg =>
          simp only [finishGeneration, Checked.bind_eq_ok, Checked.pure_eq_ok] at hround
          obtain ⟨_, ⟨_, _, _, _, rfl⟩, rfl⟩ := hround
          unfold PerGeneration.set
          by_cases hk : k = g
          · subst hk
            rw [PerGeneration.get_modify_self, if_pos ⟨rfl, hg⟩]
          · rw [PerGeneration.get_modify_of_ne _ _ hk, if_neg fun he => hk he.1]
        next hg =>
          cases hround
          rw [if_neg]
          rintro ⟨rfl, hk⟩
          exact hg hk
      rw [hfirst]
      simp only [List.mem_cons]
      by_cases hc : k.condemnedBy condemned = true
      · by_cases hin : k ∈ gs
        · rw [if_pos ⟨hin, hc⟩, if_pos ⟨.inr hin, hc⟩]
        · simp only [hin, hc, or_false, and_true, if_false]
      · rw [if_neg fun he => hc he.2, if_neg fun he => hc he.2, if_neg fun he => hc he.2]
  rw [hfold Generation.all hrun]
  simp only [Generation.mem_all, true_and]

end BudgetTable

/-! ## Objects that are charged -/

/-- The bytes of the objects of a logical heap that go into a generation. -/
def charged (into : Generation → Generation) (objects : List (Nat × Record)) (i : Nat)
    (g : Generation) : Nat :=
  ObjectSpace.portion (fun j k => j == i && into k == g) objects

variable {into : Generation → Generation} {objects : List (Nat × Record)} {x : Nat × Record}
  {i : Nat} {g : Generation}

theorem charged_nil : charged into [] i g = 0 := rfl

theorem charged_cons : charged into (x :: objects) i g =
    (if x.2.heap = i ∧ into x.2.generation = g then x.2.size else 0) +
      charged into objects i g := by
  unfold charged
  rw [ObjectSpace.portion_cons]
  simp only [Bool.and_eq_true, beq_iff_eq]

/-! ## Tables of all logical heaps -/

/-- The tables of some logical heaps say how much was spent of each budget. -/
def Spends (tables : List BudgetTable) (spent : Nat → Generation → Nat) : Prop :=
  ∀ (i : Nat) (t : BudgetTable), tables[i]? = some t → ∀ g, (t.get g).allocated = spent i g

namespace Spends

variable {tables : List BudgetTable} {spent spent' : Nat → Generation → Nat}
  {t t' : BudgetTable}

theorem congr (h : Spends tables spent) (he : ∀ i g, spent' i g = spent i g) :
    Spends tables spent' := fun i t ht g => (h i t ht g).trans (he i g).symm

/-- Bytes that leave a generation are not given back to its budget. -/
theorem discharge (h : Spends tables spent) (j : Nat) (k : Generation) (size : Nat) :
    Spends (tables.modify j (·.discharge k size)) spent := by
  intro i t' ht' g
  rw [List.getElem?_modify] at ht'
  by_cases hi : j = i
  · simp only [hi, if_true, Option.map_eq_map, Option.map_eq_some_iff] at ht'
    obtain ⟨t, ht, rfl⟩ := ht'
    exact (BudgetTable.allocated_discharge g).trans (h i t ht g)
  · simp only [hi, if_false, Option.map_eq_map, Option.map_id'] at ht'
    exact h i t' ht' g

/-- An object is charged to one generation of its logical heap. -/
theorem charge (h : Spends tables spent) (x : Nat × Record) (ht : tables[x.2.heap]? = some t)
    (ht' : ∀ k, (t'.get k).allocated =
      (if into x.2.generation = k then x.2.size else 0) + (t.get k).allocated) :
    Spends (tables.set x.2.heap t') fun i g => charged into [x] i g + spent i g := by
  intro i u hu g
  rw [List.getElem?_set] at hu
  show (u.get g).allocated = charged into [x] i g + spent i g
  rw [charged_cons, charged_nil, Nat.add_zero]
  by_cases hi : x.2.heap = i
  · subst hi
    rw [if_pos rfl, if_pos (List.getElem?_eq_some_iff.1 ht).1] at hu
    cases hu
    rw [ht', h _ t ht]
    simp only [true_and]
  · rw [if_neg hi] at hu
    rw [if_neg fun he => hi he.1, Nat.zero_add]
    exact h i u hu g

/-- No budget is charged with an object of a logical heap that there is not. -/
theorem of_none (h : Spends tables spent) (x : Nat × Record) (ht : tables[x.2.heap]? = none) :
    Spends tables fun i g => charged into [x] i g + spent i g := by
  intro i u hu g
  show (u.get g).allocated = charged into [x] i g + spent i g
  rw [charged_cons, charged_nil, if_neg, Nat.zero_add]
  · exact h i u hu g
  · rintro ⟨rfl, _⟩
    rw [ht] at hu
    cases hu

end Spends

end GenHeap
