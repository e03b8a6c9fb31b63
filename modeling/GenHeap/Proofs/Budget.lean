import GenHeap.Budget
import GenHeap.Proofs.Weight

/-!
What budgets tell of the bytes in a generation. Bytes that are allocated there or promoted to it are
added to its occupancy, and bytes that leave it are taken off; where no more is taken off than was
added, the occupancy is exact.
-/

namespace GenHeap

namespace GenerationState

variable {s s' : GenerationState} {held size : Nat}

/-- Bytes are taken off in full if and only if nothing more is overdrawn. -/
theorem overdrawn_discharge :
    (s.discharge size).overdrawn = s.overdrawn ↔ size ≤ s.occupancy := by
  show s.overdrawn + (size - s.occupancy) = _ ↔ _
  omega

/-- A generation holds as many bytes as its state says, and never was more taken off. -/
structure Shows (s : GenerationState) (held : Nat) : Prop where
  occupancy : s.occupancy = held
  overdrawn : s.overdrawn = 0

theorem Shows.discharge (h : s.Shows (size + held)) : (s.discharge size).Shows held := by
  have hle : size ≤ s.occupancy := h.occupancy ▸ Nat.le_add_right ..
  refine ⟨?_, (overdrawn_discharge.2 hle).trans h.overdrawn⟩
  show s.occupancy - size = held
  rw [h.occupancy, Nat.add_sub_cancel_left]

theorem Shows.charge (h : s.Shows held) (hrun : s.charge size = .ok s') :
    s'.Shows (size + held) := by
  simp only [GenerationState.charge, Checked.bind_eq_ok, Checked.pure_eq_ok,
    Word.add_eq_ok_iff] at hrun
  obtain ⟨_, _, _, ⟨_, rfl⟩, rfl⟩ := hrun
  refine ⟨?_, h.overdrawn⟩
  show s.occupancy + size = _
  rw [h.occupancy, Nat.add_comm]

theorem Shows.finish (h : s.Shows held) {rate : Float} {tuning : Tuning}
    (hrun : BudgetTable.finishGeneration s rate tuning = .ok s') : s'.Shows held := by
  simp only [BudgetTable.finishGeneration, Checked.bind_eq_ok, Checked.pure_eq_ok] at hrun
  obtain ⟨_, _, _, _, rfl⟩ := hrun
  exact ⟨h.occupancy, h.overdrawn⟩

end GenerationState

namespace BudgetTable

variable {t t' : BudgetTable} {held : Generation → Nat} {g : Generation} {size : Nat}

/-- Each generation holds as many bytes as its state says. -/
def Shows (t : BudgetTable) (held : Generation → Nat) : Prop := ∀ g, (t.get g).Shows (held g)

/-- A change of one state is right if it is right for that generation. -/
theorem Shows.modify {held' : Generation → Nat} (h : t.Shows held)
    {f : GenerationState → GenerationState} (hself : (f (t.get g)).Shows (held' g))
    (hother : ∀ k, k ≠ g → held' k = held k) : BudgetTable.Shows (t.modify g f) held' := by
  intro k
  by_cases hk : k = g
  · subst hk
    rw [PerGeneration.get_modify_self]
    exact hself
  · rw [PerGeneration.get_modify_of_ne _ _ hk, hother k hk]
    exact h k

theorem Shows.discharge (h : t.Shows fun k => (if g = k then size else 0) + held k) :
    (t.discharge g size).Shows held := by
  refine h.modify (GenerationState.Shows.discharge ?_) fun k hk => ?_
  · have hg := h g
    simp only [if_true] at hg
    exact hg
  · rw [if_neg (Ne.symm hk), Nat.zero_add]

theorem Shows.charge (h : t.Shows held) (hrun : t.charge g size = .ok t') :
    t'.Shows fun k => (if g = k then size else 0) + held k := by
  simp only [BudgetTable.charge, Checked.bind_eq_ok, Checked.pure_eq_ok] at hrun
  obtain ⟨s, hs, rfl⟩ := hrun
  refine h.modify ?_ fun k hk => ?_
  · rw [if_pos rfl]
    exact (h g).charge hs
  · rw [if_neg (Ne.symm hk), Nat.zero_add]

/-- What is allocated leaves the budgets as they are. -/
theorem map_budget_charge (hrun : t.charge g size = .ok t') :
    t'.map (·.budget) = t.map (·.budget) := by
  simp only [BudgetTable.charge, GenerationState.charge, Checked.bind_eq_ok,
    Checked.pure_eq_ok] at hrun
  obtain ⟨_, ⟨_, _, _, _, rfl⟩, rfl⟩ := hrun
  cases g <;> rfl

/-- A budget that starts anew has nothing to do with the bytes held. -/
theorem Shows.finishCollection (h : t.Shows held) {condemned : Generation}
    {survival : PerGeneration Float} {tuning : Tuning}
    (hrun : t.finishCollection condemned survival tuning = .ok t') : t'.Shows held := by
  refine Checked.foldlM_induct (fun t => BudgetTable.Shows t held) (fun t g t' _ ht hstep => ?_) h
    hrun
  split at hstep
  · simp only [Checked.bind_eq_ok, Checked.pure_eq_ok] at hstep
    obtain ⟨s, hs, rfl⟩ := hstep
    exact ht.modify ((ht g).finish hs) fun _ _ => rfl
  · cases hstep
    exact ht

end BudgetTable

/-! ## Tables of all logical heaps -/

namespace ObjectSpace

/-- The objects of one generation of one logical heap, in bytes. -/
def held (objects : List (Nat × Record)) (i : Nat) (g : Generation) : Nat :=
  weight (objects.filter fun x => x.2.heap == i && x.2.generation == g)

variable {objects others : List (Nat × Record)} {x : Nat × Record} {i : Nat} {g : Generation}

theorem held_perm (h : objects.Perm others) : held objects i g = held others i g :=
  portion_perm (p := fun j k => j == i && k == g) h

theorem held_cons_self : held (x :: objects) x.2.heap g =
    (if x.2.generation = g then x.2.size else 0) + held objects x.2.heap g := by
  refine (portion_cons (fun j k => j == x.2.heap && k == g) x objects).trans ?_
  simp only [beq_self_eq_true, Bool.true_and, beq_iff_eq]
  rfl

theorem held_cons_of_ne (hne : x.2.heap ≠ i) : held (x :: objects) i g = held objects i g := by
  refine (portion_cons (fun j k => j == i && k == g) x objects).trans ?_
  simp only [beq_false_of_ne hne, Bool.false_and, Bool.false_eq_true, if_false, Nat.zero_add]
  rfl

theorem SamePortions.held {s s' : ObjectSpace} (h : s.SamePortions s') (i : Nat) (g : Generation) :
    held s'.entries i g = held s.entries i g :=
  h fun j k => j == i && k == g

end ObjectSpace

open ObjectSpace (held)

/-- The tables of some logical heaps show the bytes of all their objects. -/
def Posted (tables : List BudgetTable) (objects : List (Nat × Record)) : Prop :=
  ∀ (i : Nat) (t : BudgetTable), tables[i]? = some t → t.Shows (held objects i)

namespace Posted

variable {tables tables' : List BudgetTable} {objects others : List (Nat × Record)}
  {x : Nat × Record} {t t' : BudgetTable}

theorem congr (h : Posted tables objects)
    (hheld : ∀ i g, held others i g = held objects i g) : Posted tables others := by
  intro i t ht g
  rw [hheld]
  exact h i t ht g

theorem perm (h : Posted tables objects) (hperm : objects.Perm others) : Posted tables others :=
  h.congr fun _ _ => ObjectSpace.held_perm hperm.symm

/-- An object that goes is taken off where it was. -/
theorem discharge (h : Posted tables (x :: objects)) :
    Posted (tables.modify x.2.heap (·.discharge x.2.generation x.2.size)) objects := by
  intro i t' ht'
  rw [List.getElem?_modify] at ht'
  by_cases hi : x.2.heap = i
  · subst hi
    simp only [if_true, Option.map_eq_map, Option.map_eq_some_iff] at ht'
    obtain ⟨t, ht, rfl⟩ := ht'
    refine BudgetTable.Shows.discharge fun g => ?_
    have hg := h _ t ht g
    rw [ObjectSpace.held_cons_self] at hg
    exact hg
  · simp only [hi, if_false, Option.map_eq_map, Option.map_id'] at ht'
    intro g
    rw [← ObjectSpace.held_cons_of_ne hi]
    exact h i t' ht' g

/-- An object that comes is added where it is. -/
theorem charge (h : Posted tables objects) (ht : tables[x.2.heap]? = some t)
    (hrun : t.charge x.2.generation x.2.size = .ok t') :
    Posted (tables.set x.2.heap t') (x :: objects) := by
  intro i u hu
  rw [List.getElem?_set] at hu
  by_cases hi : x.2.heap = i
  · subst hi
    rw [if_pos rfl, if_pos (List.getElem?_eq_some_iff.1 ht).1] at hu
    cases hu
    intro g
    rw [ObjectSpace.held_cons_self]
    exact (h _ t ht).charge hrun g
  · rw [if_neg hi] at hu
    intro g
    rw [ObjectSpace.held_cons_of_ne hi]
    exact h i u hu g

/-- An object that changes its generation is taken off there and added here. -/
theorem promote (h : Posted tables (x :: objects)) (ht : tables[x.2.heap]? = some t)
    {older : Generation}
    (hrun : (t.discharge x.2.generation x.2.size).charge older x.2.size = .ok t') :
    Posted (tables.set x.2.heap t') ((x.1, { x.2 with generation := older }) :: objects) := by
  have ht' : (tables.modify x.2.heap (·.discharge x.2.generation x.2.size))[x.2.heap]? =
      some (t.discharge x.2.generation x.2.size) := by
    simp only [List.getElem?_modify, ht, if_true, Option.map_eq_map, Option.map_some]
  have hmoved := h.discharge.charge (x := (x.1, { x.2 with generation := older })) ht' hrun
  have hset : (tables.modify x.2.heap (·.discharge x.2.generation x.2.size)).set x.2.heap t' =
      tables.set x.2.heap t' := by
    apply List.ext_getElem?
    intro i
    rw [List.getElem?_set, List.getElem?_set, List.length_modify, List.getElem?_modify]
    by_cases hi : x.2.heap = i
    · rw [if_pos hi, if_pos hi]
    · simp only [hi, if_false, Option.map_eq_map, Option.map_id']
  rw [← hset]
  exact hmoved

/-- Nothing is kept on objects of a logical heap that there is not. -/
theorem of_none (ht : tables[x.2.heap]? = none) :
    Posted tables (x :: objects) ↔ Posted tables objects := by
  refine forall_congr' fun i => forall_congr' fun u => imp_congr_right fun hu => ?_
  refine forall_congr' fun g => ?_
  rw [ObjectSpace.held_cons_of_ne]
  rintro rfl
  rw [ht] at hu
  cases hu

end Posted

end GenHeap
