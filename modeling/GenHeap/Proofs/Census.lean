import GenHeap.Proofs.Weight

/-!
The number and the bytes of the objects at chosen addresses. One object more adds one and its size,
and marks do not matter, so what a search counts as it goes is read off the space in the end.
-/

namespace GenHeap.ObjectSpace

variable {s s' : ObjectSpace} {p q : Nat → Bool} {a objects objects' bytes bytes' : Nat} {r : Record}

/-- The objects at the addresses that are chosen. -/
def among (s : ObjectSpace) (p : Nat → Bool) : List (Nat × Record) := s.entries.filter (p ·.1)

/-- The objects at the chosen addresses are so many and take so many bytes. -/
structure Tally (s : ObjectSpace) (p : Nat → Bool) (objects bytes : Nat) : Prop where
  objects_eq : objects = (s.among p).length
  bytes_eq : bytes = weight (s.among p)

theorem among_congr (h : ∀ a, s.contains a = true → p a = q a) : s.among p = s.among q := by
  apply List.filter_congr
  intro x hx
  exact h x.1 (contains_iff.2 ⟨x.2, mem_entries.1 hx⟩)

theorem among_eq_nil (h : ∀ a, s.contains a = true → p a = false) : s.among p = [] := by
  refine List.filter_eq_nil_iff.2 fun x hx hp => ?_
  rw [h x.1 (contains_iff.2 ⟨x.2, mem_entries.1 hx⟩)] at hp
  cases hp

/-- The object that is chosen in addition comes to those chosen before. -/
theorem among_insert (hr : s.get? a = some r) (hold : p a = false)
    (hnew : ∀ b, q b = (p b || b == a)) : (s.among q).Perm ((a, r) :: s.among p) := by
  have hothers (f : Nat → Bool) (x : Nat × Record) (xs : List (Nat × Record))
      (h : s.entries.Perm (x :: xs)) : (s.among f).Perm ((x :: xs).filter (f ·.1)) := h.filter _
  have hself : q a = true := by rw [hnew, beq_self_eq_true, Bool.or_true]
  have hrest : (s.entries.filter (·.1 != a)).filter (q ·.1)
      = (s.entries.filter (·.1 != a)).filter (p ·.1) := by
    apply List.filter_congr
    intro x hx
    have hne := bne_iff_ne.1 (List.mem_filter.1 hx).2
    rw [hnew, beq_eq_false_iff_ne.2 hne, Bool.or_false]
  have hp := hothers p _ _ (entries_split hr)
  have hq := hothers q _ _ (entries_split hr)
  rw [List.filter_cons_of_neg (by simp [hold])] at hp
  rw [List.filter_cons_of_pos (by simp [hself]), hrest] at hq
  exact hq.trans (hp.symm.cons _)

namespace Tally

theorem empty (h : ∀ a, s.contains a = true → p a = false) : s.Tally p 0 0 := by
  have hnil := among_eq_nil h
  exact ⟨by rw [hnil]; rfl, by rw [hnil]; rfl⟩

theorem insert (h : s.Tally p objects bytes) (hr : s.get? a = some r) (hold : p a = false)
    (hnew : ∀ b, q b = (p b || b == a)) : s.Tally q (objects + 1) (bytes + r.size) := by
  have hperm := among_insert hr hold hnew
  constructor
  · rw [hperm.length_eq, List.length_cons, h.objects_eq]
  · rw [weight_perm hperm, weight_cons, h.bytes_eq, Nat.add_comm]

theorem unique (h : s.Tally p objects bytes) (h' : s.Tally p objects' bytes') :
    objects = objects' ∧ bytes = bytes' :=
  ⟨h.objects_eq.trans h'.objects_eq.symm, h.bytes_eq.trans h'.bytes_eq.symm⟩

/-- Marks do not count. -/
theorem congr (h : s.Tally p objects bytes) (hsame : SameButMarks s s')
    (hpq : ∀ a, s.contains a = true → p a = q a) : s'.Tally q objects bytes := by
  have hsizes (a : Nat) : (s'.get? a).map Record.size = (s.get? a).map Record.size := by
    have ha := congrArg (Option.map Record.size) (hsame a)
    rw [Option.map_map, Option.map_map] at ha
    exact ha
  have hread (k : ObjectSpace) : (k.among q).map (fun x => (x.1, x.2.size))
      = (k.entries.map fun x => (x.1, x.2.size)).filter (q ·.1) := by
    rw [List.filter_map]
    rfl
  have hperm : ((s'.among q).map fun x => (x.1, x.2.size)).Perm
      ((s.among q).map fun x => (x.1, x.2.size)) := by
    rw [hread, hread]
    exact (entries_congr hsizes).filter _
  have hbytes (xs : List (Nat × Record)) :
      weight xs = Word.total ((xs.map fun x => (x.1, x.2.size)).map Prod.snd) := by
    rw [List.map_map]
    rfl
  constructor
  · have hlength := hperm.length_eq
    rw [List.length_map, List.length_map] at hlength
    rw [hlength, h.objects_eq, among_congr hpq]
  · rw [hbytes, Word.total_perm (hperm.map Prod.snd), ← hbytes, h.bytes_eq, among_congr hpq]

theorem le_count (h : s.Tally p objects bytes) : objects ≤ s.count := by
  rw [h.objects_eq, show s.count = s.entries.length from Std.TreeMap.length_toList.symm]
  exact List.length_filter_le _ _

end Tally

/-- The objects with marks, chosen by address. -/
theorem among_isMarked (s : ObjectSpace) : s.among s.isMarked = s.entries.filter (·.2.marked) := by
  apply List.filter_congr
  intro x hx
  rw [isMarked, mem_entries.1 hx, Option.any_some]

end GenHeap.ObjectSpace
