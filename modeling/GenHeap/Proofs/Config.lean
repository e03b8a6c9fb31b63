import GenHeap.Config

/-!
What a usable configuration meets.
-/

namespace GenHeap.Config

variable {c : Config} {issue : Issue} {holds : Bool}

/-- None of the issues that are looked for holds of a usable configuration. -/
theorem check_of_validate (hvalid : c.validate = .ok ()) (hcheck : (issue, holds) ∈ c.checks) :
    holds = false := by
  unfold validate at hvalid
  split at hvalid
  · cases hvalid
  next hissue =>
    have hnone := List.find?_eq_none.1 (Option.map_eq_none_iff.1 hissue)
    exact Bool.eq_false_iff.2 (hnone (issue, holds) hcheck)

theorem oomHistoryCapacity_pos (hvalid : c.validate = .ok ()) : 0 < c.oomHistoryCapacity := by
  have hmem : (.oomHistoryCapacity, c.oomHistoryCapacity == 0) ∈ c.checks := by simp [checks]
  exact Nat.pos_of_ne_zero (beq_eq_false_iff_ne.1 (check_of_validate hvalid hmem))

theorem addressSpaceBase_pos (hvalid : c.validate = .ok ()) : 0 < c.addressSpaceBase := by
  have hmem : (.addressSpaceBase, c.addressSpaceBase == 0 ||
      c.addressSpaceBase % c.commitGranularity != 0) ∈ c.checks := by simp [checks]
  have hboth := Bool.or_eq_false_iff.1 (check_of_validate hvalid hmem)
  exact Nat.pos_of_ne_zero (beq_eq_false_iff_ne.1 hboth.1)

end GenHeap.Config
