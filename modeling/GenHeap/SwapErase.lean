/-!
Removal from a list that need not keep its order: the last entry takes the place of the removed
one, so the rest is a permutation of what an ordered removal leaves.
-/

namespace GenHeap

variable {α : Type}

/-- The list without the entry at `i`, in whose place the last entry stands. -/
def swapErase (xs : List α) (i : Nat) : List α :=
  match xs.getLast? with
  | none => []
  | some last => (xs.set i last).dropLast

theorem length_swapErase (xs : List α) (i : Nat) : (swapErase xs i).length = xs.length - 1 := by
  unfold swapErase
  cases h : xs.getLast? with
  | none => simp_all
  | some last => simp

open List in
/-- A removed entry and what `swapErase` leaves are what was there. -/
theorem perm_cons_swapErase {xs : List α} {i : Nat} {x : α} (h : xs[i]? = some x) :
    xs.Perm (x :: swapErase xs i) := by
  unfold swapErase
  cases hl : xs.getLast? with
  | none =>
    rw [List.getLast?_eq_none_iff.1 hl] at h
    cases h
  | some last =>
    obtain ⟨ys, rfl⟩ := List.getLast?_eq_some_iff.1 hl
    rcases Nat.lt_or_ge i ys.length with hi | hi
    · rw [List.getElem?_append_left hi] at h
      obtain ⟨_, rfl⟩ := List.getElem?_eq_some_iff.1 h
      show (ys ++ [last]).Perm (ys[i] :: ((ys ++ [last]).set i last).dropLast)
      rw [List.set_append_left _ _ hi, List.dropLast_concat, List.set_eq_take_append_cons_drop, if_pos hi]
      have hsplit : ys = ys.take i ++ ys[i] :: ys.drop (i + 1) := by
        rw [← List.drop_eq_getElem_cons hi, List.take_append_drop]
      calc ys ++ [last]
          = (ys.take i ++ ys[i] :: ys.drop (i + 1)) ++ [last] := by rw [← hsplit]
        _ ~ last :: (ys.take i ++ ys[i] :: ys.drop (i + 1)) := List.perm_append_singleton ..
        _ ~ last :: (ys[i] :: (ys.take i ++ ys.drop (i + 1))) := List.perm_middle.cons _
        _ ~ ys[i] :: (last :: (ys.take i ++ ys.drop (i + 1))) := List.Perm.swap ..
        _ ~ ys[i] :: (ys.take i ++ last :: ys.drop (i + 1)) := (List.perm_middle.symm).cons _
    · have hlen := (List.getElem?_eq_some_iff.1 h).1
      rw [List.length_append, List.length_singleton] at hlen
      have hi' : i = ys.length := by omega
      subst hi'
      rw [List.getElem?_concat_length] at h
      cases h
      show (ys ++ [x]).Perm (x :: ((ys ++ [x]).set ys.length x).dropLast)
      rw [List.set_append_right _ _ (Nat.le_refl _), Nat.sub_self, List.set_cons_zero,
        List.dropLast_concat]
      exact List.perm_append_singleton ..

end GenHeap
