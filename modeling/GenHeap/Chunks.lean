/-!
Lists cut into consecutive pieces of one length, of which the last may be shorter.
-/

namespace GenHeap

variable {α : Type}

/-- Consecutive pieces of `n + 1` entries; the last one holds what is left. -/
def chunks (n : Nat) (xs : List α) : List (List α) :=
  match xs with
  | [] => []
  | x :: rest => (x :: rest.take n) :: chunks n (rest.drop n)
  termination_by xs.length
  decreasing_by simp only [List.length_drop, List.length_cons]; omega

theorem flatten_chunks (n : Nat) (xs : List α) : (chunks n xs).flatten = xs := by
  fun_induction chunks n xs with
  | case1 => rfl
  | case2 x rest ih => simp [ih]

/-- Lists of the length of a piece are the pieces of what they form together. -/
theorem chunks_flatMap {β : Type} {n : Nat} {f : β → List α} (hf : ∀ b, (f b).length = n + 1)
    (bs : List β) : chunks n (bs.flatMap f) = bs.map f := by
  induction bs with
  | nil => rw [List.flatMap_nil, chunks, List.map_nil]
  | cons b bs ih =>
    obtain ⟨x, rest, hb⟩ := List.exists_cons_of_length_eq_add_one (hf b)
    have hrest : rest.length = n := by
      have hlength := hf b
      rw [hb, List.length_cons] at hlength
      omega
    rw [List.flatMap_cons, List.map_cons, hb, List.cons_append, chunks,
      List.take_left' hrest, List.drop_left' hrest, ih]

end GenHeap
