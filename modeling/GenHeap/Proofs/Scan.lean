import GenHeap.Proofs.Digits
import GenHeap.Scan

/-!
What the steps of a scan read of a text that is known to begin with what they look for.
-/

namespace GenHeap.Scan

variable {α β : Type} {c : Char} {cs ds rest : List Char} {most n w : Nat} {a : α}

/-! ## Steps one after the other -/

theorem bind_of {p : Scan α} {f : α → Scan β} (hp : p cs = some (a, rest)) :
    (p >>= f) cs = f a rest := by
  show (p cs).bind _ = _
  rw [hp]
  rfl

theorem get_bind {f : List Char → Scan β} : (get >>= f) cs = f cs cs := rfl

theorem set_bind {f : PUnit → Scan β} : (set ds >>= f) cs = f ⟨⟩ ds := rfl

theorem guard_bind_of {p : Prop} [Decidable p] {f : Unit → Scan β} (hp : p) :
    (guard p >>= f) cs = f () cs := by
  unfold guard
  rw [if_pos hp]
  rfl

theorem pure_apply : (pure a : Scan α) cs = some (a, cs) := rfl

theorem whole?_of {p : Scan α} {s : String} (hp : p s.toList = some (a, [])) :
    whole? p s = some a := by
  unfold whole?
  rw [StateT.run, hp]
  rfl

/-! ## Characters -/

/-- There are no blanks in front of other characters. -/
theorem blanks_of (hcs : cs.head?.any isBlank = false) : blanks cs = some ((), cs) := by
  cases cs with
  | nil => rfl
  | cons c cs =>
    have hc : ¬ isBlank c = true := Bool.eq_false_iff.1 hcs
    show some ((), (c :: cs).dropWhile isBlank) = _
    rw [List.dropWhile_cons_of_neg hc]

theorem charWhere_of {p : Char → Bool} (hc : p c = true) :
    charWhere p (c :: cs) = some (c, cs) := by
  unfold charWhere
  rw [get_bind]
  dsimp only
  rw [guard_bind_of hc, set_bind, pure_apply]

theorem char_of : char c (c :: cs) = some ((), cs) := by
  unfold char
  rw [bind_of (charWhere_of (p := (· == c)) (beq_self_eq_true c)), pure_apply]

theorem oneOf_of {allowed : List Char} (hc : allowed.contains c = true) :
    oneOf allowed (c :: cs) = some (c, cs) :=
  charWhere_of hc

/-! ## Digits -/

theorem takeWhile_append_of (hds : ∀ c ∈ ds, c.isDigit = true)
    (hrest : rest.head?.any Char.isDigit = false) : (ds ++ rest).takeWhile Char.isDigit = ds := by
  rw [List.takeWhile_append_of_pos hds]
  cases rest with
  | nil => exact List.append_nil ds
  | cons c rest =>
    have hc : ¬ c.isDigit = true := Bool.eq_false_iff.1 hrest
    rw [List.takeWhile_cons_of_neg hc, List.append_nil]

/-- Digits are read up to what follows them, or as many as are wanted. -/
theorem digits_append (hds : ∀ c ∈ ds, c.isDigit = true) (hne : ds ≠ []) (hle : ds.length ≤ most)
    (hend : ds.length = most ∨ rest.head?.any Char.isDigit = false) :
    digits most (ds ++ rest) = some (ds, rest) := by
  have hread : ((ds ++ rest).take most).takeWhile Char.isDigit = ds := by
    rw [List.take_append, List.take_of_length_le hle]
    refine takeWhile_append_of hds ?_
    rcases hend with hlen | hrest
    · rw [hlen, Nat.sub_self, List.take_zero]
      rfl
    · cases rest with
      | nil => rw [List.take_nil]; rfl
      | cons c rest =>
        cases most - ds.length with
        | zero => rfl
        | succ k => exact hrest
  unfold digits
  rw [get_bind, hread, guard_bind_of (by rw [List.isEmpty_eq_false_iff.2 hne]; rfl), set_bind,
    pure_apply, List.drop_left]

theorem digits_padded (hw : 0 < w) (hn : n < 10 ^ w) (hle : w ≤ most)
    (hend : w = most ∨ rest.head?.any Char.isDigit = false) :
    digits most (padded w n ++ rest) = some (padded w n, rest) := by
  have hlen := length_padded hw hn
  apply digits_append (fun _ => isDigit_of_mem_padded) padded_ne_nil
  · rwa [hlen]
  · rwa [hlen]

end GenHeap.Scan
