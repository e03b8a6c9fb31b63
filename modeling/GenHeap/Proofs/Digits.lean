import GenHeap.Digits
import Mathlib

/-!
Numbers written in digits and read again. Zeros in front do not change the value that digits have.
-/

namespace GenHeap

variable {c : Char} {ds : List Char} {n w : Nat}

theorem digitValue_of_isDigit (hc : c.isDigit = true) : digitValue c = c.toNat - '0'.toNat :=
  if_pos hc

/-- Decimal digits have the value that the library gives them. -/
theorem ofDigits_eq (hds : ∀ c ∈ ds, c.isDigit = true) :
    ofDigits 10 ds = Nat.ofDigitChars 10 ds 0 := by
  rw [Nat.ofDigitChars_eq_foldl]
  apply List.foldl_ext
  intro n c hc
  rw [digitValue_of_isDigit (hds c hc)]

theorem isDigit_of_mem_toDigits (hc : c ∈ Nat.toDigits 10 n) : c.isDigit = true :=
  Nat.isDigit_of_mem_toDigits (by decide) (by decide) hc

theorem ofDigits_toDigits (n : Nat) : ofDigits 10 (Nat.toDigits 10 n) = n := by
  rw [ofDigits_eq fun _ => isDigit_of_mem_toDigits]
  exact Nat.ofDigitChars_ten_toDigits

/-- Only zero is written with a leading zero. -/
theorem head?_toDigits (hn : 0 < n) : (Nat.toDigits 10 n).head? ≠ some '0' := by
  induction n using Nat.strongRecOn with
  | ind n ih =>
    rw [Nat.toDigits_eq_if (by decide)]
    split
    · intro hzero
      have hdigit := Nat.digitChar_eq_zero.1 (Option.some.inj hzero)
      omega
    · rw [List.head?_append, List.head?_eq_some_head Nat.toDigits_ne_nil, Option.some_or,
        ← List.head?_eq_some_head]
      exact ih (n / 10) (by omega) (by omega)

/-! ## Digits with zeros in front -/

theorem isDigit_of_mem_padded (hc : c ∈ padded w n) : c.isDigit = true := by
  rcases List.mem_append.1 hc with hzero | hdigit
  · rw [List.eq_of_mem_replicate hzero]
    rfl
  · exact isDigit_of_mem_toDigits hdigit

theorem ofDigits_padded (w n : Nat) : ofDigits 10 (padded w n) = n := by
  rw [ofDigits_eq fun _ => isDigit_of_mem_padded, padded, Nat.ofDigitChars_append,
    Nat.ofDigitChars_replicate_zero, Nat.mul_zero]
  exact Nat.ofDigitChars_ten_toDigits

theorem padded_ne_nil : padded w n ≠ [] :=
  List.append_ne_nil_of_right_ne_nil _ Nat.toDigits_ne_nil

theorem exists_padded (w n : Nat) : ∃ c cs, padded w n = c :: cs ∧ c.isDigit = true := by
  obtain ⟨c, cs, hcs⟩ := List.exists_cons_of_ne_nil (padded_ne_nil (w := w) (n := n))
  exact ⟨c, cs, hcs, isDigit_of_mem_padded (hcs ▸ List.mem_cons_self)⟩

theorem length_padded (hw : 0 < w) (hn : n < 10 ^ w) : (padded w n).length = w := by
  have hle : (Nat.toDigits 10 n).length ≤ w := (Nat.length_toDigits_le_iff (by decide) hw).2 hn
  rw [padded, List.length_append, List.length_replicate]
  omega

/-- The four hexadecimal digits of a number below 256. -/
theorem hexDigits_eq (hn : n < 256) :
    List.replicate (4 - (Nat.toDigits 16 n).length) '0' ++ Nat.toDigits 16 n =
      ['0', '0', (n / 16).digitChar, (n % 16).digitChar] := by
  rw [Nat.toDigits_eq_if (by decide)]
  split
  next hlt =>
    rw [Nat.div_eq_of_lt hlt, Nat.mod_eq_of_lt hlt]
    rfl
  next hle =>
    rw [Nat.toDigits_of_lt_base (by omega)]
    rfl

/-- A hexadecimal digit has its value. -/
theorem hexDigit_digitChar : ∀ d < 16,
    isHexDigit d.digitChar = true ∧ digitValue d.digitChar = d := by
  decide

end GenHeap
