import GenHeap.Proofs.Scan
import GenHeap.UtcTime

/-!
Points in time written and read again. A valid time is read as itself from its text, whatever its
year is, and however many digits its fraction takes.
-/

namespace GenHeap

theorem isBlank_of_isDigit {c : Char} (hc : c.isDigit = true) : isBlank c = false := by
  simp only [Char.isDigit, Bool.and_eq_true, decide_eq_true_eq] at hc
  have hlow : 48 ≤ c.toNat := hc.1
  have hhigh : c.toNat ≤ 57 := hc.2
  simp only [isBlank, blankRanges, List.any_cons, List.any_nil, Bool.or_false, Bool.or_eq_false_iff,
    Bool.and_eq_false_iff, decide_eq_false_iff_not]
  omega

namespace UtcTime

variable {n : Nat} {rest : List Char} {t : UtcTime}

/-! ## Parts -/

theorem blanks_padded (w n : Nat) : Scan.blanks (padded w n ++ rest) = some ((), padded w n ++ rest) := by
  obtain ⟨c, cs, hcs, hc⟩ := exists_padded w n
  apply Scan.blanks_of
  rw [hcs]
  exact isBlank_of_isDigit hc

theorem scanNumber_padded (hn : n < 100) : scanNumber 2 (padded 2 n ++ rest) = some (n, rest) := by
  unfold scanNumber
  rw [Scan.bind_of (blanks_padded 2 n),
    Scan.bind_of (Scan.digits_padded (by decide) hn (by decide) (.inl rfl)), Scan.pure_apply,
    ofDigits_padded]

theorem scanMark_of {c : Char} (hc : isBlank c = false) :
    scanMark c (c :: rest) = some ((), rest) := by
  have hblanks : Scan.blanks (c :: rest) = some ((), c :: rest) := Scan.blanks_of hc
  unfold scanMark
  rw [Scan.bind_of hblanks]
  exact Scan.char_of

/-- All digits behind a sign belong to the year. -/
theorem digits_signed (n : Nat) : Scan.digits (padded 4 n ++ '-' :: rest).length
    (padded 4 n ++ '-' :: rest) = some (padded 4 n, '-' :: rest) := by
  apply Scan.digits_append (fun _ => isDigit_of_mem_padded) padded_ne_nil
  · rw [List.length_append]
    exact Nat.le_add_right ..
  · exact .inr rfl

/-- A year that begins with a digit has four of them. -/
theorem scanYear_unsigned {cs ds : List Char} (hcs : ∃ c, cs.head? = some c ∧ c.isDigit = true)
    (hread : Scan.digits 4 cs = some (ds, rest)) : scanYear cs = some ((ofDigits 10 ds : Int), rest) := by
  obtain ⟨c, hhead, hc⟩ := hcs
  have hblank : cs.head?.any isBlank = false := by
    rw [hhead]
    exact isBlank_of_isDigit hc
  unfold scanYear
  rw [Scan.bind_of (Scan.blanks_of hblank), Scan.get_bind]
  split
  · cases hhead
    cases hc
  · cases hhead
    cases hc
  · rw [Scan.bind_of hread, Scan.pure_apply]

theorem scanYear_yearText (year : Int) :
    scanYear (yearText year ++ '-' :: rest) = some (year, '-' :: rest) := by
  unfold yearText
  split
  next hneg =>
    have hyear : -(year.natAbs : Int) = year := by omega
    unfold scanYear
    rw [List.cons_append, Scan.bind_of (Scan.blanks_of rfl), Scan.get_bind]
    show (set _ >>= _ : Scan Int) _ = _
    rw [Scan.set_bind, Scan.bind_of (digits_signed _), Scan.pure_apply, ofDigits_padded, hyear]
  next hnonneg =>
    have hyear : (year.natAbs : Int) = year := by omega
    split
    next hlarge =>
      unfold scanYear
      rw [List.cons_append, Scan.bind_of (Scan.blanks_of rfl), Scan.get_bind]
      show (set _ >>= _ : Scan Int) _ = _
      rw [Scan.set_bind, Scan.bind_of (digits_signed _), Scan.pure_apply, ofDigits_padded, hyear]
    next hsmall =>
      have hdigits : Scan.digits 4 (padded 4 year.natAbs ++ '-' :: rest) =
          some (padded 4 year.natAbs, '-' :: rest) :=
        Scan.digits_padded (by decide) (by omega) (by decide) (.inl rfl)
      obtain ⟨c, cs, hcs, hc⟩ := exists_padded 4 year.natAbs
      have hhead : (padded 4 year.natAbs ++ '-' :: rest).head? = some c := by
        rw [hcs]
        rfl
      rw [scanYear_unsigned ⟨c, hhead, hc⟩ hdigits, ofDigits_padded, hyear]

/-- Nine digits and fewer are read with the zeros that they leave out behind them. -/
theorem scanFraction_padded {w : Nat} (hw : 0 < w) (hle : w ≤ 9) (hn : n < 10 ^ w) :
    scanFraction ('.' :: padded w n ++ ['Z']) = some (n * 10 ^ (9 - w), ['Z']) := by
  unfold scanFraction
  rw [Scan.get_bind, List.cons_append]
  show (set _ >>= _ : Scan Nat) _ = _
  rw [Scan.set_bind, Scan.bind_of (Scan.digits_padded hw hn hle (.inr rfl)), Scan.bind_of rfl,
    Scan.pure_apply, ofDigits_padded, length_padded hw hn]
  rfl

theorem scanFraction_fractionText (hn : n < 1000000000) :
    scanFraction (fractionText n ++ ['Z']) = some (n, ['Z']) := by
  unfold fractionText
  split
  next hzero =>
    rw [hzero]
    rfl
  next =>
    split
    next hmillis =>
      rw [scanFraction_padded (by decide) (by decide) (by omega)]
      have hvalue : n / 1000000 * 10 ^ (9 - 3) = n := Nat.div_mul_cancel (Nat.dvd_of_mod_eq_zero hmillis)
      rw [hvalue]
    next =>
      split
      next hmicros =>
        rw [scanFraction_padded (by decide) (by decide) (by omega)]
        have hvalue : n / 1000 * 10 ^ (9 - 6) = n := Nat.div_mul_cancel (Nat.dvd_of_mod_eq_zero hmicros)
        rw [hvalue]
      next =>
        rw [scanFraction_padded (by decide) (by decide) hn, Nat.sub_self, Nat.pow_zero, Nat.mul_one]

theorem scanOffset_utc : scanOffset ['Z'] = some (0, []) := by
  unfold scanOffset
  rw [Scan.bind_of (Scan.blanks_of rfl)]
  rfl

/-! ## The whole -/

theorem isValid_iff : t.isValid = true ↔ (firstYear ≤ t.year ∧ t.year ≤ lastYear) ∧
    (1 ≤ t.month ∧ t.month ≤ 12) ∧ (1 ≤ t.day ∧ t.day ≤ daysIn t.year t.month) ∧
    t.hour ≤ 23 ∧ t.minute ≤ 59 ∧ t.second ≤ 60 ∧ t.nanosecond < 1000000000 := by
  simp only [isValid, Bool.and_eq_true, decide_eq_true_eq]
  tauto

theorem daysIn_le (year : Int) (month : Nat) : daysIn year month ≤ 31 := by
  unfold daysIn
  split_ifs <;> omega

/-- The parts of a text come back one by one, with an offset of zero. -/
theorem scanLocal_text (hv : t.isValid = true) : scanLocal t.text.toList = some ((t, 0), []) := by
  obtain ⟨_, hmonth, hday, hhour, hminute, hsecond, hnanosecond⟩ := isValid_iff.1 hv
  have hdays := daysIn_le t.year t.month
  unfold scanLocal text
  rw [String.toList_ofList]
  simp only [List.append_assoc, List.cons_append]
  rw [Scan.bind_of (scanYear_yearText t.year), Scan.bind_of (scanMark_of rfl),
    Scan.bind_of (scanNumber_padded (by omega)), Scan.bind_of (scanMark_of rfl),
    Scan.bind_of (scanNumber_padded (by omega)),
    Scan.bind_of (Scan.oneOf_of (by decide)), Scan.bind_of (scanNumber_padded (by omega)),
    Scan.bind_of (scanMark_of rfl), Scan.bind_of (scanNumber_padded (by omega)),
    Scan.bind_of (scanMark_of rfl), Scan.bind_of (scanNumber_padded (by omega)),
    Scan.bind_of (scanFraction_fractionText hnanosecond), Scan.bind_of scanOffset_utc,
    Scan.bind_of (Scan.blanks_of rfl), Scan.pure_apply]

theorem ofLocal_zero (hhour : t.hour ≤ 23) (hminute : t.minute ≤ 59) : t.ofLocal 0 = t := by
  have hminutes : (t.hour : Int) * 60 + t.minute - 0 = (t.hour * 60 + t.minute : Nat) := by omega
  have hmod : ((t.hour * 60 + t.minute : Nat) : Int) % minutesOfDay = (t.hour * 60 + t.minute : Nat) :=
    Int.emod_eq_of_lt (by omega) (by unfold minutesOfDay; omega)
  have hhours : (t.hour * 60 + t.minute) / 60 = t.hour := by omega
  have hrest : (t.hour * 60 + t.minute) % 60 = t.minute := by omega
  unfold ofLocal
  dsimp only
  rw [hminutes, hmod, Int.toNat_natCast, hhours, hrest, if_neg (by omega),
    if_neg (by unfold minutesOfDay; omega)]

/-- A valid time is what its text says. -/
theorem ofText?_text (hv : t.isValid = true) : ofText? t.text = some t := by
  obtain ⟨_, _, _, hhour, hminute, _⟩ := isValid_iff.1 hv
  unfold ofText?
  rw [Scan.whole?_of (scanLocal_text hv)]
  dsimp only [bind, Option.bind]
  rw [hv, ofLocal_zero hhour hminute, hv]
  rfl

theorem isValid_of_ofText? {s : String} (ht : ofText? s = some t) : t.isValid = true := by
  unfold ofText? at ht
  simp only [bind, Option.bind_eq_some_iff, Option.guard_eq_some'] at ht
  obtain ⟨_, _, _, _, _, hv, ht⟩ := ht
  cases ht
  exact hv

end UtcTime

end GenHeap
