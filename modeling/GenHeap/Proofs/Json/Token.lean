import GenHeap.Json.Value
import GenHeap.Proofs.Scan

/-!
The tokens of written text. Each token of a value is found again where it was written, if what
follows a number or a word does not belong to it.
-/

namespace GenHeap.Json

namespace Token

variable {c e : Char} {cs rest : List Char} {ts : List Token} {t : Token} {n : Nat}

/-! ## Strings -/

theorem pieces?_escaped (he : escaped? c = some e) : pieces? ('\\' :: c :: rest) =
    (pieces? rest).map fun (ps, rest) => (.char e :: ps, rest) := by
  have hcode : ∀ (a b c' d : Char) (more : List Char), c = 'u' → rest = a :: b :: c' :: d :: more →
      False := by
    rintro _ _ _ _ _ rfl
    cases he
  rw [pieces?.eq_4 c rest hcode, he]
  cases pieces? rest <;> rfl

theorem pieces?_plain (hquote : c ≠ '"') (hslash : c ≠ '\\') (hc : 0x20 ≤ c.toNat) :
    pieces? (c :: rest) = (pieces? rest).map fun (ps, rest) => (.char c :: ps, rest) := by
  rw [pieces?.eq_5 c rest hquote (fun _ _ _ _ _ h => absurd h hslash)
    (fun _ _ h => absurd h hslash), if_neg (not_or_intro (by omega) hslash)]
  cases pieces? rest <;> rfl

/-- A control character without a letter of its own is written by its code. -/
theorem pieces?_code (hn : n < 0x20) : pieces? ('\\' :: 'u' ::
      (List.replicate (4 - (Nat.toDigits 16 n).length) '0' ++ Nat.toDigits 16 n) ++ rest) =
    (pieces? rest).map fun (ps, rest) => (.char (Char.ofNat n) :: ps, rest) := by
  obtain ⟨hhigh, hhighValue⟩ := hexDigit_digitChar (n / 16) (by omega)
  obtain ⟨hlow, hlowValue⟩ := hexDigit_digitChar (n % 16) (by omega)
  have hvalue : ofDigits 16 ['0', '0', (n / 16).digitChar, (n % 16).digitChar] = n := by
    show 16 * (16 * (16 * (16 * 0 + 0) + 0) + digitValue (n / 16).digitChar) +
      digitValue (n % 16).digitChar = n
    rw [hhighValue, hlowValue]
    omega
  have hunit : Piece.ofUnit n = .char (Char.ofNat n) := by
    unfold Piece.ofUnit
    rw [if_neg (by omega), if_neg (by omega)]
  have hhex : ['0', '0', (n / 16).digitChar, (n % 16).digitChar].all isHexDigit = true := by
    rw [List.all_cons, List.all_cons, List.all_cons, List.all_cons, hhigh, hlow]
    rfl
  rw [hexDigits_eq (by omega)]
  simp only [List.cons_append, List.nil_append]
  rw [pieces?.eq_3, if_pos hhex, hvalue, hunit]
  cases pieces? rest <;> rfl

/-- A character is read again as it was written. -/
theorem pieces?_escape (c : Char) : pieces? (escape c ++ rest) =
    (pieces? rest).map fun (ps, rest) => (.char c :: ps, rest) := by
  unfold escape
  split
  case h_8 hquote hslash hnewline hreturn htab hback hfeed =>
    split
    next hcontrol =>
      refine (pieces?_code hcontrol).trans ?_
      rw [Char.ofNat_toNat]
    next hplain => exact pieces?_plain hquote hslash (by omega)
  all_goals exact pieces?_escaped rfl

theorem pieces?_quoted (cs : List Char) : pieces? (cs.flatMap escape ++ '"' :: rest) =
    some (cs.map .char, rest) := by
  induction cs with
  | nil => exact pieces?.eq_2 rest
  | cons c cs ih =>
    rw [List.flatMap_cons, List.append_assoc, pieces?_escape, ih]
    rfl

theorem join?_char (cs : List Char) : Piece.join? (cs.map .char) = some cs := by
  induction cs with
  | nil => rfl
  | cons c cs ih =>
    rw [List.map_cons, Piece.join?, ih]
    rfl

theorem next?_quote (s : String) :
    next? '"' (s.toList.flatMap escape ++ '"' :: rest) = some (.string (some s), rest) := by
  show string? _ = _
  unfold string?
  rw [pieces?_quoted]
  dsimp only [bind, Option.bind]
  rw [join?_char, Option.map_some, String.ofList_toList]
  rfl

/-! ## Numbers and words -/

/-- Where a number or a word ends: no letter, digit or point follows. -/
def Ends (cs : List Char) : Prop :=
  cs.head?.any (fun c => c.isAlpha || c.isDigit || c == '.') = false

theorem Ends.head (h : Ends (c :: cs)) : c.isAlpha = false ∧ c.isDigit = false ∧ c ≠ '.' := by
  have hc : (c.isAlpha || c.isDigit || c == '.') = false := h
  rw [Bool.or_eq_false_iff, Bool.or_eq_false_iff, beq_eq_false_iff_ne] at hc
  exact ⟨hc.1.1, hc.1.2, hc.2⟩

theorem Ends.not_isDigit (h : Ends cs) : cs.head?.any Char.isDigit = false := by
  cases cs with
  | nil => rfl
  | cons c cs => exact h.head.2.1

theorem whole?_toDigits (h : Ends rest) :
    whole? (Nat.toDigits 10 n ++ rest) = some (Nat.toDigits 10 n, rest) := by
  rcases Nat.eq_zero_or_pos n with rfl | hn
  · show (if rest.head?.any Char.isDigit then none else some (['0'], rest)) = _
    rw [h.not_isDigit]
    rfl
  · have hread : (Nat.toDigits 10 n ++ rest).takeWhile Char.isDigit = Nat.toDigits 10 n :=
      Scan.takeWhile_append_of (fun _ => isDigit_of_mem_toDigits) h.not_isDigit
    unfold whole?
    split
    next more hmore =>
      have hzero := congrArg List.head? hmore
      rw [List.head?_append, List.head?_eq_some_head Nat.toDigits_ne_nil, Option.some_or,
        ← List.head?_eq_some_head] at hzero
      exact absurd hzero (head?_toDigits hn)
    next =>
      unfold digits?
      dsimp only
      rw [hread, List.drop_left, if_neg]
      rw [List.isEmpty_iff]
      exact Nat.toDigits_ne_nil

theorem fraction?_of_ends (h : Ends rest) : fraction? rest = some (false, rest) := by
  unfold fraction?
  split
  next => exact absurd rfl h.head.2.2
  next => rfl

theorem exponent?_of_ends (h : Ends rest) : exponent? rest = some (false, rest) := by
  cases rest with
  | nil => rfl
  | cons c rest =>
    have hletter : ¬ (c = 'e' ∨ c = 'E') := by
      rintro (rfl | rfl)
      · cases h.head.1
      · cases h.head.1
    unfold exponent?
    dsimp only
    rw [if_neg hletter]

theorem number?_toDigits (h : Ends rest) :
    number? (Nat.toDigits 10 n ++ rest) = some (.natural n, rest) := by
  obtain ⟨c, ds, hds⟩ := List.exists_cons_of_ne_nil (Nat.toDigits_ne_nil (n := n) (b := 10))
  have hc : c.isDigit = true := isDigit_of_mem_toDigits (hds ▸ List.mem_cons_self)
  have hsign : ((Nat.toDigits 10 n ++ rest).head? == some '-') = false := by
    rw [hds]
    refine beq_eq_false_iff_ne.2 fun hminus => ?_
    cases hminus
    cases hc
  unfold number?
  rw [hsign]
  simp only [Bool.false_eq_true, if_false, whole?_toDigits h, fraction?_of_ends h,
    exponent?_of_ends h, Option.bind_eq_bind, Option.bind_some, Bool.or_self, ofDigits_toDigits]
  rfl

/-- Letters and digits are neither marks nor spaces, and no quote. -/
theorem of_isAlphanum (hc : c.isAlphanum = true) :
    ofChar? c = none ∧ isSpace c = false ∧ c ≠ '"' := by
  refine ⟨?_, ?_, ?_⟩
  · unfold ofChar?
    split
    all_goals first | rfl | cases hc
  · simp only [isSpace, Bool.or_eq_false_iff, beq_eq_false_iff_ne]
    refine ⟨⟨⟨?_, ?_⟩, ?_⟩, ?_⟩
    all_goals
      rintro rfl
      cases hc
  · rintro rfl
    cases hc

theorem isAlphanum_of_isDigit (hc : c.isDigit = true) : c.isAlphanum = true := by
  rw [Char.isAlphanum, hc, Bool.or_true]

theorem isAlphanum_of_isAlpha (hc : c.isAlpha = true) : c.isAlphanum = true := by
  rw [Char.isAlphanum, hc, Bool.true_or]

theorem not_isAlpha_of_isDigit (hc : c.isDigit = true) : c.isAlpha = false := by
  simp only [Char.isDigit, Bool.and_eq_true, decide_eq_true_eq] at hc
  have hhigh : c.toNat ≤ 57 := hc.2
  simp only [Char.isAlpha, Char.isUpper, Char.isLower, Bool.or_eq_false_iff, Bool.and_eq_false_iff,
    decide_eq_false_iff_not]
  constructor
  · rintro ⟨hle, _⟩
    have hle : 65 ≤ c.toNat := hle
    omega
  · refine .inl fun hle => ?_
    have hle : 97 ≤ c.toNat := hle
    omega

theorem next?_digits {ds : List Char} (hds : Nat.toDigits 10 n = c :: ds) (h : Ends rest) :
    next? c (ds ++ rest) = some (.natural n, rest) := by
  have hc : c.isDigit = true := isDigit_of_mem_toDigits (hds ▸ List.mem_cons_self)
  obtain ⟨hmark, _, hquote⟩ := of_isAlphanum (isAlphanum_of_isDigit hc)
  have halpha : ¬ c.isAlpha = true := Bool.eq_false_iff.1 (not_isAlpha_of_isDigit hc)
  unfold next?
  rw [hmark]
  dsimp only
  rw [if_neg hquote, if_neg halpha, ← List.cons_append, ← hds]
  exact number?_toDigits h

theorem next?_word {word : List Char} (hword : (c :: word).all Char.isAlpha = true)
    (ht : ofWord? (c :: word) = some t) (h : Ends rest) :
    next? c (word ++ rest) = some (t, rest) := by
  rw [List.all_eq_true] at hword
  have hc : c.isAlpha = true := hword c List.mem_cons_self
  obtain ⟨hmark, _, hquote⟩ := of_isAlphanum (isAlphanum_of_isAlpha hc)
  have hread : (c :: (word ++ rest)).takeWhile Char.isAlpha = c :: word := by
    rw [← List.cons_append, List.takeWhile_append_of_pos hword]
    cases rest with
    | nil => exact List.append_nil _
    | cons c' rest =>
      have hc' : ¬ c'.isAlpha = true := Bool.eq_false_iff.1 h.head.1
      rw [List.takeWhile_cons_of_neg hc', List.append_nil]
  unfold next?
  rw [hmark]
  dsimp only
  rw [if_neg hquote, if_pos hc, hread, ht, Option.map_some, ← List.cons_append, List.drop_left]

/-! ## Whole texts -/

/-- A text has some tokens, however long the reader may take for it. -/
def Reads (cs : List Char) (ts : List Token) : Prop :=
  ∀ fuel, cs.length ≤ fuel → ofChars? fuel cs = some ts

theorem reads_nil : Reads [] [] := by
  intro fuel _
  cases fuel <;> rfl

theorem Reads.space (hc : isSpace c = true) (h : Reads cs ts) : Reads (c :: cs) ts := by
  intro fuel hfuel
  cases fuel with
  | zero => cases hfuel
  | succ fuel =>
    rw [ofChars?, if_pos hc]
    exact h fuel (Nat.le_of_succ_le_succ hfuel)

theorem Reads.spaces (k : Nat) (h : Reads cs ts) : Reads (List.replicate k ' ' ++ cs) ts := by
  induction k with
  | zero => exact h
  | succ k ih => exact ih.space rfl

theorem Reads.token (hc : isSpace c = false) (ht : next? c cs = some (t, rest))
    (hle : rest.length ≤ cs.length) (h : Reads rest ts) : Reads (c :: cs) (t :: ts) := by
  intro fuel hfuel
  cases fuel with
  | zero => cases hfuel
  | succ fuel =>
    have hrest := h fuel (Nat.le_trans hle (Nat.le_of_succ_le_succ hfuel))
    rw [ofChars?, hc]
    simp only [Bool.false_eq_true, if_false, ht, Option.bind_eq_bind, Option.bind_some, hrest]
    rfl

theorem Reads.mark (hc : isSpace c = false) (ht : ofChar? c = some t) (h : Reads rest ts) :
    Reads (c :: rest) (t :: ts) := by
  refine h.token hc ?_ (Nat.le_refl _)
  unfold next?
  rw [ht]

theorem Reads.quote (s : String) (h : Reads rest ts) :
    Reads (Json.quote s ++ rest) (.string (some s) :: ts) := by
  unfold Json.quote
  simp only [List.cons_append, List.append_assoc, List.nil_append]
  refine h.token rfl (next?_quote s) ?_
  simp only [List.length_append, List.length_cons]
  omega

theorem Reads.natural (n : Nat) (hend : Ends rest) (h : Reads rest ts) :
    Reads (Nat.toDigits 10 n ++ rest) (.natural n :: ts) := by
  obtain ⟨c, ds, hds⟩ := List.exists_cons_of_ne_nil (Nat.toDigits_ne_nil (n := n) (b := 10))
  have hc : c.isDigit = true := isDigit_of_mem_toDigits (hds ▸ List.mem_cons_self)
  rw [hds, List.cons_append]
  refine h.token (of_isAlphanum (isAlphanum_of_isDigit hc)).2.1 (next?_digits hds hend) ?_
  rw [List.length_append]
  exact Nat.le_add_left ..

theorem Reads.word {word : List Char} (hword : (c :: word).all Char.isAlpha = true)
    (ht : ofWord? (c :: word) = some t) (hend : Ends rest) (h : Reads rest ts) :
    Reads (c :: word ++ rest) (t :: ts) := by
  have hfirst := List.all_eq_true.1 hword c List.mem_cons_self
  have hc := of_isAlphanum (isAlphanum_of_isAlpha hfirst)
  rw [List.cons_append]
  refine h.token hc.2.1 (next?_word hword ht hend) ?_
  rw [List.length_append]
  exact Nat.le_add_left ..

end Token

end GenHeap.Json
