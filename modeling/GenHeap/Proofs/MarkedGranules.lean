import GenHeap.Proofs.MarkBitmap
import Mathlib.Data.Set.Card

/-!
A mark bitmap as a set of granules. Whatever was marked and cleared, the bit of a covered address
stands in a word that there is, it is set if an address of the same granule was marked since the
bitmap was cleared last, and there are as many bits set as such granules. Objects that do not
overlap have bits of their own.
-/

namespace GenHeap.MarkBitmap

variable {b : MarkBitmap} {a c g low high : Nat}

/-! ## Bits and their number -/

theorem cpopNatRec_eq {n : Nat} (w : BitVec n) (k acc : Nat) :
    w.cpopNatRec k acc = acc + (List.range k).countP w.getLsbD := by
  induction k generalizing acc with
  | zero => rfl
  | succ k ih =>
    rw [BitVec.cpopNatRec_succ, ih, List.range_succ, List.countP_append, List.countP_singleton]
    cases w.getLsbD k with
    | false => rfl
    | true => simp only [Bool.toNat_true, if_true]; omega

theorem toNat_cpop {n : Nat} (w : BitVec n) :
    w.cpop.toNat = (List.range n).countP w.getLsbD := by
  have hle := BitVec.cpopNatRec_zero_le w n
  have hlt := Nat.lt_of_le_of_lt hle Nat.lt_two_pow_self
  rw [BitVec.cpop, BitVec.toNat_ofNat, Nat.mod_eq_of_lt hlt, cpopNatRec_eq, Nat.zero_add]

/-- The bits of all words are those of the granules in order, 64 to a word. -/
theorem total_cpop (ws : List (BitVec wordBits)) : Word.total (ws.map (·.cpop.toNat)) =
    (List.range (wordBits * ws.length)).countP fun g =>
      ws[g / wordBits]?.any (·.getLsbD (g % wordBits)) := by
  induction ws with
  | nil => rfl
  | cons w ws ih =>
    rw [List.map_cons, Word.total_cons, ih, toNat_cpop, List.length_cons, Nat.mul_succ,
      Nat.add_comm (wordBits * _), List.range_add, List.countP_append, List.countP_map]
    refine congrArg₂ (· + ·) ?_ ?_
    · refine List.countP_congr fun g hg => ?_
      rw [List.mem_range] at hg
      rw [Nat.div_eq_of_lt hg, Nat.mod_eq_of_lt hg]
      rfl
    · refine List.countP_congr fun g _ => ?_
      have hpos : 0 < wordBits := by decide
      rw [Function.comp_apply, Nat.add_div_left g hpos, Nat.add_mod_left]
      rfl

theorem lt_of_bit (h : b.bit g = true) : g < wordBits * wordCount b.low b.high := by
  rw [bit, Option.any_eq_true] at h
  obtain ⟨_, hword, _⟩ := h
  obtain ⟨hlt, _⟩ := Vector.getElem?_eq_some_iff.1 hword
  rw [Nat.div_lt_iff_lt_mul (by decide)] at hlt
  rwa [Nat.mul_comm]

theorem count_eq_ncard (b : MarkBitmap) : b.count = {g | b.bit g = true}.ncard := by
  have hset : {g | b.bit g = true} =
      (((List.range (wordBits * wordCount b.low b.high)).filter b.bit).toFinset : Set Nat) := by
    ext g
    simp only [Set.mem_ofPred_eq, List.coe_toFinset, List.mem_filter, List.mem_range]
    exact (and_iff_right_of_imp lt_of_bit).symm
  rw [hset, Set.ncard_coe_finset, List.toFinset_card_of_nodup (List.nodup_range.filter _),
    ← List.countP_eq_length_filter, count, total_cpop, Vector.length_toList]
  simp only [Vector.getElem?_toList]
  rfl

/-! ## Runs -/

/-- What is done with a bitmap. -/
inductive Operation where
  | mark (a : Nat)
  | clear

def Operation.apply (b : MarkBitmap) : Operation → MarkBitmap
  | mark a => b.mark a
  | clear => b.clear

def run (b : MarkBitmap) (ops : List Operation) : MarkBitmap := ops.foldl Operation.apply b

/-- The address was marked, and the bitmap was not cleared after that. -/
def Recent (ops : List Operation) (a : Nat) : Prop :=
  ∃ before after, ops = before ++ .mark a :: after ∧ .clear ∉ after

/-- An address of the range that stands in the granule was marked since the last clearing. -/
def Occupied (low high : Nat) (ops : List Operation) (g : Nat) : Prop :=
  ∃ a, Recent ops a ∧ (low ≤ a ∧ a < high) ∧ (a - low) / Object.alignment = g

variable {op : Operation} {ops before : List Operation}

theorem recent_append_singleton :
    Recent (ops ++ [op]) a ↔ op = .mark a ∨ Recent ops a ∧ op ≠ .clear := by
  constructor
  · rintro ⟨before, after, hops, hclear⟩
    cases after using List.reverseRecOn with
    | nil =>
      obtain ⟨_, hlast⟩ := List.append_inj' hops rfl
      exact .inl (List.singleton_inj.1 hlast)
    | append_singleton after last =>
      rw [← List.cons_append, ← List.append_assoc] at hops
      obtain ⟨hops, hlast⟩ := List.append_inj' hops rfl
      rw [List.mem_append, List.mem_singleton, not_or] at hclear
      exact .inr ⟨⟨before, after, hops, hclear.1⟩, List.singleton_inj.1 hlast ▸ Ne.symm hclear.2⟩
  · rintro (rfl | ⟨⟨before, after, rfl, hclear⟩, hop⟩)
    · exact ⟨ops, [], rfl, List.not_mem_nil⟩
    · refine ⟨before, after ++ [op], by simp, ?_⟩
      rw [List.mem_append, List.mem_singleton, not_or]
      exact ⟨hclear, hop.symm⟩

/-- The bits that are set are those of the granules with a marked address. -/
structure Kept (b : MarkBitmap) (low high : Nat) (ops : List Operation) : Prop where
  low_eq : b.low = low
  high_eq : b.high = max high low
  bit_iff : ∀ g, b.bit g = true ↔ Occupied low high ops g

theorem kept_ofBounds (low high : Nat) : (ofBounds low high).Kept low high [] := by
  refine ⟨rfl, rfl, fun g => iff_of_false (by simp) ?_⟩
  rintro ⟨a, ⟨before, after, hops, _⟩, _⟩
  exact List.append_ne_nil_of_right_ne_nil before (List.cons_ne_nil _ _) hops.symm

theorem Kept.covers_iff (h : b.Kept low high ops) : b.covers a = true ↔ low ≤ a ∧ a < high := by
  rw [MarkBitmap.covers_iff, h.low_eq, h.high_eq]
  omega

theorem Kept.granule?_iff (h : b.Kept low high ops) : b.granule? a = some g ↔
    (low ≤ a ∧ a < high) ∧ (a - low) / Object.alignment = g := by
  rw [granule?_eq_some, ← MarkBitmap.covers_iff, h.covers_iff, h.low_eq]

theorem Kept.isMarked_iff (h : b.Kept low high ops) : b.isMarked a = true ↔
    (low ≤ a ∧ a < high) ∧ Occupied low high ops ((a - low) / Object.alignment) := by
  simp only [MarkBitmap.isMarked_iff, h.granule?_iff, h.bit_iff, and_assoc, exists_and_left,
    exists_eq_left']

theorem Kept.step (h : b.Kept low high before) (op : Operation) :
    (op.apply b).Kept low high (before ++ [op]) := by
  cases op with
  | mark a =>
    refine ⟨low_mark.trans h.low_eq, high_mark.trans h.high_eq, fun g => ?_⟩
    have hboth : Occupied low high (before ++ [.mark a]) g ↔ Occupied low high before g ∨
        (low ≤ a ∧ a < high) ∧ (a - low) / Object.alignment = g := by
      simp [Occupied, recent_append_singleton, or_and_right, exists_or, or_comm]
    exact bit_mark.trans ((or_congr (h.bit_iff g) h.granule?_iff).trans hboth.symm)
  | clear =>
    refine ⟨h.low_eq, h.high_eq, fun g => iff_of_false (Bool.not_eq_true _ ▸ not_bit_clear) ?_⟩
    rintro ⟨a, hrecent, _⟩
    rcases recent_append_singleton.1 hrecent with hmark | ⟨_, hclear⟩
    · cases hmark
    · exact hclear rfl

theorem Kept.run (h : b.Kept low high before) (ops : List Operation) :
    (b.run ops).Kept low high (before ++ ops) := by
  induction ops generalizing b before with
  | nil => exact (List.append_nil before).symm ▸ h
  | cons op ops ih =>
    have hrest := ih (h.step op)
    rwa [List.append_assoc] at hrest

/-! ## Questions -/

/-- What a bitmap over a range answers after some operations. -/
structure Serves (b : MarkBitmap) (low high : Nat) (ops : List Operation) : Prop where
  covers_iff : ∀ a, b.covers a = true ↔ low ≤ a ∧ a < high
  length_words : b.words.toList.length = wordCount low high
  /-- the bit of a covered address stands in a word that there is -/
  located : ∀ a, low ≤ a → a < high →
    ∃ word, b.words.toList[(a - low) / Object.alignment / wordBits]? = some word ∧
      b.isMarked a = word.getLsbD ((a - low) / Object.alignment % wordBits)
  isMarked_iff : ∀ a, b.isMarked a = true ↔
    (low ≤ a ∧ a < high) ∧ Occupied low high ops ((a - low) / Object.alignment)
  isNews_iff : ∀ a, b.isNews a = true ↔
    (low ≤ a ∧ a < high) ∧ ¬ Occupied low high ops ((a - low) / Object.alignment)
  count_eq : b.count = {g | Occupied low high ops g}.ncard
  /-- objects that do not overlap have bits of their own -/
  locate?_ne : ∀ a c n m, Object.minBytes ≤ n → Object.minBytes ≤ m → a + n ≤ c ∨ c + m ≤ a →
    b.covers a = true → b.locate? a ≠ b.locate? c

theorem locate?_inj (h : b.granule? a = some g) (heq : b.locate? a = b.locate? c) :
    b.granule? c = some g := by
  rw [locate?_of_granule? h] at heq
  cases hk : b.granule? c with
  | none =>
    rw [locate?_of_not_covers hk] at heq
    cases heq
  | some k =>
    rw [locate?_of_granule? hk, Option.some.injEq, Prod.mk.injEq, Fin.mk.injEq] at heq
    obtain ⟨hword, hmask⟩ := heq
    have hbit := congrArg (·.getLsbD (g % wordBits)) hmask
    have hplace : g % wordBits < wordBits := Nat.mod_lt _ (by decide)
    simp only [BitVec.getLsbD_twoPow, hplace, decide_true, Bool.true_and] at hbit
    have hsame := of_decide_eq_true (Bool.and_eq_true_iff.1 hbit.symm).2
    rw [Option.some.injEq, ← Nat.div_add_mod k wordBits, ← hword, hsame, Nat.div_add_mod]

theorem Kept.serves (h : b.Kept low high ops) : b.Serves low high ops where
  covers_iff _ := h.covers_iff
  length_words := by
    rw [Vector.length_toList, h.low_eq, h.high_eq]
    unfold wordCount granuleCount
    congr 2
    omega
  located a hlow hhigh := by
    have hgranule := h.granule?_iff.2 ⟨⟨hlow, hhigh⟩, rfl⟩
    have hword := word_lt (granule?_lt hgranule)
    refine ⟨_, (Vector.getElem?_toList ..).trans (Vector.getElem?_eq_getElem hword), ?_⟩
    rw [Bool.eq_iff_iff, MarkBitmap.isMarked_iff, hgranule, ← bit_of_lt hword]
    simp
  isMarked_iff a := h.isMarked_iff
  isNews_iff a := by
    rw [isNews, Bool.and_eq_true, Bool.not_eq_true', ← Bool.not_eq_true, h.covers_iff,
      h.isMarked_iff]
    exact and_congr_right fun ha => not_congr (and_iff_right ha)
  count_eq := by
    rw [count_eq_ncard]
    exact congrArg Set.ncard (Set.ext h.bit_iff)
  locate?_ne a c n m hn hm hapart ha heq := by
    have hg : b.granule? a = some _ := if_pos ha
    exact granule?_ne hn hm hapart hg (locate?_inj hg heq)

/-- Whatever is done with it, a bitmap is the set of the granules with an address that was marked
since the last clearing. -/
theorem granules_faithful (low high : Nat) (ops : List Operation) :
    ((ofBounds low high).run ops).Serves low high ops :=
  ((kept_ofBounds low high).run ops).serves

/-- The last granule of a range has a bit, also where the range ends in it. -/
example : (((ofBounds 4 13).mark 12).mark 13).count = 1 ∧
    ((ofBounds 4 13).mark 11).isMarked 4 = true := by
  decide

end GenHeap.MarkBitmap
