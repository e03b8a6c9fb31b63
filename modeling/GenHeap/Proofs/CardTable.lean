import GenHeap.CardTable
import GenHeap.Object
import GenHeap.Proofs.Effect
import Std.Data.TreeSet.Lemmas

/-!
The view of a card table: which cards are dirty after each operation, and which card an address is
on. Operations change the dirty cards only, not how the covered range is divided.
-/

namespace GenHeap

namespace Object

/-- The address of a reference slot, where it is a word. -/
def slotPlace (object slot : Nat) : Nat := object + (headerBytes + slot * slotBytes)

theorem slotAddress_eq_ok {object slot a : Nat} :
    slotAddress object slot = .ok a ↔ a = slotPlace object slot ∧ a < Word.count := by
  simp only [slotAddress, slotPlace, headerBytes, slotBytes, Word.mul, Checked.bind_eq_ok,
    Word.add_eq_ok_iff, Word.fit_eq_ok_iff]
  constructor
  · rintro ⟨_, ⟨_, rfl⟩, _, ⟨_, rfl⟩, _, rfl⟩
    omega
  · rintro ⟨rfl, h⟩
    exact ⟨_, ⟨by omega, rfl⟩, _, ⟨by omega, rfl⟩, by omega, rfl⟩

end Object

namespace CardTable

variable {t t' : CardTable} {a card : Nat}

/-- Two tables that divide the same range into the same cards. -/
structure SameGrid (t t' : CardTable) : Prop where
  base : t'.base = t.base
  covered : t'.covered = t.covered
  cardSize : t'.cardSize = t.cardSize

theorem SameGrid.refl (t : CardTable) : SameGrid t t := ⟨rfl, rfl, rfl⟩

theorem SameGrid.trans {t'' : CardTable} (h : SameGrid t t') (h' : SameGrid t' t'') :
    SameGrid t t'' :=
  ⟨h'.base.trans h.base, h'.covered.trans h.covered, h'.cardSize.trans h.cardSize⟩

theorem SameGrid.index? (h : SameGrid t t') (a : Nat) : t'.index? a = t.index? a := by
  unfold CardTable.index?
  rw [h.base, h.covered, h.cardSize]

theorem isDirty_iff : t.isDirty a = true ↔ ∃ card, t.index? a = some card ∧ t.isCardDirty card := by
  simp only [isDirty, Option.any_eq_true]

/-- A new table has no dirty cards; there is one if memory can hold it. -/
theorem ofRange_eq_ok_iff {range : AddressRange} {cardSize : Nat} :
    ofRange range cardSize = .ok t ↔ Word.isPowerOfTwo cardSize = true ∧
      Word.pieces range.size cardSize < Word.signBit ∧
      t = { base := range.start, covered := range.size, cardSize } := by
  unfold ofRange Word.requireCapacity
  rw [Nat.mul_one]
  cases Word.isPowerOfTwo cardSize with
  | false => exact ⟨nofun, nofun⟩
  | true =>
    by_cases hroom : Word.pieces range.size cardSize < Word.signBit
    · rw [if_pos hroom]
      constructor
      · rintro ⟨⟩
        exact ⟨rfl, hroom, rfl⟩
      · rintro ⟨_, _, rfl⟩
        rfl
    · rw [if_neg hroom]
      exact ⟨nofun, fun h => absurd h.2.1 hroom⟩

theorem ofRange_eq_ok {range : AddressRange} {cardSize : Nat} {cards : CardTable}
    (hrun : ofRange range cardSize = .ok cards) : cards.base = range.start ∧
      cards.covered = range.size ∧ 0 < cards.cardSize := by
  obtain ⟨hpower, _, rfl⟩ := ofRange_eq_ok_iff.1 hrun
  refine ⟨rfl, rfl, Nat.pos_of_ne_zero ?_⟩
  rintro (rfl : cardSize = 0)
  cases hpower

theorem sameGrid_mark (t : CardTable) (a : Nat) : SameGrid t (t.mark a) := by
  unfold mark
  split
  · exact .refl t
  · split <;> exact ⟨rfl, rfl, rfl⟩

@[simp] theorem isCardDirty_mark :
    (t.mark a).isCardDirty card = true ↔ t.index? a = some card ∨ t.isCardDirty card = true := by
  unfold mark
  cases t.index? a with
  | none => simp
  | some k =>
    dsimp only
    rw [Option.some.injEq]
    split
    next hk => exact ⟨.inr, fun h => h.elim (· ▸ hk) id⟩
    next =>
      simp only [isCardDirty, Std.TreeSet.contains_insert, Bool.or_eq_true, beq_iff_eq,
        Nat.compare_eq_eq]

theorem isDirty_mark (h : t.isDirty a = true) (b : Nat) : (t.mark b).isDirty a = true := by
  obtain ⟨card, hi, hd⟩ := isDirty_iff.1 h
  exact isDirty_iff.2 ⟨card, ((sameGrid_mark t b).index? a).trans hi, isCardDirty_mark.2 (.inr hd)⟩

theorem isDirty_mark_self (h : t.index? a = some card) : (t.mark a).isDirty a = true :=
  isDirty_iff.2 ⟨card, ((sameGrid_mark t a).index? a).trans h, isCardDirty_mark.2 (.inl h)⟩

theorem SameGrid.symm (h : SameGrid t t') : SameGrid t' t :=
  ⟨h.base.symm, h.covered.symm, h.cardSize.symm⟩

theorem sameGrid_clear (t : CardTable) (card : Nat) : SameGrid t (t.clear card) := by
  unfold clear
  split
  · exact ⟨rfl, rfl, rfl⟩
  · exact .refl t

@[simp] theorem isCardDirty_clear {k : Nat} :
    (t.clear k).isCardDirty card = true ↔ card ≠ k ∧ t.isCardDirty card = true := by
  unfold clear
  split
  next =>
    simp only [isCardDirty, Std.TreeSet.contains_erase, Bool.and_eq_true, ne_eq]
    refine and_congr_left fun _ => ?_
    rw [bne_iff_ne, ne_eq, Nat.compare_eq_eq]
    exact not_congr eq_comm
  next hk =>
    refine ⟨fun h => ⟨?_, h⟩, And.right⟩
    rintro rfl
    exact hk h

theorem sameGrid_clearAll (t : CardTable) : SameGrid t t.clearAll := ⟨rfl, rfl, rfl⟩

@[simp] theorem isCardDirty_clearAll : t.clearAll.isCardDirty card = false := rfl

theorem mem_dirtyCards : card ∈ t.dirtyCards ↔ t.isCardDirty card = true := by
  unfold dirtyCards isCardDirty
  rw [Std.TreeSet.mem_toList, Std.TreeSet.contains_iff_mem]

theorem dirtyCards_of_empty (he : t.dirty = ∅) : t.dirtyCards = [] := by
  refine List.eq_nil_iff_forall_not_mem.2 fun card hcard => ?_
  rw [mem_dirtyCards, isCardDirty, he, Std.TreeSet.contains_emptyc] at hcard
  cases hcard

theorem dirtyCards_clearAll (t : CardTable) : t.clearAll.dirtyCards = [] := dirtyCards_of_empty rfl

theorem dirtyCards_ofRange {range : AddressRange} {cardSize : Nat}
    (hrun : ofRange range cardSize = .ok t) : t.dirtyCards = [] := by
  obtain ⟨_, _, rfl⟩ := ofRange_eq_ok_iff.1 hrun
  exact dirtyCards_of_empty rfl

theorem index?_eq_some : t.index? a = some card ↔
    t.base ≤ a ∧ a - t.base < t.covered ∧ card = (a - t.base) / t.cardSize := by
  unfold index?
  split
  · simp only [reduceCtorEq, false_iff]
    omega
  · simp only [Option.some.injEq]
    omega

theorem lt_count_iff (hpos : 0 < t.cardSize) : card < t.count ↔ card * t.cardSize < t.covered := by
  rw [count, Word.pieces, Nat.lt_div_iff_mul_lt hpos]
  omega

/-- The dirty cards of a range hold those of its addresses. -/
theorem mem_dirtyIn {start stop : Nat} (hi : t.index? a = some card)
    (hd : t.isCardDirty card = true) (hbase : t.base ≤ start) (hstart : start ≤ a)
    (hstop : a < stop) : card ∈ t.dirtyIn start stop := by
  obtain ⟨hb, hc, hcard⟩ := index?_eq_some.1 hi
  have hfirst : t.index? start = some ((start - t.base) / t.cardSize) :=
    index?_eq_some.2 ⟨hbase, by omega, rfl⟩
  unfold dirtyIn
  rw [hfirst]
  refine List.mem_filter.2 ⟨mem_dirtyCards.2 hd, ?_⟩
  simp only [Bool.and_eq_true, decide_eq_true_eq]
  constructor
  · rw [hcard]
    exact Nat.div_le_div_right (by omega)
  · cases hl : t.index? (stop - 1) with
    | some last =>
      obtain ⟨_, _, rfl⟩ := index?_eq_some.1 hl
      rw [hcard, Option.getD_some]
      exact Nat.div_le_div_right (by omega)
    | none =>
      rw [Option.getD_none, hcard]
      rcases Nat.eq_zero_or_pos t.cardSize with h0 | h0
      · rw [h0, Nat.div_zero]
        exact Nat.zero_le _
      · have hlt : (a - t.base) / t.cardSize < t.count :=
          (lt_count_iff h0).2 (Nat.lt_of_le_of_lt (Nat.div_mul_le_self ..) hc)
        omega

/-- The bounds of a card enclose the addresses on it. -/
theorem mem_bounds {lo hi : Nat} (hb : t.bounds card = .ok (lo, hi)) (hi' : t.index? a = some card)
    (ha : a < Word.count) (hpos : 0 < t.cardSize) : lo ≤ a ∧ a < hi := by
  obtain ⟨hbase, hcov, rfl⟩ := index?_eq_some.1 hi'
  simp only [bounds, Checked.bind_eq_ok, Checked.pure_eq_ok, Word.add_eq_ok_iff,
    Prod.mk.injEq] at hb
  obtain ⟨_, ⟨_, rfl⟩, _, ⟨_, rfl⟩, rfl, rfl⟩ := hb
  have hdiv := Nat.div_add_mod (a - t.base) t.cardSize
  have hmod := Nat.mod_lt (a - t.base) hpos
  rw [Nat.mul_comm] at hdiv
  have hsmall : (a - t.base) / t.cardSize * t.cardSize < Word.count := by omega
  rw [Nat.mod_eq_of_lt hsmall]
  omega

theorem bounds_le {lo hi : Nat} (hb : t.bounds card = .ok (lo, hi)) : lo ≤ hi := by
  simp only [bounds, Checked.bind_eq_ok, Checked.pure_eq_ok, Word.add_eq_ok_iff,
    Prod.mk.injEq] at hb
  obtain ⟨_, ⟨_, rfl⟩, _, ⟨_, rfl⟩, rfl, rfl⟩ := hb
  exact Nat.le_add_right _ _

theorem isCardDirty_foldl_clear {cards : List Nat} :
    (cards.foldl clear t).isCardDirty card = true ↔ card ∉ cards ∧ t.isCardDirty card = true := by
  induction cards generalizing t with
  | nil => simp
  | cons k cards ih => simp [ih, and_left_comm, and_assoc]

theorem sameGrid_foldl_clear (t : CardTable) (cards : List Nat) :
    SameGrid t (cards.foldl clear t) := by
  induction cards generalizing t with
  | nil => exact .refl t
  | cons k cards ih => exact (sameGrid_clear t k).trans (ih _)

end CardTable

end GenHeap
