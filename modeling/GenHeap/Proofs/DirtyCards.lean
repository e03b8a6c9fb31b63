import GenHeap.Proofs.CardTable
import GenHeap.Proofs.Progress
import Mathlib.Data.List.Sort
import Mathlib.Data.Set.Basic

/-!
A card table as the set of its dirty cards. Whatever was marked and cleared, its counter is the
number of dirty cards, an address is dirty if the card with bounds around it is, and the lists of
cards and of runs are that set in order. The dirty cards of an interval are those whose bounds meet
it, also where the interval goes on behind the covered range.
-/

namespace GenHeap.CardTable

open Checked (Runs)

variable {t t' : CardTable} {a card start stop : Nat}

/-! ## Runs of neighbours -/

/-- The numbers of a run. -/
def span (run : Nat × Nat) : List Nat := List.range' run.1 (run.2 - run.1)

/-- Ascending runs that are not empty, with a number left out between any two of them. -/
structure Separated (rs : List (Nat × Nat)) : Prop where
  nonempty : ∀ r ∈ rs, r.1 < r.2
  apart : rs.Pairwise fun r s => r.2 < s.1

theorem mem_span {run : Nat × Nat} {n : Nat} : n ∈ span run ↔ run.1 ≤ n ∧ n < run.2 := by
  rw [span, List.mem_range'_1]
  omega

theorem span_cons {first last : Nat} (h : first < last) :
    span (first, last) = first :: span (first + 1, last) := by
  obtain ⟨k, rfl⟩ := Nat.exists_eq_add_of_lt h
  show List.range' first (first + k + 1 - first) = first :: List.range' (first + 1) _
  rw [show first + k + 1 - first = k + 1 by omega, List.range'_succ,
    show first + k + 1 - (first + 1) = k by omega]

/-- The runs of ascending numbers hold just these numbers, and are as long as they can be. -/
theorem runs_of_ascending {ns : List Nat} (h : ns.Pairwise (· < ·)) :
    Separated (runs ns) ∧ (runs ns).flatMap span = ns := by
  induction ns with
  | nil => exact ⟨⟨nofun, .nil⟩, rfl⟩
  | cons n rest ih =>
    obtain ⟨hleast, hrest⟩ := List.pairwise_cons.1 h
    obtain ⟨⟨hnonempty, hapart⟩, hspans⟩ := ih hrest
    have hbehind : ∀ r ∈ runs rest, n < r.1 := by
      intro r hr
      refine hleast _ (hspans ▸ List.mem_flatMap.2 ⟨r, hr, ?_⟩)
      exact mem_span.2 ⟨Nat.le_refl _, hnonempty r hr⟩
    rw [runs]
    cases hruns : runs rest with
    | nil =>
      rw [hruns] at hspans
      subst hspans
      dsimp only
      refine ⟨⟨?_, List.pairwise_singleton ..⟩, ?_⟩
      · rw [List.forall_mem_singleton]
        exact Nat.lt_succ_self n
      · show List.range' n (n + 1 - n) ++ [] = _
        rw [Nat.add_sub_cancel_left]
        rfl
    | cons r more =>
      obtain ⟨first, last⟩ := r
      rw [hruns] at hnonempty hapart hspans hbehind
      rw [List.forall_mem_cons] at hnonempty hbehind
      obtain ⟨hfirst, hmore⟩ := hnonempty
      dsimp only at hfirst hbehind ⊢
      split
      next hnext =>
        -- the first run grows by the number in front of it
        subst hnext
        refine ⟨⟨?_, ?_⟩, ?_⟩
        · rw [List.forall_mem_cons]
          exact ⟨Nat.lt_of_succ_lt hfirst, hmore⟩
        · rw [List.pairwise_cons] at hapart ⊢
          exact hapart
        · rw [List.flatMap_cons, span_cons (Nat.lt_of_succ_lt hfirst), List.cons_append,
            ← List.flatMap_cons, hspans]
      next hgap =>
        refine ⟨⟨?_, ?_⟩, ?_⟩
        · rw [List.forall_mem_cons, List.forall_mem_cons]
          exact ⟨Nat.lt_succ_self n, hfirst, hmore⟩
        · refine List.pairwise_cons.2 ⟨?_, hapart⟩
          rw [List.forall_mem_cons]
          have hnext : n + 1 < first := by omega
          refine ⟨hnext, fun r hr => ?_⟩
          have hlast := (List.pairwise_cons.1 hapart).1 r hr
          dsimp only at hlast ⊢
          omega
        · rw [List.flatMap_cons, hspans]
          show List.range' n (n + 1 - n) ++ rest = _
          rw [Nat.add_sub_cancel_left]
          rfl

/-! ## Cards and their bounds -/

/-- A card of the table and a covered address within its bounds. -/
structure OnCard (t : CardTable) (card a : Nat) : Prop where
  card_lt : card < t.count
  covered : a < t.base + t.covered
  within : ∃ lo hi, t.bounds card = .ok (lo, hi) ∧ lo ≤ a ∧ a < hi

/-- The bounds of a card have an address in common with an interval. -/
def Meets (t : CardTable) (card start stop : Nat) : Prop :=
  ∃ lo hi, t.bounds card = .ok (lo, hi) ∧ lo < stop ∧ start < hi

/-- Cards that are not empty and whose bounds are words. -/
structure Fits (t : CardTable) : Prop where
  cardSize_pos : 0 < t.cardSize
  stop_lt : t.base + t.count * t.cardSize < Word.count

theorem SameGrid.count (h : SameGrid t t') : t'.count = t.count := by
  rw [CardTable.count, h.covered, h.cardSize, CardTable.count]

theorem SameGrid.fits (h : SameGrid t t') (hfits : t.Fits) : t'.Fits := by
  obtain ⟨hpos, hstop⟩ := hfits
  exact ⟨h.cardSize ▸ hpos, by rwa [h.base, h.count, h.cardSize]⟩

theorem Fits.bounds_eq (h : t.Fits) (hcard : card < t.count) : t.bounds card =
    .ok (t.base + card * t.cardSize, t.base + card * t.cardSize + t.cardSize) := by
  have hstop : card * t.cardSize + t.cardSize ≤ t.count * t.cardSize := by
    rw [← Nat.succ_mul]
    exact Nat.mul_le_mul_right _ hcard
  have hword := h.stop_lt
  simp only [bounds, Checked.bind_eq_ok, Checked.pure_eq_ok, Word.add_eq_ok_iff]
  rw [Nat.mod_eq_of_lt (by omega)]
  exact ⟨_, ⟨by omega, rfl⟩, _, ⟨by omega, rfl⟩, rfl⟩

/-- The card of an address is the one with bounds around it. -/
theorem Fits.index?_iff (h : t.Fits) : t.index? a = some card ↔ t.OnCard card a := by
  have hpos := h.cardSize_pos
  rw [index?_eq_some]
  constructor
  · rintro ⟨hbase, hcovered, rfl⟩
    have hlow := Nat.div_mul_le_self (a - t.base) t.cardSize
    have hhigh := Nat.lt_mul_div_succ (a - t.base) hpos
    rw [Nat.mul_succ, Nat.mul_comm] at hhigh
    have hcard := (lt_count_iff hpos).2 (Nat.lt_of_le_of_lt hlow hcovered)
    exact ⟨hcard, by omega, _, _, h.bounds_eq hcard, by omega, by omega⟩
  · rintro ⟨hcard, hcovered, lo, hi, hbounds, hlo, hhi⟩
    rw [h.bounds_eq hcard] at hbounds
    cases hbounds
    refine ⟨by omega, by omega, (Nat.div_eq_of_lt_le ?_ ?_).symm⟩
    · omega
    · rw [Nat.succ_mul]
      omega

theorem Fits.exists_onCard (h : t.Fits) (hbase : t.base ≤ a) (hcovered : a < t.base + t.covered) :
    ∃ card, t.OnCard card a :=
  ⟨_, h.index?_iff.1 (index?_eq_some.2 ⟨hbase, by omega, rfl⟩)⟩

theorem Fits.onCard_unique (h : t.Fits) {card' : Nat} (ha : t.OnCard card a)
    (ha' : t.OnCard card' a) : card = card' :=
  Option.some.inj ((h.index?_iff.2 ha).symm.trans (h.index?_iff.2 ha'))

/-! ## The dirty cards -/

/-- The dirty cards are cards of the table, and their number is kept right. -/
structure Kept (t : CardTable) : Prop where
  card_lt : ∀ {card : Nat}, t.isCardDirty card = true → card < t.count
  dirtyCount_eq : t.dirtyCount = t.dirty.size

theorem kept_of_empty (hdirty : t.dirty = ∅) (hcount : t.dirtyCount = 0) : t.Kept := by
  refine ⟨fun h => ?_, ?_⟩
  · rw [isCardDirty, hdirty, Std.TreeSet.contains_emptyc] at h
    cases h
  · rw [hcount, hdirty, Std.TreeSet.size_emptyc]

theorem Kept.mark (h : t.Kept) (hfits : t.Fits) (a : Nat) : (t.mark a).Kept := by
  refine ⟨fun {card} hcard => ?_, ?_⟩
  · rw [(sameGrid_mark t a).count]
    rcases isCardDirty_mark.1 hcard with hindex | hcard
    · exact (hfits.index?_iff.1 hindex).card_lt
    · exact h.card_lt hcard
  · unfold CardTable.mark
    split
    · exact h.dirtyCount_eq
    · split
      · exact h.dirtyCount_eq
      next hclean =>
        rw [isCardDirty] at hclean
        rw [Std.TreeSet.size_insert, if_neg hclean, h.dirtyCount_eq]

theorem Kept.clear (h : t.Kept) (card : Nat) : (t.clear card).Kept := by
  refine ⟨fun {k} hk => ?_, ?_⟩
  · rw [(sameGrid_clear t card).count]
    exact h.card_lt (isCardDirty_clear.1 hk).2
  · unfold CardTable.clear
    split
    next hdirty =>
      rw [isCardDirty] at hdirty
      rw [Std.TreeSet.size_erase, if_pos hdirty, h.dirtyCount_eq]
    · exact h.dirtyCount_eq

theorem Kept.foldl_clear (h : t.Kept) (cards : List Nat) :
    (cards.foldl CardTable.clear t).Kept := by
  induction cards generalizing t with
  | nil => exact h
  | cons card cards ih => exact ih (h.clear card)

theorem ascending_dirtyCards (t : CardTable) : t.dirtyCards.Pairwise (· < ·) :=
  Std.TreeSet.ordered_toList.imp Nat.compare_eq_lt.1

theorem Kept.dirtyCards_eq (h : t.Kept) :
    t.dirtyCards = (List.range t.count).filter t.isCardDirty := by
  refine (ascending_dirtyCards t).eq_of_mem_iff (List.pairwise_lt_range.filter _) fun card => ?_
  rw [mem_dirtyCards, List.mem_filter, List.mem_range]
  exact ⟨fun hcard => ⟨h.card_lt hcard, hcard⟩, And.right⟩

theorem Kept.mem_dirtyIn_iff (h : t.Kept) (hfits : t.Fits) (hbase : t.base ≤ start)
    (hcovered : start < t.base + t.covered) (hstop : start < stop) :
    card ∈ t.dirtyIn start stop ↔ t.isCardDirty card = true ∧ t.Meets card start stop := by
  have hpos := hfits.cardSize_pos
  have hfirst : t.index? start = some ((start - t.base) / t.cardSize) :=
    index?_eq_some.2 ⟨hbase, by omega, rfl⟩
  unfold dirtyIn
  rw [hfirst]
  dsimp only
  rw [List.mem_filter, mem_dirtyCards, Bool.and_eq_true, decide_eq_true_eq, decide_eq_true_eq]
  refine and_congr_right fun hdirty => ?_
  have hcard := h.card_lt hdirty
  have hinside := (lt_count_iff hpos).1 hcard
  have hlow : (start - t.base) / t.cardSize ≤ card ↔
      start < t.base + card * t.cardSize + t.cardSize := by
    rw [← Nat.lt_succ_iff, Nat.div_lt_iff_lt_mul hpos, Nat.succ_mul]
    omega
  have hhigh : card ≤ (t.index? (stop - 1)).getD (t.count - 1) ↔
      t.base + card * t.cardSize < stop := by
    cases hlast : t.index? (stop - 1) with
    | some last =>
      obtain ⟨_, _, rfl⟩ := index?_eq_some.1 hlast
      rw [Option.getD_some, Nat.le_div_iff_mul_le hpos]
      omega
    | none =>
      -- the interval goes on behind the covered range, so every card begins in front of its end
      have hover : t.base + t.covered < stop := by
        unfold index? at hlast
        split at hlast
        · omega
        · cases hlast
      rw [Option.getD_none]
      omega
  rw [hlow, hhigh, Meets, hfits.bounds_eq hcard]
  constructor
  · rintro ⟨hlo, hhi⟩
    exact ⟨_, _, rfl, hhi, hlo⟩
  · rintro ⟨lo, hi, he, hhi, hlo⟩
    cases he
    exact ⟨hlo, hhi⟩

/-! ## Runs of operations -/

/-- What is done with a table. -/
inductive Operation where
  | mark (a : Nat)
  | clear (card : Nat)
  | clearIn (start stop : Nat)
  | clearAll

def Operation.apply (t : CardTable) : Operation → CardTable
  | mark a => t.mark a
  | clear card => t.clear card
  | clearIn start stop => t.clearIn start stop
  | clearAll => t.clearAll

def run (t : CardTable) (ops : List Operation) : CardTable := ops.foldl Operation.apply t

def dirtySet (t : CardTable) : Set Nat := {card | t.isCardDirty card = true}

/-- The cards that are dirty after an operation. -/
def Operation.leaves (t : CardTable) : Operation → Set Nat
  | mark a => {card | t.OnCard card a} ∪ t.dirtySet
  | clear card => t.dirtySet \ {card}
  | clearIn start stop => t.dirtySet \ {card | card ∈ t.dirtyIn start stop}
  | clearAll => ∅

/-- What a table answers is what its dirty cards are. -/
structure Faithful (t : CardTable) : Prop where
  /-- a covered address is on just one card -/
  exists_onCard : ∀ a, t.base ≤ a → a < t.base + t.covered → ∃! card, t.OnCard card a
  isDirty_iff : ∀ a, t.isDirty a = true ↔ ∃ card ∈ t.dirtySet, t.OnCard card a
  isNews_iff : ∀ a, t.isNews a = true ↔ ∃ card ∉ t.dirtySet, t.OnCard card a
  mark_eq_self : ∀ a, ¬ (t.base ≤ a ∧ a < t.base + t.covered) → t.mark a = t
  dirtyCards_eq : t.dirtyCards = (List.range t.count).filter t.isCardDirty
  card_lt : ∀ card ∈ t.dirtySet, card < t.count
  dirtyCount_eq : t.dirtyCount = t.dirtyCards.length
  separated : Separated t.dirtyRuns
  flatMap_dirtyRuns : t.dirtyRuns.flatMap span = t.dirtyCards
  ascending_dirtyIn : ∀ start stop, (t.dirtyIn start stop).Pairwise (· < ·)
  mem_dirtyIn_iff : ∀ start stop, t.base ≤ start → start < t.base + t.covered → start < stop →
    ∀ card, card ∈ t.dirtyIn start stop ↔ card ∈ t.dirtySet ∧ t.Meets card start stop

theorem sameGrid_apply (t : CardTable) (op : Operation) : SameGrid t (op.apply t) := by
  cases op with
  | mark a => exact sameGrid_mark t a
  | clear card => exact sameGrid_clear t card
  | clearIn start stop => exact sameGrid_foldl_clear t _
  | clearAll => exact sameGrid_clearAll t

theorem Kept.apply (h : t.Kept) (hfits : t.Fits) (op : Operation) : (op.apply t).Kept := by
  cases op with
  | mark a => exact h.mark hfits a
  | clear card => exact h.clear card
  | clearIn start stop => exact h.foldl_clear _
  | clearAll => exact kept_of_empty rfl rfl

theorem Kept.run (h : t.Kept) (hfits : t.Fits) (ops : List Operation) :
    SameGrid t (t.run ops) ∧ (t.run ops).Kept := by
  induction ops generalizing t with
  | nil => exact ⟨.refl t, h⟩
  | cons op ops ih =>
    have hgrid := sameGrid_apply t op
    obtain ⟨hgrid', hkept⟩ := ih (h.apply hfits op) (hgrid.fits hfits)
    exact ⟨hgrid.trans hgrid', hkept⟩

theorem Fits.dirtySet_apply (h : t.Fits) (op : Operation) :
    (op.apply t).dirtySet = op.leaves t := by
  ext k
  cases op with
  | mark a => exact isCardDirty_mark.trans (or_congr_left h.index?_iff)
  | clear card => exact isCardDirty_clear.trans and_comm
  | clearIn start stop => exact isCardDirty_foldl_clear.trans and_comm
  | clearAll => exact iff_of_false Bool.false_ne_true id

theorem Kept.faithful (h : t.Kept) (hfits : t.Fits) : t.Faithful where
  exists_onCard a hbase hcovered := by
    obtain ⟨card, hcard⟩ := hfits.exists_onCard hbase hcovered
    exact ⟨card, hcard, fun _ hcard' => hfits.onCard_unique hcard' hcard⟩
  isDirty_iff a := by
    rw [isDirty_iff]
    exact exists_congr fun card => by rw [hfits.index?_iff, and_comm]; rfl
  isNews_iff a := by
    rw [isNews, Option.any_eq_true]
    refine exists_congr fun card => ?_
    rw [hfits.index?_iff, and_comm, Bool.not_eq_true']
    exact and_congr_left' Bool.eq_false_iff
  mark_eq_self a ha := by
    have hindex : t.index? a = none := by
      rw [index?, if_pos]
      omega
    rw [CardTable.mark, hindex]
  dirtyCards_eq := h.dirtyCards_eq
  card_lt _ hcard := h.card_lt hcard
  dirtyCount_eq := h.dirtyCount_eq.trans Std.TreeSet.length_toList.symm
  separated := (runs_of_ascending (ascending_dirtyCards t)).1
  flatMap_dirtyRuns := (runs_of_ascending (ascending_dirtyCards t)).2
  ascending_dirtyIn start stop := by
    unfold dirtyIn
    split
    · exact .nil
    · exact (ascending_dirtyCards t).filter _
  mem_dirtyIn_iff _ _ hbase hcovered hstop _ := h.mem_dirtyIn_iff hfits hbase hcovered hstop

/-- Whatever is marked and cleared, a table of cards whose bounds are words answers as the set of
its dirty cards would, and the next operation changes that set by just the cards that it has to. A
table is refused only for want of memory. -/
theorem dirty_cards_faithful {range : AddressRange} {cardSize : Nat}
    (hpower : Word.isPowerOfTwo cardSize = true)
    (hstop : range.start + Word.pieces range.size cardSize * cardSize < Word.count) :
    (Runs (ofRange range cardSize) ↔ Word.pieces range.size cardSize < Word.signBit) ∧
    ∀ t, ofRange range cardSize = .ok t → t.dirtySet = ∅ ∧ ∀ ops,
      ((t.run ops).base = range.start ∧ (t.run ops).covered = range.size ∧
        (t.run ops).cardSize = cardSize) ∧
      (t.run ops).Faithful ∧
      ∀ op : Operation, (op.apply (t.run ops)).dirtySet = op.leaves (t.run ops) := by
  constructor
  · simp only [Runs, ofRange_eq_ok_iff, hpower, true_and, exists_and_left, exists_eq, and_true]
  · intro t hrun
    obtain ⟨_, _, rfl⟩ := ofRange_eq_ok_iff.1 hrun
    obtain ⟨_, _, hpos⟩ := ofRange_eq_ok hrun
    have hfits : Fits { base := range.start, covered := range.size, cardSize } := ⟨hpos, hstop⟩
    refine ⟨Set.eq_empty_iff_forall_notMem.2 fun _ => Bool.false_ne_true, fun ops => ?_⟩
    obtain ⟨hgrid, hkept⟩ := (kept_of_empty rfl rfl).run hfits ops
    have hfits' := hgrid.fits hfits
    refine ⟨⟨hgrid.base, hgrid.covered, hgrid.cardSize⟩, ?_, hfits'.dirtySet_apply⟩
    exact hkept.faithful hfits'

/-- Three cards of 256 bytes and most of a fourth. -/
def ragged : AddressRange := ⟨0x1000, 1000⟩

/-- The last address of `ragged`, the one behind it, and others on two cards in front. -/
def raggedMarks : List Operation :=
  [.mark 0x1010, .mark 0x11ff, .mark 0x13e7, .mark 0x13e8, .clear 9]

/-- The last covered address is on a dirty card and the next one is on none, though the bounds of
that card enclose it. -/
theorem dirty_cards_faithful_ragged : ∃ t, ofRange ragged 256 = .ok t ∧
    (t.run raggedMarks).Faithful ∧ (t.run raggedMarks).dirtyRuns = [(0, 2), (3, 4)] ∧
    (t.run raggedMarks).dirtyCount = 3 ∧ (t.run raggedMarks).dirtyIn 0x11ff 0x2000 = [1, 3] ∧
    (t.run raggedMarks).isDirty 0x13e8 = false := by
  have hpower : Word.isPowerOfTwo 256 = true := by decide
  have hstop : ragged.start + Word.pieces ragged.size 256 * 256 < Word.count := by decide
  obtain ⟨hruns, htables⟩ := dirty_cards_faithful hpower hstop
  obtain ⟨t, hrun⟩ := hruns.2 (by decide)
  obtain ⟨_, hall⟩ := htables t hrun
  obtain ⟨_, hfaithful, _⟩ := hall raggedMarks
  obtain ⟨_, _, rfl⟩ := ofRange_eq_ok_iff.1 hrun
  refine ⟨_, hrun, hfaithful, ?_⟩
  decide +kernel

end GenHeap.CardTable
