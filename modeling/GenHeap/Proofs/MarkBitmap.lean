import GenHeap.MarkBitmap
import GenHeap.Proofs.Effect

/-!
The view of a mark bitmap: which granules have their bit set after each operation, and which granule
the bit of an address stands for. Objects have granules of their own.
-/

namespace GenHeap.MarkBitmap

variable {b : MarkBitmap} {a c g low high : Nat}

/-- Whether the bit of a granule is set. -/
def bit (b : MarkBitmap) (g : Nat) : Bool :=
  b.words[g / wordBits]?.any (·.getLsbD (g % wordBits))

theorem granule?_eq_some : b.granule? a = some g ↔
    (b.low ≤ a ∧ a < b.high) ∧ (a - b.low) / Object.alignment = g := by
  rw [granule?, Option.ite_none_right_eq_some, covers_iff, Option.some.injEq]

/-- The word and the place in it that belong to an address. -/
theorem locate?_of_granule? (h : b.granule? a = some g) : b.locate? a =
    some (⟨g / wordBits, word_lt (granule?_lt h)⟩, .twoPow wordBits (g % wordBits)) := by
  simp only [locate?, h, Option.pmap_some]

theorem locate?_of_not_covers (h : b.granule? a = none) : b.locate? a = none := by
  simp only [locate?, h, Option.pmap_none]

theorem bit_of_lt (h : g / wordBits < wordCount b.low b.high) :
    b.bit g = b.words[g / wordBits].getLsbD (g % wordBits) := by
  rw [bit, Vector.getElem?_eq_getElem h, Option.any_some]

/-- The test against the mask of an address reads the bit of its granule. -/
theorem isMarked_iff : b.isMarked a = true ↔ ∃ g, b.granule? a = some g ∧ b.bit g = true := by
  cases hg : b.granule? a with
  | none => simp [isMarked, locate?_of_not_covers hg]
  | some g =>
    have hword := word_lt (granule?_lt hg)
    have hmask : b.isMarked a = b.bit g := by
      rw [isMarked, locate?_of_granule? hg, Option.any_some, bit_of_lt hword]
      show (b.words[g / wordBits] &&& .twoPow wordBits (g % wordBits) != 0) = _
      rw [BitVec.and_twoPow]
      cases b.words[g / wordBits].getLsbD (g % wordBits) with
      | false => rfl
      | true =>
        rw [if_pos rfl, bne_iff_ne]
        intro hzero
        have hbit := congrArg (·.getLsbD (g % wordBits)) hzero
        simp [BitVec.getLsbD_twoPow, wordBits] at hbit
        omega
    simp [hmask]

theorem mark_of_granule? (h : b.granule? a = some g)
    (hword : g / wordBits < wordCount b.low b.high) : b.mark a = { b with
      words := b.words.set (g / wordBits)
        (b.words[g / wordBits] ||| .twoPow wordBits (g % wordBits)) } := by
  rw [mark, locate?_of_granule? h]
  rfl

theorem mark_of_not_covers (h : b.granule? a = none) : b.mark a = b := by
  rw [mark, locate?_of_not_covers h]

theorem low_mark : (b.mark a).low = b.low := by
  unfold mark
  split <;> rfl

theorem high_mark : (b.mark a).high = b.high := by
  unfold mark
  split <;> rfl

/-- Marking sets the bit of the granule of a covered address, and no other one. -/
theorem bit_mark : (b.mark a).bit g = true ↔ b.bit g = true ∨ b.granule? a = some g := by
  cases hk : b.granule? a with
  | none => simp [mark_of_not_covers hk]
  | some k =>
    have hword := word_lt (granule?_lt hk)
    have hnext : (b.mark a).bit g = (b.words.set (k / wordBits)
        (b.words[k / wordBits] ||| .twoPow wordBits (k % wordBits)))[g / wordBits]?.any
          (·.getLsbD (g % wordBits)) := by
      rw [mark_of_granule? hk hword]
      rfl
    rw [hnext, Option.some.injEq, Vector.getElem?_set]
    by_cases hsame : k / wordBits = g / wordBits
    · have hplace : k % wordBits < wordBits ∧ k % wordBits = g % wordBits ↔ k = g := by
        unfold wordBits at *
        omega
      rw [if_pos hsame, Option.any_some, BitVec.getLsbD_or, BitVec.getLsbD_twoPow, Bool.or_eq_true,
        Bool.and_eq_true, decide_eq_true_eq, decide_eq_true_eq, hplace, bit_of_lt (hsame ▸ hword)]
      simp only [hsame]
    · have hne : k ≠ g := fun he => hsame (he ▸ rfl)
      rw [if_neg hsame, or_iff_left hne]
      rfl

theorem not_bit_replicate {n : Nat} :
    ((Vector.replicate n (0 : BitVec wordBits))[g / wordBits]?.any
      (·.getLsbD (g % wordBits))) = false := by
  rw [Vector.getElem?_replicate]
  split
  · exact BitVec.getLsbD_zero
  · rfl

@[simp] theorem not_bit_ofBounds : (ofBounds low high).bit g = false := not_bit_replicate

@[simp] theorem not_bit_clear : b.clear.bit g = false := not_bit_replicate

theorem isMarked_mark : (b.mark a).isMarked c = true ↔
    b.isMarked c = true ∨ ∃ g, b.granule? a = some g ∧ b.granule? c = some g := by
  have hgranule : (b.mark a).granule? c = b.granule? c := by
    unfold granule? covers
    rw [low_mark, high_mark]
  rw [isMarked_iff, isMarked_iff, hgranule]
  simp only [bit_mark, and_or_left, exists_or]
  exact or_congr_right (exists_congr fun _ => and_comm)

theorem not_isMarked_ofBounds : (ofBounds low high).isMarked a = false := by
  rw [← Bool.not_eq_true, isMarked_iff]
  simp

/-- Objects that do not overlap have granules of their own. -/
theorem granule?_ne {n m : Nat} (hn : Object.minBytes ≤ n) (hm : Object.minBytes ≤ m)
    (hapart : a + n ≤ c ∨ c + m ≤ a) (ha : b.granule? a = some g) : b.granule? c ≠ some g := by
  intro hc
  rw [granule?_eq_some] at ha hc
  unfold Object.minBytes at hn hm
  unfold Object.alignment at ha hc
  omega

end GenHeap.MarkBitmap
