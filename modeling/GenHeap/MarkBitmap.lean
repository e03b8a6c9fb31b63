import GenHeap.Object

/-!
Mark bits over a range of addresses, one for each granule of eight bytes counted from the low end.
The bits stand in words of 64, and there are as many words as the range needs: an address of the
range has a word and a place in it, any other address has none.
-/

namespace GenHeap

namespace MarkBitmap

def wordBits : Nat := 64

/-- The number of granules of a range, the last of which may reach over its end. -/
def granuleCount (low high : Nat) : Nat := Word.pieces (high - low) Object.alignment

def wordCount (low high : Nat) : Nat := Word.pieces (granuleCount low high) wordBits

end MarkBitmap

structure MarkBitmap where
  low : Nat
  high : Nat
  words : Vector (BitVec MarkBitmap.wordBits) (MarkBitmap.wordCount low high)

namespace MarkBitmap

/-- A clear bitmap over the addresses from `low` on and below `high`. -/
def ofBounds (low high : Nat) : MarkBitmap where
  low := low
  high := max high low
  words := .replicate _ 0

def covers (b : MarkBitmap) (a : Nat) : Bool := b.low ≤ a && a < b.high

theorem covers_iff {b : MarkBitmap} {a : Nat} : b.covers a = true ↔ b.low ≤ a ∧ a < b.high := by
  rw [covers, Bool.and_eq_true, decide_eq_true_eq, decide_eq_true_eq]

/-- The granule of a covered address. -/
def granule? (b : MarkBitmap) (a : Nat) : Option Nat :=
  if b.covers a then some ((a - b.low) / Object.alignment) else none

/-- Every address of a bitmap has a granule of its own range. -/
theorem granule?_lt {b : MarkBitmap} {a g : Nat} (h : b.granule? a = some g) :
    g < granuleCount b.low b.high := by
  rw [granule?, Option.ite_none_right_eq_some, covers_iff, Option.some.injEq] at h
  obtain ⟨⟨hlow, hhigh⟩, rfl⟩ := h
  unfold granuleCount Word.pieces Object.alignment
  omega

theorem word_lt {low high g : Nat} (h : g < granuleCount low high) :
    g / wordBits < wordCount low high := by
  unfold wordCount Word.pieces wordBits
  omega

/-- The word of a covered address, and the word that has only its bit set. -/
def locate? (b : MarkBitmap) (a : Nat) :
    Option (Fin (wordCount b.low b.high) × BitVec wordBits) :=
  (b.granule? a).pmap (fun g hg => (⟨g / wordBits, word_lt hg⟩, .twoPow wordBits (g % wordBits)))
    fun _ => granule?_lt

def isMarked (b : MarkBitmap) (a : Nat) : Bool :=
  (b.locate? a).any fun (word, mask) => b.words[word] &&& mask != 0

def mark (b : MarkBitmap) (a : Nat) : MarkBitmap :=
  match b.locate? a with
  | none => b
  | some (word, mask) => { b with words := b.words.set word (b.words[word] ||| mask) }

/-- Whether marking an address sets a bit that was clear. -/
def isNews (b : MarkBitmap) (a : Nat) : Bool := b.covers a && !b.isMarked a

/-- The number of bits that are set. -/
def count (b : MarkBitmap) : Nat := Word.total (b.words.toList.map (·.cpop.toNat))

def clear (b : MarkBitmap) : MarkBitmap := { b with words := .replicate _ 0 }

end MarkBitmap

end GenHeap
