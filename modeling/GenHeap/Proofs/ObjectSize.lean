import GenHeap.Proofs.CardTable
import GenHeap.Proofs.Progress
import GenHeap.Proofs.Provider
import Mathlib.Order.Bounds.Basic

/-!
The bytes that an object takes: the least aligned size that is asked for or more and holds the
header and the slots. There is none only where that size is no word, and every slot lies inside it.
-/

namespace GenHeap

namespace AllocRequest

variable {r : AllocRequest} {n : Nat}

/-- The aligned sizes with room for all that a request asks for. -/
def sizes (r : AllocRequest) : Set Nat :=
  {m | Object.alignment ∣ m ∧ r.size ≤ m ∧
    Object.headerBytes + r.slots * Object.slotBytes ≤ m ∧ Object.minBytes ≤ m}

/-- What is rounded up to the alignment. -/
def demand (r : AllocRequest) : Nat :=
  max (max r.size (r.slots * Object.slotBytes + Object.headerBytes)) Object.minBytes

theorem sizes_eq (r : AllocRequest) : r.sizes = {m | Object.alignment ∣ m ∧ r.demand ≤ m} := by
  ext m
  simp only [sizes, demand, Set.mem_ofPred_eq, Nat.max_le, and_assoc,
    Nat.add_comm Object.headerBytes]

theorem isLeast_sizes (r : AllocRequest) : IsLeast r.sizes
    ((r.demand + (Object.alignment - 1)) / Object.alignment * Object.alignment) := by
  rw [sizes_eq]
  exact Word.isLeast_div_mul (by decide)

theorem neededBytes?_eq_some {needed : Nat} : r.neededBytes? = some needed ↔
    needed < Word.count ∧ r.slots * Object.slotBytes + Object.headerBytes = needed := by
  simp only [neededBytes?, Word.mul?, Option.bind_eq_bind, Option.bind_eq_some_iff,
    Option.ite_none_right_eq_some, Option.some.injEq, Word.add?_eq_some_iff]
  constructor
  · rintro ⟨_, ⟨_, rfl⟩, hlt, rfl⟩
    exact ⟨hlt, rfl⟩
  · rintro ⟨hlt, rfl⟩
    exact ⟨_, ⟨Nat.lt_of_le_of_lt (Nat.le_add_right ..) hlt, rfl⟩, hlt, rfl⟩

/-- Header and slots are part of the demand: where they alone are no word, it is none either. -/
theorem effectiveSize?_eq_map (r : AllocRequest) : r.effectiveSize? =
    (Word.add? r.demand (Object.alignment - 1)).map (· / Object.alignment * Object.alignment) := by
  have hle : r.slots * Object.slotBytes + Object.headerBytes ≤ r.demand :=
    Nat.le_trans (Nat.le_max_right ..) (Nat.le_max_left ..)
  cases hneeded : r.neededBytes? with
  | none =>
    have hover : ¬ r.demand + (Object.alignment - 1) < Word.count := by
      intro hlt
      have hword : r.slots * Object.slotBytes + Object.headerBytes < Word.count := by omega
      cases hneeded.symm.trans (neededBytes?_eq_some.2 ⟨hword, rfl⟩)
    rw [effectiveSize?, hneeded, Word.add?, if_neg hover]
    rfl
  | some needed =>
    obtain ⟨_, rfl⟩ := neededBytes?_eq_some.1 hneeded
    rw [effectiveSize?, hneeded]
    exact Option.map_eq_bind.symm

/-- The size is given where it is a word: up to the last word that is aligned, rounding does not
leave the words. -/
theorem effectiveSize?_eq (h : IsLeast r.sizes n) :
    r.effectiveSize? = if n < Word.count then some n else none := by
  obtain rfl := h.unique (isLeast_sizes r)
  have hle : r.demand ≤ (r.demand + (Object.alignment - 1)) / Object.alignment * Object.alignment :=
    (sizes_eq r ▸ (isLeast_sizes r).1).2
  rw [effectiveSize?_eq_map, Word.add?]
  unfold Word.count Object.alignment at *
  by_cases hroom : r.demand + 7 < 0x10000000000000000
  · rw [if_pos hroom, if_pos (by omega)]
    rfl
  · -- the words end with a multiple of the alignment
    rw [if_neg hroom, if_neg (by omega)]
    rfl

theorem le_of_effectiveSize? (h : r.effectiveSize? = some n) : Object.minBytes ≤ n ∧
    Object.headerBytes + r.slots * Object.slotBytes ≤ n := by
  rw [effectiveSize?_eq (isLeast_sizes r), Option.ite_none_right_eq_some, Option.some.injEq] at h
  obtain ⟨_, rfl⟩ := h
  obtain ⟨_, _, hslots, hmin⟩ := (isLeast_sizes r).1
  exact ⟨hmin, hslots⟩

/-- The slots follow the header, so those of an object with room for them lie inside it. -/
theorem exists_slotAddress {o slots slot : Nat}
    (hroom : Object.headerBytes + slots * Object.slotBytes ≤ n) (hword : o + n < Word.count)
    (hslot : slot < slots) : ∃ a, Object.slotAddress o slot = .ok a ∧ o ≤ a ∧
      a + Object.slotBytes ≤ o + n := by
  have hinside : Object.slotPlace o slot + Object.slotBytes ≤ o + n := by
    unfold Object.headerBytes Object.slotBytes at hroom
    unfold Object.slotPlace Object.headerBytes Object.slotBytes
    omega
  have hstart : o ≤ Object.slotPlace o slot := by
    unfold Object.slotPlace
    omega
  exact ⟨_, Object.slotAddress_eq_ok.2 ⟨rfl, by omega⟩, hstart, hinside⟩

/-- An object takes the least aligned size with room for what its request asks for, if that is a
word, and none otherwise. The alignment passes its test, and all slots lie inside the object. -/
theorem effective_size_exact (r : AllocRequest) : ∃ n,
    IsLeast {m | 8 ∣ m ∧ r.size ≤ m ∧ 16 + 8 * r.slots ≤ m ∧ 24 ≤ m} n ∧
    r.effectiveSize? = (if n < Word.count then some n else none) ∧
    (∀ needed, r.neededBytes? = some needed →
      Word.alignUp? (max (max r.size needed) Object.minBytes) Object.alignment =
        .ok r.effectiveSize?) ∧
    ∀ o slot, o + n < Word.count → slot < r.slots →
      ∃ a, Object.slotAddress o slot = .ok a ∧ o ≤ a ∧ a + Object.slotBytes ≤ o + n := by
  have hsizes : r.sizes = {m | 8 ∣ m ∧ r.size ≤ m ∧ 16 + 8 * r.slots ≤ m ∧ 24 ≤ m} := by
    simp only [Nat.mul_comm 8 r.slots]
    rfl
  have hleast := isLeast_sizes r
  refine ⟨_, hsizes ▸ hleast, effectiveSize?_eq hleast, fun needed hneeded => ?_, ?_⟩
  · obtain ⟨_, rfl⟩ := neededBytes?_eq_some.1 hneeded
    rw [effectiveSize?_eq_map]
    rfl
  · intro o slot hword hslot
    obtain ⟨_, _, hslots, _⟩ := hleast.1
    exact exists_slotAddress hslots hword hslot

/-- The largest size, and one byte more. -/
example : ({ size := Word.count - 8 } : AllocRequest).effectiveSize? = some (Word.count - 8) ∧
    ({ size := Word.count - 7 } : AllocRequest).effectiveSize? = none := by
  decide

end AllocRequest

end GenHeap
