import GenHeap.Proofs.Books
import GenHeap.Proofs.Segment
import GenHeap.Proofs.Weight
import Mathlib.Data.List.Nodup
import Mathlib.Data.List.Perm.Subperm

/-!
Ranges that keep apart from each other inside one range take no more bytes than it has. Segments
and pooled ranges are such ranges, so are the free spans of a segment, and so are objects.
-/

namespace GenHeap

theorem Word.total_sublist_le {α : Type} (f : α → Nat) {xs ys : List α} (h : xs.Sublist ys) :
    total (xs.map f) ≤ total (ys.map f) := by
  induction h with
  | slnil => exact Nat.le_refl _
  | cons y _ ih =>
    rw [List.map_cons, total_cons]
    omega
  | cons_cons x _ ih =>
    rw [List.map_cons, List.map_cons, total_cons, total_cons]
    omega

theorem Word.total_map_le {α : Type} {f g : α → Nat} {xs : List α} (h : ∀ x ∈ xs, f x ≤ g x) :
    total (xs.map f) ≤ total (xs.map g) := by
  induction xs with
  | nil => exact Nat.le_refl _
  | cons x xs ih =>
    rw [List.forall_mem_cons] at h
    rw [List.map_cons, List.map_cons, total_cons, total_cons]
    exact Nat.add_le_add h.1 (ih h.2)

namespace AddressRange

variable {r x y : AddressRange} {ranges : List AddressRange}

/-- The addresses of a range. -/
def cells (r : AddressRange) : List Nat := List.range' r.start r.size

theorem mem_cells {a : Nat} : a ∈ r.cells ↔ r.start ≤ a ∧ a < r.start + r.size :=
  List.mem_range'_1

theorem Apart.disjoint (h : x.Apart y) : x.cells.Disjoint y.cells := by
  intro a hx hy
  rw [mem_cells] at hx hy
  unfold Apart at h
  omega

theorem length_flatMap_cells :
    (ranges.flatMap cells).length = Word.total (ranges.map (·.size)) := by
  induction ranges with
  | nil => rfl
  | cons x ranges ih =>
    rw [List.flatMap_cons, List.length_append, ih, cells, List.length_range', List.map_cons,
      Word.total_cons]

theorem total_size_le (hapart : ranges.Pairwise Apart) (hin : ∀ x ∈ ranges, r.Encloses x) :
    Word.total (ranges.map (·.size)) ≤ r.size := by
  have hnodup : (ranges.flatMap cells).Nodup :=
    List.nodup_flatMap.2 ⟨fun x _ => List.nodup_range', hapart.imp Apart.disjoint⟩
  have hsub : ranges.flatMap cells ⊆ r.cells := by
    intro a ha
    obtain ⟨x, hx, hax⟩ := List.mem_flatMap.1 ha
    rw [mem_cells] at hax ⊢
    have := hin x hx
    unfold Encloses at this
    omega
  have hlen := (hnodup.subperm hsub).length_le
  rwa [length_flatMap_cells, cells, List.length_range'] at hlen

end AddressRange

/-- The bytes that are given out lie in the range of the provider. -/
theorem AddressSpace.Exclusive.total_le {s : AddressSpace} {taken : List AddressRange}
    (h : s.Exclusive taken) : Word.total (taken.map (·.size)) ≤ s.range.size :=
  AddressRange.total_size_le h.apart_taken fun _ hx => (h.inside_taken hx).encloses

theorem FreeSpan.Chain.total_le {lo hi : Nat} {spans : List FreeSpan} (h : Chain lo hi spans) :
    lo + Word.total (spans.map (·.size)) ≤ hi := by
  induction spans generalizing lo with
  | nil => exact h
  | cons span spans ih =>
    have := h.1
    have := ih h.2.2
    rw [List.map_cons, Word.total_cons]
    omega

/-- The free bytes of a segment lie below its allocation pointer. -/
theorem Segment.Sound.free_le {s : Segment} (h : s.Sound) :
    s.start + Word.total (s.freeSpans.map (·.size)) ≤ s.allocated :=
  h.chain.total_le

namespace ObjectSpace

variable {space : ObjectSpace} {cursor hi : Nat} {objects : List (Nat × Record)}

theorem InLine.weight_le (h : InLine cursor objects) (hle : cursor ≤ hi)
    (hstop : ∀ x ∈ objects, x.1 + x.2.size ≤ hi) : cursor + weight objects ≤ hi := by
  induction objects generalizing cursor with
  | nil => exact hle
  | cons x objects ih =>
    rw [List.forall_mem_cons] at hstop
    have := h.1
    have := ih h.2 hstop.1 hstop.2
    rw [weight_cons]
    omega

/-- Different objects of a space weigh no more than all its objects do. -/
theorem weight_le_of_subset (hnodup : objects.Nodup) (hsub : objects ⊆ space.entries) :
    weight objects ≤ weight space.entries := by
  obtain ⟨picked, hperm, hsublist⟩ := hnodup.subperm hsub
  rw [← weight_perm hperm]
  exact Word.total_sublist_le _ hsublist

end ObjectSpace

end GenHeap
