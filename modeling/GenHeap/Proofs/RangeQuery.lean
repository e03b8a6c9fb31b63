import GenHeap.Proofs.ObjectSpace
import GenHeap.Proofs.Progress
import Mathlib.Order.CompletePartialOrder
import Mathlib.Order.Interval.Set.Disjoint

/-!
The objects that have an address in common with a range. Where objects do not overlap, at most one
of those that start before the range reaches into it, and that is the last of them.
-/

namespace GenHeap.ObjectSpace

open Checked (Runs)

variable {s : ObjectSpace} {start stop : Nat} {found : List Nat}

theorem runs_startingIn (s : ObjectSpace) (h : start ≤ stop) : Runs (s.startingIn start stop) := by
  have hle : ¬ stop < start := Nat.not_lt_of_le h
  simp [startingIn, hle]

theorem runs_straddling (hword : ∀ a r, s.get? a = some r → a + r.size < Word.count) :
    Runs (s.straddling start) := by
  unfold straddling
  split
  next => exact Checked.runs_ok _
  next b r hlast =>
    have hstop := hword b r (predecessor?_eq_some hlast).1
    simp [hstop]

/-- Objects whose ranges share no address. -/
theorem spread_of_disjoint (hpos : ∀ a r, s.get? a = some r → 0 < r.size)
    (hdisjoint : ∀ a b r q, s.get? a = some r → s.get? b = some q → a ≠ b →
      Disjoint (Set.Ico a (a + r.size)) (Set.Ico b (b + q.size))) : s.Spread where
  size_pos hr := hpos _ _ hr
  stop_le {a b r q} hr hq hlt := by
    have hapart := hdisjoint a b r q hr hq (Nat.ne_of_lt hlt)
    have hsize := hpos b q hq
    rw [Set.Ico_disjoint_Ico] at hapart
    omega

theorem straddling_cases {before : List Nat} (h : s.straddling start = .ok before) :
    before = [] ∨ ∃ b, b < start ∧ before = [b] := by
  unfold straddling at h
  split at h
  next =>
    cases h
    exact .inl rfl
  next b r hlast =>
    obtain ⟨stop, _, hbefore⟩ := Checked.bind_eq_ok.1 h
    rw [Checked.pure_eq_ok] at hbefore
    split at hbefore
    · exact .inr ⟨b, (predecessor?_eq_some hlast).2.1, hbefore.symm⟩
    · exact .inl hbefore.symm

/-- The object that reaches into the range from before comes first, the others follow by address. -/
theorem ascending_overlapping (hrun : s.overlapping start stop = .ok found) :
    found.Pairwise (· < ·) := by
  unfold overlapping at hrun
  simp only [Checked.bind_eq_ok, Checked.pure_eq_ok] at hrun
  obtain ⟨before, hbefore, inside, hinside, rfl⟩ := hrun
  have hsorted : (inside.map (·.1)).Pairwise (· < ·) := by
    rw [startingIn_eq_ok hinside, List.pairwise_map]
    exact (entries_pairwise s).filter _
  rcases straddling_cases hbefore with rfl | ⟨b, hb, rfl⟩
  · exact hsorted
  · refine List.pairwise_cons.2 ⟨fun a ha => ?_, hsorted⟩
    obtain ⟨⟨a, r⟩, hmem, rfl⟩ := List.mem_map.1 ha
    exact Nat.lt_of_lt_of_le hb ((mem_startingIn hinside).1 hmem).2.1

theorem meets_iff {a size : Nat} (hpos : 0 < size) (hlt : start < stop) :
    (Set.Ico a (a + size) ∩ Set.Ico start stop).Nonempty ↔ a < stop ∧ start < a + size := by
  rw [Set.Ico_inter_Ico, Set.nonempty_Ico]
  omega

/-- A range query finds the objects that share an address with the range, by address and each once.
It does not fault where objects do not overlap and end at a word. -/
theorem overlapping_complete (hpos : ∀ a r, s.get? a = some r → 0 < r.size)
    (hword : ∀ a r, s.get? a = some r → a + r.size < Word.count)
    (hdisjoint : ∀ a b r q, s.get? a = some r → s.get? b = some q → a ≠ b →
      Disjoint (Set.Ico a (a + r.size)) (Set.Ico b (b + q.size))) (hlt : start < stop) :
    ∃ found, s.overlapping start stop = .ok found ∧ found.Pairwise (· < ·) ∧
      ∀ a, a ∈ found ↔ ∃ r, s.get? a = some r ∧
        (Set.Ico a (a + r.size) ∩ Set.Ico start stop).Nonempty := by
  have hstraddling : (s.straddling start).Runs := runs_straddling hword
  obtain ⟨before, hbefore⟩ := hstraddling
  obtain ⟨inside, hinside⟩ := runs_startingIn s (Nat.le_of_lt hlt)
  have hrun : s.overlapping start stop = .ok (before ++ inside.map (·.1)) := by
    simp only [overlapping, hbefore, hinside]
    rfl
  refine ⟨_, hrun, ascending_overlapping hrun, fun a => ?_⟩
  rw [(spread_of_disjoint hpos hdisjoint).mem_overlapping hrun (Nat.le_of_lt hlt)]
  refine exists_congr fun r => and_congr_right fun hr => ?_
  exact (meets_iff (hpos a r hr) hlt).symm

/-- The first object spans more than the range, the second one starts where it ends. -/
def twoNeighbours : ObjectSpace where
  objects := Std.TreeMap.ofList (β := Record) [
    (0x1000, { size := 0x200, generation := .gen0, heap := 0, segment := 0, slots := [0] }),
    (0x1200, { size := 0x40, generation := .gen0, heap := 0, segment := 0, slots := [0] })]
  totalBytes := 0x240
  touched := true

/-- An object that spans the whole range. -/
theorem overlapping_complete_spanned :
    (∀ a r, twoNeighbours.get? a = some r → 0 < r.size) ∧
    (∀ a r, twoNeighbours.get? a = some r → a + r.size < Word.count) ∧
    (∀ a b r q, twoNeighbours.get? a = some r → twoNeighbours.get? b = some q → a ≠ b →
      Disjoint (Set.Ico a (a + r.size)) (Set.Ico b (b + q.size))) ∧
    twoNeighbours.overlapping 0x1100 0x1108 = .ok [0x1000] ∧
    ∀ a, a ∈ [0x1000] ↔ ∃ r, twoNeighbours.get? a = some r ∧
      (Set.Ico a (a + r.size) ∩ Set.Ico 0x1100 0x1108).Nonempty := by
  have hpos (a : Nat) (r : Record) (hr : twoNeighbours.get? a = some r) : 0 < r.size := by
    have hall : ∀ x ∈ twoNeighbours.entries, 0 < x.2.size := by decide +kernel
    exact hall (a, r) (mem_entries.2 hr)
  have hword (a : Nat) (r : Record) (hr : twoNeighbours.get? a = some r) :
      a + r.size < Word.count := by
    have hall : ∀ x ∈ twoNeighbours.entries, x.1 + x.2.size < Word.count := by decide +kernel
    exact hall (a, r) (mem_entries.2 hr)
  have hdisjoint (a b : Nat) (r q : Record) (hr : twoNeighbours.get? a = some r)
      (hq : twoNeighbours.get? b = some q) (hne : a ≠ b) :
      Disjoint (Set.Ico a (a + r.size)) (Set.Ico b (b + q.size)) := by
    have hall : ∀ x ∈ twoNeighbours.entries, ∀ y ∈ twoNeighbours.entries, x.1 ≠ y.1 →
        min (x.1 + x.2.size) (y.1 + y.2.size) ≤ max x.1 y.1 := by decide +kernel
    exact Set.Ico_disjoint_Ico.2 (hall (a, r) (mem_entries.2 hr) (b, q) (mem_entries.2 hq) hne)
  have hspanned : twoNeighbours.overlapping 0x1100 0x1108 = .ok [0x1000] := by
    decide +kernel
  obtain ⟨found, hrun, -, hmem⟩ :=
    overlapping_complete hpos hword hdisjoint (show 0x1100 < 0x1108 by decide)
  cases hspanned.symm.trans hrun
  exact ⟨hpos, hword, hdisjoint, hspanned, hmem⟩

end GenHeap.ObjectSpace
