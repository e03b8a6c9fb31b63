import GenHeap.Proofs.Heap.Mutator
import GenHeap.Proofs.Heap.Standing
import GenHeap.Proofs.Progress
import GenHeap.Proofs.Rounding

/-!
The running totals of a heap. They only grow, by no more in one step than the address range has
bytes, so a bound on them all says how far a heap is from a total that is no word.
-/

namespace GenHeap

open Checked (Runs)

/-! ## Totals of a generation -/

namespace BudgetTable

variable {t t' : BudgetTable} {g : Generation} {n k size : Nat}

/-- What every generation is charged with is at most `n`. -/
structure Tallied (t : BudgetTable) (n : Nat) : Prop where
  allocated : ∀ g, (t.get g).allocated ≤ n
  occupancy : ∀ g, (t.get g).occupancy ≤ n

theorem Tallied.mono (h : t.Tallied n) (hle : n ≤ k) : t.Tallied k where
  allocated g := Nat.le_trans (h.allocated g) hle
  occupancy g := Nat.le_trans (h.occupancy g) hle

theorem Tallied.modify (h : t.Tallied n) {f : GenerationState → GenerationState}
    (hallocated : (f (t.get g)).allocated ≤ n) (hoccupancy : (f (t.get g)).occupancy ≤ n) :
    BudgetTable.Tallied (t.modify g f) n := by
  constructor <;> intro k <;> by_cases hk : k = g
  · subst hk
    rwa [PerGeneration.get_modify_self]
  · rw [PerGeneration.get_modify_of_ne _ _ hk]
    exact h.allocated k
  · subst hk
    rwa [PerGeneration.get_modify_self]
  · rw [PerGeneration.get_modify_of_ne _ _ hk]
    exact h.occupancy k

theorem Tallied.discharge (h : t.Tallied n) (g : Generation) (size : Nat) :
    (t.discharge g size).Tallied n :=
  h.modify (h.allocated g) (Nat.le_trans (Nat.sub_le _ size) (h.occupancy g))

theorem Tallied.charge (h : t.Tallied n) (g : Generation) (hroom : n + size < Word.count) :
    ∃ t', t.charge g size = .ok t' ∧ t'.Tallied (n + size) := by
  have hallocated := h.allocated g
  have hoccupancy := h.occupancy g
  have hadd₁ := Word.add_eq_ok_iff.2
    ⟨(by omega : (t.get g).allocated + size < Word.count), rfl⟩
  have hadd₂ := Word.add_eq_ok_iff.2
    ⟨(by omega : (t.get g).occupancy + size < Word.count), rfl⟩
  refine ⟨t.set g { t.get g with
    allocated := (t.get g).allocated + size, occupancy := (t.get g).occupancy + size }, ?_, ?_⟩
  · simp only [BudgetTable.charge, GenerationState.charge, hadd₁, hadd₂]
    rfl
  · apply (h.mono (Nat.le_add_right n size)).modify
    · dsimp only
      omega
    · dsimp only
      omega

/-- Budgets of default tuning can be computed: the largest multiple is no less than the start. -/
theorem runs_tunedBudget (initial : Nat) (rate : Float) : Runs (tunedBudget initial rate {}) := by
  have hbounds := Word.toFloat_le_mul_eight initial
  simp [tunedBudget, clamp, hbounds]

theorem Tallied.finishGeneration (h : t.Tallied n) (rate : Float) :
    ∃ s, BudgetTable.finishGeneration (t.get g) rate {} = .ok s ∧
      BudgetTable.Tallied (t.set g s) n := by
  have hunit : (0.0 : Float) ≤ 1.0 := by decide
  have hruns : Runs (BudgetTable.finishGeneration (t.get g) rate {}) := by
    simp [BudgetTable.finishGeneration, clamp, hunit, runs_tunedBudget]
  obtain ⟨s, hs⟩ := hruns
  refine ⟨s, hs, ?_⟩
  simp only [BudgetTable.finishGeneration, Checked.bind_eq_ok, Checked.pure_eq_ok] at hs
  obtain ⟨_, _, budget, _, rfl⟩ := hs
  exact h.modify (Nat.zero_le n) (h.occupancy g)

theorem Tallied.finishCollection (h : t.Tallied n) (condemned : Generation)
    (survival : PerGeneration Float) :
    ∃ t', t.finishCollection condemned survival {} = .ok t' ∧ t'.Tallied n := by
  refine Checked.exists_foldlM_rest (fun _ t => BudgetTable.Tallied t n) ?_ h
  intro g _ t ht
  split
  · obtain ⟨s, hs, hset⟩ := ht.finishGeneration (survival.get g)
    exact ⟨t.set g s, by rw [hs]; rfl, hset⟩
  · exact ⟨t, rfl, ht⟩

end BudgetTable

/-! ## Totals of a logical heap -/

namespace Counters

variable {c : Counters} {n : Nat}

/-- Every data point is at most `n`. -/
def Tallied (c : Counters) (n : Nat) : Prop := ∀ m ∈ c.dataPoints, m ≤ n

theorem Tallied.add (h : c.Tallied n) (p : DataPoint) (amount : Nat)
    (hroom : n + amount < Word.count) :
    ∃ c', c.add p amount = .ok c' ∧ c'.Tallied (n + amount) := by
  have hpoint : c.dataPoint p ≤ n := by
    unfold dataPoint
    rw [List.getD_eq_getElem?_getD]
    cases hm : c.dataPoints[p.index]? with
    | none => exact Nat.zero_le n
    | some m => exact h m (List.mem_of_getElem? hm)
  have hadd := Word.add_eq_ok_iff.2
    ⟨(by omega : c.dataPoint p + amount < Word.count), rfl⟩
  refine ⟨{ c with dataPoints := c.dataPoints.set p.index (c.dataPoint p + amount) }, ?_, ?_⟩
  · simp only [Counters.add, hadd]
    rfl
  · intro m hm
    obtain hm | rfl := List.mem_or_eq_of_mem_set hm
    · have := h m hm
      omega
    · omega

end Counters

namespace LogicalHeap

/-- What the generations of a logical heap are charged with and its data points are at most `n`. -/
structure Tallied (l : LogicalHeap) (n : Nat) : Prop where
  budgets : l.budgets.Tallied n
  counters : l.counters.Tallied n

variable {l : LogicalHeap} {n k : Nat}

theorem Tallied.mono (h : l.Tallied n) (hle : n ≤ k) : l.Tallied k where
  budgets := h.budgets.mono hle
  counters m hm := Nat.le_trans (h.counters m hm) hle

end LogicalHeap

/-! ## Totals of a heap -/

/-- The totals over all logical heaps are at most `n`. -/
structure Statistics.Tallied (s : Statistics) (n : Nat) : Prop where
  allocated : s.totalAllocated ≤ n
  freed : s.totalFreed ≤ n
  promoted : s.totalPromoted ≤ n
  relocated : s.totalRelocated ≤ n

namespace Heap

variable {h h' : Heap} {n k i : Nat}

/-- Every running total of a heap is at most `n`. -/
structure Tallied (h : Heap) (n : Nat) : Prop where
  statistics : h.statistics.Tallied n
  heaps : ∀ l ∈ h.heaps, l.Tallied n

theorem Tallied.mono (h : Heap.Tallied h' n) (hle : n ≤ k) : h'.Tallied k where
  statistics := ⟨Nat.le_trans h.statistics.allocated hle, Nat.le_trans h.statistics.freed hle,
    Nat.le_trans h.statistics.promoted hle, Nat.le_trans h.statistics.relocated hle⟩
  heaps l hl := (h.heaps l hl).mono hle

/-- The running totals of the two heaps are the same. -/
structure SameTallies (h h' : Heap) : Prop where
  statistics : h'.statistics = h.statistics
  budgets : h'.heaps.map (·.budgets) = h.heaps.map (·.budgets)
  counters : h'.heaps.map (·.counters.dataPoints) = h.heaps.map (·.counters.dataPoints)

theorem sameTallies_frame : Frame SameTallies where
  refl _ := ⟨rfl, rfl, rfl⟩
  trans h h' := ⟨h'.statistics.trans h.statistics, h'.budgets.trans h.budgets,
    h'.counters.trans h.counters⟩

theorem Tallied.same (ht : h.Tallied n) (hs : SameTallies h h') : h'.Tallied n where
  statistics := hs.statistics ▸ ht.statistics
  heaps l hl := by
    constructor
    · have hmem : l.budgets ∈ h'.heaps.map (·.budgets) := List.mem_map_of_mem hl
      rw [hs.budgets] at hmem
      obtain ⟨l', hl', he⟩ := List.mem_map.1 hmem
      exact he ▸ (ht.heaps l' hl').budgets
    · have hmem : l.counters.dataPoints ∈ h'.heaps.map (·.counters.dataPoints) :=
        List.mem_map_of_mem hl
      rw [hs.counters] at hmem
      obtain ⟨l', hl', he⟩ := List.mem_map.1 hmem
      unfold Counters.Tallied
      exact he ▸ (ht.heaps l' hl').counters

theorem Tallied.modifyHeap (ht : h.Tallied n) {f : LogicalHeap → LogicalHeap}
    (hf : ∀ l, l.Tallied n → (f l).Tallied n) : (h.modifyHeap i f).Tallied n where
  statistics := ht.statistics
  heaps l hl := by
    obtain hl | ⟨l', hl', rfl⟩ := mem_modify hl
    · exact ht.heaps l hl
    · exact hf l' (ht.heaps l' hl')

theorem tallied_updateHeap (hs : h.statistics.Tallied k) (hheaps : ∀ l ∈ h.heaps, l.Tallied n)
    (hle : n ≤ k) {f : LogicalHeap → Checked LogicalHeap}
    (hf : ∀ l, l.Tallied n → ∃ l', f l = .ok l' ∧ l'.Tallied k) :
    ∃ h', h.updateHeap i f = .ok h' ∧ h'.Tallied k := by
  unfold Heap.updateHeap
  cases hl : h.heaps[i]? with
  | none => exact ⟨h, rfl, hs, fun l hl => (hheaps l hl).mono hle⟩
  | some l =>
    obtain ⟨l', hl', htallied⟩ := hf l (hheaps l (List.mem_of_getElem? hl))
    refine ⟨{ h with heaps := h.heaps.set i l' }, ?_, hs, ?_⟩
    · dsimp only
      rw [hl']
      rfl
    · intro y hy
      obtain hy | rfl := List.mem_or_eq_of_mem_set hy
      · exact (hheaps y hy).mono hle
      · exact htallied

theorem Tallied.updateHeap (ht : h.Tallied n) {f : LogicalHeap → Checked LogicalHeap} (hle : n ≤ k)
    (hf : ∀ l, l.Tallied n → ∃ l', f l = .ok l' ∧ l'.Tallied k) :
    ∃ h', h.updateHeap i f = .ok h' ∧ h'.Tallied k :=
  tallied_updateHeap (ht.mono hle).statistics ht.heaps hle hf

theorem sameTallies_modifyHeap {f : LogicalHeap → LogicalHeap}
    (hbudgets : ∀ l, (f l).budgets = l.budgets)
    (hcounters : ∀ l, (f l).counters.dataPoints = l.counters.dataPoints) :
    SameTallies h (h.modifyHeap i f) where
  statistics := rfl
  budgets := map_modify_of_same hbudgets h.heaps
  counters := map_modify_of_same hcounters h.heaps

theorem sameTallies_modifyHeaps {f : LogicalHeap → LogicalHeap}
    (hbudgets : ∀ l, (f l).budgets = l.budgets)
    (hcounters : ∀ l, (f l).counters.dataPoints = l.counters.dataPoints) :
    SameTallies h (h.modifyHeaps f) where
  statistics := rfl
  budgets := List.map_map.trans (List.map_congr_left fun l _ => hbudgets l)
  counters := List.map_map.trans (List.map_congr_left fun l _ => hcounters l)

theorem sameTallies_publish (h : Heap) : SameTallies h h.publish :=
  sameTallies_modifyHeaps (fun _ => rfl) fun _ => rfl

end Heap

end GenHeap
