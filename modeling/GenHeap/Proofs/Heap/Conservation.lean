import GenHeap.Proofs.Budget
import GenHeap.Proofs.Heap.Shape

/-!
Conservation of bytes. A heap counts them in three places: for all of its objects, for each generation
of each logical heap, and in its statistics, where what was allocated and what was freed add up over
all collections. No operation brings these out of step with the objects or with each other.
-/

namespace GenHeap

open ObjectSpace (held)

/-- Moved objects keep their size, their logical heap and their generation. -/
theorem ObjectSpace.Moved.samePortions {f : Nat → Nat} {mv : Nat → Record → Prop}
    {s s' : ObjectSpace} (h : s.Moved f mv s') : s.SamePortions s' := by
  have hnodup : (s.entries.map fun x => (f x.1, { x.2 with slots := x.2.slots.map f })).Nodup := by
    rw [List.nodup_iff_pairwise_ne, List.pairwise_map]
    refine (entries_pairwise s).imp_of_mem fun {x y} hx hy hlt he => Nat.ne_of_lt hlt ?_
    exact h.injective (mem_entries.1 hx) (mem_entries.1 hy) (Prod.mk.inj he).1
  refine samePortions_of_perm (entries_perm hnodup fun c q => ?_) fun _ => rfl
  rw [h.get?_iff, List.mem_map]
  constructor
  · rintro ⟨⟨a, r⟩, hr, he⟩
    obtain ⟨rfl, rfl⟩ := Prod.mk.inj he
    exact ⟨a, r, mem_entries.1 hr, rfl, rfl⟩
  · rintro ⟨a, r, hr, rfl, rfl⟩
    exact ⟨(a, r), mem_entries.2 hr, rfl⟩

namespace Heap

/-- The accounts are right for some objects, where `pending` bytes are freed but not booked yet. -/
structure Accounts.Cover (a : Accounts) (objects : List (Nat × Record)) (pending : Nat) : Prop where
  posted : Posted a.budgets objects
  sum : a.allocated = a.freed + pending + ObjectSpace.weight objects

/-- The accounts are right for the objects that there are. -/
def Conserves (h : Heap) (pending : Nat) : Prop := h.accounts.Cover h.space.entries pending

variable {h h' : Heap} {i x a size n : Nat} {condemned target : Generation}
  {live : Nat → Record → Bool} {consumed : Option (List Nat)}
  {summary summary' : CollectionSummary} {survivals : List Survival}

theorem Conserves.same (hc : h.Conserves n) (ha : h'.accounts = h.accounts)
    (hs : h.space.SamePortions h'.space) : h'.Conserves n := by
  have hweight := hs fun _ _ => true
  rw [ObjectSpace.portion_all, ObjectSpace.portion_all] at hweight
  unfold Conserves
  rw [ha]
  exact ⟨hc.posted.congr hs.held, hc.sum.trans (by rw [hweight])⟩

theorem Conserves.rests (hc : h.Conserves n) (hr : h.Rests h') : h'.Conserves n :=
  hc.same hr.accounts hr.portions

theorem Conserves.sweeper (hc : h.Conserves n) (sweeper : Sweeper) :
    Conserves { h with sweeper } n := hc

/-! ## Reclaiming -/

/-- A change of the budgets of one logical heap, if there is that heap. -/
theorem budgets_updateHeap {X : BudgetTable → Checked BudgetTable}
    {f : LogicalHeap → Checked LogicalHeap}
    (hf : ∀ l l', f l = .ok l' → X l.budgets = .ok l'.budgets) (hrun : h.updateHeap i f = .ok h') :
    h'.space = h.space ∧ h'.statistics = h.statistics ∧
      (h.budgets[i]? = none ∧ h'.budgets = h.budgets ∨ ∃ t t', h.budgets[i]? = some t ∧
        X t = .ok t' ∧ h'.budgets = h.budgets.set i t') := by
  have hread : h.budgets[i]? = (h.heaps[i]?).map (·.budgets) := List.getElem?_map ..
  rw [hread]
  rcases updateHeap_cases hrun with ⟨hnone, rfl⟩ | ⟨l, l', hl, hl', rfl⟩
  · exact ⟨rfl, rfl, .inl ⟨by rw [hnone, Option.map_none], rfl⟩⟩
  · refine ⟨rfl, rfl, .inr ⟨l.budgets, l'.budgets, ?_, hf l l' hl', ?_⟩⟩
    · rw [hl, Option.map_some]
    · exact List.map_set

end Heap

end GenHeap
