import GenHeap.Proofs.Heap.Invariant
import GenHeap.Proofs.Heap.Reclaim

/-!
If everything that is named by a live object, a root or a waiting entry is live, then reclaiming
the others keeps the invariant.
-/

namespace GenHeap

namespace Memory

/-- What keeps objects alive: strong and pinned handles, and entries that are ready or running. -/
def Root (m : Memory) (a : Nat) : Prop :=
  a ∈ m.handles.roots ∨ ∃ q ∈ m.queues, a ∈ q.roots

theorem Closed.root {m : Memory} (h : m.Closed) {a : Nat} (ha : m.Root a) :
    m.space.contains a = true := by
  rcases ha with ha | ⟨q, hq, ha⟩
  · exact h.handles a (HandleTable.mem_targets_of_mem_roots ha)
  · exact h.roots q hq a ha

/-- What the roots reach. -/
def InUse (m : Memory) : Nat → Prop :=
  Worklist.Reached (m.space.contains · = true) m.space.references m.Root

/-- The live objects are enough: they hold all that is named by one of them, by a root or by a
waiting entry. -/
structure Keeps (m : Memory) (live : Nat → Record → Bool) : Prop where
  slots : ∀ {a r t}, m.space.get? a = some r → live a r = true → t ∈ r.slots → t ≠ 0 →
    ∃ q, m.space.get? t = some q ∧ live t q = true
  roots : ∀ {a}, m.Root a → ∃ r, m.space.get? a = some r ∧ live a r = true
  pending : ∀ {q g e}, q ∈ m.queues → e ∈ q.pending.get g →
    ∃ r, m.space.get? e.object = some r ∧ live e.object r = true

/-- What keeps the waiting entries keeps them when some are made ready. -/
theorem Keeps.scanUnreachable {m : Memory} {live : Nat → Record → Bool} (h : m.Keeps live)
    (c : Generation) (found : Nat → Bool) :
    Keeps { m with queues := m.queues.map (·.scanUnreachable c found) } live := by
  constructor
  · exact h.slots
  · rintro a (ha | ⟨_, hmem, ha⟩)
    · exact h.roots (.inl ha)
    · obtain ⟨q, hq, rfl⟩ := List.mem_map.1 hmem
      rcases FinalizationQueue.mem_roots_of_scanUnreachable ha with ha | ⟨g, e, he, rfl⟩
      · exact h.roots (.inr ⟨q, hq, ha⟩)
      · exact h.pending hq he
  · intro _ g e hmem he
    obtain ⟨q, hq, rfl⟩ := List.mem_map.1 hmem
    exact h.pending hq (FinalizationQueue.mem_pending_scanUnreachable.1 he).1

end Memory

theorem Heap.mem_roots {h : Heap} {a : Nat} : a ∈ h.roots ↔ h.memory.Root a := by
  show a ∈ h.handles.roots ++ h.heaps.flatMap (·.finalization.roots) ↔
    a ∈ h.handles.roots ∨ ∃ q ∈ h.heaps.map (·.finalization), a ∈ q.roots
  simp only [List.mem_append, List.mem_flatMap, List.mem_map]
  refine or_congr_right ⟨?_, ?_⟩
  · rintro ⟨l, hl, ha⟩
    exact ⟨_, ⟨l, hl, rfl⟩, ha⟩
  · rintro ⟨_, ⟨l, hl, rfl⟩, ha⟩
    exact ⟨l, hl, ha⟩

namespace Reclaimed

open Heap (aged sortedBy)

variable {condemned : Generation} {live : Nat → Record → Bool} {f : Nat → Nat} {m m' : Memory}
  {consumed : Option (List Nat)} {a c : Nat} {r q : Record}

theorem tier_aged (condemned : Generation) (r : Record) :
    r.generation.tier ≤ (aged condemned r).generation.tier := by
  unfold aged
  split
  · cases r.generation <;> simp [Generation.promoted, Generation.tier]
  · exact Nat.le_refl _

/-- A condemned object is at most one generation older afterwards. -/
theorem tier_aged_le (hc : r.generation.condemnedBy condemned = true) :
    (aged condemned r).generation.tier ≤ condemned.tier + 1 := by
  unfold Generation.condemnedBy at hc
  unfold aged Heap.isPromoted Generation.condemnedBy
  cases hg : r.generation <;> cases condemned <;>
    simp_all [Generation.tier, Generation.promoted, Generation.ephemeral, Generation.condemnTier]

theorem aged_of_not_condemned (hc : r.generation.condemnedBy condemned = false) :
    aged condemned r = r := by
  unfold aged Heap.isPromoted
  rw [hc, Bool.and_false]
  rfl

theorem get?_of_live (h : Reclaimed condemned live f m m') (hr : m.space.get? a = some r)
    (hl : live a r = true) :
    m'.space.get? (f a) = some (aged condemned { r with slots := r.slots.map f }) :=
  h.get?_iff.2 ⟨a, r, hr, hl, rfl, rfl⟩

theorem contains_of_live (h : Reclaimed condemned live f m m') (hr : m.space.get? a = some r)
    (hl : live a r = true) : m'.space.contains (f a) = true :=
  ObjectSpace.contains_iff.2 ⟨_, h.get?_of_live hr hl⟩

theorem forward_zero (h : Reclaimed condemned live f m m') (hm : m.Laid) : f 0 = 0 := by
  rcases Nat.decEq (f 0) 0 with hne | heq
  · obtain ⟨r, hr, _⟩ := h.moved hne
    rw [hm.zero_free] at hr
    cases hr
  · exact heq

theorem forward_of_not_condemned (h : Reclaimed condemned live f m m')
    (hr : m.space.get? a = some r) (hc : r.generation.condemnedBy condemned = false) : f a = a := by
  rcases Nat.decEq (f a) a with hne | heq
  · obtain ⟨q, hq, _, hcq⟩ := h.moved hne
    cases hr.symm.trans hq
    rw [hc] at hcq
    cases hcq
  · exact heq

theorem aged_slots : (aged condemned r).slots = r.slots := by
  unfold aged
  split <;> rfl

/-- A slot of a kept object, and what it held before. -/
theorem slot (h : Reclaimed condemned live f m m') (hm : m.Laid) (hk : m.Keeps live)
    (hq : m'.space.get? c = some q) {i t : Nat} (ht : q.slots[i]? = some t) (hne : t ≠ 0) :
    ∃ a r t₀ r₀, m.space.get? a = some r ∧ live a r = true ∧ f a = c ∧
      q = aged condemned { r with slots := r.slots.map f } ∧ r.slots[i]? = some t₀ ∧ t₀ ≠ 0 ∧
      f t₀ = t ∧ m.space.get? t₀ = some r₀ ∧ live t₀ r₀ = true := by
  obtain ⟨a, r, hr, hl, hfa, rfl⟩ := h.get?_iff.1 hq
  rw [aged_slots, List.getElem?_map, Option.map_eq_some_iff] at ht
  obtain ⟨t₀, ht₀, hft⟩ := ht
  have hne₀ : t₀ ≠ 0 := by
    rintro rfl
    exact hne (hft ▸ h.forward_zero hm)
  obtain ⟨r₀, hr₀, hl₀⟩ := hk.slots hr hl (List.mem_of_getElem? ht₀) hne₀
  exact ⟨a, r, t₀, r₀, hr, hl, hfa, rfl, ht₀, hne₀, hft, hr₀, hl₀⟩

theorem closed (h : Reclaimed condemned live f m m') (hm : m.Laid) (hk : m.Keeps live) :
    m'.Closed := by
  constructor
  · intro o q t hq ht hne
    obtain ⟨i, hi⟩ := List.mem_iff_getElem?.1 ht
    obtain ⟨_, _, _, _, _, _, _, _, _, _, rfl, hr₀, hl₀⟩ := h.slot hm hk hq hi hne
    exact h.contains_of_live hr₀ hl₀
  · intro t ht
    obtain ⟨hne, id, kind, hid⟩ := HandleTable.mem_targets.1 ht
    rw [h.handles, HandleTable.find?_relocate, Option.map_eq_some_iff] at hid
    obtain ⟨⟨kind, a⟩, hid, he⟩ := hid
    cases he
    have hne₀ : a ≠ 0 := by
      rintro rfl
      exact hne (h.forward_zero hm)
    obtain ⟨hfind, hweak⟩ := HandleTable.of_find?_clearDeadWeak hid hne₀
    by_cases hkind : kind = .weak
    · obtain ⟨r, hr, hl⟩ := (Option.any_eq_true ..).1 (hweak hkind)
      exact h.contains_of_live hr hl
    · obtain ⟨r, hr, hl⟩ := hk.roots (.inl (HandleTable.mem_roots.2 ⟨hne₀, id, kind, hfind, hkind⟩))
      exact h.contains_of_live hr hl
  · intro q hq t ht
    rw [h.queues, List.mem_map] at hq
    obtain ⟨q, hq, rfl⟩ := hq
    have hroot : ∃ a, a ∈ q.roots ∧ f a = t := by
      rw [FinalizationQueue.mem_roots] at ht
      rcases ht with ⟨e, he, rfl⟩ | ht
      · obtain ⟨e₀, he₀, rfl⟩ := List.mem_map.1 he
        exact ⟨e₀.object, FinalizationQueue.mem_roots.2 (.inl ⟨e₀, he₀, rfl⟩), rfl⟩
      · obtain ⟨a, ha, rfl⟩ := List.mem_map.1 ht
        exact ⟨a, FinalizationQueue.mem_roots.2 (.inr ha), rfl⟩
    obtain ⟨a, ha, rfl⟩ := hroot
    obtain ⟨r, hr, hl⟩ := hk.roots (.inr ⟨q, hq, ha⟩)
    exact h.contains_of_live hr hl

theorem sorted (h : Reclaimed condemned live f m m') (hk : m.Keeps live) : m'.Sorted := by
  intro q hq g e he
  rw [h.queues, List.mem_map] at hq
  obtain ⟨q, hq, rfl⟩ := hq
  obtain ⟨hg, g', e', he', rfl⟩ := FinalizationQueue.mem_pending_syncGenerations.1 he
  obtain ⟨e₀, he₀, rfl⟩ := FinalizationQueue.mem_pending_relocate.1 he'
  obtain ⟨r, hr, hl⟩ := hk.pending hq he₀
  have hget := h.get?_of_live hr hl
  refine ⟨_, hget, ?_⟩
  rw [← hg, hget]
  rfl

/-- A reference to a younger object is on a card that was found again, or it was there before. -/
theorem carded (h : Reclaimed condemned live f m m') (hm : m.Laid) (hk : m.Keeps live)
    (hc : m.Carded) (hcards : Recarded condemned consumed m m') : m'.Carded := by
  have hwatch : m'.writeWatch = m.writeWatch := by rw [h.rest]
  have hbase : m'.cards.base = m'.provider.space.range.start := by
    rw [h.grid.base, h.range]
    exact hc.base
  have hcovered : m'.cards.covered = m'.provider.space.range.size := by
    rw [h.grid.covered, h.range]
    exact hc.covered
  refine ⟨hbase, hcovered, h.grid.cardSize ▸ hc.cardSize,
    hwatch ▸ h.grid.symm.trans hc.watch, ?_⟩
  rintro o slot ⟨q, t, qt, hq, ht, hne, hqt, hlt⟩
  have hslot : slot < q.slots.length := (List.getElem?_eq_some_iff.1 ht).1
  obtain ⟨_, hinside⟩ := h.laid.slot_inside hq hslot
  obtain ⟨_, _, _, hword⟩ := h.laid.inside hq
  obtain ⟨card, hcard⟩ := h.laid.index?_isSome hbase hcovered hq hslot
  have hcard' : m.cards.index? (Object.slotPlace o slot) = some card :=
    (h.grid.symm.index? _).trans hcard
  refine CardTable.isDirty_iff.2 ⟨card, hcard, ?_⟩
  cases consumed with
  | none => exact (hcards card).2 ⟨o, slot, ⟨q, t, qt, hq, ht, hne, hqt, hlt⟩, hcard'⟩
  | some list =>
    refine hcards o slot card ⟨q, t, qt, hq, ht, hne, hqt, hlt⟩
      ⟨⟨q, hq, hinside⟩, by omega, hcard'⟩ ?_
    obtain ⟨a, r, t₀, r₀, hr, hl, rfl, hqa, ht₀, hne₀, rfl, hr₀, hl₀⟩ := h.slot hm hk hq ht hne
    cases hcond : r.generation.condemnedBy condemned with
    | true =>
      refine .inl ⟨q, hq, ?_⟩
      rw [hqa]
      exact tier_aged_le (r := { r with slots := r.slots.map f }) hcond
    | false =>
      -- the object stayed where it was and as old as it was, so the reference was there before
      have hfa := h.forward_of_not_condemned hr hcond
      rw [aged_of_not_condemned (r := { r with slots := r.slots.map f }) hcond] at hqa
      have hyounger : m.space.Younger (f a) slot := by
        refine ⟨r, t₀, r₀, hfa.symm ▸ hr, ht₀, hne₀, hr₀, ?_⟩
        have hage := tier_aged condemned { r₀ with slots := r₀.slots.map f }
        cases hqt.symm.trans (h.get?_of_live hr₀ hl₀)
        rw [hqa] at hlt
        exact Nat.lt_of_le_of_lt hage hlt
      obtain ⟨card', hindex, hdirty⟩ := CardTable.isDirty_iff.1 (hc.dirty _ _ hyounger)
      cases hcard'.symm.trans hindex
      exact .inr hdirty

theorem sound (h : Reclaimed condemned live f m m') (hm : m.Laid) (hk : m.Keeps live)
    (hc : m.Carded) (hcards : Recarded condemned consumed m m') (hb : m.background = none) :
    m'.Sound where
  laid := h.laid
  spans := h.spans
  closed := h.closed hm hk
  sorted := h.sorted hk
  carded := h.carded hm hk hc hcards
  guarded b hb' := by
    have hsame : m'.background = m.background := by rw [h.rest]
    rw [hsame, hb] at hb'
    cases hb'

end Reclaimed

end GenHeap
