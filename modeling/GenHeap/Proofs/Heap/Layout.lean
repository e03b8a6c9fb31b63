import GenHeap.Proofs.Balance
import GenHeap.Proofs.Heap.Memory
import GenHeap.Proofs.Housing

/-!
Where the objects of a heap lie: those of each logical heap in its own segments, all of them inside
the provider's range, which does not hold address zero, and with their slots inside them. The books
of the provider are balanced, and owners list their segments.
-/

namespace GenHeap.Memory

/-- The segments of all logical heaps. -/
def shared (m : Memory) : SharedArena where
  provider := m.provider
  tables := m.tables

structure Laid (m : Memory) : Prop where
  housed : m.shared.Housed id m.space
  start_pos : 0 < m.provider.space.range.start
  slots_fit : m.space.SlotsFit
  balanced : m.shared.Balanced
  lists : ∀ {i : Nat} {t : SegmentTable}, m.tables[i]? = some t → ∀ x, t.Lists x

/-- No object reaches into a free span. -/
def SpansUnused (m : Memory) : Prop := m.shared.SpansUnused m.space

/-- A block of a segment for a new object. -/
abbrev Fresh (m : Memory) (i x a size : Nat) : Prop := m.shared.Fresh m.space i x a size

variable {m : Memory} {i x a size : Nat} {t t' : SegmentTable} {s : Segment} {r : Record}
  {space : ObjectSpace}

theorem Laid.serves (h : m.Laid) : m.provider.Serves (m.tables.flatMap SegmentTable.holdings) :=
  h.housed.serves

theorem Laid.wellFormed (h : m.Laid) (ht : m.tables[i]? = some t) : t.WellFormed :=
  h.housed.wellFormed ht

theorem Laid.apart (h : m.Laid) : m.space.Apart := h.housed.apart

theorem Laid.held (h : m.Laid) (hr : m.space.get? a = some r) : ∃ t s,
    m.tables[r.heap]? = some t ∧ t.find? r.segment = some s ∧ s.start ≤ a ∧
      a + r.size ≤ s.allocated := h.housed.held hr

/-- Objects lie in the provider's range, which does not hold address zero. -/
theorem Laid.inside (h : m.Laid) (hr : m.space.get? a = some r) :
    0 < a ∧ m.provider.space.range.start ≤ a ∧
      a + r.size ≤ m.provider.space.range.start + m.provider.space.range.size ∧
      a + r.size < Word.count := by
  obtain ⟨hlo, hin⟩ := h.housed.inside hr
  exact ⟨Nat.lt_of_lt_of_le h.start_pos hlo, hlo, hin⟩

theorem Laid.congr {m' : Memory} (h : m.Laid) (hp : m'.provider = m.provider)
    (ht : m'.tables = m.tables) (hs : m'.space = m.space) : m'.Laid := by
  have hshared : m'.shared = m.shared := by
    unfold shared
    rw [hp, ht]
  exact ⟨hshared ▸ hs ▸ h.housed, hp ▸ h.start_pos, hs ▸ h.slots_fit, hshared ▸ h.balanced,
    fun hi => h.lists (ht ▸ hi)⟩

theorem Laid.within (h : m.Laid) (hw : m.space.Within space) : Laid { m with space } :=
  ⟨h.housed.within hw, h.start_pos, h.slots_fit.within hw, h.balanced, h.lists⟩

theorem SpansUnused.within (h : m.SpansUnused) (hw : m.space.Within space) :
    SpansUnused { m with space } :=
  SharedArena.SpansUnused.within h hw

theorem Fresh.get?_eq_none (h : m.Fresh i x a size) (hm : m.Laid) (hsize : 0 < size) :
    m.space.get? a = none :=
  SharedArena.Fresh.get?_eq_none h hm.housed hsize

theorem Laid.insert (h : m.Laid) (hf : m.Fresh r.heap r.segment a r.size)
    (hmin : Object.minBytes ≤ r.size)
    (hfit : Object.headerBytes + r.slots.length * Object.slotBytes ≤ r.size)
    (hget : ∀ b, space.get? b = if a = b then some r else m.space.get? b) :
    Laid { m with space } := by
  refine ⟨h.housed.insert hf hmin hget, h.start_pos, fun b q hq => ?_, h.balanced, h.lists⟩
  rw [hget] at hq
  split at hq
  · cases hq
    exact hfit
  · exact h.slots_fit b q hq

theorem SpansUnused.insert (h : m.SpansUnused) (hf : m.Fresh i x a r.size)
    (hget : ∀ b, space.get? b = if a = b then some r else m.space.get? b) :
    SpansUnused { m with space } :=
  SharedArena.SpansUnused.insert h hf hget

/-! ## Changes of the segments -/

/-- The memory with another arena for a logical heap. -/
def withArena (m : Memory) (i : Nat) (arena : SegmentArena) : Memory :=
  { m with tables := m.tables.set i arena.table, provider := arena.provider }

/-- The ranges of the other tables. -/
def others (m : Memory) (i : Nat) : List AddressRange := m.shared.others i

/-- The same objects and references over other segments and another state of the provider. -/
structure Rearranged (m m' : Memory) : Prop where
  laid : m'.Laid
  spans : m'.SpansUnused
  range : m'.provider.space.range = m.provider.space.range
  heaps : m'.tables.length = m.tables.length
  rest : m' = { m with tables := m'.tables, provider := m'.provider }

theorem Rearranged.refl (hl : m.Laid) (hu : m.SpansUnused) : Rearranged m m :=
  ⟨hl, hu, rfl, rfl, rfl⟩

theorem Rearranged.trans {m' m'' : Memory} (h : Rearranged m m') (h' : Rearranged m' m'') :
    Rearranged m m'' where
  laid := h'.laid
  spans := h'.spans
  range := h'.range.trans h.range
  heaps := h'.heaps.trans h.heaps
  rest := by
    rw [h'.rest, h.rest]

variable {arena : SegmentArena}

/-- Another arena over the same range, in which the objects still lie and the books are kept. -/
theorem Laid.rearranged (h : m.Laid) (ht : m.tables[i]? = some t)
    (hbooks : ∀ {reserved committed}, SegmentArena.Balanced ⟨t, m.provider⟩ reserved committed →
      arena.Balanced reserved committed)
    (hlists : (∀ y, t.Lists y) → ∀ y, arena.table.Lists y)
    (hhoused : (m.shared.withArena i arena).Housed id m.space ∧
      (m.shared.withArena i arena).SpansUnused m.space)
    (hrange : arena.provider.space.range = m.provider.space.range) :
    Rearranged m (m.withArena i arena) := by
  refine ⟨⟨hhoused.1, ?_, h.slots_fit, .withArena ht (hbooks (h.balanced.arena ht)), ?_⟩, hhoused.2,
    hrange, List.length_set .., rfl⟩
  · show 0 < arena.provider.space.range.start
    rw [hrange]
    exact h.start_pos
  · intro j t' ht'
    have ht' : (m.shared.withArena i arena).tables[j]? = some t' := ht'
    rw [SharedArena.getElem?_withArena ht] at ht'
    split at ht'
    · cases ht'
      exact hlists (h.lists ht)
    · exact h.lists ht'

/-- A block behind the allocation pointer is fresh. -/
theorem Laid.bump (h : m.Laid) (hu : m.SpansUnused) (ht : m.tables[i]? = some t)
    {q : Except HeapError (Option Nat)}
    (hrun : SegmentArena.bump x size { table := t, provider := m.provider } = .ok (q, arena)) :
    Rearranged m (m.withArena i arena) ∧
      ∀ a, q = .ok (some a) → (m.withArena i arena).Fresh i x a size := by
  obtain ⟨hhoused, hfresh⟩ := h.housed.bump hu ht hrun
  have ha := h.housed.arena_sound ht
  exact ⟨h.rearranged ht (fun hb => hb.bump (h.wellFormed ht) hrun)
    (ArenaOperation.lists (.bump x size) ha (Transition.after_eq_ok.2 ⟨_, hrun⟩)) hhoused
    (ha.bump hrun).1.range_eq, hfresh⟩

/-- A block of a free span is fresh. -/
theorem Laid.takeFree (h : m.Laid) (hu : m.SpansUnused) (ht : m.tables[i]? = some t)
    (hrun : t.takeFree x size = .ok (some a, t')) :
    Rearranged m (m.withArena i ⟨t', m.provider⟩) ∧
      (m.withArena i ⟨t', m.provider⟩).Fresh i x a size := by
  obtain ⟨hhoused, hfresh⟩ := h.housed.takeFree hu ht hrun
  refine ⟨h.rearranged ht (fun hb => hb.takeFree (h.wellFormed ht) hrun) ?_ hhoused rfl, hfresh⟩
  obtain ⟨s, spans, hs, _, rfl⟩ := SegmentTable.takeFree_eq_some hrun
  exact (h.wellFormed ht).lists_put hs rfl rfl

/-- A table with one more segment, or with other owners. -/
theorem Laid.grow (h : m.Laid) (hu : m.SpansUnused) (ht : m.tables[i]? = some t) {g : Generation}
    {q : Except HeapError Growth}
    (hrun : SegmentArena.grow g size { table := t, provider := m.provider } = .ok (q, arena)) :
    Rearranged m (m.withArena i arena) := by
  obtain ⟨ha, hx, _⟩ := (h.housed.arena_sound ht).grow hrun
  exact h.rearranged ht (fun hb => hb.grow (h.wellFormed ht) hrun) hx.lists
    (h.housed.extend hu ht ha hx) ha.range_eq

/-- Making the young regions older never fails. -/
theorem Laid.promoteRegions (h : m.Laid) (hu : m.SpansUnused) (ht : m.tables[i]? = some t)
    {condemned : Generation} {q : Except HeapError Unit}
    (hrun : SegmentArena.onTable (SegmentTable.promoteRegions condemned)
      { table := t, provider := m.provider } = .ok (q, arena)) :
    q = .ok ⟨⟩ ∧ Rearranged m (m.withArena i arena) := by
  obtain ⟨t', hrun', rfl⟩ := SegmentArena.onTable_eq_ok.1 hrun
  obtain ⟨hq, hwf, hsame⟩ := (h.wellFormed ht).promoteRegions hrun'
  have ha := (h.housed.arena_sound ht).of_sameButOwners hwf hsame
  have hx := SegmentArena.Extends.of_sameButOwners hsame
  exact ⟨hq, h.rearranged ht (fun hb => hb.promoteRegions (h.wellFormed ht) hrun) hx.lists
    (h.housed.extend hu ht ha hx) rfl⟩

/-- A segment given back held no object. -/
theorem Laid.decommit (h : m.Laid) (hu : m.SpansUnused) (ht : m.tables[i]? = some t)
    (hs : t.find? x = some s) {q : Except HeapError Bool}
    (hrun : SegmentArena.decommitIfEmpty x m.space { table := t, provider := m.provider } =
      .ok (q, arena)) : (∃ b, q = .ok b) ∧ Rearranged m (m.withArena i arena) ∧
      ∀ g, ∀ y ∈ t.owned.get g, y ≠ x → y ∈ arena.table.owned.get g := by
  obtain ⟨hq, ha, hhoused, howned⟩ := h.housed.decommit hu ht hs hrun
  have hsound := h.housed.arena_sound ht
  exact ⟨hq, h.rearranged ht (fun hb => hb.decommitIfEmpty hsound hrun)
    (ArenaOperation.lists (.decommitIfEmpty x m.space) hsound (Transition.after_eq_ok.2 ⟨_, hrun⟩))
    hhoused ha.range_eq, howned⟩

/-- A sweep of all segments finds the free spans anew, whatever they were. -/
theorem Laid.rebuild (h : m.Laid) {tables : List SegmentTable}
    (hrun : m.tables.mapM (·.rebuild m.space) = .ok tables) :
    Rearranged m { m with tables } := by
  obtain ⟨hhoused, hspans⟩ := h.housed.rebuild hrun
  refine ⟨⟨hhoused, h.start_pos, h.slots_fit, h.balanced.rebuild hrun, ?_⟩, hspans, rfl,
    Checked.mapM_length hrun, rfl⟩
  intro i t' ht' x s' hs'
  rcases Checked.mapM_getElem? hrun i with ⟨_, hnone⟩ | ⟨t, t'', ht, ht'', hrebuild⟩
  · cases hnone.symm.trans ht'
  · cases ht''.symm.trans ht'
    obtain ⟨_, _, _, hback⟩ := (h.wellFormed ht).rebuild h.apart (fun y s hs a r hr =>
      h.housed.stop_le ht hs hr) hrebuild
    obtain ⟨s, hs, hswept⟩ := hback hs'
    rw [SegmentTable.owned_rebuild hrebuild, hswept.same]
    exact h.lists ht x s hs

end GenHeap.Memory
