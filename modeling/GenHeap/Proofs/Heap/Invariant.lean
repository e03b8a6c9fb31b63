import GenHeap.Proofs.BackgroundMark
import GenHeap.Proofs.FinalizationQueue
import GenHeap.Proofs.HandleTable
import GenHeap.Proofs.Heap.Layout

/-!
What holds in every state of a heap: objects lie apart in their segments, nothing names an address
without an object, waiting entries are sorted by generation, references to younger objects are on
dirty cards, and the write watch guards a background cycle.
-/

namespace GenHeap

namespace ObjectSpace

/-- The slot of the object at `o` holds the address of a younger object. -/
def Younger (s : ObjectSpace) (o slot : Nat) : Prop :=
  ∃ r t q, s.get? o = some r ∧ r.slots[slot]? = some t ∧ t ≠ 0 ∧ s.get? t = some q ∧
    q.generation.tier < r.generation.tier

/-- Records that differ in marks and in being finalizable only. -/
structure SameNode (r q : Record) : Prop extends r.SameShape q where
  generation : q.generation = r.generation
  targets : q.slots = r.slots

/-- The same objects with the same references and generations. -/
structure SameGraph (s s' : ObjectSpace) : Prop where
  forth : ∀ {a r}, s.get? a = some r → ∃ q, s'.get? a = some q ∧ SameNode r q
  back : ∀ {a q}, s'.get? a = some q → ∃ r, s.get? a = some r ∧ SameNode r q

variable {s s' : ObjectSpace} {a o t slot : Nat} {r : Record}

theorem SameButMarks.sameGraph (h : SameButMarks s s') : SameGraph s s' := by
  have hnode {s s' : ObjectSpace} (h : SameButMarks s s') {a : Nat} {r : Record}
      (hr : s.get? a = some r) :
      ∃ m, s'.get? a = some { r with marked := m } ∧ SameNode r { r with marked := m } := by
    obtain ⟨m, hm⟩ := h.get? hr
    exact ⟨m, hm, ⟨⟨rfl, rfl, rfl, rfl⟩, rfl, rfl⟩⟩
  constructor
  · intro a r hr
    obtain ⟨m, hm, hn⟩ := hnode h hr
    exact ⟨_, hm, hn⟩
  · intro a q hq
    obtain ⟨m, hm, _⟩ := hnode h.symm hq
    exact ⟨_, hm, ⟨⟨rfl, rfl, rfl, rfl⟩, rfl, rfl⟩⟩

/-- Changing one record in marks or in being finalizable. -/
theorem sameGraph_update {f : Record → Record} (hf : ∀ r, SameNode r (f r)) (a : Nat) :
    SameGraph s (s.update a f) := by
  have hself (r : Record) : SameNode r r := ⟨⟨rfl, rfl, rfl, rfl⟩, rfl, rfl⟩
  constructor
  · intro b r hr
    rw [get?_update]
    split
    · exact ⟨f r, by rw [hr]; rfl, hf r⟩
    · exact ⟨r, hr, hself r⟩
  · intro b q hq
    rw [get?_update] at hq
    split at hq
    · obtain ⟨r, hr, rfl⟩ := Option.map_eq_some_iff.1 hq
      exact ⟨r, hr, hf r⟩
    · exact ⟨q, hq, hself q⟩

namespace SameGraph

theorem within (h : SameGraph s s') : Within s s' := by
  intro a q hq
  obtain ⟨r, hr, hn⟩ := h.back hq
  exact ⟨r, hr, hn.toSameShape⟩

theorem contains (h : SameGraph s s') (ha : s.contains a = true) : s'.contains a = true := by
  obtain ⟨r, hr⟩ := contains_iff.1 ha
  obtain ⟨q, hq, _⟩ := h.forth hr
  exact contains_iff.2 ⟨q, hq⟩

theorem noDangling (h : SameGraph s s') (hs : s.NoDangling) : s'.NoDangling := by
  intro o q t hq ht hne
  obtain ⟨r, hr, hn⟩ := h.back hq
  exact h.contains (hs o r t hr (hn.targets ▸ ht) hne)

theorem younger (h : SameGraph s s') (hy : s'.Younger o slot) : s.Younger o slot := by
  obtain ⟨r', t, q', hr', ht, hne, hq', hlt⟩ := hy
  obtain ⟨r, hr, hn⟩ := h.back hr'
  obtain ⟨q, hq, hn'⟩ := h.back hq'
  exact ⟨r, t, q, hr, hn.targets ▸ ht, hne, hq, by rw [← hn.generation, ← hn'.generation]; exact hlt⟩

end SameGraph

end ObjectSpace

open ObjectSpace (SameGraph)

namespace Memory

structure Closed (m : Memory) : Prop where
  slots : m.space.NoDangling
  handles : ∀ t ∈ m.handles.targets, m.space.contains t = true
  roots : ∀ q ∈ m.queues, ∀ t ∈ q.roots, m.space.contains t = true

/-- Entries wait in the bucket of their object's generation. -/
def Sorted (m : Memory) : Prop :=
  ∀ q ∈ m.queues, ∀ g, ∀ e ∈ q.pending.get g, ∃ r, m.space.get? e.object = some r ∧ r.generation = g

/-- Both card tables divide the provider's range, and every reference to a younger object is on a
dirty card. -/
structure Carded (m : Memory) : Prop where
  base : m.cards.base = m.provider.space.range.start
  covered : m.cards.covered = m.provider.space.range.size
  cardSize : 0 < m.cards.cardSize
  watch : m.cards.SameGrid m.writeWatch
  dirty : ∀ o slot, m.space.Younger o slot → m.cards.isDirty (Object.slotPlace o slot) = true

/-- A background cycle watches the writes and is guarded by them. -/
structure Guarded (m : Memory) (b : BackgroundMark) : Prop where
  watching : m.watching = true
  matched : b.Matched
  guarded : b.Guarded m.space m.writeWatch (· ∈ b.worklist)

structure Sound (m : Memory) : Prop where
  laid : m.Laid
  spans : m.SpansUnused
  closed : m.Closed
  sorted : m.Sorted
  carded : m.Carded
  guarded : ∀ b, m.background = some b → m.Guarded b

variable {m : Memory} {space : ObjectSpace} {o slot : Nat} {r : Record}

theorem Sorted.contains (h : m.Sorted) {q : FinalizationQueue} (hq : q ∈ m.queues) {g : Generation}
    {e : FinalizableEntry} (he : e ∈ q.pending.get g) : m.space.contains e.object = true := by
  obtain ⟨r, hr, _⟩ := h q hq g e he
  exact ObjectSpace.contains_iff.2 ⟨r, hr⟩

theorem Laid.zero_free (h : m.Laid) : m.space.get? 0 = none := by
  cases hr : m.space.get? 0 with
  | none => rfl
  | some r => exact absurd (h.inside hr).1 (Nat.lt_irrefl 0)

/-- A slot lies inside its object, and so on a card of the table. -/
theorem Laid.slot_inside (h : m.Laid) (hr : m.space.get? o = some r) (hs : slot < r.slots.length) :
    o ≤ Object.slotPlace o slot ∧ Object.slotPlace o slot < o + r.size := by
  have hfit := h.slots_fit o r hr
  unfold Object.slotPlace
  unfold Object.headerBytes Object.slotBytes at *
  omega

theorem Laid.index?_isSome (h : m.Laid) {cards : CardTable}
    (hbase : cards.base = m.provider.space.range.start)
    (hcovered : cards.covered = m.provider.space.range.size) (hr : m.space.get? o = some r)
    (hs : slot < r.slots.length) : ∃ card, cards.index? (Object.slotPlace o slot) = some card := by
  have hin := h.slot_inside hr hs
  obtain ⟨_, hstart, hstop, _⟩ := h.inside hr
  refine ⟨_, CardTable.index?_eq_some.2 ⟨?_, ?_, rfl⟩⟩
  · rw [hbase]
    omega
  · rw [hbase, hcovered]
    omega

theorem Carded.index?_isSome (h : m.Carded) (hl : m.Laid) (hr : m.space.get? o = some r)
    (hs : slot < r.slots.length) : ∃ card, m.cards.index? (Object.slotPlace o slot) = some card :=
  hl.index?_isSome h.base h.covered hr hs

theorem Closed.congr {m' : Memory} (h : m.Closed) (hs : m'.space = m.space)
    (hh : m'.handles = m.handles) (hq : m'.queues = m.queues) : m'.Closed := by
  constructor
  · rw [hs]
    exact h.slots
  · rw [hs, hh]
    exact h.handles
  · rw [hs, hq]
    exact h.roots

theorem Carded.congr {m' : Memory} (h : m.Carded)
    (hrange : m'.provider.space.range = m.provider.space.range) (hs : m'.space = m.space)
    (hc : m'.cards = m.cards) (hw : m.writeWatch.SameGrid m'.writeWatch) : m'.Carded := by
  constructor
  · rw [hc, hrange]
    exact h.base
  · rw [hc, hrange]
    exact h.covered
  · rw [hc]
    exact h.cardSize
  · rw [hc]
    exact h.watch.trans hw
  · rw [hs, hc]
    exact h.dirty

theorem Sound.sameGraph (h : m.Sound) (hs : SameGraph m.space space) : Sound { m with space } where
  laid := h.laid.within hs.within
  spans := SpansUnused.within h.spans hs.within
  closed :=
    ⟨hs.noDangling h.closed.slots, fun t ht => hs.contains (h.closed.handles t ht),
      fun q hq t ht => hs.contains (h.closed.roots q hq t ht)⟩
  sorted := by
    intro q hq g e he
    obtain ⟨r, hr, hg⟩ := h.sorted q hq g e he
    obtain ⟨x, hx, hn⟩ := hs.forth hr
    exact ⟨x, hx, hn.generation.trans hg⟩
  carded :=
    ⟨h.carded.base, h.carded.covered, h.carded.cardSize, h.carded.watch,
      fun o slot hy => h.carded.dirty o slot (hs.younger hy)⟩
  guarded := by
    intro b hb
    have hg := h.guarded b hb
    refine ⟨hg.watching, hg.matched, fun o q slot t hq hl ht hne => ?_⟩
    obtain ⟨r, hr, hn⟩ := hs.back hq
    exact hg.guarded o r slot t hr hl (hn.targets ▸ ht) hne

/-- Queues may change as long as they name objects and stay sorted. -/
theorem Sound.queues (h : m.Sound) {queues : List FinalizationQueue}
    (hroots : ∀ q ∈ queues, ∀ t ∈ q.roots, m.space.contains t = true)
    (hsorted : Sorted { m with queues }) : Sound { m with queues } where
  laid := h.laid.congr rfl rfl rfl
  spans := h.spans
  closed := ⟨h.closed.slots, h.closed.handles, hroots⟩
  sorted := hsorted
  carded := h.carded.congr rfl rfl rfl (.refl _)
  guarded b hb := ⟨(h.guarded b hb).watching, (h.guarded b hb).matched, (h.guarded b hb).guarded⟩

/-- Handles may change as long as they name objects. -/
theorem Sound.handles (h : m.Sound) {handles : HandleTable}
    (hall : ∀ t ∈ handles.targets, m.space.contains t = true) : Sound { m with handles } where
  laid := h.laid.congr rfl rfl rfl
  spans := h.spans
  closed := ⟨h.closed.slots, hall, h.closed.roots⟩
  sorted := h.sorted
  carded := h.carded.congr rfl rfl rfl (.refl _)
  guarded b hb := ⟨(h.guarded b hb).watching, (h.guarded b hb).matched, (h.guarded b hb).guarded⟩

/-- More cards may be dirty than have to be. -/
theorem Sound.dirtyCard (h : m.Sound) (a : Nat) : Sound { m with cards := m.cards.mark a } where
  laid := h.laid.congr rfl rfl rfl
  spans := h.spans
  closed := h.closed.congr rfl rfl rfl
  sorted := h.sorted
  carded := by
    have hgrid := m.cards.sameGrid_mark a
    exact ⟨hgrid.base.trans h.carded.base, hgrid.covered.trans h.carded.covered,
      hgrid.cardSize ▸ h.carded.cardSize, hgrid.symm.trans h.carded.watch,
      fun o slot hy => CardTable.isDirty_mark (h.carded.dirty o slot hy) a⟩
  guarded b hb := ⟨(h.guarded b hb).watching, (h.guarded b hb).matched, (h.guarded b hb).guarded⟩

end Memory

end GenHeap
