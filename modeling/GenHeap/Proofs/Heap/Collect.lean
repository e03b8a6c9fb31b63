import GenHeap.Proofs.Heap.Marking
import GenHeap.Proofs.Heap.Mutator
import GenHeap.Proofs.Heap.Stages

/-!
A collection in a pause, from the state before it to the state after it: which objects are left, where
they are, and that the invariant holds again.
-/

namespace GenHeap

open ObjectSpace (SameButMarks)
open Memory (Leads)

/-- The memory `m'` after a collection of `c` that moved the objects of `m` by `f`. -/
structure Collected (c : Generation) (f : Nat → Nat) (m m' : Memory) : Prop where
  sound : m'.Sound
  forth : ∀ {a r}, m.space.get? a = some r → m.Survives c a → ∃ marked, m'.space.get? (f a) =
    some (Heap.aged c { r with slots := r.slots.map f, marked })
  back : ∀ {b q}, m'.space.get? b = some q → ∃ a, m.Survives c a ∧ f a = b
  injective : ∀ {a b}, m.Survives c a → m.Survives c b → f a = f b → a = b
  moved : ∀ {a}, f a ≠ a → m.space.Condemned c a
  immovable : ∀ {a}, m.Immovable a → f a = a
  handles : ∃ live, (∀ a, live a = true ↔ m.Survives c a) ∧
    m'.handles = (m.handles.clearDeadWeak live).relocate f
  queues : ∃ live, (∀ a, live a = true ↔ m.Live c a) ∧ m'.queues =
    m.queues.map fun q => Heap.sortedBy m'.space ((q.scanUnreachable c live).relocate f)
  cards : c = .gen2 → ∀ card, m'.cards.isCardDirty card = true ↔
    ∃ o slot, m'.space.Younger o slot ∧ m'.cards.index? (Object.slotPlace o slot) = some card
  collections : m'.collections = m.collections + 1
  background : m'.background = none

namespace Heap

variable {h h' : Heap} {c : Generation}

/-! ## Giving up a cycle -/

theorem memory_dropSaved (h : Heap) :
    (h.modifyHeaps fun l => { l with savedEphemeral := none }).memory = h.memory :=
  memory_modifyHeaps (fun _ => rfl) fun _ => rfl

theorem memory_discardCycle : ∃ watching watch, h.writeWatch.SameGrid watch ∧
    h.discardCycle.memory =
      { h.memory with background := none, watching, writeWatch := watch } := by
  unfold discardCycle
  cases hb : h.background with
  | none =>
    refine ⟨h.watching, h.writeWatch, .refl _, ?_⟩
    simp only [memory, hb]
  | some b =>
    refine ⟨false, h.writeWatch.clearAll, h.writeWatch.sameGrid_clearAll, ?_⟩
    have hsame : ((h.countMechanism .backgroundAborted).modifyHeaps fun l =>
        { l with savedEphemeral := none }).memory = h.memory :=
      (memory_dropSaved _).trans (memory_countMechanism h _)
    simp only [memory, Memory.mk.injEq] at hsame ⊢
    obtain ⟨hp, ht, hs, hh, hq, hc, _, _, _, hn⟩ := hsame
    exact ⟨hp, ht, hs, hh, hq, hc, rfl, trivial, trivial, hn⟩

theorem memory_beginCollection : ∃ watching watch, h.writeWatch.SameGrid watch ∧
    h.beginCollection.memory = { h.memory with
      background := none, watching, writeWatch := watch, collections := h.collections + 1 } := by
  obtain ⟨watching, watch, hgrid, hdiscard⟩ := memory_discardCycle (h := h)
  refine ⟨watching, watch, hgrid, ?_⟩
  simp only [beginCollection, memory, Memory.mk.injEq] at hdiscard ⊢
  obtain ⟨hp, ht, hs, hh, hq, hc, hw, hwatching, hb, _⟩ := hdiscard
  exact ⟨hp, ht, hs, hh, hq, hc, hw, hwatching, hb, trivial⟩

/-- Without its cycle, and with any number of collections, a memory stays sound. -/
theorem withoutCycle {m : Memory} (h : m.Sound) {watch : CardTable}
    (hgrid : m.writeWatch.SameGrid watch) (watching : Bool) (collections : Nat) :
    Memory.Sound { m with background := none, watching, writeWatch := watch, collections } where
  laid := h.laid.congr rfl rfl rfl
  spans := h.spans
  closed := h.closed.congr rfl rfl rfl
  sorted := h.sorted
  carded := h.carded.congr rfl rfl rfl hgrid
  guarded _ hb := nomatch hb

/-! ## What is kept -/

/-- What outlives a collection is enough: it holds all that it names. -/
theorem keeps_outlives {m : Memory} (hm : m.Sound) {space : ObjectSpace}
    (hsame : SameButMarks m.space space)
    (hout : ∀ a r, space.get? a = some r → (outlives c a r = true ↔ m.Survives c a)) :
    Memory.Keeps { m with space } (outlives c) := by
  have hkept {a : Nat} (ha : m.Survives c a) : ∃ r, space.get? a = some r ∧ outlives c a r = true := by
    obtain ⟨r, hr⟩ := ObjectSpace.contains_iff.1 (hsame.contains_iff.2 ha.contains)
    exact ⟨r, hr, (hout a r hr).2 ha⟩
  constructor
  · intro a r t hr hl ht hne
    have ha := (hout a r hr).1 hl
    refine hkept (hm.closed.survives_reference ha ?_)
    rw [← hsame.references]
    exact ObjectSpace.mem_references.2 ⟨r, hr, ht, hne⟩
  · intro a ha
    exact hkept (hm.closed.survives_root ha)
  · intro q g e hq he
    exact hkept (hm.sorted.survives_pending hq he)

theorem memory_sweeper {sweeper : Sweeper} : ({ h with sweeper } : Heap).memory = h.memory := (rfl)

theorem memory_finishCollection {summary : CollectionSummary}
    (hrun : h.finishCollection summary = .ok h') : h'.memory = h.memory := by
  obtain ⟨statistics, -, rfl⟩ := finishCollection_stages.1 hrun
  have hcounted : (h.counted summary).memory = h.memory :=
    memory_modifyHeaps (fun _ => rfl) fun _ => rfl
  exact (memory_publish _).trans hcounted

/-! ## The collection -/

/-- The memory between marking and reclaiming. -/
structure Marked (c : Generation) (m : Memory) (space : ObjectSpace) (live : Nat → Bool)
    (m₁ : Memory) : Prop where
  same : SameButMarks m.space space
  live_iff : ∀ a, live a = true ↔ m.Live c a
  outlives_iff : ∀ a r, space.get? a = some r → (outlives c a r = true ↔ m.Survives c a)
  memory : ∃ watching watch, m.writeWatch.SameGrid watch ∧ m₁ = { m with
    background := none, watching, writeWatch := watch, collections := m.collections + 1
    space, queues := m.queues.map (·.scanUnreachable c live) }

theorem marked_of_markCondemned (hm : h.memory.Sound) {summary summary' : CollectionSummary}
    {scan : CardScan} {h₁ : Heap}
    (hrun : h.beginCollection.markCondemned c summary = .ok (scan, summary', h₁)) :
    ∃ space live, Marked c h.memory space live h₁.memory := by
  obtain ⟨watching, watch, hgrid, hm₀⟩ := memory_beginCollection (h := h)
  have hquiet := withoutCycle hm hgrid watching (h.collections + 1)
  obtain ⟨space, live, hsame, hlive, hout, hm₁⟩ := markCondemned_eq_ok (hm₀ ▸ hquiet) hrun
  have hs₀ : h.beginCollection.space = h.space := congrArg Memory.space hm₀
  rw [hs₀] at hsame
  rw [hm₀] at hlive hout hm₁
  exact ⟨space, live, hsame, hlive, hout, watching, watch, hgrid, hm₁⟩

/-- Reclaiming may follow: it keeps all that is named. -/
theorem Marked.keeps {m m₁ : Memory} {space : ObjectSpace} {live : Nat → Bool}
    (h : Marked c m space live m₁) (hm : m.Sound) :
    m₁.Laid ∧ 0 < m₁.cards.cardSize ∧ m₁.Keeps (outlives c) := by
  obtain ⟨watching, watch, hgrid, rfl⟩ := h.memory
  have hkeeps := (keeps_outlives hm h.same h.outlives_iff).scanUnreachable c live
  exact ⟨(hm.laid.within h.same.within).congr rfl rfl rfl, hm.carded.cardSize,
    hkeeps.slots, hkeeps.roots, hkeeps.pending⟩

/-- What marking and reclaiming do together. -/
theorem collected_of_reclaimed {m m₁ m' : Memory} (hm : m.Sound) {space : ObjectSpace}
    {live : Nat → Bool} (h : Marked c m space live m₁) {f : Nat → Nat}
    {consumed : Option (List Nat)} (hr : Reclaimed c (outlives c) f m₁ m')
    (hcards : Recarded c consumed m₁ m') (hconsumed : c = .gen2 → consumed = none) :
    Collected c f m m' := by
  obtain ⟨hlaid, _, hkeeps⟩ := h.keeps hm
  have hsame := h.same
  have hout := h.outlives_iff
  obtain ⟨watching, watch, hgrid, rfl⟩ := h.memory
  have hquiet := withoutCycle hm hgrid watching (m.collections + 1)
  have hmarked := hquiet.sameGraph hsame.sameGraph
  have hkept {a : Nat} (ha : m.Survives c a) : ∃ r, space.get? a = some r ∧ outlives c a r = true := by
    obtain ⟨r, hr⟩ := ObjectSpace.contains_iff.1 (hsame.contains_iff.2 ha.contains)
    exact ⟨r, hr, (hout a r hr).2 ha⟩
  constructor
  · exact hr.sound hlaid hkeeps (hmarked.carded.congr rfl rfl rfl (.refl _)) hcards rfl
  · intro a r hold ha
    obtain ⟨_, hget, hl⟩ := hkept ha
    obtain ⟨marked, hmarked⟩ := hsame.get? hold
    cases hget.symm.trans hmarked
    exact ⟨marked, hr.get?_of_live hget hl⟩
  · intro b q hq
    obtain ⟨a, r, hget, hl, hfa, _⟩ := hr.get?_iff.1 hq
    exact ⟨a, (hout a r hget).1 hl, hfa⟩
  · intro a b ha hb he
    obtain ⟨r, hget, hl⟩ := hkept ha
    obtain ⟨q, hget', hl'⟩ := hkept hb
    exact hr.injective hget hl hget' hl' he
  · intro a hne
    obtain ⟨r, hget, _, hc⟩ := hr.moved hne
    exact hsame.condemned_iff.1 ⟨r, hget, hc⟩
  · intro a ha
    apply hr.immovable
    rcases ha with hheld | ⟨r, hold, hcase⟩
    · refine .inl (hheld.carried id fun q hq ha => ⟨_, List.mem_map_of_mem hq, ?_⟩)
      rw [FinalizationQueue.running_scanUnreachable]
      exact ha
    · obtain ⟨marked, hmarked⟩ := hsame.get? hold
      exact .inr ⟨_, hmarked, hcase⟩
  · refine ⟨fun a => (space.get? a).any (outlives c a), fun a => ?_, hr.handles⟩
    rw [Option.any_eq_true]
    constructor
    · rintro ⟨r, hget, hl⟩
      exact (hout a r hget).1 hl
    · exact hkept
  · refine ⟨live, h.live_iff, ?_⟩
    rw [hr.queues, List.map_map]
    rfl
  · intro hgen card
    cases hconsumed hgen
    rw [hcards card]
    simp only [hr.grid.index?]
  · rw [hr.rest]
  · rw [hr.rest]

theorem collect_eq_ok (hm : h.memory.Sound) {generation : Generation} {reason : CollectionReason}
    {x : Except HeapError CollectionSummary} (hrun : collect generation reason h = .ok (x, h')) :
    ∃ summary f, x = .ok summary ∧
      Collected (h.condemnedOf generation) f h.memory h'.memory := by
  obtain ⟨scan, summary, h₁, q, h₂, hmark, hreclaim, hend⟩ := collect_cases hrun
  obtain ⟨space, live, hmarked⟩ := marked_of_markCondemned hm hmark
  obtain ⟨hlaid, hpos, _⟩ := hmarked.keeps hm
  obtain ⟨⟨summary', rfl⟩, f, _, hr, hcards⟩ := reclaim_eq_ok hlaid hpos hreclaim
  obtain ⟨e, he, -⟩ | ⟨_, hq, rfl, hfinish⟩ := hend
  · cases he
  · cases hq
    rw [memory_finishCollection hfinish, memory_sweeper]
    refine ⟨summary', f, rfl, collected_of_reclaimed hm hmarked hr hcards ?_⟩
    intro hgen
    rw [if_pos hgen]

theorem leads_collect (hm : h.memory.Sound) {generation : Generation} {reason : CollectionReason}
    {x : Except HeapError CollectionSummary} (hrun : collect generation reason h = .ok (x, h')) :
    (∃ summary, x = .ok summary) ∧ h'.background = none ∧ Leads h.memory h'.memory := by
  obtain ⟨summary, f, rfl, hc⟩ := collect_eq_ok hm hrun
  exact ⟨⟨summary, rfl⟩, hc.background, .of_collection hc.sound hc.collections⟩

end Heap

end GenHeap
