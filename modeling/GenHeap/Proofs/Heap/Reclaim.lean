import GenHeap.Proofs.Heap.Compact
import GenHeap.Proofs.Heap.Stages

/-!
What a collection does to the memory once it knows which objects are live: they stay, at addresses
given by one map, and everything that names them follows.
-/

namespace GenHeap

open Memory (Rearranged)

namespace Memory

/-- What is held in its place from outside: targets of pinned handles, and objects whose finalizers
run. -/
def Held (m : Memory) (a : Nat) : Prop :=
  a ∈ m.handles.pinnedTargets ∨ ∃ q ∈ m.queues, a ∈ q.running

/-- What no collection moves. -/
def Immovable (m : Memory) (a : Nat) : Prop :=
  m.Held a ∨ ∃ r, m.space.get? a = some r ∧ (r.pinned = true ∨ r.generation = .pinned)

variable {m m' : Memory} {a : Nat}

theorem Held.carried (h : m.Held a)
    (hhandles : a ∈ m.handles.pinnedTargets → a ∈ m'.handles.pinnedTargets)
    (hqueues : ∀ q ∈ m.queues, a ∈ q.running → ∃ x ∈ m'.queues, a ∈ x.running) : m'.Held a := by
  rcases h with h | ⟨q, hq, ha⟩
  · exact .inl (hhandles h)
  · exact .inr (hqueues q hq ha)

end Memory

/-- The memory after the objects of `m` that are `live` were kept: `f` gives their new addresses. -/
structure Reclaimed (condemned : Generation) (live : Nat → Record → Bool) (f : Nat → Nat)
    (m m' : Memory) : Prop where
  laid : m'.Laid
  spans : m'.SpansUnused
  range : m'.provider.space.range = m.provider.space.range
  get?_iff : ∀ {c q}, m'.space.get? c = some q ↔ ∃ a r, m.space.get? a = some r ∧
    live a r = true ∧ f a = c ∧ q = Heap.aged condemned { r with slots := r.slots.map f }
  injective : ∀ {a b r q}, m.space.get? a = some r → live a r = true → m.space.get? b = some q →
    live b q = true → f a = f b → a = b
  moved : ∀ {a}, f a ≠ a → ∃ r, m.space.get? a = some r ∧ live a r = true ∧
    r.generation.condemnedBy condemned = true
  immovable : ∀ {a}, m.Immovable a → f a = a
  handles : m'.handles =
    (m.handles.clearDeadWeak fun a => (m.space.get? a).any (live a)).relocate f
  queues : m'.queues = m.queues.map fun q => Heap.sortedBy m'.space (q.relocate f)
  grid : m.cards.SameGrid m'.cards
  rest : m' = { m with
    provider := m'.provider, tables := m'.tables, space := m'.space, handles := m'.handles
    queues := m'.queues, cards := m'.cards }

/-- What the cards tell after a collection: all of it after a full one; else no card misses a slot
that was on a dirty card or belongs to an object at most one generation above the condemned ones. -/
def Recarded (condemned : Generation) (consumed : Option (List Nat)) (m m' : Memory) : Prop :=
  match consumed with
  | none => ∀ card, m'.cards.isCardDirty card = true ↔
      ∃ o slot, m'.space.Younger o slot ∧ m.cards.index? (Object.slotPlace o slot) = some card
  | some _ => ∀ o slot card, m'.space.Younger o slot → Heap.SlotOn m'.space m.cards o slot card →
      ((∃ r, m'.space.get? o = some r ∧ r.generation.tier ≤ condemned.tier + 1) ∨
        m.cards.isCardDirty card = true) → m'.cards.isCardDirty card = true

namespace Heap

variable {h h' : Heap} {condemned : Generation} {live : Nat → Record → Bool}
  {consumed : Option (List Nat)} {summary : CollectionSummary}
  {x : Except HeapError CollectionSummary}

theorem sameShape_aged (r : Record) : r.SameShape (aged condemned r) := by
  unfold aged
  split <;> exact ⟨rfl, rfl, rfl, rfl⟩

theorem refreshed_eq_ok (hl : h.memory.Laid) (hpos : 0 < h.cards.cardSize)
    (hrun : h.refreshCards condemned consumed = .ok h') : ∃ cards,
      h'.memory = { h.memory with cards } ∧ h.cards.SameGrid cards ∧
      Recarded condemned consumed h.memory h'.memory := by
  cases consumed with
  | none =>
    obtain ⟨cards, he, hgrid, hdirty⟩ := refreshCards_full hrun
    refine ⟨cards, he, hgrid, ?_⟩
    rw [he]
    exact hdirty
  | some list =>
    obtain ⟨cards, he, hgrid, hdirty⟩ := refreshCards_partial hl.apart hpos hrun
    refine ⟨cards, he, hgrid, ?_⟩
    rw [he]
    exact hdirty

/-- Giving empty segments back never fails. -/
theorem decommitHeaps_eq_ok (hl : h.memory.Laid) (hu : h.memory.SpansUnused) {n : Nat}
    (hn : n = h.heaps.length) {y : Except HeapError PUnit}
    (hrun : (List.range n).forM decommitEmpty h = .ok (y, h')) :
    (∃ u, y = .ok u) ∧ Rearranged h.memory h'.memory := by
  refine Effect.forM_induct (fun k => Rearranged h.memory k.memory) ?_ (.refl hl hu) hrun
  intro i k z k' hi hr hround
  have hlt : i < k.heaps.length := by
    rw [← length_tables, hr.heaps, length_tables, ← hn]
    exact List.mem_range.1 hi
  obtain ⟨hz, hr'⟩ := decommitEmpty_eq_ok hr.laid hr.spans hlt hround
  exact ⟨hz, hr.trans hr'⟩

/-- Survivors grow older where they are. -/
theorem promoted_eq_ok (hl : h.memory.Laid) (hu : h.memory.SpansUnused) {survivals : List Survival}
    (hlen : survivals.length = h.heaps.length) {h₁ h₂ : Heap} {summary' : CollectionSummary}
    (htune : h.tuneBudgets condemned survivals = .ok h₁)
    (hpromote : h₁.promoteSurvivors condemned summary = .ok (summary', h₂)) :
    h₂.memory = { h.memory with space := h₂.space } ∧
      (∀ a, h₂.space.get? a = (h.space.get? a).map (aged condemned)) ∧
      h₂.memory.Laid ∧ h₂.memory.SpansUnused := by
  have hm₁ := memory_tuneBudgets hlen htune
  obtain ⟨space, hm₂, hspace⟩ := promoteSurvivors_eq_ok hpromote
  have hs₁ : h₁.space = h.space := congrArg Memory.space hm₁
  rw [hm₁] at hm₂
  rw [hs₁] at hspace
  have hs₂ : h₂.space = space := congrArg Memory.space hm₂
  have hwithin : h.space.Within space := by
    intro a q hq
    rw [hspace, Option.map_eq_some_iff] at hq
    obtain ⟨r, hr, rfl⟩ := hq
    exact ⟨r, hr, sameShape_aged r⟩
  refine ⟨hs₂ ▸ hm₂, fun a => hs₂ ▸ hspace a, hm₂ ▸ hl.within hwithin, ?_⟩
  exact hm₂ ▸ Memory.SpansUnused.within hu hwithin

/-- Growing older, sorting the queues and giving segments back move no object. -/
theorem settle_eq_ok (hl : h.memory.Laid) (hu : h.memory.SpansUnused) (hpos : 0 < h.cards.cardSize)
    {survivals : List Survival} (hlen : survivals.length = h.heaps.length)
    (hrun : settle condemned survivals consumed summary h = .ok (x, h')) :
    (∃ summary', x = .ok summary') ∧ ∃ cards, h.cards.SameGrid cards ∧
      (∀ a, h'.space.get? a = (h.space.get? a).map (aged condemned)) ∧
      Rearranged { h.memory with
        space := h'.space, queues := h.memory.queues.map (sortedBy h'.space), cards } h'.memory ∧
      Recarded condemned consumed { h.memory with space := h'.space } h'.memory := by
  obtain ⟨h₁, summary₁, h₂, htune, hpromote, hrun⟩ := settle_regroups.1 hrun
  unfold tidyUp at hrun
  obtain ⟨hm₂, hspace, hl₂, hu₂⟩ := promoted_eq_ok hl hu hlen htune hpromote
  rw [Effect.bind_eq_ok] at hrun
  rcases hrun with ⟨_, h₃, hsync, hrun⟩ | ⟨e, hsync, _⟩
  · obtain ⟨_, hr₃⟩ := syncHeaps_eq_ok hl₂ hu₂ hsync
    rw [hm₂] at hr₃
    rw [Effect.bind_eq_ok] at hrun
    have hlen₃ : h₂.heaps.length = h₃.heaps.length := by
      rw [← length_tables (h := h₃), hr₃.heaps, ← length_tables, hm₂]
    rcases hrun with ⟨_, h₄, hback, hrun⟩ | ⟨e, hback, _⟩
    · obtain ⟨_, hr₄⟩ := decommitHeaps_eq_ok hr₃.laid hr₃.spans hlen₃ hback
      have hr := hr₃.trans hr₄
      have hs₄ : h₄.space = h₂.space := congrArg Memory.space hr.rest
      have hc₄ : h₄.cards = h.cards := congrArg Memory.cards hr.rest
      simp only [Effect.get_bind, Effect.lift_bind, Effect.set_bind, Effect.pure_apply,
        Checked.bind_eq_ok] at hrun
      obtain ⟨h₅, hrefresh, hrun⟩ := hrun
      cases hrun
      obtain ⟨cards, hm₅, hgrid, hcards⟩ := refreshed_eq_ok hr.laid (hc₄ ▸ hpos) hrefresh
      have hs₅ : h'.space = h₂.space := (congrArg Memory.space hm₅).trans hs₄
      rw [hc₄] at hgrid
      rw [hs₅]
      refine ⟨⟨_, rfl⟩, cards, hgrid, hspace, ?_, ?_⟩
      · rw [hm₅]
        refine ⟨hr.laid.congr rfl rfl rfl, hr.spans, hr.range, hr.heaps, ?_⟩
        rw [hr.rest]
      · rw [hr.rest] at hcards
        cases consumed <;> exact hcards
    · obtain ⟨⟨u, hu⟩, _⟩ := decommitHeaps_eq_ok hr₃.laid hr₃.spans hlen₃ hback
      cases hu
  · obtain ⟨⟨u, hu⟩, _⟩ := syncHeaps_eq_ok hl₂ hu₂ hsync
    cases hu

theorem swept_eq_ok {handles : HandleTable} (hl : h.memory.Laid)
    (hrun : (({ h with handles } : Heap).sweepDead live).2.rebuildSegments = .ok h') :
    (∀ a, h'.space.get? a = (h.space.get? a).filter (live a)) ∧
      Rearranged { h.memory with handles, space := h'.space } h'.memory := by
  obtain ⟨tables, htables, hm⟩ := rebuildSegments_eq_ok hrun
  rw [memory_sweepDead] at hm htables
  have hspace (a : Nat) :
      (({ h with handles } : Heap).sweepDead live).2.space.get? a =
        (h.space.get? a).filter (live a) := get?_sweepDead
  have hs : h'.space = (({ h with handles } : Heap).sweepDead live).2.space :=
    congrArg Memory.space hm
  have hwithin : h.space.Within h'.space := by
    intro a q hq
    rw [hs, hspace, Option.filter_eq_some_iff] at hq
    exact ⟨q, hq.1, rfl, rfl, rfl, rfl⟩
  have hl' : Memory.Laid { h.memory with handles, space := h'.space } :=
    (hl.within hwithin).congr rfl rfl rfl
  refine ⟨fun a => by rw [hs, hspace], ?_⟩
  have hm' : h'.memory = { h.memory with handles, space := h'.space, tables } := by
    rw [hs]
    exact hm
  rw [hm']
  exact hl'.rebuild (hs ▸ htables)

theorem contains_fixedAddresses {a : Nat} :
    h.fixedAddresses.contains a = true ↔ h.memory.Held a := by
  unfold fixedAddresses Memory.Held
  rw [Std.TreeSet.contains_ofList, List.contains_iff_mem, List.mem_append, List.mem_flatMap]
  apply or_congr_right
  constructor
  · intro ⟨l, hl, ha⟩
    exact ⟨l.finalization, List.mem_map_of_mem hl, ha⟩
  · intro ⟨q, hq, ha⟩
    obtain ⟨l, hl, rfl⟩ := List.mem_map.1 hq
    exact ⟨l, hl, ha⟩

theorem not_immovable_of_isMovable {fixed : Std.TreeSet Nat} {large : Bool} {a : Nat} {r : Record}
    (hfixed : fixed = h.fixedAddresses) (hr : h.space.get? a = some r)
    (hm : isMovable condemned fixed large a r = true) :
    r.generation.condemnedBy condemned = true ∧ ¬ h.memory.Immovable a := by
  simp only [isMovable, Bool.and_eq_true, Bool.not_eq_true'] at hm
  obtain ⟨⟨⟨hcondemned, hpinned⟩, hfree⟩, hgen⟩ := hm
  refine ⟨hcondemned, ?_⟩
  rintro (hheld | ⟨x, hx, hcase⟩)
  · rw [hfixed, ← Bool.not_eq_true, contains_fixedAddresses] at hfree
    exact hfree hheld
  · cases hr.symm.trans hx
    rcases hcase with hp | hg
    · rw [hpinned] at hp
      cases hp
    · rw [hg] at hgen
      cases hgen

/-- The three parts of reclaiming in one: what was swept, compacted, and settled. -/
theorem reclaimed_of_parts {h₁ h₂ : Heap} {f : Nat → Nat}
    (hspace₁ : ∀ a, h₁.space.get? a = (h.space.get? a).filter (live a))
    (hr₁ : Rearranged { h.memory with
      handles := h.handles.clearDeadWeak fun a => (h.space.get? a).any (live a)
      space := h₁.space } h₁.memory)
    (hrel : Relocated (fun a r => isMovable condemned h₁.fixedAddresses true a r = true) f
      h₁.memory h₂.memory) {cards : CardTable} (hgrid : h.cards.SameGrid cards)
    (hspace : ∀ a, h'.space.get? a = (h₂.space.get? a).map (aged condemned))
    (hr : Rearranged { h₂.memory with
      space := h'.space, queues := h₂.memory.queues.map (sortedBy h'.space), cards } h'.memory) :
    Reclaimed condemned live f h.memory h'.memory := by
  have hlive {a : Nat} {r : Record} : h₁.memory.space.get? a = some r ↔
      h.memory.space.get? a = some r ∧ live a r = true := by
    show h₁.space.get? a = some r ↔ _
    rw [hspace₁, Option.filter_eq_some_iff]
    rfl
  constructor
  · exact hr.laid
  · exact hr.spans
  · have hp₂ : h₂.memory.provider = h₁.memory.provider := by rw [hrel.rest]
    have hrange := hr.range
    rw [hp₂] at hrange
    exact hrange.trans hr₁.range
  · intro c q
    show h'.space.get? c = some q ↔ _
    rw [hspace, Option.map_eq_some_iff]
    constructor
    · rintro ⟨q, hq, rfl⟩
      obtain ⟨a, r, hr, rfl, rfl⟩ := hrel.space.get?_iff.1 hq
      obtain ⟨hr, hl⟩ := hlive.1 hr
      exact ⟨a, r, hr, hl, rfl, rfl⟩
    · rintro ⟨a, r, hr, hl, rfl, rfl⟩
      exact ⟨_, hrel.space.get?_iff.2 ⟨a, r, hlive.2 ⟨hr, hl⟩, rfl, rfl⟩, rfl⟩
  · intro a b r q hr hl hq hl' he
    exact hrel.space.injective (hlive.2 ⟨hr, hl⟩) (hlive.2 ⟨hq, hl'⟩) he
  · intro a hne
    obtain ⟨r, hr, hm⟩ := hrel.space.moved hne
    obtain ⟨hr, hl⟩ := hlive.1 hr
    exact ⟨r, hr, hl, (not_immovable_of_isMovable rfl (hlive.2 ⟨hr, hl⟩) hm).1⟩
  · intro a ha
    refine Classical.byContradiction fun hne => ?_
    obtain ⟨r, hr, hm⟩ := hrel.space.moved hne
    refine (not_immovable_of_isMovable rfl hr hm).2 ?_
    rcases ha with ha | ⟨x, hx, hcase⟩
    · rw [hr₁.rest]
      exact .inl (ha.carried HandleTable.mem_pinnedTargets_clearDeadWeak fun q hq ha => ⟨q, hq, ha⟩)
    · cases (hlive.1 hr).1.symm.trans hx
      exact .inr ⟨_, hr, hcase⟩
  · have h₁' : h₁.memory.handles = h.handles.clearDeadWeak fun a => (h.space.get? a).any (live a) := by
      rw [hr₁.rest]
    have h₂' : h'.memory.handles = h₂.memory.handles := by rw [hr.rest]
    rw [h₂', hrel.handles, h₁']
    rfl
  · have h₁' : h₁.memory.queues = h.memory.queues := by rw [hr₁.rest]
    have h₂' : h'.memory.queues = h₂.memory.queues.map (sortedBy h'.space) := by
      rw [hr.rest]
    rw [h₂', hrel.queues, h₁', List.map_map]
    rfl
  · have hc : h'.memory.cards = cards := by rw [hr.rest]
    rw [hc]
    exact hgrid
  · rw [hr.rest, hrel.rest, hr₁.rest]

/-- A compaction, if there is to be one, moves the objects of which it may. -/
theorem relocated_compactIf (hl : h.memory.Laid) (hu : h.memory.SpansUnused) {compacts : Bool}
    {survivals : List Survival} {summary' : CollectionSummary}
    (hlen : survivals.length = h.heaps.length)
    (hrun : h.compactIf compacts condemned survivals summary = .ok (summary', h')) :
    ∃ f, (compacts = false → f = id) ∧
      Relocated (fun a r => isMovable condemned h.fixedAddresses true a r = true) f
        h.memory h'.memory := by
  obtain ⟨rfl, hcompact⟩ | ⟨-, rfl, rfl⟩ := compactIf_stages.1 hrun
  · obtain ⟨f, hrel⟩ := compact_eq_ok hl hu hlen hcompact
    exact ⟨f, nofun, hrel⟩
  · exact ⟨id, fun _ => rfl, .refl hl hu⟩

theorem reclaimUnchecked_eq_ok (hl : h.memory.Laid) (hpos : 0 < h.cards.cardSize) {compacts : Bool}
    (hrun : reclaimUnchecked condemned live compacts consumed summary h = .ok (x, h')) :
    (∃ summary', x = .ok summary') ∧ ∃ f, (compacts = false → f = id) ∧
      Reclaimed condemned live f h.memory h'.memory ∧
      Recarded condemned consumed h.memory h'.memory := by
  obtain ⟨h₁, summary₂, h₂, hsweep, hcompact, hsettle⟩ := reclaimUnchecked_stages.1 hrun
  obtain ⟨hspace₁, hr₁⟩ := swept_eq_ok hl hsweep
  obtain ⟨f, hid, hrel⟩ := relocated_compactIf hr₁.laid hr₁.spans length_survivalsOf hcompact
  have hcards₂ : h₂.cards = h.cards :=
    (congrArg Memory.cards hrel.rest).trans (congrArg Memory.cards hr₁.rest)
  have hc : h₂.memory.cards = h.memory.cards := hcards₂
  have hlen : (h₁.survivalsOf condemned (h.swept live).1).length = h₂.heaps.length := by
    rw [length_survivalsOf, ← length_tables, ← length_tables, hrel.heaps]
  obtain ⟨hx, cards, hgrid, hspace, hr, hcards⟩ :=
    settle_eq_ok hrel.laid hrel.spans (hcards₂ ▸ hpos) hlen hsettle
  refine ⟨hx, f, hid, reclaimed_of_parts hspace₁ hr₁ hrel (hcards₂ ▸ hgrid) hspace hr, ?_⟩
  cases consumed with
  | none =>
    intro card
    rw [hcards card, ← hc]
  | some list =>
    intro o slot card hy hon hcase
    rw [← hc] at hon hcase
    exact hcards o slot card hy hon hcase

/-- A compaction, if there is to be one, leaves all objects in their segments. -/
theorem compactIf_eq_ok (hl : h.memory.Laid) (hu : h.memory.SpansUnused) {compacts : Bool}
    {survivals : List Survival} {summary' : CollectionSummary}
    (hlen : survivals.length = h.heaps.length)
    (hrun : h.compactIf compacts condemned survivals summary = .ok (summary', h')) :
    h'.memory.Laid ∧ h'.memory.SpansUnused ∧ h'.heaps.length = h.heaps.length := by
  obtain ⟨f, -, hrel⟩ := relocated_compactIf hl hu hlen hrun
  refine ⟨hrel.laid, hrel.spans, ?_⟩
  rw [← length_tables, hrel.heaps, length_tables]

/-- Reclaiming never fails: the live objects are kept, and the others are gone. -/
theorem reclaim_eq_ok (hl : h.memory.Laid) (hpos : 0 < h.cards.cardSize) {compacts : Bool}
    (hrun : reclaim condemned live compacts consumed summary h = .ok (x, h')) :
    (∃ summary', x = .ok summary') ∧ ∃ f, (compacts = false → f = id) ∧
      Reclaimed condemned live f h.memory h'.memory ∧
      Recarded condemned consumed h.memory h'.memory :=
  reclaimUnchecked_eq_ok hl hpos (reclaim_cases hrun).1

end Heap

end GenHeap
