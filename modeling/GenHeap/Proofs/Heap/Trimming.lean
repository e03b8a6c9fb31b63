import GenHeap.Proofs.Heap.Shedding

/-!
What a collection leaves of the segments without objects. Those that it keeps can be filled from
their starts; in the region layout it keeps the region in which each generation allocates and, of
all others, no more than the configuration asks for.
-/

namespace GenHeap

theorem Segment.Occupied.mono {s : Segment} {space space' : ObjectSpace} (h : s.Occupied space)
    (hin : ∀ {a r}, space.get? a = some r → ∃ q, space'.get? a = some q) : s.Occupied space' := by
  obtain ⟨a, r, hr, hbounds⟩ := h
  obtain ⟨q, hq⟩ := hin hr
  exact ⟨a, q, hq, hbounds⟩

namespace SegmentTable

/-- A segment without objects has nothing allocated. -/
def Tight (t : SegmentTable) (space : ObjectSpace) : Prop :=
  ∀ id s, t.find? id = some s → s.start < s.allocated → s.Occupied space

/-- The segments without objects are the ones in which their owners allocate, and at most `kept`
others. -/
def Cleared (t : SegmentTable) (space : ObjectSpace) (kept : Nat) : Prop :=
  ∃ spared : List Nat, spared.length ≤ kept ∧ ∀ {id s}, t.find? id = some s →
    s.Occupied space ∨ t.allocSegment? s.owner = some id ∨ id ∈ spared

variable {t t' : SegmentTable} {kept : Nat} {gone : List Segment} {space space' : ObjectSpace}

theorem Tight.mono (h : t.Tight space)
    (hin : ∀ {a r}, space.get? a = some r → ∃ q, space'.get? a = some q) : t.Tight space' :=
  fun id s hs hused => (h id s hs hused).mono hin

theorem Tight.of_back (h : t.Tight space) (hback : ∀ {i s'}, t'.find? i = some s' →
    ∃ s g, t.find? i = some s ∧ s' = { s with owner := g }) : t'.Tight space := by
  intro i s' hs' hused
  obtain ⟨s, g, hs, rfl⟩ := hback hs'
  have hoccupied : s.Occupied space := h i s hs hused
  exact hoccupied

theorem WellFormed.tight_rebuild (h : t.WellFormed) (hrun : t.rebuild space = .ok t') :
    t'.Tight space := by
  intro i s' hs' hused
  simp only [SegmentTable.rebuild, Checked.bind_eq_ok, Checked.pure_eq_ok] at hrun
  obtain ⟨slots, hslots, rfl⟩ := hrun
  have hget : slots[i]? = some (some s') := find?_eq_some.1 hs'
  rcases Checked.mapM_getElem? hslots i with ⟨_, hnone⟩ | ⟨x, y, hx, hy, hone⟩
  · cases hnone.symm.trans hget
  · cases hy.symm.trans hget
    cases x with
    | none => cases hone
    | some s =>
      simp only [Checked.bind_eq_ok, Checked.pure_eq_ok, Prod.exists, Option.some.injEq] at hone
      obtain ⟨plan, q, hq, rfl⟩ := hone
      exact Segment.occupied_of_rebuild (h.sound (find?_eq_some.2 hx)) hq hused

theorem Sheds.tight (h : t.Sheds gone t') (ht : t.Tight space) : t'.Tight space :=
  fun i s hs => ht i s (h.of_find? hs).1

/-- What is neither in use nor allocated in is spare, so it stays as far as the allowance goes. -/
theorem Sheds.cleared (h : t.Sheds ((t.spares space).drop kept) t') (hlists : ∀ i, t.Lists i)
    (hwf : t.WellFormed) : t'.Cleared space kept := by
  refine ⟨((t.spares space).take kept).map (·.id), ?_, fun {i s} hs => ?_⟩
  · rw [List.length_map]
    exact List.length_take_le ..
  · obtain ⟨hs, hstays⟩ := h.of_find? hs
    rw [h.allocSegment?]
    cases hwf.ids hs
    by_cases hoccupied : s.Occupied space
    · exact .inl hoccupied
    by_cases halloc : t.allocSegment? s.owner = some s.id
    · exact .inr (.inl halloc)
    have hin : s ∈ t.spares space := List.mem_flatMap.2 ⟨s.owner, Generation.mem_all _,
      mem_sparesAmong.2 ⟨⟨s.id, hlists s.id s hs, hs⟩, halloc, hoccupied⟩⟩
    rw [← List.take_append_drop kept (t.spares space)] at hin
    rcases List.mem_append.1 hin with hkept | hgone
    · exact .inr (.inr (List.mem_map_of_mem hkept))
    · exact absurd (List.mem_map_of_mem hgone) hstays

end SegmentTable

namespace Heap

variable {h : Heap} {i : Nat} {l : LogicalHeap}

/-- The regions of a shaped heap. -/
theorem Standing.Shaped.regions (hs : h.standing.Shaped) (hlayout : h.config.layout = .regions)
    (hheap : h.heaps[i]? = some l) : l.segments.layout = .regions ∧ l.segments.ephemeral = none ∧
      l.segments.regionSize = h.config.regionSize := by
  have hconstants : l.segments.constants = .ofConfig h.config :=
    hs.constants l.standing (List.mem_map_of_mem (List.mem_of_getElem? hheap))
  have hlayout' : l.segments.layout = .regions :=
    (congrArg SegmentTable.layout hconstants).trans hlayout
  have heph := congrArg SegmentTable.ephemeral hconstants
  unfold SegmentTable.constants at heph
  rw [if_pos hlayout'] at heph
  exact ⟨hlayout', heph, congrArg SegmentTable.regionSize hconstants⟩

end Heap

/-- No segment without objects has anything allocated. -/
def Memory.Tight (m : Memory) : Prop :=
  ∀ (i : Nat) (t : SegmentTable), m.tables[i]? = some t → t.Tight m.space

theorem Memory.Laid.tight_rebuild {m : Memory} (h : m.Laid) {space : ObjectSpace}
    {tables : List SegmentTable} (hrun : m.tables.mapM (·.rebuild space) = .ok tables) :
    Tight { m with tables, space } := by
  intro i t' ht'
  have ht' : tables[i]? = some t' := ht'
  rcases Checked.mapM_getElem? hrun i with ⟨_, hnone⟩ | ⟨t, t'', ht, ht'', hrebuild⟩
  · cases hnone.symm.trans ht'
  · cases ht''.symm.trans ht'
    exact (h.wellFormed ht).tight_rebuild hrebuild

namespace Heap

open Memory (Rearranged)

variable {h h' : Heap} {condemned : Generation} {i : Nat} {live : Nat → Record → Bool}
  {survivals : List Survival} {summary summary' : CollectionSummary}

theorem tight_rebuildSegments {m : Memory} (hl : m.Laid) (htables : h.memory.tables = m.tables)
    (hrun : h.rebuildSegments = .ok h') : h'.memory.Tight := by
  obtain ⟨tables, hrebuild, hm⟩ := rebuildSegments_eq_ok hrun
  rw [htables] at hrebuild
  rw [hm]
  exact hl.tight_rebuild hrebuild

theorem tight_swept (hl : h.memory.Laid) (hrun : (h.swept live).2.rebuildSegments = .ok h') :
    h'.memory.Tight := by
  refine tight_rebuildSegments hl ?_ hrun
  unfold swept
  rw [memory_sweepDead]
  rfl

theorem tight_compact (hl : h.memory.Laid) (ht : h.memory.Tight) {fixed : Std.TreeSet Nat}
    (hlen : survivals.length = h.heaps.length)
    (hrun : h.compact condemned fixed survivals summary = .ok (summary', h')) :
    h'.memory.Tight := by
  obtain ⟨why, heaps, p, _, _, hsame, _, happly⟩ := compact_plans hl hlen hrun
  obtain ⟨-, rfl⟩ | ⟨-, space, -, hrebuild⟩ := applyPlan_stages.1 happly
  · rw [hsame]
    exact ht
  · refine tight_rebuildSegments hl ?_ hrebuild
    rw [memory_forwarded, hsame]

theorem tight_withArena {arena : SegmentArena} (hm : h.memory.Tight)
    (ht : arena.table.Tight h.space) : (h.withArena i arena).memory.Tight := by
  rw [memory_withArena]
  intro j t hj
  have hj : (h.memory.tables.set i arena.table)[j]? = some t := hj
  rw [List.getElem?_set] at hj
  split at hj
  · split at hj
    · cases hj
      exact ht
    · cases hj
  · exact hm j t hj

/-- Owners change, and nothing else about the segments. -/
theorem tight_syncHeap (hl : h.memory.Laid) (ht : h.memory.Tight) (hi : i < h.heaps.length)
    {x : Except HeapError Unit} (hrun : syncHeap condemned i h = .ok (x, h')) :
    h'.memory.Tight := by
  have hheap : h.heaps[i]? = some h.heaps[i] := List.getElem?_eq_getElem hi
  obtain ⟨table, hpromote, rfl⟩ := syncHeap_promotes hheap hrun
  have htable := getElem?_tables hheap
  obtain ⟨_, _, hsame⟩ := (hl.wellFormed htable).promoteRegions hpromote
  refine tight_withArena ?_ ((ht i _ htable).of_back hsame.back)
  rw [memory_sortQueue]
  exact ht

theorem tight_syncHeaps (hl : h.memory.Laid) (hu : h.memory.SpansUnused) (ht : h.memory.Tight)
    {x : Except HeapError Unit}
    (hrun : (List.range h.heaps.length).forM (syncHeap condemned) h = .ok (x, h')) :
    h'.memory.Tight := by
  refine (Effect.forM_induct (fun k => (∃ m, Rearranged m k.memory) ∧
    k.heaps.length = h.heaps.length ∧ k.memory.Tight) ?_ ⟨⟨_, .refl hl hu⟩, rfl, ht⟩ hrun).2.2.2
  rintro i k y k' hi ⟨⟨m, hr⟩, hlen, ht⟩ hround
  have hlt : i < k.heaps.length := hlen ▸ List.mem_range.1 hi
  obtain ⟨hy, hr'⟩ := syncHeap_eq_ok hr.laid hr.spans hlt hround
  refine ⟨hy, ⟨_, hr'⟩, ?_, tight_syncHeap hr.laid ht hlt hround⟩
  have hheaps := hr'.heaps
  rw [length_tables] at hheaps
  exact hheaps.trans (length_tables.trans hlen)

end Heap

/-- What a collection leaves of the segments without objects: nothing is allocated in them, and only
`kept` of them are not those in which their owners allocate. -/
structure Memory.Trimmed (m : Memory) (kept : Nat) : Prop where
  tight : m.Tight
  cleared : ∀ {i : Nat} {t : SegmentTable}, m.tables[i]? = some t →
    t.Cleared m.space kept

namespace Heap

variable {h h' : Heap} {condemned : Generation} {survivals : List Survival}
  {consumed : Option (List Nat)} {summary summary' : CollectionSummary}

theorem memory_refreshCards (hrun : h.refreshCards condemned consumed = .ok h') :
    ∃ cards, h'.memory = { h.memory with cards } := by
  cases consumed with
  | none =>
    simp only [refreshCards, Checked.bind_eq_ok, Checked.pure_eq_ok] at hrun
    obtain ⟨cards, _, rfl⟩ := hrun
    exact ⟨cards, rfl⟩
  | some consumed =>
    simp only [refreshCards, Checked.bind_eq_ok, Checked.pure_eq_ok] at hrun
    obtain ⟨_, _, cards, _, rfl⟩ := hrun
    exact ⟨cards, rfl⟩

theorem settle_trimmed (hl : h.memory.Laid) (hu : h.memory.SpansUnused) (ht : h.memory.Tight)
    (hs : h.standing.Shaped) (hlayout : h.config.layout = .regions)
    (hlen : survivals.length = h.heaps.length)
    (hrun : settle condemned survivals consumed summary h = .ok (.ok summary', h')) :
    h'.memory.Trimmed h.retained := by
  obtain ⟨h₁, h₂, h₃, h₄, htune, hpromote, hsync, hback, hrefresh⟩ := settle_stages.1 hrun
  obtain ⟨hm₂, hspace, hl₂, hu₂⟩ := promoted_eq_ok hl hu hlen htune hpromote
  have ht₂ : h₂.memory.Tight := by
    rw [hm₂]
    refine fun i t hi => (ht i t hi).mono fun {a r} hr => ⟨aged condemned r, ?_⟩
    have hr : h.space.get? a = some r := hr
    show h₂.space.get? a = _
    rw [hspace, hr]
    rfl
  have ht₃ := tight_syncHeaps hl₂ hu₂ ht₂ hsync
  obtain ⟨_, hr₃⟩ := syncHeaps_eq_ok hl₂ hu₂ hsync
  have hstands := stands_regrouped hlen htune hpromote hsync
  have hs₃ : h₃.standing.Shaped := hstands.standing.symm ▸ hs
  have hanchored : ∀ l ∈ h₃.heaps, l.segments.Anchored := by
    intro l hl i s _ heph
    obtain ⟨j, hj⟩ := List.mem_iff_getElem?.1 hl
    rw [(hs₃.regions (hstands.config ▸ hlayout) hj).2.1] at heph
    cases heph
  have hlen₃ : h₂.heaps.length = h₃.heaps.length := by
    rw [← length_tables (h := h₃), hr₃.heaps, ← length_tables]
  rw [hlen₃] at hback
  have hdone := decommitHeaps_sheds hr₃.laid hr₃.spans hanchored hback
  obtain ⟨cards, hm'⟩ := memory_refreshCards hrefresh
  have hkept : h.retained = h₃.retained := by
    unfold retained
    rw [hstands.config]
  rw [hm', hkept]
  refine ⟨fun i t hi => ?_, fun {i t} hi => ?_⟩
  · obtain ⟨l, hl, hsheds⟩ := hdone.of_table hi
    show t.Tight h₄.space
    rw [hdone.space]
    exact hsheds.tight (ht₃ i _ (getElem?_tables hl))
  · obtain ⟨l, hl, hsheds⟩ := hdone.of_table hi
    have htable := getElem?_tables hl
    show t.Cleared h₄.space _
    rw [hdone.space]
    exact hsheds.cleared (hr₃.laid.lists htable) (hr₃.laid.wellFormed htable)

/-- A collection in a pause trims every logical heap. -/
theorem collect_trims (hm : h.memory.Sound) (hs : h.standing.Shaped)
    (hlayout : h.config.layout = .regions) {generation : Generation} {reason : CollectionReason}
    (hrun : collect generation reason h = .ok (.ok summary', h')) :
    h'.memory.Trimmed h.retained := by
  obtain ⟨scan, summary₁, h₁, h₂, hmark, hreclaim, hfinish⟩ := collect_stages.1 hrun
  obtain ⟨space, live, hmarked⟩ := marked_of_markCondemned hm hmark
  obtain ⟨hl₁, _, _⟩ := hmarked.keeps hm
  obtain ⟨h₃, summary₃, h₄, hsweep, hcompact, hsettle, -⟩ := reclaim_stages.1 hreclaim
  obtain ⟨_, hr₃⟩ := swept_eq_ok hl₁ hsweep
  obtain ⟨hl₄, hu₄, hlen₄⟩ := compactIf_eq_ok hr₃.laid hr₃.spans length_survivalsOf hcompact
  have hmarking := (rests_beginCollection.trans (rests_markCondemned hmark).1).toStands
  have hstands := (hmarking.trans (stands_swept hsweep)).trans
    (stands_compactIf length_survivalsOf hcompact)
  have hcompact : h₃.compact _ _ _ _ = .ok (summary₃, h₄) := hcompact
  have htrimmed := settle_trimmed hl₄ hu₄
    (tight_compact hr₃.laid (tight_swept hl₁ hsweep) length_survivalsOf hcompact)
    (hstands.standing.symm ▸ hs) (hstands.config ▸ hlayout)
    (length_survivalsOf.trans hlen₄.symm) hsettle
  have hkept : h.retained = h₄.retained := by
    unfold retained
    rw [hstands.config]
  rw [memory_finishCollection hfinish, memory_sweeper, hkept]
  exact htrimmed

end Heap

end GenHeap
