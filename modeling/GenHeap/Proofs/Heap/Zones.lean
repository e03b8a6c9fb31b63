import GenHeap.Proofs.Heap.Trimming
import GenHeap.Proofs.Owners

/-!
What operations do to the zones of the segments of all logical heaps. A search for a block changes
none, and finds one in the zone that it is for. A collection makes the young regions older that its
survivors grow out of.
-/

namespace GenHeap

open Memory (Rearranged)

namespace SegmentArena

open SegmentTable (Zones)

variable {a a' : SegmentArena} {range : AddressRange} {rest : List AddressRange}
  {x size : Nat} {space : ObjectSpace}

theorem Sound.zones_bump (h : a.Sound range rest) {r : Except HeapError (Option Nat)}
    (hrun : SegmentArena.bump x size a = .ok (r, a')) : Zones id a.table a'.table := by
  obtain ⟨_, ⟨s, committed, hs, _, htable⟩ | ⟨_, htable, _⟩ | ⟨_, _, htable⟩⟩ := h.bump hrun
  · have hid : s.id = x := h.wellFormed.ids hs
    rw [htable]
    exact SegmentTable.zones_put hs hid rfl
  · rw [htable]
    exact .refl _
  · rw [htable]
    exact .refl _

theorem Sound.zones_decommitIfEmpty (h : a.Sound range rest) {r : Except HeapError Bool}
    (hrun : SegmentArena.decommitIfEmpty x space a = .ok (r, a')) :
    Zones id a.table a'.table := by
  cases hs : a.table.find? x with
  | none =>
    rw [decommitIfEmpty_of_find?_eq_none hs hrun]
    exact .refl _
  | some s =>
    obtain ⟨_, _, ⟨htable, _⟩ | ⟨_, hv⟩⟩ := h.decommitIfEmpty hs hrun
    · rw [htable]
      exact .refl _
    · exact SegmentTable.zones_of_vacates hv

end SegmentArena

namespace Memory

/-- The zones of all segments change by `f`, which goes by the layout. -/
def Zones (f : Layout → Generation → Generation) (m m' : Memory) : Prop :=
  ∀ (i : Nat) (t' : SegmentTable), m'.tables[i]? = some t' →
    ∃ t, m.tables[i]? = some t ∧ t.Zones (f t.layout) t'

/-- The zones of all segments stay. -/
abbrev SameZones : Memory → Memory → Prop := Zones fun _ => id

def Tiered (m : Memory) : Prop :=
  ∀ (i : Nat) (t : SegmentTable), m.tables[i]? = some t → t.Tiered

/-- A segment of a logical heap is one for the objects of a generation. -/
def InZone (m : Memory) (i x : Nat) (g : Generation) : Prop :=
  ∃ t, m.tables[i]? = some t ∧ t.zone? x = some (t.layout.zone g)

variable {m m' m'' : Memory} {f f' : Layout → Generation → Generation} {i x : Nat}
  {g g' : Generation}

theorem SameZones.of_tables (h : m'.tables = m.tables) : m.SameZones m' :=
  fun _ _ ht' => ⟨_, h ▸ ht', .refl _⟩

theorem SameZones.refl (m : Memory) : m.SameZones m := .of_tables rfl

theorem Zones.trans (h : Zones f m m') (h' : Zones f' m' m'') :
    Zones (fun layout => f' layout ∘ f layout) m m'' := by
  intro i t'' ht''
  obtain ⟨t', ht', hz'⟩ := h' _ _ ht''
  obtain ⟨t, ht, hz⟩ := h _ _ ht'
  rw [hz.layout] at hz'
  exact ⟨t, ht, hz.trans hz'⟩

theorem SameZones.trans (h : m.SameZones m') (h' : Zones f m' m'') : Zones f m m'' :=
  Zones.trans h h'

theorem Zones.tiered (h : Zones f m m') (ht : m.Tiered) : m'.Tiered := by
  intro i t' ht'
  obtain ⟨t, hi, hz⟩ := h _ _ ht'
  exact hz.tiered (ht _ _ hi)

/-- A segment that is still there is for the objects that grew older with it. -/
theorem Zones.inZone (h : Zones f m m') (ht : m.Tiered) (hin : m.InZone i x g)
    (hzone : ∀ layout : Layout, layout.zone g' = f layout (layout.zone g))
    (hlive : ∃ t' s, m'.tables[i]? = some t' ∧ t'.find? x = some s) : m'.InZone i x g' := by
  obtain ⟨t', s, ht', hs⟩ := hlive
  obtain ⟨t, hi, hz⟩ := h _ _ ht'
  obtain ⟨u, hu, hx⟩ := hin
  cases hi.symm.trans hu
  refine ⟨t', ht', ?_⟩
  rw [hz.zone?_eq (ht _ _ hi) hx ⟨s, hs⟩, hz.layout, hzone]

theorem SameZones.inZone (h : m.SameZones m') (ht : m.Tiered) (hin : m.InZone i x g)
    (hlive : ∃ t' s, m'.tables[i]? = some t' ∧ t'.find? x = some s) : m'.InZone i x g :=
  Zones.inZone h ht hin (fun _ => rfl) hlive

theorem Fresh.live {a size : Nat} (h : m.Fresh i x a size) :
    ∃ t s, m.tables[i]? = some t ∧ t.find? x = some s := by
  obtain ⟨t, s, ht, hs, _⟩ := h.held
  exact ⟨t, s, ht, hs⟩

theorem sameZones_withArena {arena : SegmentArena} {t : SegmentTable} (ht : m.tables[i]? = some t)
    (hz : t.Zones id arena.table) : m.SameZones (m.withArena i arena) := by
  intro j t' ht'
  have ht' : (m.shared.withArena i arena).tables[j]? = some t' := ht'
  rw [SharedArena.getElem?_withArena ht] at ht'
  split at ht'
  next hj =>
    cases ht'
    exact ⟨t, hj ▸ ht, hz⟩
  next => exact ⟨t', ht', .refl t'⟩

end Memory

namespace Heap

variable {h h' : Heap} {i x a size : Nat} {l : LogicalHeap} {condemned target : Generation}

/-! ## Searches -/

/-- What leaves the zones of one arena leaves all zones. -/
theorem sameZones_onArena {α : Type} {t : Transition SegmentArena α} {q : Except HeapError α}
    (hl : h.memory.Laid) (hi : h.heaps[i]? = some l)
    (hzones : ∀ {range rest arena}, (h.arena l).Sound range rest →
      t (h.arena l) = .ok (q, arena) → l.segments.Zones id arena.table)
    (hrun : onArena i t h = .ok (q, h')) : h.memory.SameZones h'.memory := by
  obtain ⟨arena, harena, rfl⟩ := (onArena_eq_ok hi).1 hrun
  have htable := getElem?_tables hi
  rw [memory_withArena]
  exact Memory.sameZones_withArena htable (hzones (hl.housed.arena_sound htable) harena)

theorem sameZones_bump (hl : h.memory.Laid) (hi : h.heaps[i]? = some l)
    {q : Except HeapError (Option Nat)}
    (hrun : onArena i (SegmentArena.bump x size) h = .ok (q, h')) : h.memory.SameZones h'.memory :=
  sameZones_onArena hl hi (fun ha hbump => ha.zones_bump hbump) hrun

/-- Growing leaves all zones; the new segment is of the zone that it was made for. -/
theorem sameZones_grow (hl : h.memory.Laid) (hi : h.heaps[i]? = some l)
    {q : Except HeapError Growth}
    (hrun : onArena i (SegmentArena.grow target size) h = .ok (q, h')) :
    h.memory.SameZones h'.memory ∧ ∀ growth, q = .ok growth → h.memory.Tiered →
      h'.memory.InZone i growth.segment target := by
  refine ⟨sameZones_onArena hl hi (fun ha hgrow => (ha.zones_grow hgrow).1) hrun, ?_⟩
  intro growth hq ht
  obtain ⟨arena, hgrow, rfl⟩ := (onArena_eq_ok hi).1 hrun
  have htable := getElem?_tables hi
  obtain ⟨hz, hnew⟩ := (hl.housed.arena_sound htable).zones_grow hgrow
  refine ⟨arena.table, getElem?_tables (getElem?_modifyHeap hi), ?_⟩
  rw [hnew growth hq (ht _ _ htable), hz.layout]

/-- A search leaves all zones, and finds a block in the zone that it is for. -/
def FindsIn (h : Heap) (i : Nat) (target : Generation) (y : Except OutOfMemory.Reason (Nat × Nat))
    (h' : Heap) : Prop :=
  h.memory.SameZones h'.memory ∧
    ∀ a x, y = .ok (a, x) → h.memory.Tiered → h'.memory.InZone i x target

theorem findsIn_error {e : OutOfMemory.Reason} : h.FindsIn i target (.error e) h := ⟨.refl _, nofun⟩

theorem findsIn_bump (hl : h.memory.Laid) (hu : h.memory.SpansUnused) (hi : h.heaps[i]? = some l)
    (hin : h.memory.Tiered → h.memory.InZone i x target) {q : Except HeapError (Option Nat)}
    (hrun : onArena i (SegmentArena.bump x size) h = .ok (q, h')) :
    h.FindsIn i target (bumped x q) h' := by
  have hz := sameZones_bump hl hi hrun
  obtain ⟨_, hfresh⟩ := finds_bump hl hu (List.getElem?_eq_some_iff.1 hi).1 hrun
  refine ⟨hz, fun a y hy ht => ?_⟩
  obtain ⟨_, rfl⟩ := bumped_eq_ok hy
  exact hz.inZone ht (hin ht) (hfresh a y hy).live

theorem findsIn_new (hl : h.memory.Laid) (hu : h.memory.SpansUnused) (hi : h.heaps[i]? = some l)
    {y : Except OutOfMemory.Reason (Nat × Nat)} (hp : PlacesInNew i target size h y h') :
    h.FindsIn i target y h' := by
  have hlt := (List.getElem?_eq_some_iff.1 hi).1
  cases hp with
  | without fragmented hgrow =>
    refine ⟨?_, nofun⟩
    rw [memory_countExpansion]
    exact (sameZones_grow hl hi hgrow).1
  | @grown growth h₁ _ _ expansion hgrow hbump =>
    have hr := rearranged_grow hl hu hlt hgrow
    obtain ⟨hz, hnew⟩ := sameZones_grow hl hi hgrow
    have hcount := memory_countExpansion h₁ i expansion
    rw [← hcount] at hr hz hnew
    have hi₁ : i < (h₁.countExpansion i expansion).heaps.length := by
      rw [← length_tables, hr.heaps, length_tables]
      exact hlt
    have hz₂ := sameZones_bump hr.laid (List.getElem?_eq_getElem hi₁) hbump
    refine ⟨hz.trans hz₂, fun a x hy ht => ?_⟩
    have hfound := findsIn_bump hr.laid hr.spans (List.getElem?_eq_getElem hi₁)
      (fun _ => hnew growth rfl ht) hbump
    exact hfound.2 a x hy (hz.tiered ht)

theorem findsIn_place (hl : h.memory.Laid) (hu : h.memory.SpansUnused)
    {y : Except OutOfMemory.Reason (Nat × Nat)} (hrun : place i target size h = .ok (y, h')) :
    h.FindsIn i target y h' := by
  obtain ⟨_, hfresh⟩ := place_eq_ok hl hu hrun
  have hcandidate {l : LogicalHeap} {x : Nat} (hi : h.heaps[i]? = some l)
      (hx : x ∈ l.segments.candidates target) (ht : h.memory.Tiered) :
      h.memory.InZone i x target := by
    have htable := getElem?_tables hi
    exact ⟨l.segments, htable, SegmentTable.zone?_of_candidate (ht _ _ htable) (hl.wellFormed htable) hx⟩
  rcases place_cases hrun with ⟨_, rfl, rfl⟩ | ⟨_, hp⟩
  · exact findsIn_error
  · cases hp with
    | nowhere => exact findsIn_error
    | @span l _ _ segments hi hfree =>
      obtain ⟨htake, hmem⟩ := takeFree_eq_ok hfree
      have htable := getElem?_tables hi
      have hz : h.memory.SameZones (h.withArena i ⟨segments, h.provider⟩).memory := by
        rw [memory_withArena]
        exact Memory.sameZones_withArena htable ((hl.wellFormed htable).zones_takeFree htake)
      refine ⟨hz, ?_⟩
      rintro _ _ ⟨rfl⟩ ht
      exact hz.inZone ht (hcandidate hi hmem ht) (hfresh _ _ rfl).live
    | behind hi _ hseg hbump =>
      exact findsIn_bump hl hu hi
        (hcandidate hi (SegmentTable.candidate_of_allocSegment? hseg)) hbump
    | @ahead _ h₁ _ _ hi _ hseg hnew =>
      rcases hseg with ⟨_, rfl⟩ | ⟨id, _, hbump⟩
      · exact findsIn_new hl hu hi hnew
      · have hlt := (List.getElem?_eq_some_iff.1 hi).1
        obtain ⟨hr, _⟩ := rearranged_bump hl hu hlt hbump
        have hi₁ : i < h₁.heaps.length := by
          rw [← length_tables, hr.heaps, length_tables]
          exact hlt
        have hz := sameZones_bump hl hi hbump
        obtain ⟨hz₁, hin⟩ := findsIn_new hr.laid hr.spans (List.getElem?_eq_getElem hi₁) hnew
        exact ⟨hz.trans hz₁, fun a x hy ht => hin a x hy (hz.tiered ht)⟩

theorem findsIn_tryPlace (hm : h.memory.Sound)
    {y : Except HeapError (Except OutOfMemory.Reason (Nat × Nat))}
    (hrun : tryPlace i target size h = .ok (y, h')) : ∃ q, y = .ok q ∧ h.FindsIn i target q h' := by
  obtain ⟨q, hplace, rfl⟩ := tryPlace_stages.1 hrun
  exact ⟨q, rfl, findsIn_place hm.laid hm.spans hplace⟩

/-! ## Sweeping and compaction -/

variable {live : Nat → Record → Bool} {consumed : Option (List Nat)}
  {summary summary' : CollectionSummary} {survivals : List Survival} {fixed : Std.TreeSet Nat}

theorem sameZones_rebuildSegments (hrun : h.rebuildSegments = .ok h') :
    h.memory.SameZones h'.memory := by
  obtain ⟨tables, htables, hm⟩ := rebuildSegments_eq_ok hrun
  rw [hm]
  intro i t' ht'
  rcases Checked.mapM_getElem? htables i with ⟨_, hnone⟩ | ⟨t, t'', ht, ht'', hrebuild⟩
  · cases hnone.symm.trans ht'
  · cases ht''.symm.trans ht'
    exact ⟨t, ht, SegmentTable.zones_rebuild hrebuild⟩

theorem sameZones_swept (hrun : (h.swept live).2.rebuildSegments = .ok h') :
    h.memory.SameZones h'.memory := by
  have hswept : (h.swept live).2.memory.tables = h.memory.tables := by
    unfold swept
    rw [memory_sweepDead]
    rfl
  exact (Memory.SameZones.of_tables hswept).trans (sameZones_rebuildSegments hrun)

theorem sameZones_compact (hl : h.memory.Laid) (hlen : survivals.length = h.heaps.length)
    (hrun : h.compact condemned fixed survivals summary = .ok (summary', h')) :
    h.memory.SameZones h'.memory := by
  obtain ⟨why, heaps, p, _, _, hsame, _, happly⟩ := compact_plans hl hlen hrun
  obtain ⟨-, rfl⟩ | ⟨-, space, -, hrebuild⟩ := applyPlan_stages.1 happly
  · exact .of_tables (congrArg Memory.tables hsame)
  · refine Memory.SameZones.trans (.of_tables ?_) (sameZones_rebuildSegments hrebuild)
    rw [memory_forwarded, hsame]

theorem sameZones_compactIf (hl : h.memory.Laid) {compacts : Bool}
    (hlen : survivals.length = h.heaps.length)
    (hrun : h.compactIf compacts condemned survivals summary = .ok (summary', h')) :
    h.memory.SameZones h'.memory := by
  obtain ⟨-, hcompact⟩ | ⟨-, rfl, rfl⟩ := compactIf_stages.1 hrun
  · exact sameZones_compact hl hlen hcompact
  · exact .refl _

/-! ## Older regions -/

theorem zones_syncHeap (hl : h.memory.Laid) (hi : i < h.heaps.length) {y : Except HeapError Unit}
    (hrun : syncHeap condemned i h = .ok (y, h')) {j : Nat} {t' : SegmentTable}
    (ht' : h'.memory.tables[j]? = some t') : ∃ t, h.memory.tables[j]? = some t ∧
      t.Zones (if j = i then t.layout.aged condemned else id) t' := by
  have hheap : h.heaps[i]? = some h.heaps[i] := List.getElem?_eq_getElem hi
  obtain ⟨table, hpromote, rfl⟩ := syncHeap_promotes hheap hrun
  have htable := getElem?_tables hheap
  rw [memory_withArena, memory_sortQueue] at ht'
  have ht' : (h.memory.shared.withArena i ⟨table, h.provider⟩).tables[j]? = some t' := ht'
  rw [SharedArena.getElem?_withArena htable] at ht'
  split at ht'
  next hj =>
    cases ht'
    refine ⟨_, by rw [hj]; exact htable, ?_⟩
    rw [if_pos hj]
    exact (hl.wellFormed htable).zones_promoteRegions (hl.lists htable) hpromote
  next hj =>
    refine ⟨t', ht', ?_⟩
    rw [if_neg hj]
    exact .refl t'

/-- Each round makes the regions of one logical heap older. -/
theorem zones_syncHeaps (hl : h.memory.Laid) (hu : h.memory.SpansUnused)
    {y : Except HeapError Unit}
    (hrun : (List.range h.heaps.length).forM (syncHeap condemned) h = .ok (y, h')) :
    h.memory.Zones (·.aged condemned) h'.memory := by
  let Promoted (k : Nat) (g : Heap) : Prop :=
    (∃ m, Rearranged m g.memory) ∧ g.heaps.length = h.heaps.length ∧
      ∀ {j : Nat} {t' : SegmentTable}, g.memory.tables[j]? = some t' →
        ∃ t, h.memory.tables[j]? = some t ∧
          t.Zones (if j < k then t.layout.aged condemned else id) t'
  have hstart : Promoted 0 h := by
    refine ⟨⟨_, .refl hl hu⟩, rfl, fun {j t'} ht' => ⟨t', ht', ?_⟩⟩
    rw [if_neg (Nat.not_lt_zero j)]
    exact .refl t'
  have hstep (k : Nat) (g : Heap) (z : Except HeapError Unit) (g' : Heap)
      (hk : k < h.heaps.length) (hg : Promoted k g) (hround : syncHeap condemned k g = .ok (z, g')) :
      (∃ u, z = .ok u) ∧ Promoted (k + 1) g' := by
    obtain ⟨⟨m, hr⟩, hlen, hzones⟩ := hg
    have hlt : k < g.heaps.length := hlen ▸ hk
    obtain ⟨hz, hr'⟩ := syncHeap_eq_ok hr.laid hr.spans hlt hround
    have hheaps := hr'.heaps
    rw [length_tables] at hheaps
    refine ⟨hz, ⟨_, hr'⟩, hheaps.trans (length_tables.trans hlen), fun {j t'} ht' => ?_⟩
    obtain ⟨t₁, ht₁, hlast⟩ := zones_syncHeap hr.laid hlt hround ht'
    obtain ⟨t, ht, hfirst⟩ := hzones ht₁
    rw [hfirst.layout] at hlast
    refine ⟨t, ht, ?_⟩
    have hboth := hfirst.trans hlast
    rcases Nat.lt_trichotomy j k with hj | hj | hj
    · rw [if_pos hj, if_neg (Nat.ne_of_lt hj)] at hboth
      rwa [if_pos (Nat.lt_succ_of_lt hj)]
    · rw [hj, if_neg (Nat.lt_irrefl k), if_pos rfl] at hboth
      rwa [hj, if_pos (Nat.lt_succ_self k)]
    · rw [if_neg (Nat.lt_asymm hj), if_neg (Nat.ne_of_gt hj)] at hboth
      rwa [if_neg (by omega)]
  obtain ⟨_, _, hlen, hall⟩ := Effect.forM_range Promoted hstep hstart hrun
  intro j t' ht'
  obtain ⟨t, ht, hz⟩ := hall ht'
  have hj : j < h.heaps.length := by
    rw [← length_tables]
    exact (List.getElem?_eq_some_iff.1 ht).1
  rw [if_pos hj] at hz
  exact ⟨t, ht, hz⟩

/-! ## Empty segments -/

/-- The same zones, if objects lie in segments. -/
def Resettles (k k' : Heap) : Prop :=
  k.memory.Laid → k.memory.SpansUnused →
    Rearranged k.memory k'.memory ∧ k.memory.SameZones k'.memory

theorem frame_resettles : Frame Resettles where
  refl _ hl hu := ⟨.refl hl hu, .refl _⟩
  trans h h' hl hu := by
    obtain ⟨hr, hz⟩ := h hl hu
    obtain ⟨hr', hz'⟩ := h' hr.laid hr.spans
    exact ⟨hr.trans hr', hz.trans hz'⟩

theorem resettles_decommitIfEmpty {id : Nat} {q : Except HeapError Bool}
    (hrun : onArena i (SegmentArena.decommitIfEmpty id h.space) h = .ok (q, h')) :
    Resettles h h' := by
  intro hl hu
  cases hi : h.heaps[i]? with
  | none =>
    simp only [onArena, fetchHeap, hi, Effect.get_bind, Transition.ofExcept_bind] at hrun
    cases hrun
    exact ⟨.refl hl hu, .refl _⟩
  | some l =>
    refine ⟨?_, sameZones_onArena hl hi (fun ha hback => ha.zones_decommitIfEmpty hback) hrun⟩
    obtain ⟨arena, harena, rfl⟩ := (onArena_eq_ok hi).1 hrun
    have htable := getElem?_tables hi
    cases hs : l.segments.find? id with
    | none =>
      have hsame := SegmentArena.decommitIfEmpty_of_find?_eq_none (a := h.arena l) hs harena
      rw [hsame, withArena_arena hi]
      exact .refl hl hu
    | some s =>
      rw [memory_withArena]
      exact (hl.decommit hu htable hs harena).2.1

theorem sameZones_decommitHeaps (hl : h.memory.Laid) (hu : h.memory.SpansUnused) {n : Nat}
    {y : Except HeapError PUnit} (hrun : (List.range n).forM decommitEmpty h = .ok (y, h')) :
    h.memory.SameZones h'.memory := by
  have hsteady : Steady Resettles ((List.range n).forM decommitEmpty) :=
    steady_forM frame_resettles (fun _ => steady_decommitEmpty_of frame_resettles
      fun _ _ _ _ hback => resettles_decommitIfEmpty hback) _
  exact (hsteady hrun hl hu).2

/-! ## Collections -/

/-- The regions grow older as their objects do. -/
theorem zones_settle (hl : h.memory.Laid) (hu : h.memory.SpansUnused)
    (hlen : survivals.length = h.heaps.length)
    (hrun : settle condemned survivals consumed summary h = .ok (.ok summary', h')) :
    h.memory.Zones (·.aged condemned) h'.memory := by
  obtain ⟨h₁, h₂, h₃, h₄, htune, hpromote, hsync, hback, hrefresh⟩ := settle_stages.1 hrun
  obtain ⟨hm₂, _, hl₂, hu₂⟩ := promoted_eq_ok hl hu hlen htune hpromote
  have htables₂ : h₂.memory.tables = h.memory.tables := by rw [hm₂]
  obtain ⟨_, hr₃⟩ := syncHeaps_eq_ok hl₂ hu₂ hsync
  obtain ⟨cards, hm'⟩ := memory_refreshCards hrefresh
  have htables' : h'.memory.tables = h₄.memory.tables := by rw [hm']
  have hpromoted : h.memory.SameZones h₂.memory := .of_tables htables₂
  have hzones := hpromoted.trans (zones_syncHeaps hl₂ hu₂ hsync)
  have hgiven := sameZones_decommitHeaps hr₃.laid hr₃.spans hback
  have hfreshened := Memory.SameZones.of_tables htables'
  exact hzones.trans (hgiven.trans hfreshened)

theorem zones_reclaim (hl : h.memory.Laid) {compacts : Bool}
    (hrun : reclaim condemned live compacts consumed summary h = .ok (.ok summary', h')) :
    h.memory.Zones (·.aged condemned) h'.memory := by
  obtain ⟨h₁, summary₂, h₂, hsweep, hcompact, hsettle, -⟩ := reclaim_stages.1 hrun
  obtain ⟨_, hr₁⟩ := swept_eq_ok hl hsweep
  obtain ⟨hl₂, hu₂, hlen₂⟩ := compactIf_eq_ok hr₁.laid hr₁.spans length_survivalsOf hcompact
  have hz₂ := sameZones_compactIf hr₁.laid length_survivalsOf hcompact
  exact ((sameZones_swept hsweep).trans hz₂).trans
    (zones_settle hl₂ hu₂ (length_survivalsOf.trans hlen₂.symm) hsettle)

theorem zones_collect (hm : h.memory.Sound) {generation : Generation} {reason : CollectionReason}
    (hrun : collect generation reason h = .ok (.ok summary', h')) :
    h.memory.Zones (·.aged (h.condemnedOf generation)) h'.memory := by
  obtain ⟨scan, summary₁, h₁, h₂, hmark, hreclaim, hfinish⟩ := collect_stages.1 hrun
  obtain ⟨space, live, hmarked⟩ := marked_of_markCondemned hm hmark
  obtain ⟨hl₁, _, _⟩ := hmarked.keeps hm
  obtain ⟨watching, watch, _, hm₁⟩ := hmarked.memory
  have hsame : h.memory.SameZones h₁.memory := .of_tables (by rw [hm₁])
  have hzones := hsame.trans (zones_reclaim hl₁ hreclaim)
  rw [memory_finishCollection hfinish, memory_sweeper]
  exact hzones

theorem zones_completeBackground (hm : h.memory.Sound) {b : BackgroundMark}
    (hb : h.background = some b)
    (hrun : completeBackground h = .ok (.ok (some summary'), h')) :
    h.memory.Zones (·.aged .gen2) h'.memory := by
  have htraced := background_trace hb
  obtain ⟨summary₁, b', h₁, h₂, hfinish, hreclaim, hlast⟩ :=
    (completeBackground_stages htraced).1 hrun
  obtain ⟨found, hpaused⟩ := paused_of_finishMarking hm htraced hfinish
  obtain ⟨hl₁, _, _⟩ := hpaused.keeps hm
  have hm₁ := hpaused.memory
  have hsame : h.memory.SameZones h₁.memory := .of_tables (by rw [hm₁])
  have hzones := hsame.trans (zones_reclaim hl₁ hreclaim)
  rw [memory_finishCollection hlast, memory_dropSaved, memory_sweeper]
  exact hzones

end Heap

end GenHeap
