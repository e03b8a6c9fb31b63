import GenHeap.Proofs.Heap.Anchors
import GenHeap.Proofs.Heap.Enrollment
import GenHeap.Proofs.Heap.Shape
import GenHeap.Proofs.Heap.Zones

/-!
Generations and owners. Every object lies in a segment of its zone: an allocation puts it there, and
a collection makes objects and regions older by the same rule. In the region layout the owner of a
region is therefore the generation of the objects in it.
-/

namespace GenHeap

namespace Memory

/-- Every object lies in a segment for objects of its generation. -/
structure Consistent (m : Memory) : Prop where
  tiered : m.Tiered
  inZone : ∀ {a r}, m.space.get? a = some r → m.InZone r.heap r.segment r.generation

variable {m m' : Memory} {f : Layout → Generation → Generation}

/-- Segments and their objects have grown older together. -/
theorem Consistent.of_zones (h : m.Consistent) (hl : m'.Laid) (hz : m.Zones f m')
    (hobjects : ∀ {b q}, m'.space.get? b = some q → ∃ a r, m.space.get? a = some r ∧
      q.heap = r.heap ∧ q.segment = r.segment ∧
      ∀ layout : Layout, layout.zone q.generation = f layout (layout.zone r.generation)) :
    m'.Consistent := by
  refine ⟨hz.tiered h.tiered, fun {b q} hq => ?_⟩
  obtain ⟨a, r, hr, hheap, hsegment, hzone⟩ := hobjects hq
  have hlive := hl.held hq
  rw [hheap, hsegment] at hlive ⊢
  obtain ⟨t, s, ht, hs, _⟩ := hlive
  exact hz.inZone h.tiered (h.inZone hr) hzone ⟨t, s, ht, hs⟩

/-- Objects that only change in what does not matter here. -/
theorem Consistent.of_map (h : m.Consistent) (hl : m'.Laid) (hz : m.SameZones m')
    {k : Nat → Record → Record} (hspace : ∀ a, m'.space.get? a = (m.space.get? a).map (k a))
    (hk : ∀ a r, (k a r).heap = r.heap ∧ (k a r).segment = r.segment ∧
      (k a r).generation = r.generation) : m'.Consistent := by
  refine h.of_zones hl hz fun {b q} hq => ?_
  rw [hspace, Option.map_eq_some_iff] at hq
  obtain ⟨r, hr, rfl⟩ := hq
  obtain ⟨hheap, hsegment, hgeneration⟩ := hk b r
  exact ⟨b, r, hr, hheap, hsegment, fun layout => congrArg layout.zone hgeneration⟩

theorem Consistent.of_same (h : m.Consistent) (hl : m'.Laid) (hz : m.SameZones m')
    (hspace : m'.space = m.space) : m'.Consistent := by
  refine h.of_map hl hz (k := fun _ r => r) (fun a => ?_) fun _ _ => ⟨rfl, rfl, rfl⟩
  rw [hspace, Option.map_id']

theorem Consistent.of_update (h : m.Consistent) (hl : m'.Laid) (hz : m.SameZones m') {object : Nat}
    {k : Record → Record} (hspace : m'.space = m.space.update object k)
    (hk : ∀ r, (k r).heap = r.heap ∧ (k r).segment = r.segment ∧
      (k r).generation = r.generation) : m'.Consistent := by
  refine h.of_map hl hz (k := fun a => if object = a then k else id) (fun a => ?_) fun a r => ?_
  · rw [hspace, ObjectSpace.get?_update]
    split
    · rfl
    · rw [Option.map_id]
      rfl
  · split
    · exact hk r
    · exact ⟨rfl, rfl, rfl⟩

/-- The survivors of a collection grow older as the regions do. -/
theorem Consistent.of_culled {c : Generation} {move : Nat → Nat} {left : Nat → Prop}
    (h : m.Consistent) (hc : Culled c move left m m') (hz : m.Zones (·.aged c) m') :
    m'.Consistent := by
  refine h.of_zones hc.sound.laid hz fun {b q} hq => ?_
  obtain ⟨a, ha, rfl⟩ := hc.sources (ObjectSpace.contains_iff.2 ⟨q, hq⟩)
  obtain ⟨r, q', hr, hq', hcarried⟩ := hc.records ha
  cases hq.symm.trans hq'
  refine ⟨a, r, hr, hcarried.heap, hcarried.segment, fun layout => ?_⟩
  rw [hcarried.generation, Layout.zone_aged]

end Memory

/-- An address lies in a segment of a logical heap. -/
structure LogicalHeap.Holds (l : LogicalHeap) (id : Nat) (s : Segment) (a : Nat) : Prop where
  find? : l.segments.find? id = some s
  start_le : s.start ≤ a
  lt_stop : a < s.start + s.range.size

namespace Heap

variable {h h' : Heap} {i size : Nat} {target : Generation} {op : Operation}

/-! ## Operations -/

theorem consistent_collect (hm : h.memory.Sound) (hc : h.memory.Consistent)
    {generation : Generation} {reason : CollectionReason}
    {y : Except HeapError CollectionSummary}
    (hrun : collect generation reason h = .ok (y, h')) : h'.memory.Consistent := by
  obtain ⟨summary, f, rfl, hcollected⟩ := collect_eq_ok hm hrun
  exact hc.of_culled (Memory.culled_of_collected hm hcollected) (zones_collect hm hrun)

theorem consistent_completeBackground (hm : h.memory.Sound) (hc : h.memory.Consistent)
    {y : Except HeapError (Option CollectionSummary)}
    (hrun : completeBackground h = .ok (y, h')) : h'.memory.Consistent := by
  cases hb : h.background with
  | none =>
    obtain ⟨_, rfl⟩ := completeBackground_of_none hb hrun
    exact hc
  | some b =>
    obtain ⟨summary, live, rfl, hcompleted⟩ := completeBackground_eq_ok hm hb hrun
    exact hc.of_culled (Memory.culled_of_completed hm hcompleted)
      (zones_completeBackground hm hb hrun)

/-- Every operation but an allocation keeps objects in segments of their zones. -/
theorem consistent_apply (hm : h.memory.Sound) (hc : h.memory.Consistent)
    (hop : ∀ i request, op ≠ .allocate i request) (hrun : op.apply h = .ok h') :
    h'.memory.Consistent := by
  have hl := (apply_eq_ok hm hrun).1.laid
  have hsame (htables : h'.memory.tables = h.memory.tables)
      (hspace : h'.memory.space = h.memory.space) : h'.memory.Consistent :=
    hc.of_same hl (.of_tables htables) hspace
  cases op with
  | allocate i request => exact absurd rfl (hop i request)
  | findBlock i target size =>
    obtain ⟨y, hrun⟩ := after_eq_ok.1 hrun
    obtain ⟨_, _, hz, _⟩ := findsIn_tryPlace hm hrun
    obtain ⟨_, _, hr, _⟩ := tryPlace_eq_ok hm hrun
    exact hc.of_same hl hz (by rw [hr.rest])
  | collect generation reason =>
    obtain ⟨y, hrun⟩ := after_eq_ok.1 hrun
    exact consistent_collect hm hc hrun
  | completeBackground =>
    obtain ⟨y, hrun⟩ := after_eq_ok.1 hrun
    exact consistent_completeBackground hm hc hrun
  | writeSlot object slot value =>
    obtain ⟨y, hrun⟩ := after_eq_ok.1 hrun
    rcases writeSlot_eq_ok hrun with rfl | ⟨_, _, _, _, he⟩
    · exact hc
    · exact hc.of_update hl (.of_tables (by rw [he])) (congrArg Memory.space he)
        fun _ => ⟨rfl, rfl, rfl⟩
  | registerForFinalization object =>
    obtain ⟨y, hrun⟩ := after_eq_ok.1 hrun
    rcases registerForFinalization_eq_ok hrun with ⟨_, rfl⟩ | ⟨_, _, he⟩
    · exact hc
    · exact hc.of_update hl (.of_tables (by rw [he])) (congrArg Memory.space he)
        fun _ => ⟨rfl, rfl, rfl⟩
  | suppressFinalization object =>
    obtain ⟨y, hrun⟩ := after_eq_ok.1 hrun
    rcases suppressFinalization_eq_ok hrun with ⟨_, rfl⟩ | ⟨_, _, he⟩
    · exact hc
    · exact hc.of_update hl (.of_tables (by rw [he])) (congrArg Memory.space he)
        fun _ => ⟨rfl, rfl, rfl⟩
  | createHandle kind target =>
    obtain ⟨y, hrun⟩ := after_eq_ok.1 hrun
    rw [memory_createHandle hrun] at hsame ⊢
    exact hsame rfl rfl
  | freeHandle id =>
    obtain ⟨y, hrun⟩ := after_eq_ok.1 hrun
    rw [memory_freeHandle hrun] at hsame ⊢
    exact hsame rfl rfl
  | finishReady batch report =>
    cases hrun
    rw [memory_finishReady, memory_doneRunning] at hsame ⊢
    exact hsame rfl rfl
  | analyze =>
    obtain ⟨y, hrun⟩ := after_eq_ok.1 hrun
    rw [memory_analyze hrun]
    exact hc
  | startBackground =>
    obtain ⟨y, hrun⟩ := after_eq_ok.1 hrun
    obtain ⟨hspace, _, _, _, htables⟩ := same_startBackground hrun
    exact hsame htables hspace
  | abortBackground =>
    obtain ⟨y, hrun⟩ := after_eq_ok.1 hrun
    obtain ⟨hspace, _, htables⟩ := same_abortBackground hrun
    exact hsame htables hspace
  | takeReady =>
    cases hrun
    rw [memory_takeReady] at hsame ⊢
    exact hsame rfl rfl
  | _ =>
    cases hrun
    exact hsame rfl rfl

/-! ## Allocations -/

theorem consistent_prepares (hm : h.memory.Sound) (hc : h.memory.Consistent)
    (hp : h.Prepares h') : h'.memory.Consistent := by
  obtain ⟨ops, hops, hrun⟩ := hp
  have hall := Checked.foldlM_induct (fun k => k.memory.Sound ∧ k.memory.Consistent) ?_ ⟨hm, hc⟩ hrun
  · exact hall.2
  · intro k op k' hop ⟨hm, hc⟩ hstep
    refine ⟨(apply_eq_ok hm hstep).1, consistent_apply hm hc ?_ hstep⟩
    rintro i request rfl
    cases hops _ hop

/-- The block for a new object is in a segment for objects of its generation. -/
theorem inZone_placeOrCollect (hm : h.memory.Sound) (hc : h.memory.Consistent) {a x : Nat}
    (hrun : placeOrCollect i target size h = .ok (.ok (a, x), h')) :
    h'.memory.InZone i x target := by
  have hfound {k : Heap} (hm : k.memory.Sound) (hc : k.memory.Consistent)
      (hrun : tryPlace i target size k = .ok (.ok (.ok (a, x)), h')) :
      h'.memory.InZone i x target := by
    obtain ⟨_, he, _, hin⟩ := findsIn_tryPlace hm hrun
    cases he
    exact hin a x rfl hc.tiered
  rcases placeOrCollect_cases hrun with ⟨_, he, hfirst⟩ | ⟨_, k₁, hfirst, hrest⟩
  · cases he
    exact hfound hm hc hfirst
  · obtain ⟨_, _, hr, _⟩ := tryPlace_eq_ok hm hfirst
    have hm₁ := hm.rearranged hr
    have hstep : Operation.apply h (.findBlock i target size) = .ok k₁ :=
      after_eq_ok.2 ⟨_, hfirst⟩
    have hc₁ := consistent_apply hm hc (by rintro _ _ ⟨⟩) hstep
    rcases hrest with ⟨_, he, _⟩ | ⟨summary, k₂, hcollect, ⟨_, he, hsecond⟩ | ⟨_, _, _, hfailed⟩⟩
    · cases he
    · cases he
      obtain ⟨_, _, hleads⟩ := leads_collect hm₁ hcollect
      exact hfound hleads.sound (consistent_collect hm₁ hc₁ hcollect) hsecond
    · obtain ⟨⟨_, he⟩, _⟩ := memory_fail hfailed
      cases he

/-- An object that is put where its generation may use the segment. -/
theorem consistent_install (hm : h.memory.Sound) (hc : h.memory.Consistent)
    {request : AllocRequest} {a x : Nat} (hsize : request.effectiveSize? = some size)
    (hfresh : h.memory.Fresh i x a size) (hin : h.memory.InZone i x target)
    (hrun : install i request target size a x h = .ok h') : h'.memory.Consistent := by
  have hpos : 0 < size := Nat.lt_of_lt_of_le (by decide) (AllocRequest.le_of_effectiveSize? hsize).1
  obtain ⟨space, hadds, he⟩ := adds_install hm.laid hfresh hpos hrun
  rw [he]
  refine ⟨hc.tiered, fun {b q} hq => ?_⟩
  have hq : space.get? b = some q := hq
  rw [hadds.get?] at hq
  split at hq
  · cases hq
    exact hin
  · exact hc.inZone hq

theorem consistent_allocate (hm : h.memory.Sound) (hc : h.memory.Consistent)
    {request : AllocRequest} {y : Except HeapError Nat}
    (hrun : allocate i request h = .ok (y, h')) : h'.memory.Consistent := by
  have hfail {α : Type} {reason : OutOfMemory.Reason} {size : Nat} {target : Generation} {k : Heap}
      {y : Except HeapError α} (hk : k.memory.Consistent)
      (hfailed : fail i reason size target k = .ok (y, h')) : h'.memory.Consistent := by
    rw [(memory_fail hfailed).2]
    exact hk
  cases allocate_cases hrun with
  | unknown => exact hc
  | oversized _ _ hfailed => exact hfail hc hfailed
  | uncollected _ _ hbudget => exact consistent_prepares hm hc (prepares_requireBudget hbudget)
  | unplaced _ _ hbudget hplaced =>
    have hp₁ := prepares_requireBudget hbudget
    rcases prepares_placeOrCollect hplaced with ⟨⟨_, he⟩, _⟩ | ⟨_, hp₂ | ⟨_, k, hp₂, hfailed⟩⟩
    · cases he
    · exact consistent_prepares hm hc (hp₁.trans hp₂)
    · exact hfail (consistent_prepares hm hc (hp₁.trans hp₂)) hfailed
  | installed _ hsize hbudget hplaced hinstall =>
    have hp₁ := prepares_requireBudget hbudget
    have hm₁ := sound_prepares hm hp₁
    have hc₁ := consistent_prepares hm hc hp₁
    obtain ⟨_, hleads, hfresh⟩ := leads_placeOrCollect hm₁ hplaced
    rcases prepares_placeOrCollect hplaced with ⟨_, hp₂⟩ | ⟨⟨_, he⟩, _⟩
    · exact consistent_install hleads.sound (consistent_prepares hm₁ hc₁ hp₂)
        (Option.filter_eq_some_iff.1 hsize).1 (hfresh _ _ rfl)
        (inZone_placeOrCollect hm₁ hc₁ hplaced) hinstall
    · cases he

/-- In every heap there can be, generations and owners go together. -/
theorem Reachable.consistent (hr : h.Reachable) : h.memory.Consistent := by
  induction hr with
  | start _ hrun =>
    obtain ⟨_, heaps, _, _, hnew, rfl⟩ := onRange_eq_ok hrun
    rw [memory_publish]
    refine ⟨fun i t ht _ => ?_, fun {a r} hr => ?_⟩
    · obtain ⟨l, hl, rfl⟩ := List.mem_map.1 (List.mem_of_getElem? ht)
      rw [(logicalHeap_ofConfig (hnew l hl)).2.1]
      exact ⟨rfl, rfl⟩
    · cases (ObjectSpace.get?_empty).symm.trans hr
  | step op hprev hrun ih =>
    cases op with
    | allocate i request =>
      obtain ⟨y, hrun⟩ := after_eq_ok.1 hrun
      exact consistent_allocate hprev.sound ih hrun
    | _ => exact consistent_apply hprev.sound ih (by rintro _ _ ⟨⟩) hrun

/-! ## Owners -/

/-- In the region layout the owner of a region is the generation of all that lies in it. -/
structure RegionsOwn (h : Heap) : Prop where
  ephemeral : ∀ l ∈ h.heaps, l.segments.ephemeral = none
  owner : ∀ {a r l id s}, h.space.get? a = some r → l ∈ h.heaps → l.Holds id s a →
    s.owner = r.generation

/-- In the segment layout the youngest generation owns the ephemeral segment, the next one owns none,
and each of the others has the objects in its segments to itself, but for those grown old in the
ephemeral one. -/
structure SegmentsOwn (h : Heap) : Prop where
  young : ∀ l ∈ h.heaps, l.segments.owned.get .gen0 = l.segments.ephemeral.toList
  middle : ∀ l ∈ h.heaps, l.segments.owned.get .gen1 = []
  owner_gen0 : ∀ l ∈ h.heaps, ∀ {id s}, l.segments.find? id = some s →
    (s.owner = .gen0 ↔ l.segments.ephemeral = some id)
  owner_ne_gen1 : ∀ l ∈ h.heaps, ∀ {id s}, l.segments.find? id = some s → s.owner ≠ .gen1
  large : ∀ {a r l id s}, h.space.get? a = some r → l ∈ h.heaps → l.Holds id s a →
    (r.generation = .large ↔ s.owner = .large)
  pinned : ∀ {a r l id s}, h.space.get? a = some r → l ∈ h.heaps → l.Holds id s a →
    (r.generation = .pinned ↔ s.owner = .pinned)
  aging : ∀ {a r l id s}, h.space.get? a = some r → l ∈ h.heaps → l.Holds id s a →
    r.generation ∈ [.gen0, .gen1, .gen2] → l.segments.ephemeral = some id ∨ s.owner = .gen2

/-- An object lies in its segment, and no other one. -/
theorem holds_iff (hm : h.memory.Sound) {a id : Nat} {r : Record} {l : LogicalHeap} {s : Segment}
    (hr : h.space.get? a = some r) (hl : h.heaps[i]? = some l) (hs : l.segments.find? id = some s) :
    l.Holds id s a ↔ r.heap = i ∧ r.segment = id := by
  have htable := getElem?_tables hl
  constructor
  · rintro ⟨_, hlo, hhi⟩
    exact hm.laid.housed.owner htable hs hr hlo hhi
  · rintro ⟨rfl, rfl⟩
    obtain ⟨t, x, ht, hx, hlo, hhi⟩ := hm.laid.held hr
    cases htable.symm.trans ht
    cases hs.symm.trans hx
    have hpos := hm.laid.apart.size_pos hr
    have hend := (hm.laid.wellFormed htable).sound hs |>.allocated_le_stop
    refine ⟨hs, hlo, ?_⟩
    show a < s.range.start + s.range.size
    omega

/-- An object is in the zone of its segment's owner. -/
theorem Reachable.zone_owner (hr : h.Reachable) {a id : Nat} {r : Record} {l : LogicalHeap}
    {s : Segment} (hobject : h.space.get? a = some r) (hl : l ∈ h.heaps) (hs : l.Holds id s a) :
    l.segments.layout.zone s.owner = l.segments.layout.zone r.generation := by
  obtain ⟨i, hi⟩ := List.mem_iff_getElem?.1 hl
  obtain ⟨rfl, rfl⟩ := (holds_iff hr.sound hobject hi hs.1).1 hs
  obtain ⟨t, ht, hzone⟩ := hr.consistent.inZone hobject
  cases (getElem?_tables hi).symm.trans ht
  exact Option.some.inj ((SegmentTable.zone?_of_find? hs.1).symm.trans hzone)

theorem Reachable.regionsOwn (hr : h.Reachable) (hlayout : h.config.layout = .regions) :
    h.RegionsOwn := by
  have hregions {l : LogicalHeap} (hl : l ∈ h.heaps) :
      l.segments.layout = .regions ∧ l.segments.ephemeral = none := by
    obtain ⟨i, hi⟩ := List.mem_iff_getElem?.1 hl
    obtain ⟨hlayout', hephemeral, _⟩ := hr.shaped.1.regions hlayout hi
    exact ⟨hlayout', hephemeral⟩
  refine ⟨fun l hl => (hregions hl).2, fun hobject hl hs => ?_⟩
  have hzone := hr.zone_owner hobject hl hs
  rwa [(hregions hl).1] at hzone

theorem Reachable.segmentsOwn (hr : h.Reachable) (hlayout : h.config.layout = .segments) :
    h.SegmentsOwn := by
  have hsegments {l : LogicalHeap} (hl : l ∈ h.heaps) : l.segments.layout = .segments := by
    have hconstants := hr.shaped.1.constants l.standing (List.mem_map_of_mem hl)
    exact (congrArg SegmentTable.layout hconstants).trans hlayout
  have htiers {l : LogicalHeap} (hl : l ∈ h.heaps) :
      l.segments.owned.get .gen0 = l.segments.ephemeral.toList ∧ l.segments.owned.get .gen1 = [] := by
    obtain ⟨i, hi⟩ := List.mem_iff_getElem?.1 hl
    exact hr.consistent.tiered _ _ (getElem?_tables hi) (hsegments hl)
  have hlisted {l : LogicalHeap} (hl : l ∈ h.heaps) {id : Nat} {s : Segment}
      (hs : l.segments.find? id = some s) (g : Generation) :
      id ∈ l.segments.owned.get g ↔ s.owner = g := by
    obtain ⟨i, hi⟩ := List.mem_iff_getElem?.1 hl
    have htable := getElem?_tables hi
    rw [(hr.sound.laid.wellFormed htable).mem_owned (hr.sound.laid.lists htable),
      SegmentTable.owner?, hs]
    exact Option.some_inj
  have hyoung {l : LogicalHeap} (hl : l ∈ h.heaps) {id : Nat} {s : Segment}
      (hs : l.segments.find? id = some s) :
      s.owner = .gen0 ↔ l.segments.ephemeral = some id := by
    rw [← hlisted hl hs, (htiers hl).1, Option.mem_toList]
  have hmiddle {l : LogicalHeap} (hl : l ∈ h.heaps) {id : Nat} {s : Segment}
      (hs : l.segments.find? id = some s) : s.owner ≠ .gen1 := by
    rw [Ne, ← hlisted hl hs, (htiers hl).2]
    exact List.not_mem_nil
  have hzone {a id : Nat} {r : Record} {l : LogicalHeap} {s : Segment}
      (hobject : h.space.get? a = some r) (hl : l ∈ h.heaps) (hs : l.Holds id s a) :
      Layout.segments.zone s.owner = Layout.segments.zone r.generation := by
    have hzone := hr.zone_owner hobject hl hs
    rwa [hsegments hl] at hzone
  constructor
  · exact fun l hl => (htiers hl).1
  · exact fun l hl => (htiers hl).2
  · exact fun l hl => hyoung hl
  · exact fun l hl => hmiddle hl
  · intro a r l id s hobject hl hs
    rw [← Layout.zone_eq_large, ← hzone hobject hl hs, Layout.zone_eq_large]
  · intro a r l id s hobject hl hs
    rw [← Layout.zone_eq_pinned, ← hzone hobject hl hs, Layout.zone_eq_pinned]
  · intro a r l id s hobject hl hs haging
    rw [← Layout.zone_eq_gen2, ← hzone hobject hl hs, Layout.zone_eq_gen2] at haging
    rw [← hyoung hl hs.1]
    have hne := hmiddle hl hs.1
    simpa [hne] using haging

/-- Whatever has been collected, promoted, replaced or given back, generations and owners agree. -/
theorem owners_consistent (hr : h.Reachable) :
    (h.config.layout = .regions → h.RegionsOwn) ∧ (h.config.layout = .segments → h.SegmentsOwn) ∧
      ∀ a r, h.space.get? a = some r → ∃ l s, h.heaps[r.heap]? = some l ∧ l.Holds r.segment s a := by
  refine ⟨hr.regionsOwn, hr.segmentsOwn, fun a r hobject => ?_⟩
  obtain ⟨t, s, ht, hs, _⟩ := hr.sound.laid.held hobject
  obtain ⟨l, hl, rfl⟩ := Option.map_eq_some_iff.1 ((List.getElem?_map ..).symm.trans ht)
  exact ⟨l, s, hl, (holds_iff hr.sound hobject hl hs).2 ⟨rfl, rfl⟩⟩

/-- A region and its object have grown older behind a younger one; a full ephemeral segment has been
replaced by another one. -/
theorem owners_consistent_two : ∃ h k : Heap, h.Reachable ∧ k.Reachable ∧
    h.config.layout = .regions ∧ h.space.entries.map (·.2.generation) = [.gen1, .gen0] ∧
    k.config.layout = .segments ∧ k.space.entries.map (·.2.generation) = [.gen1, .gen0, .large] ∧
    k.heaps.map (·.segments.slots.map (·.map (·.owner))) = [[some .gen2, some .gen0, some .large]] ∧
    h.RegionsOwn ∧ k.SegmentsOwn := by
  have hregions : leadsTo { pageConfig with layout := .regions }
      [.allocate 0 { size := 48 }, .createHandle .strong 4096, .collect .gen0 .induced,
        .allocate 0 { size := 48 }]
      (fun h => h.config.layout == .regions &&
        h.space.entries.map (·.2.generation) == [.gen1, .gen0]) = true := by
    decide +kernel
  have hsegments : leadsTo { pageConfig with largeThreshold := 4096 }
      [.allocate 0 { size := 3000 }, .createHandle .strong 4096, .collect .gen0 .induced,
        .allocate 0 { size := 2000 }, .allocate 0 { size := 4096 }]
      (fun h => h.config.layout == .segments &&
        (h.space.entries.map (·.2.generation) == [.gen1, .gen0, .large] &&
          h.heaps.map (·.segments.slots.map (·.map (·.owner))) ==
            [[some .gen2, some .gen0, some .large]])) = true := by
    decide +kernel
  obtain ⟨h, hr, hp⟩ := exists_of_leadsTo hregions
  obtain ⟨hlayout, hobjects⟩ := Bool.and_eq_true_iff.1 hp
  obtain ⟨k, kr, kp⟩ := exists_of_leadsTo hsegments
  obtain ⟨klayout, kp⟩ := Bool.and_eq_true_iff.1 kp
  obtain ⟨kobjects, kowners⟩ := Bool.and_eq_true_iff.1 kp
  exact ⟨h, k, hr, kr, eq_of_beq hlayout, eq_of_beq hobjects, eq_of_beq klayout, eq_of_beq kobjects,
    eq_of_beq kowners, (owners_consistent hr).1 (eq_of_beq hlayout),
    (owners_consistent kr).2.1 (eq_of_beq klayout)⟩

end Heap

end GenHeap
