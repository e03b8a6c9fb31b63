import GenHeap.Proofs.Heap.Refusal
import GenHeap.Proofs.Heap.Search
import GenHeap.Proofs.Heap.Trimming

/-!
When memory is exhausted in the region layout. A provider that refuses nothing of itself has no room
for another region then; the heap that asked has no pooled region either, and its own regions hold
objects in use, apart from those that it is asked to retain and those in which its other generations
allocate.
-/

namespace GenHeap

/-- No region is left in the pool, and the one in which a generation allocates is too full for some
more bytes. -/
structure SegmentTable.Exhausted (t : SegmentTable) (target : Generation) (size : Nat) : Prop where
  pool : t.freeRegions = []
  full : ∀ {id s}, t.allocSegment? target = some id → t.find? id = some s →
    s.range.start + s.range.size < s.allocated + size

/-- In regions, nothing is ready only if memory is exhausted. -/
theorem SegmentArena.exhausted_of_not_ready {a : SegmentArena} {target : Generation} {size : Nat}
    (hlayout : a.table.layout = .regions) (hfit : size ≤ a.table.regionSize)
    (hnot : ¬ a.Ready target size) : a.table.Exhausted target size where
  pool := by
    refine Classical.byContradiction fun hpool => hnot (.ahead fun n hn => ?_)
    have hnext : a.table.nextSize (a.table.newOwner target) size = .ok a.table.regionSize := by
      unfold SegmentTable.nextSize
      rw [hlayout]
      exact if_pos hfit
    cases hnext.symm.trans hn
    exact .inl ⟨hlayout, rfl, hpool⟩
  full halloc hs := Nat.lt_of_not_le fun hroom => hnot (.behind halloc hs hroom)

namespace Heap

variable {h h' : Heap} {i size : Nat} {l : LogicalHeap} {target : Generation}
  {reason : OutOfMemory.Reason}

/-- There is no place only if memory is exhausted, and the segments stay as they are then. -/
theorem tryPlace_exhausted (hl : h.memory.Laid) (hheap : h.heaps[i]? = some l)
    (hw : h.provider.Willing) (hlimit : h.config.hardLimit = none)
    (hlayout : l.segments.layout = .regions) (hfit : size ≤ l.segments.regionSize)
    (hrun : tryPlace i target size h = .ok (.ok (.error reason), h')) :
    l.segments.Exhausted target size ∧ h'.memory.tables = h.memory.tables := by
  cases (tryPlace_denied hl hheap hlimit hrun).2 with
  | exhausted hnot hsame =>
    refine ⟨SegmentArena.exhausted_of_not_ready hlayout hfit fun hready =>
      hnot ((ready_iff hheap).2 hready), ?_⟩
    have htables : h'.memory.tables = (h.countExpansion i .noMemory).memory.tables :=
      congrArg (·.memory.tables) hsame
    rw [htables, memory_countExpansion]
  | refused hnot _ _ => exact absurd hw hnot

/-! ## Refused requests -/

theorem Standing.Shaped.exists_heap (hs : h.standing.Shaped) (hi : i < h.config.heapCount) :
    ∃ l, h.heaps[i]? = some l := by
  have hlt : i < h.heaps.length := by
    rw [← List.length_map (f := (·.standing))]
    exact hs.length ▸ hi
  exact ⟨_, List.getElem?_eq_getElem hlt⟩

/-- A logical heap without room for another object of the generation `target`: its pool is empty, and
in its regions of the usual size lie objects in use, apart from the regions in which other generations
allocate and those that the configuration keeps. -/
structure Crammed (h : Heap) (l : LogicalHeap) (target : Generation) : Prop where
  pool : l.segments.freeRegions = []
  regions : ∃ spared : List Nat, spared.length ≤ h.config.tuning.retainedEmptySegments ∧
    ∀ id s, l.segments.find? id = some s → s.range.size = h.config.regionSize →
      (∃ a, h.InUse a ∧ s.range.start ≤ a ∧ a < s.range.start + s.range.size) ∨
      (s.owner ≠ target ∧ l.segments.allocSegment? s.owner = some id) ∨ id ∈ spared

/-- No region fits into a smaller address space. -/
theorem crammed_of_narrow (hl : h.memory.Laid) (hheap : h.heaps[i]? = some l)
    (hregion : l.segments.regionSize = h.config.regionSize)
    (hnarrow : h.provider.space.range.size < h.config.regionSize) : h.Crammed l target := by
  have ht := getElem?_tables hheap
  have hheld {x : AddressRange} (hx : x ∈ l.segments.holdings) :
      x.size ≤ h.provider.space.range.size := by
    have hin := hl.serves.exclusive.inside_taken
      (List.mem_flatMap.2 ⟨_, List.mem_of_getElem? ht, hx⟩)
    have hstart : h.provider.space.range.start ≤ _ := hin.start_le
    have hstop : _ ≤ h.provider.space.range.start + h.provider.space.range.size := hin.stop_le
    omega
  refine ⟨?_, [], Nat.zero_le _, fun id s hs hsize => ?_⟩
  · refine List.eq_nil_iff_forall_not_mem.2 fun x hx => ?_
    have hfit := hheld (List.mem_append_right _ hx)
    have hsize := (hl.wellFormed ht).pooled x hx
    omega
  · have hfit := hheld (SegmentTable.range_mem_holdings hs)
    omega

/-- After a full collection has trimmed them, exhausted segments are crammed. -/
theorem crammed_of_exhausted (hheap : h.heaps[i]? = some l)
    (htrimmed : h.memory.Trimmed h.retained)
    (hinUse : ∀ {a}, h.space.contains a = true → h.InUse a) (hfit : size ≤ h.config.regionSize)
    (hex : l.segments.Exhausted target size) : h.Crammed l target := by
  have ht := getElem?_tables hheap
  obtain ⟨spared, hlen, hall⟩ := htrimmed.cleared ht
  have htight := htrimmed.tight i _ ht
  have hused {s : Segment} (ho : s.Occupied h.space) :
      ∃ a, h.InUse a ∧ s.range.start ≤ a ∧ a < s.range.start + s.range.size := by
    obtain ⟨a, r, hr, hstart, hstop⟩ := ho
    exact ⟨a, hinUse (ObjectSpace.contains_iff.2 ⟨r, hr⟩), hstart, hstop⟩
  refine ⟨hex.pool, spared, hlen, fun id s hs hsize => ?_⟩
  rcases hall hs with ho | hactive | hspared
  · exact .inl (hused ho)
  · by_cases howner : s.owner = target
    · -- it has the size that was asked for, so without objects there would have been room
      have hfull := hex.full (howner ▸ hactive) hs
      refine .inl (hused (htight id s hs ?_))
      unfold Segment.start
      omega
    · exact .inr (.inl ⟨howner, hactive⟩)
  · exact .inr (.inr hspared)

/-- It depends on objects, roots and segments only. -/
theorem Crammed.congr (hc : h.Crammed l target) (hheap : h.heaps[i]? = some l) {p : Provider}
    (hm : h'.memory = { h.memory with provider := p }) (hconfig : h'.config = h.config) :
    ∃ l', h'.heaps[i]? = some l' ∧ h'.Crammed l' target := by
  have ht : h'.memory.tables[i]? = some l.segments := by
    rw [hm]
    exact getElem?_tables hheap
  obtain ⟨l', hheap', hsegments⟩ := Option.map_eq_some_iff.1 ((List.getElem?_map ..).symm.trans ht)
  have hinUse {a : Nat} (ha : h.InUse a) : h'.InUse a := by
    rw [inUse_iff] at ha ⊢
    rw [hm]
    exact ha
  obtain ⟨spared, hlen, hall⟩ := hc.regions
  refine ⟨l', hheap', hsegments ▸ hc.pool, spared, hconfig ▸ hlen, fun id s hs hsize => ?_⟩
  rw [hsegments] at hs ⊢
  refine (hall id s hs (hconfig ▸ hsize)).imp_left ?_
  rintro ⟨a, ha, hbounds⟩
  exact ⟨a, hinUse ha, hbounds⟩

/-- A request for no more than a region is refused by a provider that refuses nothing of itself only
if no room is left. -/
theorem allocate_exhausted (hr : h.Reachable) (hlayout : h.config.layout = .regions)
    (hlimit : h.config.hardLimit = none) (hw : h.provider.Willing) {request : AllocRequest} {n : Nat}
    (hsize : request.effectiveSize? = some n) (hfit : n ≤ h.config.regionSize)
    (hrun : allocate i request h = .ok (.error (.outOfMemory reason size target), h')) :
    h'.config = h.config ∧ ∃ l, h'.heaps[i]? = some l ∧ h'.Crammed l target := by
  have hconfig {k k' : Heap} {α : Type} {y : Except HeapError α}
      (hfail : fail i reason size target k = .ok (y, k')) : k'.config = k.config :=
    congrArg Standing.config (standing_fail hfail).2
  obtain ⟨hi, ⟨hnone, hfail⟩ | ⟨hsome, _, h₁, h₂, h₃, hd⟩⟩ := denied_of_allocate hr.sound hrun
  · have hs' : h'.standing.Shaped := (hr.shaped.fail hfail).standing
    obtain ⟨l, hheap⟩ := hs'.exists_heap ((hconfig hfail).symm ▸ hi)
    obtain ⟨_, _, hregion⟩ := hs'.regions ((hconfig hfail).symm ▸ hlayout) hheap
    have hsame : h'.memory = h.memory := (memory_fail hfail).2
    have hnarrow : h.provider.space.range.size < n := by
      unfold sizeOf? at hnone
      rw [hsize, Option.filter_some] at hnone
      split at hnone
      · cases hnone
      next hwide => exact Nat.lt_of_not_le fun hle => hwide (decide_eq_true hle)
    refine ⟨hconfig hfail, l, hheap, crammed_of_narrow (hsame ▸ hr.sound.laid) hheap hregion ?_⟩
    rw [show h'.provider = h.provider from congrArg Memory.provider hsame, hconfig hfail]
    exact Nat.lt_of_lt_of_le hnarrow hfit
  · cases hsize.symm.trans (Option.filter_eq_some_iff.1 hsome).1
    obtain ⟨h₀, first, hbudget, hfirst⟩ := hd.budget
    obtain ⟨summary, hcollect⟩ := hd.collected
    -- before the last collection
    obtain ⟨_, _, hl⟩ := leads_requireBudget hr.sound hbudget
    obtain ⟨_, _, hr₁, _⟩ := tryPlace_eq_ok hl.sound hfirst
    have hm₁ := (hl.sound.stays_rearranged hr₁).sound
    have hstands := (steady_requireBudget hbudget).trans (refits_tryPlace hfirst).stands
    have hshaped₁ := hr.shaped.stands hstands
    -- after it
    have hlast := resorts_collect hshaped₁.standing.counted hcollect
    have hshaped₂ := (hshaped₁.resorts hlast).standing
    have hconfig₂ : h₂.config = h.config :=
      (congrArg Standing.config hlast.standing).trans hstands.config
    have htrimmed := collect_trims hm₁ hshaped₁.standing (hstands.config ▸ hlayout) hcollect
    obtain ⟨_, f, _, hcollected⟩ := collect_eq_ok hm₁ hcollect
    have hfull : h₁.condemnedOf .gen2 = .gen2 := by
      unfold condemnedOf
      split <;> rfl
    rw [hfull] at hcollected
    -- the second attempt
    obtain ⟨l, hheap⟩ := hshaped₂.exists_heap (hconfig₂.symm ▸ hi)
    obtain ⟨hlayout₂, _, hregion⟩ := hshaped₂.regions (hconfig₂.symm ▸ hlayout) hheap
    obtain ⟨hex, htables⟩ := tryPlace_exhausted hcollected.sound.laid hheap
      (hlast.willing (hstands.willing hw)) (hconfig₂.symm ▸ hlimit) hlayout₂
      (by rw [hregion, hconfig₂]; exact hfit) hd.again
    have hkept : h₁.retained = h₂.retained := by
      unfold retained
      rw [hconfig₂, hstands.config]
    have hcrammed := crammed_of_exhausted hheap (hkept ▸ htrimmed)
      (fun ha => inUse_iff.2 (Memory.inUse_of_full hm₁ hcollected ha)) (hconfig₂.symm ▸ hfit) hex
    obtain ⟨_, _, hr₃, _⟩ := tryPlace_eq_ok hcollected.sound hd.again
    have hconfig' : h'.config = h₂.config :=
      (hconfig hd.failed).trans (refits_tryPlace hd.again).stands.config
    refine ⟨hconfig'.trans hconfig₂, hcrammed.congr hheap (p := h₃.provider) ?_ hconfig'⟩
    rw [(memory_fail hd.failed).2, hr₃.rest, htables]
    rfl

/-- A heap in regions of one page each. -/
def regionConfig (pages : Nat) : Config :=
  { pageConfig with layout := .regions, concurrent := false, addressSpaceSize := 4096 * pages }

/-- Two regions, and an object in use in each of them. -/
theorem allocate_exhausted_pages : ∃ h h' : Heap, h.Reachable ∧ h.config.layout = .regions ∧
    h.config.hardLimit = none ∧ h.provider.Willing ∧
    ({ size := 3000 } : AllocRequest).effectiveSize? = some 3000 ∧ 3000 ≤ h.config.regionSize ∧
    allocate 0 { size := 3000 } h =
      .ok (.error (.outOfMemory .addressSpaceExhausted 3000 .gen0), h') ∧
    h'.space.entries.map (·.1) = [4096, 8192] ∧ h'.config = h.config ∧
    ∃ l, h'.heaps[0]? = some l ∧ h'.Crammed l .gen0 := by
  have hfull : leadsTo (regionConfig 2)
      [.allocate 0 { size := 3000, generation := .gen2 }, .createHandle .strong 4096,
        .allocate 0 { size := 3000 }, .createHandle .strong 8192]
      (fun h => h.config.layout == .regions && h.config.hardLimit == none &&
        decide h.provider.Willing && decide (3000 ≤ h.config.regionSize) &&
        ((allocate 0 { size := 3000 }).apply h).toOption.any fun x =>
          decide (x.1 = .error (.outOfMemory .addressSpaceExhausted 3000 .gen0)) &&
            x.2.space.entries.map (·.1) == [4096, 8192]) = true := by
    decide +kernel
  obtain ⟨h, hr, hp⟩ := exists_of_leadsTo hfull
  simp only [Bool.and_eq_true, beq_iff_eq, decide_eq_true_eq] at hp
  obtain ⟨⟨⟨⟨hlayout, hlimit⟩, hw⟩, hfit⟩, hp⟩ := hp
  obtain ⟨⟨y, h'⟩, hrun, hp⟩ := Checked.of_any hp
  simp only [Bool.and_eq_true, beq_iff_eq, decide_eq_true_eq] at hp
  obtain ⟨rfl, hleft⟩ := hp
  have hsize : ({ size := 3000 } : AllocRequest).effectiveSize? = some 3000 := by decide
  exact ⟨h, h', hr, hlayout, hlimit, hw, hsize, hfit, hrun, hleft,
    allocate_exhausted hr hlayout hlimit hw hsize hfit hrun⟩

/-- Two regions of the oldest generation, without objects: it allocates in one of them and keeps the
other, and there is no room for a young object. -/
theorem empty_regions_stuck : ∃ h h' : Heap, h.Reachable ∧ h.config.layout = .regions ∧
    h.config.hardLimit = none ∧ h.provider.Willing ∧
    ({ size := 3000 } : AllocRequest).effectiveSize? = some 3000 ∧ 3000 ≤ h.config.regionSize ∧
    allocate 0 { size := 3000 } h =
      .ok (.error (.outOfMemory .addressSpaceExhausted 3000 .gen0), h') ∧
    h'.space.entries = [] ∧ ∃ l, h'.heaps[0]? = some l ∧
      l.segments.segments.map (·.range.size) = [h.config.regionSize, h.config.regionSize] ∧
      l.segments.allocSegment? .gen2 = some 1 := by
  have hstuck : leadsTo (regionConfig 2)
      [.allocate 0 { size := 3000, generation := .gen2 },
        .allocate 0 { size := 3000, generation := .gen2 }]
      (fun h => h.config.layout == .regions && h.config.hardLimit == none &&
        decide h.provider.Willing && decide (3000 ≤ h.config.regionSize) &&
        ((allocate 0 { size := 3000 }).apply h).toOption.any fun x =>
          decide (x.1 = .error (.outOfMemory .addressSpaceExhausted 3000 .gen0)) &&
            x.2.space.entries == [] && (x.2.heaps[0]?).any fun l =>
              l.segments.segments.map (·.range.size) ==
                [h.config.regionSize, h.config.regionSize] &&
              l.segments.allocSegment? .gen2 == some 1) = true := by
    decide +kernel
  obtain ⟨h, hr, hp⟩ := exists_of_leadsTo hstuck
  simp only [Bool.and_eq_true, beq_iff_eq, decide_eq_true_eq] at hp
  obtain ⟨⟨⟨⟨hlayout, hlimit⟩, hw⟩, hfit⟩, hp⟩ := hp
  obtain ⟨⟨y, h'⟩, hrun, hp⟩ := Checked.of_any hp
  simp only [Bool.and_eq_true, beq_iff_eq, decide_eq_true_eq, Option.any_eq_true] at hp
  obtain ⟨⟨rfl, hleft⟩, l, hheap, hsizes, hactive⟩ := hp
  have hsize : ({ size := 3000 } : AllocRequest).effectiveSize? = some 3000 := by decide
  exact ⟨h, h', hr, hlayout, hlimit, hw, hsize, hfit, hrun, hleft, l, hheap, hsizes, hactive⟩

end Heap

end GenHeap
