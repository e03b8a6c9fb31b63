import GenHeap.Proofs.CompactionProgress
import GenHeap.Proofs.Heap.Reclaim
import GenHeap.Proofs.Heap.StandingCollect
import GenHeap.Proofs.Heap.Tallies
import GenHeap.Proofs.HeapCheck

/-!
Reclaiming does not fault on a heap that is laid out soundly and whose slots are all empty, as long
as its running totals have room for a few times the bytes of the address range. One lemma for each
stage says that it runs and what the running totals are afterwards.
-/

namespace GenHeap

open Checked (Runs)

/-! ## Bytes of a heap -/

/-- The bytes of all segments of a table. -/
def SegmentTable.extent (t : SegmentTable) : Nat := Word.total (t.segments.map (·.range.size))

namespace Memory

variable {m : Memory} {i : Nat} {t : SegmentTable}

theorem Laid.weight_le (h : m.Laid) :
    ObjectSpace.weight m.space.entries ≤ m.provider.space.range.size := by
  have hstart : ∀ x ∈ m.space.entries, m.provider.space.range.start ≤ x.1 :=
    fun x hx => (h.inside (ObjectSpace.mem_entries.1 hx)).2.1
  have hline : ObjectSpace.InLine m.provider.space.range.start m.space.entries := by
    rw [HeapCheck.inLine_iff m.space.entries_pairwise hstart, HeapCheck.pairwise_entries_iff]
    exact fun _ _ _ _ => h.apart.stop_le
  have hle := hline.weight_le (Nat.le_add_right _ m.provider.space.range.size)
    fun x hx => (h.inside (ObjectSpace.mem_entries.1 hx)).2.2.1
  omega

theorem Laid.weight_filter_le (h : m.Laid) (p : Nat × Record → Bool) :
    ObjectSpace.weight (m.space.entries.filter p) ≤ m.provider.space.range.size :=
  Nat.le_trans (Word.total_sublist_le _ List.filter_sublist) h.weight_le

/-- No object is without bytes. -/
theorem Laid.length_filter_le (h : m.Laid) (p : Nat × Record → Bool) :
    (m.space.entries.filter p).length ≤ m.provider.space.range.size := by
  have hlength {objects : List (Nat × Record)} (hpos : ∀ x ∈ objects, 0 < x.2.size) :
      objects.length ≤ ObjectSpace.weight objects := by
    induction objects with
    | nil => exact Nat.le_refl _
    | cons x objects ih =>
      rw [List.forall_mem_cons] at hpos
      have := ih hpos.2
      rw [ObjectSpace.weight_cons, List.length_cons]
      omega
  refine Nat.le_trans (hlength fun x hx => ?_) (h.weight_filter_le p)
  exact h.apart.size_pos (ObjectSpace.mem_entries.1 (List.mem_of_mem_filter hx))

theorem Laid.bounded (h : m.Laid) (ht : m.tables[i]? = some t) : t.Bounded := by
  intro x s hs
  have hmem : s.range ∈ m.tables.flatMap SegmentTable.holdings :=
    List.mem_flatMap.2 ⟨t, List.mem_of_getElem? ht, SegmentTable.range_mem_holdings hs⟩
  exact (h.serves.exclusive.inside_taken hmem).stop_lt

theorem Laid.extents_le (h : m.Laid) :
    Word.total (m.tables.map (·.extent)) ≤ m.provider.space.range.size := by
  have hle := h.serves.exclusive.total_le
  rw [Word.total_map_flatMap] at hle
  refine Nat.le_trans (Word.total_map_le fun t _ => ?_) hle
  have hheld := t.heldBytes_eq
  exact Nat.le_trans (Nat.le_add_right _ _) (Nat.le_of_eq hheld.symm)

end Memory

/-! ## Sweeping -/

namespace Heap

variable {h h' : Heap} {n : Nat} {condemned : Generation} {live : Nat → Record → Bool}

theorem Refits.sameTallies (hr : h.Refits h') : SameTallies h h' where
  statistics := by rw [hr.rest]
  budgets := hr.map fun _ => rfl
  counters := hr.map fun _ => rfl

theorem tallied_sweepDead (ht : h.Tallied n) : (h.sweepDead live).2.Tallied n := by
  have hfold (gone : List (Nat × Record)) (h : Heap) (ht : h.Tallied n) :
      (gone.foldl (fun h x => h.modifyHeap x.2.heap fun l =>
        { l with budgets := l.budgets.discharge x.2.generation x.2.size }) h).Tallied n := by
    induction gone generalizing h with
    | nil => exact ht
    | cons x gone ih =>
      apply ih
      exact ht.modifyHeap fun l hl => ⟨hl.budgets.discharge _ _, hl.counters⟩
  have hgone := hfold (h.space.removeWhere fun a r => !live a r).1 h ht
  exact ⟨hgone.statistics, hgone.heaps⟩

theorem runs_rebuildSegments (hl : h.memory.Laid) : Runs h.rebuildSegments := by
  rw [rebuildSegments, Checked.runs_bind]
  constructor
  · apply Checked.runs_mapM
    intro l hmem
    obtain ⟨i, hi⟩ := List.getElem?_of_mem hmem
    have ht := getElem?_tables hi
    simp only [Checked.runs_bind, Checked.runs_pure, implies_true, and_true]
    exact (hl.wellFormed ht).rebuild_runs (hl.bounded ht) hl.apart
      fun x s hs a r hr hlo hhi => hl.housed.stop_le ht hs hr hlo hhi
  · intro _ _
    exact Checked.runs_pure _

end Heap

/-! ## Deciding on a compaction -/

/-- The byte counts that a decision rests on are at most `n`. -/
structure CompactionInputs.Tallied (x : CompactionInputs) (n : Nat) : Prop where
  free : x.freeBytes ≤ n
  allocated : x.allocatedBytes ≤ n
  largeFree : x.largeFreeBytes ≤ n
  largeAllocated : x.largeAllocatedBytes ≤ n

namespace Heap

variable {h h' : Heap} {n m : Nat} {condemned : Generation} {reason : CollectionReason}
  {l : LogicalHeap} {survival : Survival} {fixed : Std.TreeSet Nat}

theorem tallied_addInputs {x : CompactionInputs} {s : Segment} (hx : x.Tallied n) (hs : s.Sound)
    (hstop : s.range.start + s.range.size < Word.count) (hroom : n + s.range.size < Word.count) :
    ∃ x', addInputs condemned x s = .ok x' ∧ x'.Tallied (n + s.range.size) := by
  obtain ⟨free, hfree, hfreele⟩ := hs.freeBytes_eq_ok hstop
  obtain ⟨used, hused, husedle⟩ := hs.usedBytes_eq_ok
  have hadd {a b : Nat} (ha : a ≤ n) (hb : b ≤ s.range.size) : Word.add a b = .ok (a + b) :=
    Word.add_eq_ok_iff.2 ⟨by omega, rfl⟩
  have hkeep : x.Tallied (n + s.range.size) :=
    ⟨Nat.le_add_right_of_le hx.free, Nat.le_add_right_of_le hx.allocated,
      Nat.le_add_right_of_le hx.largeFree, Nat.le_add_right_of_le hx.largeAllocated⟩
  unfold addInputs
  split
  · refine ⟨{ x with
      largeFreeBytes := x.largeFreeBytes + free
      largeAllocatedBytes := x.largeAllocatedBytes + used }, ?_, ?_⟩
    · simp only [hfree, hused, Checked.bind_eq_ok, Except.ok.injEq, exists_eq_left',
        hadd hx.largeFree hfreele, hadd hx.largeAllocated husedle]
      rfl
    · exact ⟨hkeep.free, hkeep.allocated, Nat.add_le_add hx.largeFree hfreele,
        Nat.add_le_add hx.largeAllocated husedle⟩
  · exact ⟨x, rfl, hkeep⟩
  · split
    · refine ⟨{ x with
        freeBytes := x.freeBytes + free, allocatedBytes := x.allocatedBytes + used }, ?_, ?_⟩
      · simp only [hfree, hused, Checked.bind_eq_ok, Except.ok.injEq, exists_eq_left',
          hadd hx.free hfreele, hadd hx.allocated husedle]
        rfl
      · exact ⟨Nat.add_le_add hx.free hfreele, Nat.add_le_add hx.allocated husedle,
          hkeep.largeFree, hkeep.largeAllocated⟩
    · exact ⟨x, rfl, hkeep⟩

theorem runs_ephemeralRoom (ht : l.segments.WellFormed) (hbounded : l.segments.Bounded) :
    Runs (ephemeralRoom l) := by
  unfold ephemeralRoom
  cases he : l.ephemeral? with
  | none => exact Checked.runs_pure _
  | some s =>
    obtain ⟨x, -, hs⟩ := Option.bind_eq_some_iff.1 he
    have hsound := ht.sound hs
    have hstop := hbounded hs
    have hfree := hsound.free_le
    have hle := hsound.allocated_le_stop
    simp only [Segment.remaining, Segment.reservedEnd, AddressRange.stop, Segment.freeBytes,
      Checked.runs_bind, Word.runs_add, Word.runs_sub, Word.runs_fit, Word.add_eq_ok_iff,
      Word.sub_eq_ok_iff, Word.fit_eq_ok_iff, Checked.bind_eq_ok, Checked.runs_pure]
    have hlow : s.range.start = s.start := rfl
    constructor
    · constructor
      · exact hstop
      · rintro _ ⟨_, rfl⟩
        exact hle
    · rintro _ ⟨_, ⟨_, rfl⟩, _, rfl⟩
      constructor
      · omega
      · rintro _ ⟨_, rfl⟩
        constructor
        · omega
        · intro _ _
          trivial

theorem runs_compactionInputs (ht : l.segments.WellFormed) (hbounded : l.segments.Bounded)
    (hroom : l.segments.extent < Word.count) :
    Runs (compactionInputs l condemned reason survival) := by
  rw [compactionInputs, Checked.runs_bind]
  constructor
  · exact runs_ephemeralRoom ht hbounded
  · intro room _
    let Q (rest : List Segment) (x : CompactionInputs) : Prop :=
      (∀ s ∈ rest, s.Sound ∧ s.range.start + s.range.size < Word.count) ∧
        ∃ n, x.Tallied n ∧ n + Word.total (rest.map (·.range.size)) < Word.count
    have hstep (s : Segment) (rest : List Segment) (x : CompactionInputs) (hQ : Q (s :: rest) x) :
        ∃ x', addInputs condemned x s = .ok x' ∧ Q rest x' := by
      obtain ⟨hall, n, hx, hle⟩ := hQ
      rw [List.forall_mem_cons] at hall
      rw [List.map_cons, Word.total_cons] at hle
      obtain ⟨x', hx', htallied⟩ := tallied_addInputs hx hall.1.1 hall.1.2
        (by omega : n + s.range.size < Word.count)
      exact ⟨x', hx', hall.2, _, htallied, by omega⟩
    have hall (s : Segment) (hs : s ∈ l.segments.segments) :
        s.Sound ∧ s.range.start + s.range.size < Word.count := by
      obtain ⟨i, hi⟩ := SegmentTable.mem_segments.1 hs
      exact ⟨ht.sound hi, hbounded hi⟩
    have hfold (x : CompactionInputs) (hx : x.Tallied 0) :
        Runs (l.segments.segments.foldlM (addInputs condemned) x) := by
      obtain ⟨x', hx', -⟩ := Checked.exists_foldlM_rest Q hstep
        ⟨hall, 0, hx, by rw [Nat.zero_add]; exact hroom⟩
      exact ⟨x', hx'⟩
    exact hfold _ ⟨Nat.le_refl 0, Nat.le_refl 0, Nat.le_refl 0, Nat.le_refl 0⟩

/-! ## Planning and applying a compaction -/

theorem closed_of_laid (hl : h.memory.Laid) {k : Nat} {t : SegmentTable}
    (ht : h.memory.tables[k]? = some t) {s : Segment} (hs : s ∈ t.segments) :
    CompactionPlan.Closed h.space s := by
  obtain ⟨x, hx⟩ := SegmentTable.mem_segments.1 hs
  have hsound := (hl.wellFormed ht).sound hx
  exact ⟨hsound.start_le, hsound.allocated_le_stop, hl.bounded ht hx,
    fun a r hr hlo hhi => hl.housed.stop_le ht hx hr hlo hhi⟩

theorem tallied_planHeap (hl : h.memory.Laid) {k limit : Nat}
    (hk : h.memory.tables[k]? = some l.segments) (ht : l.Tallied n) {plan : CompactionPlan}
    (hp : plan.Moves m) (hle : m + l.segments.extent ≤ limit) (hroom : n + 2 * limit < Word.count)
    (condemned : Generation) (reason : CollectionReason) (fixed : Std.TreeSet Nat)
    (survival : Survival) :
    ∃ why l' plan', h.planHeap condemned reason fixed l survival plan = .ok (why, l', plan') ∧
      l'.Tallied (n + 2 * limit) ∧ plan'.Moves (m + l.segments.extent) := by
  obtain ⟨x, hx⟩ : Runs (compactionInputs l condemned reason survival) :=
    runs_compactionInputs (hl.wellFormed hk) (hl.bounded hk) (by omega)
  cases hwhy : x.decide? h.config.tuning with
  | none =>
    refine ⟨none, l, plan, ?_, ht.mono (Nat.le_add_right n _), hp.mono (Nat.le_add_right m _)⟩
    simp only [planHeap, hx, Checked.bind_eq_ok, Except.ok.injEq, exists_eq_left', hwhy]
    rfl
  | some why =>
    have hclosed : ∀ s ∈ l.segments.segments.filter (·.owner != .pinned),
        CompactionPlan.Closed h.space s :=
      fun s hs => closed_of_laid hl hk (List.mem_filter.1 hs).1
    obtain ⟨after, hafter, hmoves⟩ := hp.addSegments hl.apart.spread hclosed
      (isMovable condemned fixed (movesLarge h.config why))
      (Nat.add_le_add_left (Word.total_sublist_le _ List.filter_sublist) m)
      (by unfold SegmentTable.extent at hle; omega)
    have hbytes := hmoves.bytes
    have hobjects := hmoves.objects
    unfold SegmentTable.extent at hle
    have hcounters : Counters.Tallied ((l.counters.recordCompaction why).recordMechanism .compacted)
        n := ht.counters
    obtain ⟨c₁, hc₁, ht₁⟩ := hcounters.add .objectsRelocated
      (after.movedObjects - plan.movedObjects) (by omega)
    obtain ⟨c₂, hc₂, ht₂⟩ := ht₁.add .bytesRelocated
      (after.movedBytes - plan.movedBytes) (by omega)
    refine ⟨some why, { l with counters := c₂ }, after, ?_, ⟨?_, ?_⟩, hmoves⟩
    · simp only [planHeap, hx, hwhy, Checked.bind_eq_ok, Except.ok.injEq, exists_eq_left']
      exact ⟨after, hafter, c₁, hc₁, c₂, hc₂, rfl⟩
    · exact ht.budgets.mono (Nat.le_add_right n _)
    · intro y hy
      exact Nat.le_trans (ht₂ y hy) (by omega)

theorem tallied_planHeaps (hl : h.memory.Laid) {limit : Nat}
    {pairs : List (LogicalHeap × Survival)}
    (hpairs : ∀ x ∈ pairs, x.1.segments ∈ h.memory.tables ∧ x.1.Tallied n) {plan : CompactionPlan}
    (hp : plan.Moves m)
    (hle : m + Word.total (pairs.map fun x => x.1.segments.extent) ≤ limit)
    (hroom : n + 2 * limit < Word.count) (condemned : Generation) (reason : CollectionReason)
    (fixed : Std.TreeSet Nat) :
    ∃ why heaps plan', h.planHeaps condemned reason fixed pairs plan = .ok (why, heaps, plan') ∧
      (∀ l ∈ heaps, l.Tallied (n + 2 * limit)) ∧ plan'.Moves limit := by
  induction pairs generalizing m plan with
  | nil =>
    refine ⟨none, [], plan, rfl, ?_, hp.mono (by omega)⟩
    intro l hl
    cases hl
  | cons x pairs ih =>
    rw [List.forall_mem_cons] at hpairs
    rw [List.map_cons, Word.total_cons] at hle
    obtain ⟨k, hk⟩ := List.getElem?_of_mem hpairs.1.1
    obtain ⟨why, l, plan₁, hone, hl₁, hp₁⟩ := tallied_planHeap hl hk hpairs.1.2 hp
      (by omega : m + x.1.segments.extent ≤ limit) hroom condemned reason fixed x.2
    obtain ⟨later, heaps, plan', hrest, hheaps, hp'⟩ := ih hpairs.2 hp₁ (by omega)
    refine ⟨why.or later, l :: heaps, plan', ?_, ?_, hp'⟩
    · simp only [planHeaps, Checked.bind_eq_ok]
      exact ⟨_, hone, _, hrest, rfl⟩
    · rw [List.forall_mem_cons]
      exact ⟨hl₁, hheaps⟩

theorem tallied_applyPlan (hl : h.memory.Laid) (hw : h.space.Weighed) (ht : h.Tallied n)
    {plan : CompactionPlan} {k : Nat} {mv : Nat → Record → Prop}
    (hp : plan.Slides h.space (h.memory.SegmentBelow k) mv)
    (hroom : 2 * h.provider.space.range.size < Word.count) :
    ∃ h', applyPlan plan h = .ok h' ∧ h'.Tallied n := by
  cases hempty : plan.isEmpty with
  | true => exact ⟨h, applyPlan_stages.2 (.inl ⟨hempty, rfl⟩), ht⟩
  | false =>
    have hweight : ObjectSpace.weight h.space.entries ≤ h.provider.space.range.size := hl.weight_le
    obtain ⟨space, hspace⟩ := CompactionPlan.runs_apply plan hw (by omega)
    have hlaid := hl.moved hp (hp.moved_apply hl.apart hspace)
    have hfinal : (h.forwarded plan space).Tallied n := by
      refine ⟨ht.statistics, fun l hl => ?_⟩
      obtain ⟨l', hl', rfl⟩ := List.mem_map.1 hl
      exact ⟨(ht.heaps l' hl').budgets, (ht.heaps l' hl').counters⟩
    obtain ⟨h', hrebuild⟩ := runs_rebuildSegments (h := h.forwarded plan space) (by
      rw [memory_forwarded]
      exact hlaid.congr rfl rfl rfl)
    exact ⟨h', applyPlan_stages.2 (.inr ⟨hempty, space, hspace, hrebuild⟩),
      hfinal.same (refits_rebuildSegments hrebuild).sameTallies⟩

theorem tallied_compact (hl : h.memory.Laid) (hw : h.space.Weighed) (ht : h.Tallied n)
    {survivals : List Survival} (hlen : survivals.length = h.heaps.length)
    (hroom : n + 2 * h.provider.space.range.size < Word.count) (condemned : Generation)
    (fixed : Std.TreeSet Nat) (summary : CollectionSummary) :
    ∃ summary' h', h.compact condemned fixed survivals summary = .ok (summary', h') ∧
      h'.Tallied (n + 2 * h.provider.space.range.size) ∧
      summary'.objectsRelocated ≤ h.provider.space.range.size := by
  have hpairs (x : LogicalHeap × Survival) (hx : x ∈ h.heaps.zip survivals) :
      x.1.segments ∈ h.memory.tables ∧ x.1.Tallied n :=
    ⟨List.mem_map_of_mem (List.of_mem_zip hx).1, ht.heaps x.1 (List.of_mem_zip hx).1⟩
  have hextents : 0 + Word.total ((h.heaps.zip survivals).map fun x => x.1.segments.extent) ≤
      h.provider.space.range.size := by
    have hle := hl.extents_le
    have htables : h.memory.tables.map (·.extent) = h.heaps.map (·.segments.extent) := List.map_map
    rwa [Nat.zero_add, map_zip_fst hlen (·.segments.extent), ← htables]
  obtain ⟨why, heaps, plan, hplan, hheaps, hmoves⟩ := tallied_planHeaps hl hpairs
    CompactionPlan.moves_empty hextents hroom condemned summary.reason fixed
  obtain ⟨hsame, hslides⟩ := planned_slides hl hlen hplan
  have hbytes := hmoves.bytes
  have hobjects := hmoves.objects
  obtain ⟨h', happly, ht'⟩ := tallied_applyPlan (h := { h with heaps })
    (n := n + 2 * h.provider.space.range.size) (hsame ▸ hl) hw
    ⟨(ht.mono (Nat.le_add_right n _)).statistics, hheaps⟩ (hsame ▸ hslides) (by dsimp only; omega)
  exact ⟨_, h', compact_stages.2 ⟨why, heaps, plan, hplan, rfl, happly⟩, ht',
    Nat.le_trans hobjects hbytes⟩

end Heap

end GenHeap
