import GenHeap.Proofs.HousedCompaction
import GenHeap.Proofs.Heap.Sweep

/-!
Compacting all logical heaps with one plan: each object keeps its segment, all references follow,
and only movable objects change their place.
-/

namespace GenHeap

theorem HandleTable.relocate_id (t : HandleTable) : t.relocate id = t := by
  have hslot (x : Option Handle) : x.map (fun h => { h with target := id h.target }) = x := by
    cases x <;> rfl
  simp only [HandleTable.relocate, hslot, List.map_id']

theorem FinalizationQueue.relocate_id (q : FinalizationQueue) : q.relocate id = q := by
  have hlist (es : List FinalizableEntry) :
      es.map (fun e => { e with object := id e.object }) = es := List.map_id' es
  have hpending : q.pending.map (fun es => es) = q.pending :=
    PerGeneration.ext_get fun g => PerGeneration.get_map ..
  simp only [FinalizationQueue.relocate, hlist, hpending, List.map_id]

namespace Memory

/-- The segments of the first `k` tables. -/
abbrev SegmentBelow (m : Memory) (k : Nat) (s : Segment) : Prop := m.shared.SegmentBelow k s

/-- Sliding keeps every object in its segment and apart from the others. -/
theorem Laid.moved {m : Memory} (h : m.Laid) {k : Nat} {p : CompactionPlan}
    {mv : Nat → Record → Prop} {space : ObjectSpace}
    (hp : p.Slides m.space (m.SegmentBelow k) mv) (hs : m.space.Moved p.forward mv space) :
    Laid { m with space } :=
  ⟨h.housed.moved hp hs, h.start_pos, h.slots_fit.moved hs, h.balanced, h.lists⟩

end Memory

namespace Heap

variable {h h' : Heap} {condemned : Generation} {reason : CollectionReason}
  {fixed : Std.TreeSet Nat}

theorem isMovable_large {large : Bool} {a : Nat} {r : Record}
    (hm : isMovable condemned fixed large a r = true) : isMovable condemned fixed true a r = true := by
  unfold isMovable at *
  cases hg : r.generation <;> simp_all

theorem planHeap_eq_ok {l l' : LogicalHeap} {s : Survival} {p p' : CompactionPlan}
    {why : Option CompactionReason}
    (hrun : h.planHeap condemned reason fixed l s p = .ok (why, l', p')) :
    l'.segments = l.segments ∧ l'.finalization = l.finalization ∧
      (p' = p ∨ ∃ large, (l.segments.segments.filter (·.owner != .pinned)).foldlM
        (fun p s => p.addSegment s h.space (isMovable condemned fixed large)) p = .ok p') := by
  simp only [planHeap, Checked.bind_eq_ok] at hrun
  obtain ⟨inputs, _, hrun⟩ := hrun
  split at hrun
  next why' _ =>
    simp only [Checked.bind_eq_ok, Checked.pure_eq_ok, Prod.mk.injEq] at hrun
    obtain ⟨after, hafter, _, _, _, _, _, rfl, rfl⟩ := hrun
    exact ⟨rfl, rfl, .inr ⟨_, hafter⟩⟩
  next =>
    simp only [Checked.pure_eq_ok, Prod.mk.injEq] at hrun
    obtain ⟨_, rfl, rfl⟩ := hrun
    exact ⟨rfl, rfl, .inl rfl⟩

/-- Planning for the logical heaps from `k` on changes counters only. -/
theorem planHeaps_eq_ok (hm : h.memory.Laid) {k : Nat} {pairs : List (LogicalHeap × Survival)}
    (hpairs : ∀ j x, pairs[j]? = some x → h.memory.tables[k + j]? = some x.1.segments)
    {p p' : CompactionPlan} {why : Option CompactionReason} {heaps : List LogicalHeap}
    (hp : p.Slides h.space (h.memory.SegmentBelow k)
      fun a r => isMovable condemned fixed true a r = true)
    (hrun : h.planHeaps condemned reason fixed pairs p = .ok (why, heaps, p')) :
    heaps.map (·.segments) = pairs.map (·.1.segments) ∧
      heaps.map (·.finalization) = pairs.map (·.1.finalization) ∧
      p'.Slides h.space (h.memory.SegmentBelow (k + pairs.length))
        fun a r => isMovable condemned fixed true a r = true := by
  induction pairs generalizing k p why heaps with
  | nil =>
    simp only [planHeaps, Checked.pure_eq_ok, Prod.mk.injEq] at hrun
    obtain ⟨_, rfl, rfl⟩ := hrun
    exact ⟨rfl, rfl, hp⟩
  | cons x pairs ih =>
    simp only [planHeaps, Checked.bind_eq_ok, Checked.pure_eq_ok, Prod.exists, Prod.mk.injEq] at hrun
    obtain ⟨_, l, p₁, hone, _, rest, p₂, hrest, _, rfl, rfl⟩ := hrun
    obtain ⟨hseg, hqueue, hadded⟩ := planHeap_eq_ok hone
    have hfirst : h.memory.tables[k]? = some x.1.segments := hpairs 0 x rfl
    have hp₁ : p₁.Slides h.space (h.memory.SegmentBelow (k + 1))
        fun a r => isMovable condemned fixed true a r = true := by
      rcases hadded with rfl | ⟨large, hadded⟩
      · refine hp.mono fun s hs => ?_
        obtain ⟨j, x, t, hj, hin⟩ := hs
        exact ⟨j, x, t, Nat.lt_succ_of_lt hj, hin⟩
      · exact hm.housed.slides_succ hfirst hp (fun a r _ => isMovable_large) hadded
    have hlater : ∀ j y, pairs[j]? = some y →
        h.memory.tables[k + 1 + j]? = some y.1.segments := by
      intro j y hy
      rw [Nat.add_assoc, Nat.add_comm 1 j]
      exact hpairs (j + 1) y hy
    obtain ⟨hsegs, hqueues, hslides⟩ := ih hlater hp₁ hrest
    refine ⟨by rw [List.map_cons, List.map_cons, hseg, hsegs],
      by rw [List.map_cons, List.map_cons, hqueue, hqueues], ?_⟩
    rw [List.length_cons, Nat.add_comm pairs.length 1, ← Nat.add_assoc]
    exact hslides

/-- What compaction leaves of a memory whose objects move by `f`. -/
structure Relocated (mv : Nat → Record → Prop) (f : Nat → Nat) (m m' : Memory) : Prop where
  laid : m'.Laid
  spans : m'.SpansUnused
  heaps : m'.tables.length = m.tables.length
  space : m.space.Moved f mv m'.space
  handles : m'.handles = m.handles.relocate f
  queues : m'.queues = m.queues.map (·.relocate f)
  rest : m' = { m with
    tables := m'.tables, space := m'.space, handles := m'.handles, queues := m'.queues }

theorem Relocated.refl {mv : Nat → Record → Prop} {m : Memory} (hl : m.Laid) (hu : m.SpansUnused) :
    Relocated mv id m m where
  laid := hl
  spans := hu
  heaps := rfl
  space := ObjectSpace.moved_id _
  handles := (HandleTable.relocate_id _).symm
  queues := by simp only [FinalizationQueue.relocate_id, List.map_id']
  rest := rfl

theorem applyPlan_eq_ok (hm : h.memory.Laid) (hu : h.memory.SpansUnused) {k : Nat}
    {p : CompactionPlan} {mv : Nat → Record → Prop}
    (hp : p.Slides h.space (h.memory.SegmentBelow k) mv) (hrun : applyPlan p h = .ok h') :
    Relocated mv p.forward h.memory h'.memory := by
  obtain ⟨hempty, rfl⟩ | ⟨-, space, hspace, hrebuild⟩ := applyPlan_stages.1 hrun
  · have hid : p.forward = id := funext fun a => CompactionPlan.forward_of_isEmpty hempty
    rw [hid]
    exact .refl hm hu
  · obtain ⟨tables, htables, he⟩ := rebuildSegments_eq_ok hrebuild
    rw [memory_forwarded] at htables he
    have hmoved : h.space.Moved p.forward mv space := hp.moved_apply hm.apart hspace
    have hrebuilt := (hm.moved hp hmoved).rebuild htables
    refine ⟨?_, ?_, ?_, ?_, ?_, ?_, ?_⟩
    all_goals rw [he]
    · exact hrebuilt.laid.congr rfl rfl rfl
    · exact hrebuilt.spans
    · exact hrebuilt.heaps
    · exact hmoved
    · rfl

/-- Planning changes no memory, and the plan slides movable objects only. -/
theorem planned_slides (hm : h.memory.Laid) {survivals : List Survival}
    (hlen : survivals.length = h.heaps.length) {why : Option CompactionReason}
    {heaps : List LogicalHeap} {p : CompactionPlan}
    (hplan : h.planHeaps condemned reason fixed (h.heaps.zip survivals) {} = .ok (why, heaps, p)) :
    ({ h with heaps } : Heap).memory = h.memory ∧
      p.Slides h.space (h.memory.SegmentBelow (0 + (h.heaps.zip survivals).length))
        fun a r => isMovable condemned fixed true a r = true := by
  have htables : ∀ j x, (h.heaps.zip survivals)[j]? = some x →
      h.memory.tables[0 + j]? = some x.1.segments := by
    intro j x hx
    show (h.heaps.map (·.segments))[0 + j]? = _
    rw [Nat.zero_add, ← map_zip_fst hlen, List.getElem?_map, hx]
    rfl
  obtain ⟨hsegs, hqueues, hp⟩ :=
    planHeaps_eq_ok hm htables (CompactionPlan.slides_empty hm.apart.spread) hplan
  have hsame : ({ h with heaps } : Heap).memory = h.memory := by
    rw [map_zip_fst hlen] at hsegs hqueues
    simp only [memory, hsegs, hqueues]
  exact ⟨hsame, hp⟩

theorem compact_plans (hm : h.memory.Laid) {survivals : List Survival}
    (hlen : survivals.length = h.heaps.length) {summary summary' : CollectionSummary}
    (hrun : h.compact condemned fixed survivals summary = .ok (summary', h')) :
    ∃ why heaps p,
      h.planHeaps condemned summary.reason fixed (h.heaps.zip survivals) {} =
        .ok (why, heaps, p) ∧
      summary' = { summary with compaction := why, objectsRelocated := p.movedObjects } ∧
      ({ h with heaps } : Heap).memory = h.memory ∧
      p.Slides h.space (h.memory.SegmentBelow (0 + (h.heaps.zip survivals).length))
        (fun a r => isMovable condemned fixed true a r = true) ∧
      applyPlan p { h with heaps } = .ok h' := by
  obtain ⟨why, heaps, p, hplan, hsummary, happly⟩ := compact_stages.1 hrun
  obtain ⟨hsame, hp⟩ := planned_slides hm hlen hplan
  exact ⟨why, heaps, p, hplan, hsummary, hsame, hp, happly⟩

/-- Compaction moves movable objects only, and all references with them. -/
theorem compact_eq_ok (hm : h.memory.Laid) (hu : h.memory.SpansUnused)
    {survivals : List Survival} (hlen : survivals.length = h.heaps.length)
    {summary summary' : CollectionSummary}
    (hrun : h.compact condemned fixed survivals summary = .ok (summary', h')) :
    ∃ f, Relocated (fun a r => isMovable condemned fixed true a r = true) f h.memory h'.memory := by
  obtain ⟨why, heaps, p, _, _, hsame, hp, happly⟩ := compact_plans hm hlen hrun
  have happlied := applyPlan_eq_ok (h := { h with heaps }) (by rw [hsame]; exact hm)
    (by rw [hsame]; exact hu) (by rw [hsame]; exact hp) happly
  rw [hsame] at happlied
  exact ⟨p.forward, happlied⟩

end Heap

end GenHeap
