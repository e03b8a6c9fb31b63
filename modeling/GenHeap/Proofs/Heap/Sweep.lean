import GenHeap.Proofs.Heap.Cards
import GenHeap.Proofs.Heap.Stages

/-!
The stages of reclaiming beside compaction, by what each does to the memory.
-/

namespace GenHeap.Heap

variable {h h' : Heap} {condemned : Generation} {live : Nat → Record → Bool} {a b : Nat}
  {r q : Record}

/-! ## Sweeping -/

theorem memory_sweepDead : (h.sweepDead live).2.memory =
    { h.memory with space := (h.space.removeWhere fun a r => !live a r).2 } := by
  have hfold (gone : List (Nat × Record)) (h : Heap) :
      (gone.foldl (fun h x => h.modifyHeap x.2.heap fun l =>
        { l with budgets := l.budgets.discharge x.2.generation x.2.size }) h).memory = h.memory := by
    induction gone generalizing h with
    | nil => rfl
    | cons x gone ih => exact (ih _).trans (memory_modifyHeap (fun _ => rfl) fun _ => rfl)
  have hgone := hfold (h.space.removeWhere fun a r => !live a r).1 h
  unfold sweepDead
  simp only [memory, Memory.mk.injEq] at hgone ⊢
  exact ⟨hgone.1, hgone.2.1, rfl, hgone.2.2.2⟩

theorem get?_sweepDead : (h.sweepDead live).2.space.get? a =
    (h.space.get? a).filter (live a) := by
  show (h.space.removeWhere fun a r => !live a r).2.get? a = _
  rw [ObjectSpace.get?_removeWhere]
  simp only [Bool.not_not]

/-- Computing every logical heap anew, with the same queues. -/
theorem memory_mapM_heaps {f : LogicalHeap → Checked LogicalHeap}
    {k : SegmentTable → Checked SegmentTable}
    (hf : ∀ l l', f l = .ok l' → k l.segments = .ok l'.segments ∧
      l'.finalization = l.finalization)
    {heaps : List LogicalHeap} (hrun : h.heaps.mapM f = .ok heaps) :
    ∃ tables, h.memory.tables.mapM k = .ok tables ∧
      ({ h with heaps } : Heap).memory = { h.memory with tables } := by
  have hlists (xs ys : List LogicalHeap) (hrun : xs.mapM f = .ok ys) :
      (xs.map (·.segments)).mapM k = .ok (ys.map (·.segments)) ∧
        ys.map (·.finalization) = xs.map (·.finalization) := by
    induction xs generalizing ys with
    | nil =>
      cases hrun
      exact ⟨rfl, rfl⟩
    | cons x xs ih =>
      rw [List.mapM_cons, Checked.bind_eq_ok] at hrun
      obtain ⟨y, hy, hrun⟩ := hrun
      rw [Checked.bind_eq_ok] at hrun
      obtain ⟨zs, hzs, hrun⟩ := hrun
      cases hrun
      obtain ⟨hk, hq⟩ := hf x y hy
      obtain ⟨hks, hqs⟩ := ih zs hzs
      refine ⟨?_, by rw [List.map_cons, List.map_cons, hq, hqs]⟩
      rw [List.map_cons, List.mapM_cons, hk, hks]
      rfl
  obtain ⟨htables, hqueues⟩ := hlists h.heaps heaps hrun
  exact ⟨heaps.map LogicalHeap.segments, htables, by simp only [memory, hqueues]⟩

theorem rebuildSegments_eq_ok (hrun : h.rebuildSegments = .ok h') :
    ∃ tables, h.memory.tables.mapM (·.rebuild h.space) = .ok tables ∧
      h'.memory = { h.memory with tables } := by
  simp only [rebuildSegments, Checked.bind_eq_ok, Checked.pure_eq_ok] at hrun
  obtain ⟨heaps, hheaps, rfl⟩ := hrun
  refine memory_mapM_heaps (fun l l' hl => ?_) hheaps
  simp only [Checked.bind_eq_ok, Checked.pure_eq_ok] at hl
  obtain ⟨segments, hsegments, rfl⟩ := hl
  exact ⟨hsegments, rfl⟩

/-! ## Promotion -/

/-- A record after the survivors of a collection are promoted. -/
def aged (condemned : Generation) (r : Record) : Record :=
  if isPromoted condemned r then { r with generation := r.generation.promoted } else r

theorem memory_promote (hrun : h.promote a r = .ok h') : h'.memory = { h.memory with
    space := h.space.update a fun q => { q with generation := r.generation.promoted } } := by
  simp only [promote, Checked.bind_eq_ok, Checked.pure_eq_ok] at hrun
  obtain ⟨mid, hmid, rfl⟩ := hrun
  have hsame : mid.memory = h.memory := memory_updateHeap (fun l l' hl => by
    simp only [Checked.bind_eq_ok, Checked.pure_eq_ok] at hl
    obtain ⟨_, _, _, _, rfl⟩ := hl
    exact ⟨rfl, rfl⟩) hmid
  simp only [memory, Memory.mk.injEq] at hsame ⊢
  obtain ⟨hp, ht, hs, hrest⟩ := hsame
  exact ⟨hp, ht, by rw [hs], hrest⟩

/-- Each promoted object is changed once. -/
theorem memory_foldlM_promote {objects : List (Nat × Record)}
    (hdistinct : objects.Pairwise fun x y => x.1 ≠ y.1)
    (hrun : objects.foldlM (fun h x => h.promote x.1 x.2) h = .ok h') :
    ∃ space, h'.memory = { h.memory with space } ∧
      (∀ x ∈ objects, space.get? x.1 =
        (h.space.get? x.1).map ({ · with generation := x.2.generation.promoted })) ∧
      ∀ a, (∀ x ∈ objects, x.1 ≠ a) → space.get? a = h.space.get? a := by
  induction objects generalizing h with
  | nil =>
    rw [List.foldlM_nil, Checked.pure_eq_ok] at hrun
    subst hrun
    exact ⟨h.space, rfl, fun _ hx => absurd hx List.not_mem_nil, fun _ _ => rfl⟩
  | cons x objects ih =>
    rw [List.foldlM_cons, Checked.bind_eq_ok] at hrun
    obtain ⟨mid, hmid, hrun⟩ := hrun
    rw [List.pairwise_cons] at hdistinct
    have hm := memory_promote hmid
    have hspace : mid.space = h.space.update x.1
        fun q => { q with generation := x.2.generation.promoted } := congrArg Memory.space hm
    obtain ⟨space, hs, hin, hout⟩ := ih hdistinct.2 hrun
    refine ⟨space, by rw [hs, hm], ?_, ?_⟩
    · intro y hy
      rcases List.mem_cons.1 hy with rfl | hy'
      · rw [hout y.1 fun z hz => (hdistinct.1 z hz).symm, hspace, ObjectSpace.get?_update,
          if_pos rfl]
      · rw [hin y hy', hspace, ObjectSpace.get?_update, if_neg (hdistinct.1 y hy')]
    · intro c hc
      rw [hout c fun y hy => hc y (List.mem_cons_of_mem _ hy), hspace, ObjectSpace.get?_update,
        if_neg (hc x List.mem_cons_self)]

theorem promoteSurvivors_eq_ok {summary summary' : CollectionSummary}
    (hrun : h.promoteSurvivors condemned summary = .ok (summary', h')) :
    ∃ space, h'.memory = { h.memory with space } ∧
      ∀ a, space.get? a = (h.space.get? a).map (aged condemned) := by
  simp only [promoteSurvivors, Checked.bind_eq_ok, Checked.pure_eq_ok, Prod.mk.injEq] at hrun
  obtain ⟨h₁, hfold, _, rfl⟩ := hrun
  obtain ⟨space, hs, hin, hout⟩ := memory_foldlM_promote
    (ObjectSpace.distinct_filter_entries ..) hfold
  refine ⟨space, hs, fun a => ?_⟩
  cases hr : h.space.get? a with
  | none =>
    rw [hout a fun x hx => ?_, hr]
    · rfl
    · rintro rfl
      rw [ObjectSpace.mem_entries.1 (List.mem_filter.1 hx).1] at hr
      cases hr
  | some r =>
    by_cases hp : isPromoted condemned r = true
    · have hmem : (a, r) ∈ h.space.entries.filter fun x => isPromoted condemned x.2 :=
        List.mem_filter.2 ⟨ObjectSpace.mem_entries.2 hr, hp⟩
      rw [hin (a, r) hmem, hr]
      simp only [Option.map_some, aged, hp, if_true]
    · rw [hout a fun x hx => ?_, hr]
      · simp only [Option.map_some, aged, hp, Bool.false_eq_true, if_false]
      · rintro rfl
        obtain ⟨hx, hpx⟩ := List.mem_filter.1 hx
        rw [ObjectSpace.mem_entries.1 hx] at hr
        cases hr
        exact hp hpx

/-! ## Budgets -/

theorem map_zip_fst {α β γ : Type} {xs : List α} {ys : List β} (hlen : ys.length = xs.length)
    (g : α → γ) : (xs.zip ys).map (fun x => g x.1) = xs.map g := by
  have hfst : (xs.zip ys).map Prod.fst = xs := List.map_fst_zip (Nat.le_of_eq hlen.symm)
  rw [← hfst, List.map_map, hfst]
  rfl

theorem memory_tuneBudgets {survivals : List Survival} (hlen : survivals.length = h.heaps.length)
    (hrun : h.tuneBudgets condemned survivals = .ok h') : h'.memory = h.memory := by
  simp only [tuneBudgets, Checked.bind_eq_ok, Checked.pure_eq_ok] at hrun
  obtain ⟨heaps, hheaps, rfl⟩ := hrun
  have hmap {β : Type} (g : LogicalHeap → β)
      (hg : ∀ l b c, g { l with budgets := b, counters := c } = g l) :
      heaps.map g = h.heaps.map g := by
    rw [← map_zip_fst hlen]
    refine Checked.map_of_mapM hheaps fun x l hl => ?_
    simp only [Checked.bind_eq_ok, Checked.pure_eq_ok] at hl
    obtain ⟨b, _, c, _, rfl⟩ := hl
    exact hg ..
  simp only [memory, hmap LogicalHeap.segments fun _ _ _ => rfl,
    hmap LogicalHeap.finalization fun _ _ _ => rfl]

/-! ## Sorting the queues -/

open Memory (Rearranged)

theorem syncHeap_eq_ok (hl : h.memory.Laid) (hu : h.memory.SpansUnused) {i : Nat}
    (hi : i < h.heaps.length) {x : Except HeapError Unit}
    (hrun : syncHeap condemned i h = .ok (x, h')) : (∃ u, x = .ok u) ∧
      Rearranged { h.memory with queues := h.memory.queues.modify i (sortedBy h.space) }
        h'.memory := by
  have hlen : h.heaps[i]? = some h.heaps[i] := List.getElem?_eq_getElem hi
  rw [syncHeap_apply] at hrun
  obtain ⟨arena, harena, rfl⟩ := (onArena_eq_ok (getElem?_sortQueue hlen)).1 hrun
  have hl' : Memory.Laid { h.memory with queues := h.memory.queues.modify i (sortedBy h.space) } :=
    hl.congr rfl rfl rfl
  obtain ⟨rfl, hr⟩ := hl'.promoteRegions hu (getElem?_tables hlen) harena
  refine ⟨⟨_, rfl⟩, ?_⟩
  rw [memory_withArena, memory_sortQueue]
  exact hr

/-- After all rounds every queue is sorted. -/
theorem syncHeaps_eq_ok (hl : h.memory.Laid) (hu : h.memory.SpansUnused)
    {x : Except HeapError Unit}
    (hrun : (List.range h.heaps.length).forM (syncHeap condemned) h = .ok (x, h')) :
    (∃ u, x = .ok u) ∧
      Rearranged { h.memory with queues := h.memory.queues.map (sortedBy h.space) } h'.memory := by
  have hall := Effect.forM_range (fun k g => ∃ queues,
    (∀ j, queues[j]? = (h.memory.queues[j]?).map fun q => if j < k then sortedBy h.space q else q) ∧
    Rearranged { h.memory with queues } g.memory) ?_ ?_ hrun
  · obtain ⟨hx, queues, hq, hr⟩ := hall
    have hsorted : queues = h.memory.queues.map (sortedBy h.space) := by
      apply List.ext_getElem?
      intro j
      rw [hq, List.getElem?_map]
      cases hj : h.memory.queues[j]? with
      | none => rfl
      | some q =>
        have hlt := (List.getElem?_eq_some_iff.1 hj).1
        rw [show h.memory.queues.length = h.heaps.length from List.length_map ..] at hlt
        rw [Option.map_some, if_pos hlt]
        rfl
    exact ⟨hx, hsorted ▸ hr⟩
  · rintro k g y g' hk ⟨queues, hq, hr⟩ hround
    have hspace : g.space = h.space := congrArg Memory.space hr.rest
    have hqueues : g.memory.queues = queues := congrArg Memory.queues hr.rest
    have hlen : k < g.heaps.length := by
      rw [← length_tables, hr.heaps]
      exact length_tables ▸ hk
    obtain ⟨hy, hr'⟩ := syncHeap_eq_ok hr.laid hr.spans hlen hround
    refine ⟨hy, queues.modify k (sortedBy h.space), fun j => ?_, ?_⟩
    · rw [List.getElem?_modify, hq]
      cases h.memory.queues[j]? with
      | none => rfl
      | some q =>
        simp only [Option.map_some, Option.map_eq_map]
        rcases Nat.lt_trichotomy j k with hj | hj | hj
        · simp only [Nat.ne_of_gt hj, hj, Nat.lt_succ_of_lt hj, if_true, if_false]
        · simp only [hj, Nat.lt_irrefl, Nat.lt_succ_self, if_true, if_false]
        · simp only [Nat.ne_of_lt hj, Nat.lt_asymm hj, Nat.not_lt.2 hj, if_false]
    · rw [hspace, hqueues] at hr'
      refine ⟨hr'.laid, hr'.spans, hr'.range.trans hr.range, hr'.heaps.trans hr.heaps, ?_⟩
      rw [hr'.rest, hr.rest]
  · refine ⟨h.memory.queues, fun j => ?_, .refl hl hu⟩
    simp only [Nat.not_lt_zero, if_false, Option.map_id']

/-! ## Empty segments -/

/-- Segments that a generation still lists. -/
def Owns (h : Heap) (i : Nat) (g : Generation) (id : Nat) : Prop :=
  ∃ l, h.heaps[i]? = some l ∧ id ∈ l.segments.owned.get g

theorem decommitSegment_eq_ok (hl : h.memory.Laid) (hu : h.memory.SpansUnused) {i id kept : Nat}
    {g : Generation} (hid : h.Owns i g id) {active : Option Nat} {x : Except HeapError Nat}
    (hrun : decommitSegment i active kept id h = .ok (x, h')) : (∃ n, x = .ok n) ∧
      Rearranged h.memory h'.memory ∧ ∀ y, h.Owns i g y → y ≠ id → h'.Owns i g y := by
  have hsame : Rearranged h.memory h.memory ∧ ∀ y, h.Owns i g y → y ≠ id → h.Owns i g y :=
    ⟨.refl hl hu, fun _ hy _ => hy⟩
  obtain ⟨l, hheap, hmem⟩ := hid
  have htable := getElem?_tables hheap
  obtain ⟨s, hs, _⟩ := (hl.wellFormed htable).listed hmem
  obtain ⟨-, rfl, rfl⟩ | ⟨-, -, ⟨-, rfl, rfl⟩ | ⟨-, _, arena, harena, rfl, rfl⟩⟩ :=
    decommitSegment_cases hheap hs hrun
  · exact ⟨⟨_, rfl⟩, hsame⟩
  · exact ⟨⟨_, rfl⟩, hsame⟩
  · obtain ⟨⟨b, rfl⟩, hr, howned⟩ := hl.decommit hu htable hs harena
    refine ⟨⟨_, rfl⟩, memory_withArena ▸ hr, ?_⟩
    rintro y ⟨l', hl', hy⟩ hne
    cases hheap.symm.trans hl'
    exact ⟨_, getElem?_modifyHeap hheap, howned g y hy hne⟩

/-- The segments of a list are given back one by one; those that are still to come stay listed. -/
theorem decommitSegments_eq_ok {i : Nat} {g : Generation} {active : Option Nat} {ids : List Nat}
    (hnodup : ids.Nodup) {kept : Nat} (hl : h.memory.Laid) (hu : h.memory.SpansUnused)
    (hids : ∀ id ∈ ids, h.Owns i g id) {x : Except HeapError Nat}
    (hrun : ids.foldlM (decommitSegment i active) kept h = .ok (x, h')) :
    (∃ n, x = .ok n) ∧ Rearranged h.memory h'.memory := by
  induction ids generalizing h kept with
  | nil =>
    rw [List.foldlM_nil] at hrun
    cases hrun
    exact ⟨⟨_, rfl⟩, .refl hl hu⟩
  | cons id ids ih =>
    rw [List.nodup_cons] at hnodup
    rw [List.foldlM_cons, Effect.bind_eq_ok] at hrun
    rcases hrun with ⟨n, mid, hone, hrest⟩ | ⟨e, hone, rfl⟩
    · obtain ⟨_, hr, howns⟩ :=
        decommitSegment_eq_ok hl hu (hids id List.mem_cons_self) hone
      obtain ⟨hx, hr'⟩ := ih hnodup.2 hr.laid hr.spans (fun y hy =>
        howns y (hids y (List.mem_cons_of_mem _ hy)) fun he => hnodup.1 (he ▸ hy)) hrest
      exact ⟨hx, hr.trans hr'⟩
    · obtain ⟨⟨n, hn⟩, _⟩ := decommitSegment_eq_ok hl hu (hids id List.mem_cons_self) hone
      cases hn

theorem decommitEmpty_eq_ok (hl : h.memory.Laid) (hu : h.memory.SpansUnused) {i : Nat}
    (hi : i < h.heaps.length) {x : Except HeapError Unit}
    (hrun : decommitEmpty i h = .ok (x, h')) :
    (∃ u, x = .ok u) ∧ Rearranged h.memory h'.memory := by
  have hloop {y : Except HeapError Nat} {g : Heap}
      (hall : Generation.all.foldlM (decommitGeneration i) 0 h = .ok (y, g)) :
      (∃ n, y = .ok n) ∧ Rearranged h.memory g.memory := by
    refine Effect.foldlM_induct (fun k => Rearranged h.memory k.memory) ?_ (.refl hl hu) hall
    intro kept gen k z k' _ hr hround
    have hlt : i < k.heaps.length := by
      rw [← length_tables, hr.heaps, length_tables]
      exact hi
    have hheap : k.heaps[i]? = some k.heaps[i] := List.getElem?_eq_getElem hlt
    simp only [decommitGeneration, Effect.get_bind, fetchHeap, hheap,
      Transition.ofExcept_bind] at hround
    have hwf := hr.laid.wellFormed (getElem?_tables hheap)
    obtain ⟨hz, hr'⟩ := decommitSegments_eq_ok (hwf.nodup gen) hr.laid hr.spans
      (fun id hid => ⟨_, hheap, hid⟩) hround
    exact ⟨hz, hr.trans hr'⟩
  unfold decommitEmpty at hrun
  rw [Effect.bind_eq_ok] at hrun
  rcases hrun with ⟨n, mid, hall, hrun⟩ | ⟨e, hall, rfl⟩
  · cases hrun
    exact ⟨⟨_, rfl⟩, (hloop hall).2⟩
  · obtain ⟨n, hn⟩ := (hloop hall).1
    cases hn

end GenHeap.Heap
