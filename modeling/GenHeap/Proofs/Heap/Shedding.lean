import GenHeap.Proofs.Heap.Shape
import GenHeap.Proofs.Heap.Stages
import GenHeap.Proofs.Shedding

/-!
What the loops over segments give back. The counter of kept segments runs on from one generation to
the next, so the generations of a logical heap share the number that the configuration asks for.
-/

namespace GenHeap.Heap

open Memory (Rearranged)
open Provider (TakesBack)

variable {h h' : Heap} {i id kept n : Nat} {g : Generation} {l : LogicalHeap}

/-- The empty segments that a logical heap keeps although nothing is allocated in them. -/
abbrev retained (h : Heap) : Nat := h.config.tuning.retainedEmptySegments

/-! ## One generation -/

/-- The round of one segment: it stays because it is in use, or because it is still to be kept, or
else it goes. -/
theorem decommitSegment_rationed (hl : h.memory.Laid) (hheap : h.heaps[i]? = some l)
    (hanchored : l.segments.Anchored) (hid : id ∈ l.segments.owned.get g)
    (hkept : kept ≤ h.retained)
    (hrun : decommitSegment i (l.segments.allocSegment? g) kept id h = .ok (.ok n, h')) :
    ∃ arena, h' = h.withArena i arena ∧ (h.arena l).Rationed h.retained kept
      (l.segments.sparesAmong h.space g [id]) n arena := by
  have hsound := hl.housed.arena_sound (getElem?_tables hheap)
  obtain ⟨s, hs, rfl⟩ := hsound.wellFormed.listed hid
  cases hsound.wellFormed.ids hs
  have hself := (withArena_arena hheap).symm
  rw [SegmentTable.sparesAmong_singleton hs]
  obtain ⟨hused, ⟨⟩, rfl⟩ | ⟨hactive, hempty, hspent⟩ := decommitSegment_cases hheap hs hrun
  · have hspare : ¬l.segments.Spare h.space s.owner s := by
      rintro ⟨hactive, hfree⟩
      obtain hactive' | hholds := hused
      · exact hactive hactive'
      · exact hfree ((SegmentArena.holdsObject_eq_ok hholds).1 rfl)
    rw [if_neg hspare]
    exact ⟨_, hself, .nil hkept _⟩
  · have hspare : l.segments.Spare h.space s.owner s :=
      ⟨hactive, fun hin => Bool.false_ne_true ((SegmentArena.holdsObject_eq_ok hempty).2 hin)⟩
    rw [if_pos hspare]
    obtain ⟨hfew, ⟨⟩, rfl⟩ | ⟨hmany, y, arena, harena, hn, rfl⟩ := hspent
    · refine ⟨_, hself, (Nat.min_eq_right hfew).symm, ?_⟩
      rw [List.drop_eq_nil_of_le (Nat.sub_pos_of_lt hfew)]
      exact .refl _
    · obtain _ | b := y
      · cases hn
      · cases hn
        obtain rfl : kept = h.retained := Nat.le_antisymm hkept hmany
        refine ⟨arena, rfl, (Nat.min_eq_left (Nat.le_add_right ..)).symm, ?_⟩
        rw [Nat.sub_self, List.drop_zero]
        exact (hsound.sheds_decommitIfEmpty hanchored hs hspare harena).2

/-- The loop over some segments of a generation. -/
theorem decommitSegments_rationed {ids : List Nat} (hnodup : ids.Nodup) (hl : h.memory.Laid)
    (hu : h.memory.SpansUnused) (hheap : h.heaps[i]? = some l) (hanchored : l.segments.Anchored)
    (hids : ∀ id ∈ ids, id ∈ l.segments.owned.get g) (hkept : kept ≤ h.retained)
    (hrun : ids.foldlM (decommitSegment i (l.segments.allocSegment? g)) kept h = .ok (.ok n, h')) :
    ∃ arena, h' = h.withArena i arena ∧ (h.arena l).Rationed h.retained kept
      (l.segments.sparesAmong h.space g ids) n arena := by
  induction ids generalizing h l kept with
  | nil =>
    have hnone : l.segments.sparesAmong h.space g [] = [] := rfl
    rw [List.foldlM_nil] at hrun
    cases hrun
    rw [hnone]
    exact ⟨_, (withArena_arena hheap).symm, .nil hkept _⟩
  | cons id ids ih =>
    rw [List.nodup_cons] at hnodup
    rw [List.foldlM_cons, Effect.bind_eq_ok_ok] at hrun
    obtain ⟨m, h₁, hone, hrest⟩ := hrun
    have hid := hids id List.mem_cons_self
    have hwf := hl.wellFormed (getElem?_tables hheap)
    obtain ⟨_, hr, _⟩ := decommitSegment_eq_ok hl hu ⟨l, hheap, hid⟩ hone
    obtain ⟨arena, rfl, hfirst⟩ := decommitSegment_rationed hl hheap hanchored hid hkept hone
    have htable : l.segments.Sheds _ arena.table := hfirst.sheds.table
    -- Only the segment of this round can have gone.
    have hstay : ∀ y ∈ ids, y ∉ ((l.segments.sparesAmong h.space g [id]).drop
        (h.retained - kept)).map (·.id) := by
      intro y hy hin
      obtain ⟨s, hs, rfl⟩ := List.mem_map.1 hin
      obtain ⟨⟨x, hx, hfind⟩, _⟩ := SegmentTable.mem_sparesAmong.1 (List.mem_of_mem_drop hs)
      cases List.mem_singleton.1 hx
      exact hnodup.1 (hwf.ids hfind ▸ hy)
    have hids₁ : ∀ y ∈ ids, y ∈ arena.table.owned.get g := by
      intro y hy
      rw [htable.owned]
      exact List.mem_filter.2 ⟨hids y (List.mem_cons_of_mem _ hy), decide_eq_true (hstay y hy)⟩
    rw [← htable.allocSegment?] at hrest
    obtain ⟨arena', rfl, hlast⟩ := ih hnodup.2 hr.laid hr.spans (getElem?_modifyHeap hheap)
      (htable.anchored hanchored) hids₁ (hfirst.count ▸ Nat.min_le_left ..) hrest
    refine ⟨arena', withArena_withArena, ?_⟩
    change arena.Rationed h.retained m (arena.table.sparesAmong h.space g ids) n arena' at hlast
    rw [htable.sparesAmong_eq hstay] at hlast
    rw [← List.singleton_append, SegmentTable.sparesAmong_append]
    exact hfirst.append hlast

/-! ## All generations -/

/-- The loop over some generations, which goes on with the counter of the one before. -/
theorem decommitGenerations_rationed {todo : List Generation} (hnodup : todo.Nodup)
    (hl : h.memory.Laid) (hu : h.memory.SpansUnused) (hheap : h.heaps[i]? = some l)
    (hanchored : l.segments.Anchored) (hkept : kept ≤ h.retained)
    (hrun : todo.foldlM (decommitGeneration i) kept h = .ok (.ok n, h')) :
    ∃ arena, h' = h.withArena i arena ∧ (h.arena l).Rationed h.retained kept
      (todo.flatMap (l.segments.sparesOf h.space)) n arena := by
  induction todo generalizing h l kept with
  | nil =>
    rw [List.foldlM_nil] at hrun
    cases hrun
    exact ⟨_, (withArena_arena hheap).symm, .nil hkept _⟩
  | cons g todo ih =>
    rw [List.nodup_cons] at hnodup
    rw [List.foldlM_cons, Effect.bind_eq_ok_ok] at hrun
    obtain ⟨m, h₁, hone, hrest⟩ := hrun
    simp only [decommitGeneration, Effect.get_bind, fetchHeap, hheap,
      Transition.ofExcept_bind] at hone
    have hwf := hl.wellFormed (getElem?_tables hheap)
    obtain ⟨_, hr⟩ :=
      decommitSegments_eq_ok (hwf.nodup g) hl hu (fun id hid => ⟨l, hheap, hid⟩) hone
    obtain ⟨arena, rfl, hfirst⟩ := decommitSegments_rationed (hwf.nodup g) hl hu hheap hanchored
      (fun _ hid => hid) hkept hone
    have htable : l.segments.Sheds _ arena.table := hfirst.sheds.table
    obtain ⟨arena', rfl, hlast⟩ := ih hnodup.2 hr.laid hr.spans (getElem?_modifyHeap hheap)
      (htable.anchored hanchored) (hfirst.count ▸ Nat.min_le_left ..) hrest
    refine ⟨arena', withArena_withArena, ?_⟩
    -- What went was this generation's, so the others have the same spare segments as before.
    have hothers : todo.flatMap (arena.table.sparesOf h.space) =
        todo.flatMap (l.segments.sparesOf h.space) := by
      refine List.flatMap_congr fun g' hg' => htable.sparesOf_of_owner_ne hwf fun s hs => ?_
      obtain ⟨_, howner⟩ := hwf.owner_of_mem_sparesOf (List.mem_of_mem_drop hs)
      rintro rfl
      exact hnodup.1 (howner ▸ hg')
    change arena.Rationed h.retained m (todo.flatMap (arena.table.sparesOf h.space)) n arena'
      at hlast
    rw [hothers] at hlast
    exact hfirst.append hlast

/-- Of the spare segments of a logical heap those go that are too many. -/
theorem decommitEmpty_sheds (hl : h.memory.Laid) (hu : h.memory.SpansUnused)
    (hheap : h.heaps[i]? = some l) (hanchored : l.segments.Anchored)
    (hrun : decommitEmpty i h = .ok (.ok ⟨⟩, h')) :
    ∃ arena, h' = h.withArena i arena ∧
      (h.arena l).Sheds ((l.segments.spares h.space).drop h.retained) arena := by
  unfold decommitEmpty at hrun
  rw [Effect.bind_eq_ok_ok] at hrun
  obtain ⟨n, h₁, hall, hrun⟩ := hrun
  cases hrun
  obtain ⟨arena, he, hrationed⟩ :=
    decommitGenerations_rationed (by decide) hl hu hheap hanchored (Nat.zero_le _) hall
  exact ⟨arena, he, hrationed.sheds⟩

/-! ## All logical heaps -/

/-- The spare segments of a logical heap beyond those that it keeps. -/
def surplus (h : Heap) (l : LogicalHeap) : List Segment :=
  (l.segments.spares h.space).drop h.retained

/-- The loop over the logical heaps: the first `k` of them have given their surplus back. -/
structure Sheds (h : Heap) (k : Nat) (h' : Heap) : Prop where
  rearranged : Rearranged h.memory h'.memory
  config : h'.config = h.config
  done : ∀ {i l}, i < k → h.heaps[i]? = some l →
    ∃ l', h'.heaps[i]? = some l' ∧ l.segments.Sheds (h.surplus l) l'.segments
  behind : ∀ {i}, k ≤ i → h'.heaps[i]? = h.heaps[i]?
  provider : TakesBack ((h.heaps.take k).flatMap fun l => l.segments.released (h.surplus l))
    (Word.total (((h.heaps.take k).flatMap h.surplus).map (·.committed))) h.provider h'.provider

theorem Sheds.refl (hl : h.memory.Laid) (hu : h.memory.SpansUnused) : h.Sheds 0 h where
  rearranged := .refl hl hu
  config := rfl
  done hi := absurd hi (Nat.not_lt_zero _)
  behind _ := rfl
  provider := .refl _

theorem Sheds.space {k : Nat} (hs : h.Sheds k h') : h'.space = h.space :=
  congrArg Memory.space hs.rearranged.rest

theorem Sheds.round {k : Nat} {h₁ : Heap} (hs : h.Sheds k h₁) (hk : k < h.heaps.length)
    (hanchored : ∀ l ∈ h.heaps, l.segments.Anchored) {x : Except HeapError Unit}
    (hrun : decommitEmpty k h₁ = .ok (x, h')) : (∃ u, x = .ok u) ∧ h.Sheds (k + 1) h' := by
  have hheap : h.heaps[k]? = some h.heaps[k] := List.getElem?_eq_getElem hk
  have hheap₁ : h₁.heaps[k]? = some h.heaps[k] := (hs.behind (Nat.le_refl k)).trans hheap
  have hlt : k < h₁.heaps.length := (List.getElem?_eq_some_iff.1 hheap₁).1
  obtain ⟨⟨u, rfl⟩, hr⟩ := decommitEmpty_eq_ok hs.rearranged.laid hs.rearranged.spans hlt hrun
  obtain ⟨arena, rfl, hsheds⟩ := decommitEmpty_sheds hs.rearranged.laid hs.rearranged.spans hheap₁
    (hanchored _ (List.getElem_mem hk)) hrun
  have hsurplus : (h.heaps[k].segments.spares h₁.space).drop h₁.retained =
      h.surplus h.heaps[k] := by
    unfold surplus retained
    rw [hs.config, hs.space]
  rw [hsurplus] at hsheds
  have hother {i : Nat} (hi : i ≠ k) : (h₁.withArena k arena).heaps[i]? = h₁.heaps[i]? := by
    show (h₁.heaps.modify k _)[i]? = _
    simp only [List.getElem?_modify, Ne.symm hi, if_false, Option.map_eq_map, Option.map_id']
  refine ⟨⟨u, rfl⟩, hs.rearranged.trans hr, hs.config, fun {i l} hi hl => ?_, fun {i} hi => ?_, ?_⟩
  · rcases Nat.lt_or_eq_of_le (Nat.le_of_lt_succ hi) with hi | rfl
    · rw [hother (Nat.ne_of_lt hi)]
      exact hs.done hi hl
    · cases hheap.symm.trans hl
      exact ⟨_, getElem?_modifyHeap hheap₁, hsheds.table⟩
  · rw [hother (Nat.ne_of_gt hi)]
    exact hs.behind (Nat.le_of_succ_le hi)
  · rw [List.take_add_one, hheap, Option.toList_some, List.flatMap_append, List.flatMap_append,
      List.flatMap_singleton, List.flatMap_singleton, List.map_append, Word.total_append]
    exact hs.provider.trans hsheds.provider

/-- Each table that is left of a whole run comes from one that has given its surplus back. -/
theorem Sheds.of_table (hs : h.Sheds h.heaps.length h') {t : SegmentTable}
    (ht : h'.memory.tables[i]? = some t) :
    ∃ l, h.heaps[i]? = some l ∧ l.segments.Sheds (h.surplus l) t := by
  obtain ⟨l', hl', rfl⟩ := Option.map_eq_some_iff.1 ((List.getElem?_map ..).symm.trans ht)
  have hlt := (List.getElem?_eq_some_iff.1 ht).1
  rw [hs.rearranged.heaps, length_tables] at hlt
  have hheap := List.getElem?_eq_getElem hlt
  obtain ⟨x, hx, hsheds⟩ := hs.done hlt hheap
  cases hl'.symm.trans hx
  exact ⟨_, hheap, hsheds⟩

theorem decommitHeaps_sheds (hl : h.memory.Laid) (hu : h.memory.SpansUnused)
    (hanchored : ∀ l ∈ h.heaps, l.segments.Anchored) {x : Except HeapError Unit}
    (hrun : (List.range h.heaps.length).forM decommitEmpty h = .ok (x, h')) :
    h.Sheds h.heaps.length h' :=
  (Effect.forM_range (fun k s => h.Sheds k s)
    (fun _ _ _ _ hk hs hround => hs.round hk hanchored hround) (.refl hl hu) hrun).2

end GenHeap.Heap
