import GenHeap.Proofs.Constants
import GenHeap.Proofs.Heap.Placement
import GenHeap.Proofs.Heap.Steady
import GenHeap.Proofs.Weight

/-!
What stands through collections and searches for a block: the configuration, the clock, what was
allocated, and the failures on record. Most steps leave besides what is booked, and the bytes that
there are to book. A search leaves all but the segments and what is counted of them.
-/

namespace GenHeap

namespace LogicalHeap

/-- What a logical heap keeps, other than its content. -/
structure Standing where
  constants : SegmentTable
  failures : OutOfMemory.History
  /-- the number of kinds of collections that are counted -/
  mechanisms : Nat
  /-- the collections that were the last before a failure -/
  lastResorts : Nat

/-- A logical heap without what a search for a block changes. -/
def unplaced (l : LogicalHeap) : LogicalHeap :=
  { l with
    segments := l.segments.constants
    counters := { l.counters with expansions := l.counters.expansions.map fun _ => 0 } }

def standing (l : LogicalHeap) : Standing where
  constants := l.segments.constants
  failures := l.failures
  mechanisms := l.counters.mechanisms.length
  lastResorts := l.counters.mechanism .lastBeforeOutOfMemory

end LogicalHeap

namespace Heap

/-- What a heap keeps, other than its content. -/
structure Standing where
  config : Config
  clock : Int
  totalAllocated : Nat
  allocationFailures : Nat
  heaps : List LogicalHeap.Standing

def standing (h : Heap) : Standing where
  config := h.config
  clock := h.clock
  totalAllocated := h.statistics.totalAllocated
  allocationFailures := h.statistics.allocationFailures
  heaps := h.heaps.map (·.standing)

def budgets (h : Heap) : List BudgetTable := h.heaps.map (·.budgets)

/-- What is booked, apart from the objects. -/
structure Accounts where
  budgets : List BudgetTable
  allocated : Nat
  freed : Nat

def accounts (h : Heap) : Accounts where
  budgets := h.budgets
  allocated := h.statistics.totalAllocated
  freed := h.statistics.totalFreed

/-- All of it stays; a provider that refused nothing still refuses nothing, and a right count of
bytes is right again. -/
structure Stands (h h' : Heap) : Prop where
  standing : h'.standing = h.standing
  willing : h.provider.Willing → h'.provider.Willing
  weighed : h.space.Weighed → h'.space.Weighed

/-- Besides, nothing is booked, and nothing is there to be. -/
structure Rests (h h' : Heap) : Prop extends Stands h h' where
  accounts : h'.accounts = h.accounts
  portions : h.space.SamePortions h'.space

variable {α β : Type} {h h' h'' : Heap} {i size : Nat} {condemned target : Generation}
  {l : LogicalHeap}

theorem Stands.refl (h : Heap) : h.Stands h := ⟨rfl, fun hw => hw, fun hw => hw⟩

theorem Stands.trans (hs : h.Stands h') (hs' : h'.Stands h'') : h.Stands h'' :=
  ⟨hs'.standing.trans hs.standing, fun hw => hs'.willing (hs.willing hw),
    fun hw => hs'.weighed (hs.weighed hw)⟩

theorem Stands.config (hs : h.Stands h') : h'.config = h.config :=
  congrArg Standing.config hs.standing

theorem Stands.heaps (hs : h.Stands h') : h'.heaps.map (·.standing) = h.heaps.map (·.standing) :=
  congrArg Standing.heaps hs.standing

theorem Stands.length (hs : h.Stands h') : h'.heaps.length = h.heaps.length := by
  have hlength := congrArg List.length hs.heaps
  rwa [List.length_map, List.length_map] at hlength

theorem Rests.refl (h : Heap) : h.Rests h := ⟨.refl h, rfl, .refl _⟩

theorem Rests.trans (hs : h.Rests h') (hs' : h'.Rests h'') : h.Rests h'' :=
  ⟨hs.toStands.trans hs'.toStands, hs'.accounts.trans hs.accounts, hs.portions.trans hs'.portions⟩

/-! ## Changes of the logical heaps -/

theorem stands_of_heaps {heaps : List LogicalHeap}
    (hheaps : heaps.map (·.standing) = h.heaps.map (·.standing)) : h.Stands { h with heaps } := by
  refine ⟨?_, fun hw => hw, fun hw => hw⟩
  unfold Heap.standing
  simp only [hheaps]

theorem accounts_of_heaps {heaps : List LogicalHeap}
    (hbudgets : heaps.map (·.budgets) = h.heaps.map (·.budgets)) :
    ({ h with heaps } : Heap).accounts = h.accounts := by
  unfold Heap.accounts Heap.budgets
  simp only [hbudgets]

theorem rests_of_heaps {heaps : List LogicalHeap}
    (hheaps : heaps.map (·.standing) = h.heaps.map (·.standing))
    (hbudgets : heaps.map (·.budgets) = h.heaps.map (·.budgets)) : h.Rests { h with heaps } :=
  ⟨stands_of_heaps hheaps, accounts_of_heaps hbudgets, .refl _⟩

theorem rests_modifyHeaps {f : LogicalHeap → LogicalHeap}
    (hf : ∀ l, (f l).standing = l.standing) (hb : ∀ l, (f l).budgets = l.budgets) :
    h.Rests (h.modifyHeaps f) := by
  apply rests_of_heaps
  · rw [List.map_map]
    exact List.map_congr_left fun l _ => hf l
  · rw [List.map_map]
    exact List.map_congr_left fun l _ => hb l

theorem map_modify_of_same {g : α → β} {f : α → α} (hf : ∀ a, g (f a) = g a) (xs : List α) :
    (xs.modify i f).map g = xs.map g := by
  have hmap := map_modify (k := id) xs i hf
  rwa [List.modify_id] at hmap

theorem stands_modifyHeap {f : LogicalHeap → LogicalHeap}
    (hf : ∀ l, (f l).standing = l.standing) : h.Stands (h.modifyHeap i f) :=
  stands_of_heaps (map_modify_of_same hf _)

theorem rests_modifyHeap {f : LogicalHeap → LogicalHeap}
    (hf : ∀ l, (f l).standing = l.standing) (hb : ∀ l, (f l).budgets = l.budgets) :
    h.Rests (h.modifyHeap i f) :=
  rests_of_heaps (map_modify_of_same hf _) (map_modify_of_same hb _)

theorem stands_mapM {α : Type} {f : α → Checked LogicalHeap} {xs : List α} {k : α → LogicalHeap}
    (hxs : xs.map k = h.heaps) (hf : ∀ x l, f x = .ok l → l.standing = (k x).standing)
    {heaps : List LogicalHeap} (hrun : xs.mapM f = .ok heaps) : h.Stands { h with heaps } := by
  refine stands_of_heaps ?_
  rw [← hxs, List.map_map]
  exact Checked.map_of_mapM hrun hf

theorem updateHeap_cases {f : LogicalHeap → Checked LogicalHeap} (hrun : h.updateHeap i f = .ok h') :
    h.heaps[i]? = none ∧ h' = h ∨ ∃ l l', h.heaps[i]? = some l ∧ f l = .ok l' ∧
      h' = { h with heaps := h.heaps.set i l' } := by
  unfold updateHeap at hrun
  cases hl : h.heaps[i]? with
  | none =>
    simp only [hl] at hrun
    cases hrun
    exact .inl ⟨rfl, rfl⟩
  | some l =>
    simp only [hl, Checked.bind_eq_ok, Checked.pure_eq_ok] at hrun
    obtain ⟨l', hl', rfl⟩ := hrun
    exact .inr ⟨l, l', rfl, hl', rfl⟩

theorem map_updateHeap {g : LogicalHeap → β} {f : LogicalHeap → Checked LogicalHeap}
    (hf : ∀ l l', f l = .ok l' → g l' = g l) (hrun : h.updateHeap i f = .ok h') :
    h' = { h with heaps := h'.heaps } ∧ h'.heaps.map g = h.heaps.map g := by
  rcases updateHeap_cases hrun with ⟨_, rfl⟩ | ⟨l, l', hl, hl', rfl⟩
  · exact ⟨rfl, rfl⟩
  · obtain ⟨hlt, rfl⟩ := List.getElem?_eq_some_iff.1 hl
    refine ⟨rfl, ?_⟩
    have hlt' : i < (h.heaps.map g).length := by rwa [List.length_map]
    have hsame : g l' = (h.heaps.map g)[i] := (hf _ _ hl').trans (List.getElem_map ..).symm
    rw [List.map_set, hsame, List.set_getElem_self]

theorem stands_updateHeap {f : LogicalHeap → Checked LogicalHeap}
    (hf : ∀ l l', f l = .ok l' → l'.standing = l.standing) (hrun : h.updateHeap i f = .ok h') :
    h.Stands h' := by
  obtain ⟨he, hheaps⟩ := map_updateHeap hf hrun
  rw [he]
  exact stands_of_heaps hheaps

theorem rests_updateHeap {f : LogicalHeap → Checked LogicalHeap}
    (hf : ∀ l l', f l = .ok l' → l'.standing = l.standing ∧ l'.budgets = l.budgets)
    (hrun : h.updateHeap i f = .ok h') : h.Rests h' := by
  obtain ⟨he, hheaps⟩ := map_updateHeap (fun l l' hl => (hf l l' hl).1) hrun
  rw [he]
  exact rests_of_heaps hheaps (map_updateHeap (fun l l' hl => (hf l l' hl).2) hrun).2

theorem rests_publish : h.Rests h.publish := rests_modifyHeaps (fun _ => rfl) fun _ => rfl

theorem Rests.publish (hs : h.Rests h') : h.Rests h'.publish := hs.trans rests_publish

/-- A failure on record books nothing. -/
theorem accounts_fail {reason : OutOfMemory.Reason} {y : Except HeapError α}
    (hrun : fail i reason size target h = .ok (y, h')) : h'.accounts = h.accounts := by
  cases fail_apply.symm.trans hrun
  refine rests_publish.accounts.trans ?_
  have hrecord (event : OutOfMemory.Event) : (h.modifyHeap i fun l =>
      { l with failures := l.failures.record event }).accounts = h.accounts :=
    accounts_of_heaps (map_modify_of_same (g := LogicalHeap.budgets)
      (f := fun l => { l with failures := l.failures.record event }) (fun _ => rfl) _)
  exact hrecord _

theorem rests_count {p : DataPoint} {amount : Nat} (hrun : h.count i p amount = .ok h') :
    h.Rests h' := by
  refine rests_updateHeap (fun l l' hl => ?_) hrun
  simp only [Counters.add, Checked.bind_eq_ok, Checked.pure_eq_ok] at hl
  obtain ⟨_, ⟨_, _, rfl⟩, rfl⟩ := hl
  exact ⟨rfl, rfl⟩

/-- The count of last resorts belongs to one mechanism only. -/
theorem standing_recordMechanism {l : LogicalHeap} {m : Mechanism} (hm : m ≠ .lastBeforeOutOfMemory) :
    ({ l with counters := l.counters.recordMechanism m } : LogicalHeap).standing = l.standing := by
  have hindex : m.index ≠ Mechanism.lastBeforeOutOfMemory.index := by
    cases m <;> first | decide | exact absurd rfl hm
  simp only [LogicalHeap.standing, Counters.mechanism, Counters.recordMechanism, List.length_modify,
    List.getD_eq_getElem?_getD, List.getElem?_modify, hindex, if_false, Option.map_eq_map,
    Option.map_id']

theorem rests_countMechanism {m : Mechanism} (hm : m ≠ .lastBeforeOutOfMemory) :
    h.Rests (h.countMechanism m) :=
  rests_modifyHeaps (fun _ => standing_recordMechanism hm) fun _ => rfl

/-! ## Searches for a block -/

/-- Other segments and counts of expansions, and nothing else; a provider that refused nothing still
refuses nothing. -/
structure Refits (h h' : Heap) : Prop where
  heaps : h'.heaps.map (·.unplaced) = h.heaps.map (·.unplaced)
  rest : h' = { h with heaps := h'.heaps, provider := h'.provider }
  willing : h.provider.Willing → h'.provider.Willing

theorem Refits.refl (h : Heap) : h.Refits h := ⟨rfl, rfl, fun hw => hw⟩

theorem Refits.trans (hr : h.Refits h') (hr' : h'.Refits h'') : h.Refits h'' where
  heaps := hr'.heaps.trans hr.heaps
  rest := by
    rw [hr'.rest, hr.rest]
  willing hw := hr'.willing (hr.willing hw)

/-- What is read off the rest of the logical heaps stays the same. -/
theorem Refits.map {β : Type} {g : LogicalHeap → β} (hr : h.Refits h')
    (hg : ∀ l, g l.unplaced = g l) : h'.heaps.map g = h.heaps.map g := by
  have hmap := congrArg (List.map g) hr.heaps
  rw [List.map_map, List.map_map] at hmap
  have hread (xs : List LogicalHeap) : xs.map (g ∘ (·.unplaced)) = xs.map g :=
    List.map_congr_left fun l _ => hg l
  rwa [hread, hread] at hmap

theorem Refits.rests (hr : h.Refits h') : h.Rests h' := by
  have hheaps := hr.map (g := LogicalHeap.standing) fun l => by
    simp only [LogicalHeap.standing, LogicalHeap.unplaced, SegmentTable.constants_constants]
    rfl
  have hbudgets := hr.map (g := LogicalHeap.budgets) fun _ => rfl
  have hrests := rests_of_heaps hheaps hbudgets
  rw [hr.rest]
  exact ⟨⟨hrests.standing, hr.willing, hrests.weighed⟩, hrests.accounts, hrests.portions⟩

theorem Refits.stands (hr : h.Refits h') : h.Stands h' := hr.rests.toStands

theorem refits_countExpansion (x : Expansion) : h.Refits (h.countExpansion i x) := by
  refine ⟨map_modify_of_same (g := LogicalHeap.unplaced) (fun l => ?_) h.heaps, rfl, fun hw => hw⟩
  have hcounts := map_modify_of_same (i := x.index) (g := fun _ => 0) (f := (· + 1)) (fun _ => rfl)
    l.counters.expansions
  simp only [LogicalHeap.unplaced, Counters.recordExpansion, hcounts]

theorem refits_withArena (arena : SegmentArena) (hl : h.heaps[i]? = some l)
    (hc : (h.arena l).Conforms arena) : h.Refits (h.withArena i arena) := by
  obtain ⟨hlt, rfl⟩ := List.getElem?_eq_some_iff.1 hl
  refine ⟨?_, rfl, hc.willing⟩
  apply List.ext_getElem?
  intro j
  show ((h.heaps.modify i fun l => { l with segments := arena.table }).map (·.unplaced))[j]? = _
  rw [List.getElem?_map, List.getElem?_map, List.getElem?_modify]
  by_cases hj : i = j
  · subst hj
    have hconstants : arena.table.constants = h.heaps[i].segments.constants := hc.constants
    simp only [if_true, List.getElem?_eq_getElem hlt, Option.map_eq_map, Option.map_some,
      LogicalHeap.unplaced, hconstants]
  · simp only [hj, if_false, Option.map_eq_map, Option.map_id']

theorem refits_onArena {t : Transition SegmentArena α}
    (ht : ∀ {a a' : SegmentArena} {q}, t a = .ok (q, a') → a.Conforms a')
    {r : Except HeapError α} (hrun : onArena i t h = .ok (r, h')) : h.Refits h' := by
  cases hl : h.heaps[i]? with
  | none =>
    simp only [onArena, fetchHeap, hl, Effect.get_bind, Transition.ofExcept_bind] at hrun
    cases hrun
    exact .refl h
  | some l =>
    obtain ⟨arena, harena, rfl⟩ := (onArena_eq_ok hl).1 hrun
    exact refits_withArena _ hl (ht harena)

theorem refits_in_new {y : Except OutOfMemory.Reason (Nat × Nat)}
    (hp : PlacesInNew i target size h y h') : h.Refits h' := by
  cases hp with
  | without _ hgrow =>
    exact (refits_onArena SegmentArena.conforms_grow hgrow).trans (refits_countExpansion _)
  | grown x hgrow hbump =>
    have hgrown := refits_onArena SegmentArena.conforms_grow hgrow
    exact (hgrown.trans (refits_countExpansion x)).trans
      (refits_onArena SegmentArena.conforms_bump hbump)

theorem constants_takeFree {a x : Nat} {t t' : SegmentTable} {ids : List Nat}
    (hrun : takeFree size t ids = .ok (some (a, x, t'))) : t'.constants = t.constants :=
  SegmentTable.constants_takeFree (takeFree_eq_ok hrun).1

theorem refits_place {y : Except OutOfMemory.Reason (Nat × Nat)}
    (hrun : place i target size h = .ok (y, h')) : h.Refits h' := by
  rcases place_cases hrun with ⟨_, _, rfl⟩ | ⟨_, hp⟩
  · exact .refl _
  · cases hp with
    | nowhere => exact .refl h
    | span hheap hfree =>
      exact refits_withArena _ hheap ⟨constants_takeFree hfree, fun hw => hw⟩
    | behind _ _ _ hbump _ => exact refits_onArena SegmentArena.conforms_bump hbump
    | ahead _ _ hseg hnew =>
      rcases hseg with ⟨_, rfl⟩ | ⟨id, _, hbump⟩
      · exact refits_in_new hnew
      · exact (refits_onArena SegmentArena.conforms_bump hbump).trans (refits_in_new hnew)

theorem refits_tryPlace {y : Except HeapError (Except OutOfMemory.Reason (Nat × Nat))}
    (hrun : tryPlace i target size h = .ok (y, h')) : h.Refits h' := by
  obtain ⟨q, hplace, rfl⟩ := tryPlace_stages.1 hrun
  exact refits_place hplace

/-- Segments that are built anew keep their settings. -/
theorem refits_rebuildSegments (hrun : h.rebuildSegments = .ok h') : h.Refits h' := by
  simp only [rebuildSegments, Checked.bind_eq_ok, Checked.pure_eq_ok] at hrun
  obtain ⟨heaps, hheaps, rfl⟩ := hrun
  refine ⟨?_, rfl, fun hw => hw⟩
  refine Checked.map_of_mapM hheaps fun l l' hl => ?_
  simp only [Checked.bind_eq_ok, Checked.pure_eq_ok] at hl
  obtain ⟨segments, hsegments, rfl⟩ := hl
  simp only [LogicalHeap.unplaced, SegmentTable.constants_rebuild hsegments]

theorem frame_stands : Frame Stands := ⟨.refl, .trans⟩

theorem frame_rests : Frame Rests := ⟨.refl, .trans⟩

theorem frame_refits : Frame Refits := ⟨.refl, .trans⟩

end Heap

end GenHeap
