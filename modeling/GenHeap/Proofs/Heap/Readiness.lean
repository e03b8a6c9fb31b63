import GenHeap.Proofs.Heap.Trimming
import GenHeap.Proofs.Heap.Cycle
import GenHeap.Proofs.Readiness

/-!
No collection takes away what is ready for a generation whose regions it does not give to another one:
segments keep their places and get emptier, and ranges are only given back.
-/

namespace GenHeap

namespace Memory

variable {m m' : Memory} {a : SegmentArena} {i : Nat} {g : Generation}

/-- What is ready for `g` in the arena `a` is ready in that of a logical heap. -/
def Retains (a : SegmentArena) (i : Nat) (g : Generation) (m : Memory) : Prop :=
  ∃ t, m.tables[i]? = some t ∧ a.Retains g ⟨t, m.provider⟩

theorem Retains.of_same (hr : m.Retains a i g) (ht : m'.tables = m.tables)
    (hp : m'.provider = m.provider) : m'.Retains a i g := by
  obtain ⟨t, hi, hr⟩ := hr
  exact ⟨t, ht ▸ hi, hp ▸ hr⟩

theorem Laid.retains_rebuild (hl : m.Laid) {tables : List SegmentTable}
    (hrun : m.tables.mapM (·.rebuild m.space) = .ok tables) (hr : m.Retains a i g) :
    Retains a i g { m with tables } := by
  obtain ⟨t, hi, hr⟩ := hr
  rcases Checked.mapM_getElem? hrun i with ⟨hnone, _⟩ | ⟨t₁, t', hi₁, hi', hrebuild⟩
  · cases hnone.symm.trans hi
  · cases hi₁.symm.trans hi
    have hkept : t.Retains g t' := (hl.wellFormed hi).retains_rebuild hl.apart
      (fun x s hs b r hr hlo hhi => hl.housed.stop_le hi hs hr hlo hhi) hrebuild
    exact ⟨t', hi', hr.trans ⟨hkept, .refl _⟩⟩

end Memory

namespace Heap

open Memory (Rearranged)

variable {h h' : Heap} {a : SegmentArena} {i j : Nat} {g condemned : Generation}
  {live : Nat → Record → Bool} {consumed : Option (List Nat)}
  {summary summary' : CollectionSummary} {survivals : List Survival}

theorem retains_withArena {arena : SegmentArena} (hr : h.memory.Retains a i g)
    (hself : j = i → ∀ t, h.memory.tables[i]? = some t → a.table.Retains g t →
      t.Retains g arena.table) (hp : h.provider.Retains arena.provider) :
    (h.withArena j arena).memory.Retains a i g := by
  obtain ⟨t, hi, hr⟩ := hr
  rw [memory_withArena]
  by_cases hj : j = i
  · subst hj
    refine ⟨arena.table, ?_, hr.trans ⟨hself rfl t hi hr.table, hp⟩⟩
    show (h.memory.tables.set j arena.table)[j]? = _
    rw [List.getElem?_set_self (List.getElem?_eq_some_iff.1 hi).1]
  · refine ⟨t, ?_, hr.trans ⟨.refl g t, hp⟩⟩
    show (h.memory.tables.set j arena.table)[i]? = _
    rw [List.getElem?_set_ne hj, hi]

/-! ## Stages -/

theorem retains_rebuildSegments (hl : h.memory.Laid) (hr : h.memory.Retains a i g)
    (hrun : h.rebuildSegments = .ok h') : h'.memory.Retains a i g := by
  obtain ⟨tables, hrebuild, hm⟩ := rebuildSegments_eq_ok hrun
  rw [hm]
  exact hl.retains_rebuild hrebuild hr

theorem retains_swept (hl : h.memory.Laid) (hr : h.memory.Retains a i g)
    (hrun : (h.swept live).2.rebuildSegments = .ok h') : h'.memory.Retains a i g := by
  have hswept : (h.swept live).2.memory = { h.memory with
      handles := h.handles.clearDeadWeak fun a => (h.space.get? a).any (live a)
      space := (h.space.removeWhere fun a r => !live a r).2 } := memory_sweepDead
  have hwithin : h.space.Within (h.space.removeWhere fun a r => !live a r).2 := by
    intro b q hq
    rw [ObjectSpace.get?_removeWhere, Option.filter_eq_some_iff] at hq
    exact ⟨q, hq.1, rfl, rfl, rfl, rfl⟩
  refine retains_rebuildSegments ?_ ?_ hrun
  · rw [hswept]
    exact (hl.within hwithin).congr rfl rfl rfl
  · exact hr.of_same (by rw [hswept]) (by rw [hswept])

theorem retains_compact (hl : h.memory.Laid) (hr : h.memory.Retains a i g)
    {fixed : Std.TreeSet Nat} (hlen : survivals.length = h.heaps.length)
    (hrun : h.compact condemned fixed survivals summary = .ok (summary', h')) :
    h'.memory.Retains a i g := by
  obtain ⟨why, heaps, p, _, _, hsame, hp, happly⟩ := compact_plans hl hlen hrun
  obtain ⟨-, rfl⟩ | ⟨-, space, hspace, hrebuild⟩ := applyPlan_stages.1 happly
  · rw [hsame]
    exact hr
  · have hmoved := hl.moved hp (hp.moved_apply hl.apart hspace)
    refine retains_rebuildSegments ?_ ?_ hrebuild
    all_goals rw [memory_forwarded, hsame]
    · exact hmoved.congr rfl rfl rfl
    · exact hr.of_same rfl rfl

theorem retains_syncHeap (hl : h.memory.Laid) (hg : a.table.Unpromoted g)
    (hr : h.memory.Retains a i g) {x : Except HeapError Unit} (hj : j < h.heaps.length)
    (hrun : syncHeap condemned j h = .ok (x, h')) : h'.memory.Retains a i g := by
  have hheap : h.heaps[j]? = some h.heaps[j] := List.getElem?_eq_getElem hj
  obtain ⟨table, hpromote, rfl⟩ := syncHeap_promotes hheap hrun
  have hsorted : (h.sortQueue j).memory.Retains a i g :=
    hr.of_same (by rw [memory_sortQueue]) (by rw [memory_sortQueue])
  refine retains_withArena hsorted ?_ (.refl _)
  rintro rfl t ht hkept
  rw [memory_sortQueue] at ht
  cases (getElem?_tables hheap).symm.trans ht
  exact (hl.wellFormed ht).retains_promoteRegions (hg.retained hkept) hpromote

/-! ## Empty segments -/

/-- `g` still allocates where it did in `a`, so that segment stays if it is the one to be skipped. -/
theorem retains_decommitSegment (hr : h.memory.Retains a i g) {active : Option Nat} {kept id : Nat}
    (hactive : j = i → id ∈ a.table.owned.get g → active = a.table.allocSegment? g)
    {x : Except HeapError Nat} (hrun : decommitSegment j active kept id h = .ok (x, h')) :
    h'.memory.Retains a i g := by
  obtain rfl | ⟨hskip, l, hheap, y, hback⟩ := decommitSegment_stays hrun
  · exact hr
  · obtain ⟨arena, harena, rfl⟩ := (onArena_eq_ok hheap).1 hback
    obtain ⟨hp, htable⟩ := SegmentArena.retains_decommitIfEmpty (g := g) harena
    refine retains_withArena hr ?_ hp
    rintro rfl t ht hkept
    cases (getElem?_tables hheap).symm.trans ht
    refine htable fun hid => ?_
    rw [show (h.arena l).table.allocSegment? g = a.table.allocSegment? g from hkept.active,
      ← hactive rfl (hkept.listed id hid)]
    exact hskip

theorem retains_decommitSegments (hr : h.memory.Retains a i g) {active : Option Nat}
    {ids : List Nat} {kept : Nat} (hactive : j = i → ∀ id ∈ ids, id ∈ a.table.owned.get g →
      active = a.table.allocSegment? g) {x : Except HeapError Nat}
    (hrun : ids.foldlM (decommitSegment j active) kept h = .ok (x, h')) :
    h'.memory.Retains a i g := by
  induction ids generalizing h kept with
  | nil =>
    rw [List.foldlM_nil] at hrun
    cases hrun
    exact hr
  | cons id ids ih =>
    rw [List.foldlM_cons, Effect.bind_eq_ok] at hrun
    have hfirst {y : Except HeapError Nat} {k : Heap}
        (hone : decommitSegment j active kept id h = .ok (y, k)) : k.memory.Retains a i g :=
      retains_decommitSegment hr (fun hj => hactive hj id List.mem_cons_self) hone
    rcases hrun with ⟨n, k, hone, hrest⟩ | ⟨e, hone, _⟩
    · exact ih (hfirst hone) (fun hj id hid => hactive hj id (List.mem_cons_of_mem _ hid)) hrest
    · exact hfirst hone

/-- The loop over the generations: where each allocates is looked up at the start of its round. -/
theorem retains_decommitEmpty (hl : h.memory.Laid) (hu : h.memory.SpansUnused)
    (hr : h.memory.Retains a i g) (hj : j < h.heaps.length) {x : Except HeapError Unit}
    (hrun : decommitEmpty j h = .ok (x, h')) : h'.memory.Retains a i g := by
  have hloop {y : Except HeapError Nat} {k : Heap}
      (hall : Generation.all.foldlM (decommitGeneration j) 0 h = .ok (y, k)) :
      k.memory.Retains a i g := by
    refine (Effect.foldlM_induct (fun k => Rearranged h.memory k.memory ∧ k.memory.Retains a i g)
      ?_ ⟨.refl hl hu, hr⟩ hall).2.2
    rintro kept owner k z k' _ ⟨hre, hr⟩ hround
    have hlt : j < k.heaps.length := by
      rw [← length_tables, hre.heaps, length_tables]
      exact hj
    have hheap : k.heaps[j]? = some k.heaps[j] := List.getElem?_eq_getElem hlt
    simp only [decommitGeneration, Effect.get_bind, fetchHeap, hheap,
      Transition.ofExcept_bind] at hround
    have hwf := hre.laid.wellFormed (getElem?_tables hheap)
    obtain ⟨hz, hre'⟩ := decommitSegments_eq_ok (hwf.nodup owner) hre.laid hre.spans
      (fun id hid => ⟨_, hheap, hid⟩) hround
    refine ⟨hz, hre.trans hre', ?_⟩
    obtain ⟨t, ht, hkept⟩ := hr
    have hround' : k'.memory.Retains ⟨t, k.provider⟩ i g := by
      refine retains_decommitSegments ⟨t, ht, .refl g _⟩ ?_ hround
      rintro rfl id hid hmem
      cases (getElem?_tables hheap).symm.trans ht
      obtain ⟨s, hs, howner⟩ := hwf.listed hid
      obtain ⟨s', hs', howner'⟩ := hwf.listed hmem
      cases hs.symm.trans hs'
      rw [← howner, howner']
    obtain ⟨t', ht', hkept'⟩ := hround'
    exact ⟨t', ht', hkept.trans hkept'⟩
  unfold decommitEmpty at hrun
  rw [Effect.bind_eq_ok] at hrun
  rcases hrun with ⟨n, mid, hall, hrun⟩ | ⟨e, hall, _⟩
  · cases hrun
    exact hloop hall
  · exact hloop hall

/-! ## Collections -/

theorem retains_syncHeaps (hl : h.memory.Laid) (hu : h.memory.SpansUnused)
    (hg : a.table.Unpromoted g) (hr : h.memory.Retains a i g) {x : Except HeapError Unit}
    (hrun : (List.range h.heaps.length).forM (syncHeap condemned) h = .ok (x, h')) :
    h'.memory.Retains a i g := by
  refine (Effect.forM_induct (fun k => (∃ m, Rearranged m k.memory) ∧
    k.heaps.length = h.heaps.length ∧ k.memory.Retains a i g) ?_ ⟨⟨_, .refl hl hu⟩, rfl, hr⟩ hrun).2.2.2
  rintro j k y k' hj ⟨⟨m, hre⟩, hlen, hr⟩ hround
  have hlt : j < k.heaps.length := hlen ▸ List.mem_range.1 hj
  obtain ⟨hy, hre'⟩ := syncHeap_eq_ok hre.laid hre.spans hlt hround
  refine ⟨hy, ⟨_, hre'⟩, ?_, retains_syncHeap hre.laid hg hr hlt hround⟩
  have hheaps := hre'.heaps
  rw [length_tables] at hheaps
  exact hheaps.trans (length_tables.trans hlen)

theorem retains_decommitHeaps (hl : h.memory.Laid) (hu : h.memory.SpansUnused)
    (hr : h.memory.Retains a i g) {n : Nat} (hn : n = h.heaps.length) {x : Except HeapError Unit}
    (hrun : (List.range n).forM decommitEmpty h = .ok (x, h')) : h'.memory.Retains a i g := by
  refine (Effect.forM_induct (fun k => Rearranged h.memory k.memory ∧ k.memory.Retains a i g) ?_
    ⟨.refl hl hu, hr⟩ hrun).2.2
  rintro j k y k' hj ⟨hre, hr⟩ hround
  have hlt : j < k.heaps.length := by
    rw [← length_tables, hre.heaps, length_tables, ← hn]
    exact List.mem_range.1 hj
  obtain ⟨hy, hre'⟩ := decommitEmpty_eq_ok hre.laid hre.spans hlt hround
  exact ⟨hy, hre.trans hre', retains_decommitEmpty hre.laid hre.spans hr hlt hround⟩

theorem retains_settle (hl : h.memory.Laid) (hu : h.memory.SpansUnused) (hg : a.table.Unpromoted g)
    (hr : h.memory.Retains a i g) (hlen : survivals.length = h.heaps.length)
    (hrun : settle condemned survivals consumed summary h = .ok (.ok summary', h')) :
    h'.memory.Retains a i g := by
  obtain ⟨h₁, h₂, h₃, h₄, htune, hpromote, hsync, hback, hrefresh⟩ := settle_stages.1 hrun
  obtain ⟨hm₂, _, hl₂, hu₂⟩ := promoted_eq_ok hl hu hlen htune hpromote
  have hr₂ : h₂.memory.Retains a i g := hr.of_same (by rw [hm₂]) (by rw [hm₂])
  obtain ⟨_, hre₃⟩ := syncHeaps_eq_ok hl₂ hu₂ hsync
  have hlen₃ : h₂.heaps.length = h₃.heaps.length := by
    rw [← length_tables (h := h₃), hre₃.heaps, ← length_tables]
  have hr₄ := retains_decommitHeaps hre₃.laid hre₃.spans (retains_syncHeaps hl₂ hu₂ hg hr₂ hsync)
    hlen₃ hback
  obtain ⟨cards, hm'⟩ := memory_refreshCards hrefresh
  exact hr₄.of_same (by rw [hm']) (by rw [hm'])

theorem retains_reclaim (hl : h.memory.Laid) (hg : a.table.Unpromoted g)
    (hr : h.memory.Retains a i g) {compacts : Bool}
    (hrun : reclaim condemned live compacts consumed summary h = .ok (.ok summary', h')) :
    h'.memory.Retains a i g := by
  obtain ⟨h₁, summary₂, h₂, hsweep, hcompact, hsettle, -⟩ := reclaim_stages.1 hrun
  obtain ⟨_, hre₁⟩ := swept_eq_ok hl hsweep
  obtain ⟨hl₂, hu₂, hlen₂⟩ := compactIf_eq_ok hre₁.laid hre₁.spans length_survivalsOf hcompact
  have hr₂ : h₂.memory.Retains a i g := by
    have hr₁ := retains_swept hl hr hsweep
    obtain ⟨-, hcompact⟩ | ⟨-, rfl, rfl⟩ := compactIf_stages.1 hcompact
    · exact retains_compact hre₁.laid hr₁ length_survivalsOf hcompact
    · exact hr₁
  exact retains_settle hl₂ hu₂ hg hr₂ (length_survivalsOf.trans hlen₂.symm) hsettle

theorem retains_collect (hm : h.memory.Sound) (hg : a.table.Unpromoted g)
    (hr : h.memory.Retains a i g) {generation : Generation} {reason : CollectionReason}
    (hrun : collect generation reason h = .ok (.ok summary', h')) : h'.memory.Retains a i g := by
  obtain ⟨scan, summary₁, h₁, h₂, hmark, hreclaim, hfinish⟩ := collect_stages.1 hrun
  obtain ⟨space, live, hmarked⟩ := marked_of_markCondemned hm hmark
  obtain ⟨hl₁, _, _⟩ := hmarked.keeps hm
  obtain ⟨watching, watch, _, hm₁⟩ := hmarked.memory
  have hr₁ : h₁.memory.Retains a i g := hr.of_same (by rw [hm₁]) (by rw [hm₁])
  rw [memory_finishCollection hfinish, memory_sweeper]
  exact retains_reclaim hl₁ hg hr₁ hreclaim

theorem retains_completeBackground (hm : h.memory.Sound) (hg : a.table.Unpromoted g)
    (hr : h.memory.Retains a i g) {x : Except HeapError (Option CollectionSummary)}
    (hrun : completeBackground h = .ok (x, h')) : h'.memory.Retains a i g := by
  cases hb : h.background with
  | none =>
    obtain ⟨_, rfl⟩ := completeBackground_of_none hb hrun
    exact hr
  | some b =>
    obtain ⟨summary, _, rfl, _⟩ := completeBackground_eq_ok hm hb hrun
    have htraced := background_trace hb
    obtain ⟨summary₁, b', h₁, h₂, hfinish, hreclaim, hlast⟩ :=
      (completeBackground_stages htraced).1 hrun
    obtain ⟨found, hpaused⟩ := paused_of_finishMarking hm htraced hfinish
    obtain ⟨hl₁, _, _⟩ := hpaused.keeps hm
    have hm₁ := hpaused.memory
    have hr₁ : h₁.memory.Retains a i g := hr.of_same (by rw [hm₁]) (by rw [hm₁])
    have hr₂ := retains_reclaim hl₁ hg hr₁ hreclaim
    rw [memory_finishCollection hlast, memory_dropSaved, memory_sweeper]
    exact hr₂

theorem retains_startBackground (hr : h.memory.Retains a i g) {x : Except HeapError Bool}
    (hrun : startBackground h = .ok (x, h')) : h'.memory.Retains a i g := by
  obtain ⟨-, rfl⟩ | ⟨-, -, rfl⟩ := startBackground_cases hrun
  · exact hr
  · exact hr.of_same (by rw [memory_beginCycle]) (by rw [memory_beginCycle])

/-- Making room in the budget takes nothing away either. -/
theorem retains_requireBudget (hm : h.memory.Sound) (hg : a.table.Unpromoted g)
    (hr : h.memory.Retains a i g) {target : Generation} {size : Nat} {x : Except HeapError Unit}
    (hrun : requireBudget j target size h = .ok (x, h')) : h'.memory.Retains a i g := by
  let Kept (k k' : Heap) : Prop :=
    k.memory.Sound ∧ k.memory.Retains a i g → k'.memory.Sound ∧ k'.memory.Retains a i g
  have hframe : Frame Kept := ⟨fun _ hk => hk, fun hk hk' hstart => hk' (hk hstart)⟩
  refine (steady_requireBudget_of hframe ?_ ?_ ?_ hrun ⟨hm, hr⟩).2
  · rintro c k k' q hcollect ⟨hm, hr⟩
    obtain ⟨summary, f, rfl, hcollected⟩ := collect_eq_ok hm hcollect
    exact ⟨hcollected.sound, retains_collect hm hg hr hcollect⟩
  · rintro k k' q hstart ⟨hm, hr⟩
    obtain ⟨_, _, hl⟩ := leads_startBackground hm hstart
    exact ⟨hl.sound, retains_startBackground hr hstart⟩
  · rintro k k' q hcomplete ⟨hm, hr⟩
    exact ⟨(leads_completeBackground hm hcomplete).2.2.2.sound,
      retains_completeBackground hm hg hr hcomplete⟩

end Heap

end GenHeap
