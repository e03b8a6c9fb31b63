import GenHeap.Proofs.Heap.Stages
import GenHeap.Proofs.Heap.Standing

/-!
What stands stands through every collection, in the background or not. The last resort before a
failure is counted apart from all other collections.
-/

namespace GenHeap

namespace Heap

variable {α : Type} {h h' : Heap} {i size : Nat} {condemned target : Generation} {l : LogicalHeap}

/-! ## Reclaiming -/

variable {live : Nat → Record → Bool} {consumed : Option (List Nat)}
  {summary summary' : CollectionSummary} {x : Except HeapError CollectionSummary}

theorem stands_sweepDead (live : Nat → Record → Bool) : h.Stands (h.sweepDead live).2 := by
  have hfold (gone : List (Nat × Record)) (k : Heap) :
      k.Stands (gone.foldl (fun h x => h.modifyHeap x.2.heap fun l =>
        { l with budgets := l.budgets.discharge x.2.generation x.2.size }) k) := by
    induction gone generalizing k with
    | nil => exact .refl k
    | cons x gone ih =>
      have hfirst : k.Stands (k.modifyHeap x.2.heap fun l =>
        { l with budgets := l.budgets.discharge x.2.generation x.2.size }) :=
        stands_modifyHeap fun _ => rfl
      exact hfirst.trans (ih _)
  have hgone := hfold (h.space.removeWhere fun a r => !live a r).1 h
  exact ⟨hgone.standing, hgone.willing, fun hw => hw.removeWhere _⟩

theorem rests_planHeap {reason : CollectionReason} {fixed : Std.TreeSet Nat} {l l' : LogicalHeap}
    {s : Survival} {p p' : CompactionPlan} {why : Option CompactionReason}
    (hrun : h.planHeap condemned reason fixed l s p = .ok (why, l', p')) :
    l'.standing = l.standing ∧ l'.budgets = l.budgets := by
  simp only [planHeap, Checked.bind_eq_ok] at hrun
  obtain ⟨inputs, _, hrun⟩ := hrun
  split at hrun
  · simp only [Counters.add, Checked.bind_eq_ok, Checked.pure_eq_ok, Prod.mk.injEq] at hrun
    obtain ⟨after, _, _, ⟨_, _, rfl⟩, _, ⟨_, _, rfl⟩, _, rfl, _⟩ := hrun
    exact ⟨standing_recordMechanism (m := .compacted)
      (l := { l with counters := l.counters.recordCompaction _ }) (by decide), rfl⟩
  · simp only [Checked.pure_eq_ok, Prod.mk.injEq] at hrun
    obtain ⟨_, rfl, _⟩ := hrun
    exact ⟨rfl, rfl⟩

theorem rests_planHeaps {reason : CollectionReason} {fixed : Std.TreeSet Nat}
    {pairs : List (LogicalHeap × Survival)} {p p' : CompactionPlan}
    {why : Option CompactionReason} {heaps : List LogicalHeap}
    (hrun : h.planHeaps condemned reason fixed pairs p = .ok (why, heaps, p')) :
    heaps.map (·.standing) = pairs.map (·.1.standing) ∧
      heaps.map (·.budgets) = pairs.map (·.1.budgets) := by
  induction pairs generalizing p why heaps with
  | nil =>
    simp only [planHeaps, Checked.pure_eq_ok, Prod.mk.injEq] at hrun
    obtain ⟨_, rfl, _⟩ := hrun
    exact ⟨rfl, rfl⟩
  | cons x pairs ih =>
    simp only [planHeaps, Checked.bind_eq_ok, Checked.pure_eq_ok, Prod.exists, Prod.mk.injEq] at hrun
    obtain ⟨_, l, p₁, hone, _, rest, p₂, hrest, _, rfl, rfl⟩ := hrun
    obtain ⟨hstanding, hbudgets⟩ := rests_planHeap hone
    obtain ⟨hstandings, hbudgets'⟩ := ih hrest
    simp only [List.map_cons, hstanding, hbudgets, hstandings, hbudgets', and_self]

/-- Compaction books nothing. -/
theorem stands_compact {fixed : Std.TreeSet Nat} {survivals : List Survival}
    (hlen : survivals.length = h.heaps.length)
    (hrun : h.compact condemned fixed survivals summary = .ok (summary', h')) :
    h.Stands h' ∧ h'.accounts = h.accounts := by
  obtain ⟨why, heaps, p, hplan, -, happly⟩ := compact_stages.1 hrun
  obtain ⟨hstanding, hbudgets⟩ := rests_planHeaps hplan
  have hplanned : h.Rests { h with heaps } := rests_of_heaps
    (hstanding.trans (map_zip_fst hlen _)) (hbudgets.trans (map_zip_fst hlen _))
  obtain ⟨-, rfl⟩ | ⟨-, space, hspace, hrebuild⟩ := applyPlan_stages.1 happly
  · exact ⟨hplanned.toStands, hplanned.accounts⟩
  · have hmodified := hplanned.trans (rests_modifyHeaps (f := fun l =>
      { l with finalization := l.finalization.relocate p.forward }) (fun _ => rfl) fun _ => rfl)
    have hrebuilt := (refits_rebuildSegments hrebuild).rests
    refine ⟨hmodified.toStands.trans ⟨hrebuilt.standing, hrebuilt.willing, fun hw => ?_⟩,
      hrebuilt.accounts.trans hmodified.accounts⟩
    exact hrebuilt.weighed (hw.apply hspace)

theorem stands_tuneBudgets {survivals : List Survival} (hlen : survivals.length = h.heaps.length)
    (hrun : h.tuneBudgets condemned survivals = .ok h') : h.Stands h' := by
  simp only [tuneBudgets, Checked.bind_eq_ok, Checked.pure_eq_ok] at hrun
  obtain ⟨heaps, hheaps, rfl⟩ := hrun
  refine stands_mapM (k := Prod.fst) (List.map_fst_zip (Nat.le_of_eq hlen.symm)) (fun x l hl => ?_)
    hheaps
  simp only [Counters.add, Checked.bind_eq_ok, Checked.pure_eq_ok] at hl
  obtain ⟨b, _, c, ⟨_, _, rfl⟩, rfl⟩ := hl
  rfl

theorem stands_promoteSurvivors
    (hrun : h.promoteSurvivors condemned summary = .ok (summary', h')) : h.Stands h' := by
  simp only [promoteSurvivors, Checked.bind_eq_ok, Checked.pure_eq_ok, Prod.mk.injEq] at hrun
  obtain ⟨h₁, hfold, _, rfl⟩ := hrun
  refine Checked.foldlM_induct (fun k => h.Stands k) (fun k x k' _ hk hstep => ?_) (.refl h) hfold
  simp only [promote, Checked.bind_eq_ok, Checked.pure_eq_ok] at hstep
  obtain ⟨mid, hmid, rfl⟩ := hstep
  have hupdated : k.Stands mid := stands_updateHeap (fun l l' hl => by
    simp only [Counters.add, Checked.bind_eq_ok, Checked.pure_eq_ok] at hl
    obtain ⟨_, _, _, ⟨_, _, rfl⟩, rfl⟩ := hl
    rfl) hmid
  have hresized (r : Record) : ({ r with generation := x.2.generation.promoted } : Record).size =
      r.size := rfl
  exact hk.trans (hupdated.trans ⟨rfl, fun hw => hw, fun hw => hw.update hresized x.1⟩)

theorem steady_syncHeap : Steady Rests (syncHeap condemned i) := by
  intro k k' q hrun
  rw [syncHeap_apply] at hrun
  have hsorted : k.Rests (k.sortQueue i) := rests_modifyHeap (fun _ => rfl) fun _ => rfl
  exact hsorted.trans (refits_onArena
    (fun hq => SegmentArena.conforms_onTable SegmentTable.constants_promoteRegions hq) hrun).rests

theorem steady_decommitEmpty : Steady Refits (decommitEmpty i) :=
  steady_decommitEmpty_of frame_refits fun _ _ _ _ hq =>
    refits_onArena SegmentArena.conforms_decommitIfEmpty hq

theorem rests_refreshCards (hrun : h.refreshCards condemned consumed = .ok h') : h.Rests h' := by
  cases consumed with
  | none =>
    simp only [refreshCards, Checked.bind_eq_ok, Checked.pure_eq_ok] at hrun
    obtain ⟨cards, _, rfl⟩ := hrun
    exact ⟨⟨rfl, fun hw => hw, fun hw => hw⟩, rfl, .refl _⟩
  | some consumed =>
    simp only [refreshCards, Checked.bind_eq_ok, Checked.pure_eq_ok] at hrun
    obtain ⟨cards, _, cards', _, rfl⟩ := hrun
    exact ⟨⟨rfl, fun hw => hw, fun hw => hw⟩, rfl, .refl _⟩

/-- What follows when the budgets are tuned and the survivors promoted. -/
theorem steady_tidyUp {n : Nat} : Steady Rests (tidyUp condemned consumed summary n) :=
  steady_tidyUp_of frame_rests (fun _ => steady_syncHeap)
    (fun _ => steady_decommitEmpty.mono Refits.rests) rests_refreshCards

theorem stands_regrouped {survivals : List Survival} (hlen : survivals.length = h.heaps.length)
    {h₁ h₂ h₃ : Heap} (htune : h.tuneBudgets condemned survivals = .ok h₁)
    (hpromote : h₁.promoteSurvivors condemned summary = .ok (summary', h₂)) {n : Nat}
    {y : Except HeapError PUnit} (hsync : (List.range n).forM (syncHeap condemned) h₂ = .ok (y, h₃)) :
    h.Stands h₃ := by
  have h₁₂ := (stands_tuneBudgets hlen htune).trans (stands_promoteSurvivors hpromote)
  exact h₁₂.trans (steady_forM frame_rests (fun _ => steady_syncHeap) _ hsync).toStands

theorem stands_settle {survivals : List Survival} (hlen : survivals.length = h.heaps.length)
    (hrun : settle condemned survivals consumed summary h = .ok (x, h')) : h.Stands h' := by
  obtain ⟨h₁, summary₁, h₂, htune, hpromote, hrun⟩ := settle_regroups.1 hrun
  have h₁₂ := (stands_tuneBudgets hlen htune).trans (stands_promoteSurvivors hpromote)
  exact h₁₂.trans (steady_tidyUp hrun).toStands

theorem stands_swept (hrun : (h.swept live).2.rebuildSegments = .ok h') : h.Stands h' := by
  have hfirst := stands_sweepDead (h := { h with
    handles := h.handles.clearDeadWeak fun a => (h.space.get? a).any (live a) }) live
  have hrebuilt := hfirst.trans (refits_rebuildSegments hrun).stands
  exact ⟨hrebuilt.standing, hrebuilt.willing, hrebuilt.weighed⟩

theorem stands_compactIf {survivals : List Survival} (hlen : survivals.length = h.heaps.length)
    {compacts : Bool}
    (hrun : h.compactIf compacts condemned survivals summary = .ok (summary', h')) :
    h.Stands h' := by
  obtain ⟨-, hcompact⟩ | ⟨-, rfl, rfl⟩ := compactIf_stages.1 hrun
  · exact (stands_compact hlen hcompact).1
  · exact .refl h

/-- Reclaiming keeps what sweeping, compacting and settling keep, also where it breaks off. -/
theorem steady_reclaim_of {R : Heap → Heap → Prop} (hR : Frame R) {compacts : Bool}
    (hswept : ∀ {k k'}, (k.swept live).2.rebuildSegments = .ok k' → R k k')
    (hcompact : ∀ {k k' : Heap} {fixed survivals} {s s' : CollectionSummary},
      survivals.length = k.heaps.length →
        k.compact condemned fixed survivals s = .ok (s', k') → R k k')
    (hsettle : ∀ {k k' : Heap} {survivals s} {q : Except HeapError CollectionSummary},
      survivals.length = k.heaps.length →
        settle condemned survivals consumed s k = .ok (q, k') → R k k') :
    Steady R (reclaim condemned live compacts consumed summary) := by
  intro k k' q hrun
  obtain ⟨k₁, summary₂, k₂, hsweep, hplanned, hrun⟩ :=
    reclaimUnchecked_stages.1 (reclaim_cases hrun).1
  have hlen := (stands_compactIf length_survivalsOf hplanned).length
  have hcompacted : R k₁ k₂ := by
    obtain ⟨-, hplanned⟩ | ⟨-, -, rfl⟩ := compactIf_stages.1 hplanned
    · exact hcompact length_survivalsOf hplanned
    · exact hR.refl k₁
  have hsettled := hsettle (length_survivalsOf.trans hlen.symm) hrun
  exact hR.trans (hswept hsweep) (hR.trans hcompacted hsettled)

theorem stands_reclaim {compacts : Bool}
    (hrun : reclaim condemned live compacts consumed summary h = .ok (x, h')) : h.Stands h' :=
  steady_reclaim_of frame_stands stands_swept (fun hlen hplanned => (stands_compact hlen hplanned).1)
    stands_settle hrun

/-! ## Collections -/

theorem rests_discardCycle : h.Rests h.discardCycle := by
  unfold discardCycle
  cases h.background with
  | none => exact .refl h
  | some b =>
    have hcount : h.Rests (h.countMechanism .backgroundAborted) := rests_countMechanism nofun
    have hsaved := hcount.trans (rests_modifyHeaps (f := fun l => { l with savedEphemeral := none })
      (fun _ => rfl) fun _ => rfl)
    exact ⟨⟨hsaved.standing, hsaved.willing, hsaved.weighed⟩, hsaved.accounts, hsaved.portions⟩

theorem rests_beginCollection : h.Rests h.beginCollection := by
  have hdiscarded : h.Rests h.discardCycle := rests_discardCycle
  exact ⟨⟨hdiscarded.standing, hdiscarded.willing, hdiscarded.weighed⟩, hdiscarded.accounts,
    hdiscarded.portions⟩

theorem rests_countCards {p : DataPoint} {cards : List Nat} (hrun : h.countCards p cards = .ok h') :
    h.Rests h' := by
  refine Checked.foldlM_induct (fun k => h.Rests k) (fun k card k' _ hk hstep => ?_) (.refl h) hrun
  rw [Checked.bind_eq_ok] at hstep
  obtain ⟨_, _, hstep⟩ := hstep
  exact hk.trans (rests_count hstep)

theorem rests_scanFinalizable (condemned : Generation) (alive : Nat → Bool) :
    h.Rests (h.scanFinalizable condemned alive).2 :=
  rests_modifyHeaps (fun _ => rfl) fun _ => rfl

theorem rests_markCondemned {scan : CardScan}
    (hrun : h.markCondemned condemned summary = .ok (scan, summary', h')) :
    h.Rests h' ∧ summary'.reason = summary.reason := by
  simp only [markCondemned, Checked.bind_eq_ok, Checked.pure_eq_ok, Prod.exists, Prod.mk.injEq] at hrun
  obtain ⟨progress, cards, hmark, h₁, hscanned, h₂, hfalse, _, rfl, rfl⟩ := hrun
  have hcounted := (rests_countCards hscanned).trans (rests_countCards hfalse)
  have hscan := hcounted.trans (rests_scanFinalizable condemned (Marking.survives h₂.space condemned))
  refine ⟨⟨⟨hscan.standing, hscan.willing, fun hw => ?_⟩, hscan.accounts, ?_⟩, rfl⟩
  · exact Marking.weighed_trace (hscan.weighed (Marking.weighed_mark hw hmark))
  · exact (Marking.samePortions_mark hmark).trans (hscan.portions.trans Marking.samePortions_trace)

/-- A collection that reclaims fills in its summary, and changes nothing else in it. -/
theorem fills_reclaim {compacts : Bool}
    (hrun : reclaim condemned live compacts consumed summary h = .ok (.ok summary', h')) :
    ∃ compaction objectsRelocated objectsPromoted bytesPromoted, summary' =
      { freed (h.swept live).1 summary with
        compaction, objectsRelocated, objectsPromoted, bytesPromoted } := by
  obtain ⟨h₁, _, _, _, hcompact, hsettle, _⟩ := reclaim_stages.1 hrun
  obtain ⟨_, _, _, _, _, hpromote, _⟩ := settle_stages.1 hsettle
  simp only [promoteSurvivors, Checked.bind_eq_ok, Checked.pure_eq_ok, Prod.mk.injEq] at hpromote
  obtain ⟨_, _, rfl, _⟩ := hpromote
  obtain ⟨-, hcompact⟩ | ⟨-, rfl, -⟩ := compactIf_stages.1 hcompact
  · obtain ⟨_, _, _, _, rfl, _⟩ := compact_stages.1 hcompact
    exact ⟨_, _, _, _, rfl⟩
  · exact ⟨_, _, _, _, rfl⟩

/-- A collection keeps in its summary why it was made, and adds the bytes that it swept. -/
theorem summary_reclaim {compacts : Bool}
    (hrun : reclaim condemned live compacts consumed summary h = .ok (.ok summary', h')) :
    summary'.reason = summary.reason ∧
      summary'.bytesFreed = ObjectSpace.weight (h.swept live).1 := by
  obtain ⟨_, _, _, _, rfl⟩ := fills_reclaim hrun
  exact ⟨rfl, rfl⟩

/-- What stands after one more last resort. -/
def Standing.lastResort (s : Standing) : Standing :=
  { s with heaps := s.heaps.map fun l => { l with lastResorts := l.lastResorts + 1 } }

/-- All kinds of collections are counted. -/
def Standing.Counted (s : Standing) : Prop := ∀ l ∈ s.heaps, l.mechanisms = 5

theorem standing_countLastResort (hc : h.standing.Counted) :
    (h.countMechanism .lastBeforeOutOfMemory).standing = h.standing.lastResort := by
  have hheaps : (h.countMechanism .lastBeforeOutOfMemory).heaps.map (·.standing) =
      (h.heaps.map (·.standing)).map fun l => { l with lastResorts := l.lastResorts + 1 } := by
    unfold countMechanism modifyHeaps
    rw [List.map_map, List.map_map]
    refine List.map_congr_left fun l hl => ?_
    have hlen : l.counters.mechanisms.length = 5 := hc _ (List.mem_map_of_mem hl)
    have hlt : 4 < l.counters.mechanisms.length := by omega
    simp only [Function.comp_apply, LogicalHeap.standing, Counters.mechanism,
      Counters.recordMechanism, List.length_modify, List.getD_eq_getElem?_getD,
      List.getElem?_modify, Mechanism.index, if_true, List.getElem?_eq_getElem hlt,
      Option.map_eq_map, Option.map_some, Option.getD_some]
  unfold Heap.standing Standing.lastResort
  rw [hheaps]
  rfl

theorem lastResort_mem_mechanismsOf : .lastBeforeOutOfMemory ∈ mechanismsOf summary ↔
    summary.reason = .lastBeforeOutOfMemory := by
  unfold mechanismsOf
  cases summary.reason <;> cases summary.background <;> decide

/-- Of the mechanisms of a collection only that of a last resort counts. -/
theorem standing_counted (hc : summary.reason = .lastBeforeOutOfMemory → h.standing.Counted) :
    (h.counted summary).standing =
      if summary.reason = .lastBeforeOutOfMemory then h.standing.lastResort else h.standing := by
  split
  next hlast =>
    have hfirst : mechanismsOf summary = .lastBeforeOutOfMemory ::
        if summary.background then [.background] else [] := by
      unfold mechanismsOf
      rw [hlast]
      rfl
    rw [counted_eq_foldl, hfirst, List.foldl_cons, ← standing_countLastResort (hc hlast)]
    cases summary.background with
    | false => rfl
    | true => exact (rests_countMechanism (by decide)).standing
  next hother =>
    refine counted_induct (P := fun k => k.standing = h.standing) rfl fun k m hm hk => ?_
    have hm : m ≠ .lastBeforeOutOfMemory := by
      rintro rfl
      exact hother (lastResort_mem_mechanismsOf.1 hm)
    exact (rests_countMechanism hm).standing.trans hk

/-- The end of a collection is on record: as a last resort, if it was one. -/
theorem standing_finishCollection
    (hc : summary.reason = .lastBeforeOutOfMemory → h.standing.Counted)
    (hrun : h.finishCollection summary = .ok h') : h'.provider = h.provider ∧
      h'.space = h.space ∧ h'.standing =
        if summary.reason = .lastBeforeOutOfMemory then h.standing.lastResort else h.standing := by
  obtain ⟨statistics, hstatistics, rfl⟩ := finishCollection_stages.1 hrun
  refine ⟨rfl, rfl, rests_publish.standing.trans (Eq.trans ?_ (standing_counted hc))⟩
  simp only [Statistics.recordCollection, Checked.bind_eq_ok, Checked.pure_eq_ok] at hstatistics
  obtain ⟨_, _, _, _, _, _, rfl⟩ := hstatistics
  rfl

/-- The bytes that a collection has freed are booked with its end. -/
theorem accounts_finishCollection (hrun : h.finishCollection summary = .ok h') :
    h'.space = h.space ∧
      h'.accounts = { h.accounts with freed := h.accounts.freed + summary.bytesFreed } := by
  obtain ⟨statistics, hstatistics, rfl⟩ := finishCollection_stages.1 hrun
  have hcounted : (h.counted summary).accounts = h.accounts := by
    refine accounts_of_heaps ?_
    rw [List.map_map]
    rfl
  refine ⟨rfl, ?_⟩
  rw [rests_publish.accounts, ← hcounted]
  simp only [Statistics.recordCollection, Checked.bind_eq_ok, Checked.pure_eq_ok,
    Word.add_eq_ok_iff] at hstatistics
  obtain ⟨_, ⟨_, rfl⟩, _, _, _, _, rfl⟩ := hstatistics
  rfl

theorem stands_sweeper (sweeper : Sweeper) (hs : h.Stands h') : h.Stands { h' with sweeper } :=
  ⟨hs.standing, hs.willing, hs.weighed⟩

/-- All of a collection but its end lets stand what stands. -/
theorem collect_stands {generation : Generation} {reason : CollectionReason}
    (hrun : collect generation reason h = .ok (x, h')) :
    (∃ e, x = .error e) ∧ h.Stands h' ∨ ∃ summary k, x = .ok summary ∧ summary.reason = reason ∧
      h.Stands k ∧ k.finishCollection summary = .ok h' := by
  obtain ⟨scan, summary, h₁, q, h₂, hmark, hreclaim, hend⟩ := collect_cases hrun
  obtain ⟨hmarked, hreason⟩ := rests_markCondemned hmark
  have h₂' := (rests_beginCollection.trans hmarked).toStands.trans (stands_reclaim hreclaim)
  obtain ⟨e, rfl, rfl, rfl⟩ | ⟨summary', rfl, rfl, hfinish⟩ := hend
  · exact .inl ⟨⟨e, rfl⟩, h₂'⟩
  · exact .inr ⟨summary', _, rfl, (summary_reclaim hreclaim).1.trans hreason,
      stands_sweeper _ h₂', hfinish⟩

theorem stands_finishCollection (hreason : summary.reason ≠ .lastBeforeOutOfMemory)
    (hrun : h.finishCollection summary = .ok h') : h.Stands h' := by
  obtain ⟨hprovider, hspace, hstanding⟩ :=
    standing_finishCollection (fun he => absurd he hreason) hrun
  rw [if_neg hreason] at hstanding
  exact ⟨hstanding, fun hw => hprovider ▸ hw, fun hw => hspace ▸ hw⟩

theorem stands_collect {generation : Generation} {reason : CollectionReason}
    (hreason : reason ≠ .lastBeforeOutOfMemory)
    (hrun : collect generation reason h = .ok (x, h')) : h.Stands h' := by
  rcases collect_stands hrun with ⟨_, hs⟩ | ⟨summary, k, _, rfl, hs, hfinish⟩
  · exact hs
  · exact hs.trans (stands_finishCollection hreason hfinish)

/-- What a last resort before a failure does: it is on record with every logical heap. -/
structure Resorts (h h' : Heap) : Prop where
  standing : h'.standing = h.standing.lastResort
  willing : h.provider.Willing → h'.provider.Willing
  weighed : h.space.Weighed → h'.space.Weighed

theorem resorts_collect (hc : h.standing.Counted) {generation : Generation}
    (hrun : collect generation .lastBeforeOutOfMemory h = .ok (.ok summary, h')) :
    h.Resorts h' := by
  rcases collect_stands hrun with ⟨⟨e, he⟩, _⟩ | ⟨_, k, he, hreason, hs, hfinish⟩
  · cases he
  · cases he
    obtain ⟨hprovider, hspace, hstanding⟩ :=
      standing_finishCollection (fun _ => hs.standing.symm ▸ hc) hfinish
    rw [if_pos hreason, hs.standing] at hstanding
    exact ⟨hstanding, fun hw => hprovider ▸ hs.willing hw, fun hw => hspace ▸ hs.weighed hw⟩

/-! ## Background cycles -/

theorem rests_beginCycle : h.Rests h.beginCycle := by
  have hsaved : h.Rests (h.modifyHeaps fun l => { l with
      savedEphemeral := l.ephemeral?.map fun s => (s.start, s.allocated) }) :=
    rests_modifyHeaps (fun _ => rfl) fun _ => rfl
  have hcycle : h.Rests { h.modifyHeaps (fun l => { l with
      savedEphemeral := l.ephemeral?.map fun s => (s.start, s.allocated) }) with
    writeWatch := h.writeWatch.clearAll
    watching := true
    sweeper := { h.sweeper with next := h.cycleBounds.1 }
    pausePhase := .trace
    background := some h.firstCycle } :=
    ⟨⟨hsaved.standing, hsaved.willing, hsaved.weighed⟩, hsaved.accounts, hsaved.portions⟩
  exact hcycle.publish

theorem steady_startBackground : Steady Rests startBackground := by
  intro k k' q hrun
  obtain ⟨-, rfl⟩ | ⟨-, -, rfl⟩ := startBackground_cases hrun
  · exact .refl _
  · exact rests_beginCycle

theorem rests_finishMarking {b b' : BackgroundMark}
    (hrun : h.finishMarking b = .ok (summary, b', h')) :
    h.Rests h' ∧ summary.reason = .background := by
  simp only [finishMarking, Checked.bind_eq_ok, Checked.pure_eq_ok, Prod.exists, Prod.mk.injEq] at hrun
  obtain ⟨n, b₁, _, rfl, _, rfl⟩ := hrun
  have hscan : h.Rests (h.scanFinalizable .gen2 b₁.isLive).2 := rests_scanFinalizable _ _
  exact ⟨⟨⟨hscan.standing, hscan.willing, hscan.weighed⟩, hscan.accounts, hscan.portions⟩, rfl⟩

theorem steady_completeBackground : Steady Stands completeBackground := by
  intro k k' q hrun
  obtain ⟨-, -, rfl⟩ | ⟨b, summary, b₂, h₁, y, h₂, hb, hfinish, hreclaim, hend⟩ :=
    completeBackground_cases hrun
  · exact .refl k
  · obtain ⟨hmarked, hreason⟩ := rests_finishMarking hfinish
    have h₁' : k.Stands h₁ := ⟨hmarked.standing, hmarked.willing, hmarked.weighed⟩
    have h₂' := h₁'.trans (stands_reclaim hreclaim)
    obtain ⟨e, rfl, rfl, rfl⟩ | ⟨summary', rfl, rfl, hlast⟩ := hend
    · exact h₂'
    · have hdropped := (stands_sweeper { h₂.sweeper with next := b₂.high } h₂').trans
        (rests_modifyHeaps (f := fun l => { l with savedEphemeral := none }) (fun _ => rfl)
          fun _ => rfl).toStands
      refine hdropped.trans (stands_finishCollection ?_ hlast)
      rw [(summary_reclaim hreclaim).1, hreason]
      exact nofun

/-! ## Room in the budget -/

theorem steady_collect {generation : Generation} {reason : CollectionReason}
    (hreason : reason ≠ .lastBeforeOutOfMemory) : Steady Stands (collect generation reason) :=
  fun _ _ _ hrun => stands_collect hreason hrun

/-- It lets stand what stands. -/
theorem steady_requireBudget : Steady Stands (requireBudget i target size) :=
  steady_requireBudget_of frame_stands (fun _ => steady_collect (by decide))
    (steady_startBackground.mono Rests.toStands) steady_completeBackground

end Heap

end GenHeap
