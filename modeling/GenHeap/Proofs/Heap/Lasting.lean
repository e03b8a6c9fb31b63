import GenHeap.Proofs.Heap.Shape

/-!
What collections pass by. While a collection marks, sweeps, compacts and promotes, it changes the
content of the logical heaps and the counts of it; their boards, the failures on record, the saved
ranges and the state of a background cycle stay as they are until it ends.
-/

namespace GenHeap

open Diagnostics (Board)

namespace LogicalHeap

/-- What a logical heap has for those who look at it from outside. -/
structure Face where
  board : Board
  failures : OutOfMemory.History
  /-- how many counters of each kind there are -/
  kinds : List Nat

/-- Besides, how it has grown so far. -/
structure View where
  face : Face
  expansions : List Nat

/-- What the stages of a collection leave of a logical heap. -/
structure Lasting where
  view : View
  savedEphemeral : Option (Nat × Nat)

def face (l : LogicalHeap) : Face where
  board := l.board
  failures := l.failures
  kinds := [l.counters.dataPoints.length, l.counters.compactions.length,
    l.counters.expansions.length, l.counters.mechanisms.length]

def view (l : LogicalHeap) : View where
  face := l.face
  expansions := l.counters.expansions

def lasting (l : LogicalHeap) : Lasting where
  view := l.view
  savedEphemeral := l.savedEphemeral

end LogicalHeap

namespace Heap

/-- What the stages of a collection leave of a heap. -/
structure Lasting where
  heaps : List LogicalHeap.Lasting
  background : Option BackgroundMark
  writeWatch : CardTable
  watching : Bool
  phase : MarkPhase
  /-- where the sweeper stands -/
  next : Nat
  collections : Nat
  statistics : Statistics

def lasting (h : Heap) : Lasting where
  heaps := h.heaps.map (·.lasting)
  background := h.background
  writeWatch := h.writeWatch
  watching := h.watching
  phase := h.pausePhase
  next := h.sweeper.next
  collections := h.collections
  statistics := h.statistics

def faces (h : Heap) : List LogicalHeap.Face := h.heaps.map (·.face)

def views (h : Heap) : List LogicalHeap.View := h.heaps.map (·.view)

def Lasts (h h' : Heap) : Prop := h'.lasting = h.lasting

theorem frame_lasts : Frame Lasts := ⟨fun _ => rfl, fun h h' => h'.trans h⟩

variable {h h' : Heap} {i : Nat} {condemned : Generation} {live : Nat → Record → Bool}
  {consumed : Option (List Nat)} {summary summary' : CollectionSummary} {survivals : List Survival}

theorem Lasts.views (hl : h.Lasts h') : h'.views = h.views := by
  have hheaps := congrArg (fun s : Lasting => s.heaps.map (·.view)) hl
  simp only [lasting, List.map_map] at hheaps
  exact hheaps

theorem faces_of_views (hv : h'.views = h.views) : h'.faces = h.faces := by
  have hfaces := congrArg (List.map LogicalHeap.View.face) hv
  unfold Heap.views at hfaces
  rw [List.map_map, List.map_map] at hfaces
  exact hfaces

/-- Counting expansions leaves how many kinds of them there are. -/
theorem faces_of_refits (hr : h.Refits h') : h'.faces = h.faces :=
  hr.map (g := LogicalHeap.face) fun l => by
    simp only [LogicalHeap.face, LogicalHeap.unplaced, List.length_map]

/-! ## Changes of the logical heaps -/

theorem lasts_of_heaps {heaps : List LogicalHeap}
    (hheaps : heaps.map (·.lasting) = h.heaps.map (·.lasting)) : h.Lasts { h with heaps } := by
  unfold Lasts lasting
  simp only [hheaps]

theorem lasts_modifyHeap {f : LogicalHeap → LogicalHeap} (hf : ∀ l, (f l).lasting = l.lasting) :
    h.Lasts (h.modifyHeap i f) := lasts_of_heaps (map_modify_of_same hf _)

theorem lasts_modifyHeaps {f : LogicalHeap → LogicalHeap} (hf : ∀ l, (f l).lasting = l.lasting) :
    h.Lasts (h.modifyHeaps f) := by
  apply lasts_of_heaps
  rw [List.map_map]
  exact List.map_congr_left fun l _ => hf l

theorem lasts_updateHeap {f : LogicalHeap → Checked LogicalHeap}
    (hf : ∀ l l', f l = .ok l' → l'.lasting = l.lasting) (hrun : h.updateHeap i f = .ok h') :
    h.Lasts h' := by
  obtain ⟨he, hheaps⟩ := map_updateHeap hf hrun
  rw [he]
  exact lasts_of_heaps hheaps

theorem lasts_onArena {α : Type} {t : Transition SegmentArena α} {q : Except HeapError α}
    (hrun : onArena i t h = .ok (q, h')) : h.Lasts h' := by
  cases hl : h.heaps[i]? with
  | none =>
    simp only [onArena, fetchHeap, hl, Effect.get_bind, Transition.ofExcept_bind] at hrun
    cases hrun
    exact frame_lasts.refl h
  | some l =>
    obtain ⟨arena, _, rfl⟩ := (onArena_eq_ok hl).1 hrun
    exact lasts_modifyHeap fun _ => rfl

theorem lasts_rebuildSegments (hrun : h.rebuildSegments = .ok h') : h.Lasts h' := by
  simp only [rebuildSegments, Checked.bind_eq_ok, Checked.pure_eq_ok] at hrun
  obtain ⟨heaps, hheaps, rfl⟩ := hrun
  refine lasts_of_heaps (Checked.map_of_mapM hheaps fun l l' hl => ?_)
  simp only [Checked.bind_eq_ok, Checked.pure_eq_ok] at hl
  obtain ⟨segments, _, rfl⟩ := hl
  rfl

theorem lasting_add {l : LogicalHeap} {counters : Counters} {p : DataPoint} {n : Nat}
    (hrun : l.counters.add p n = .ok counters) :
    ({ l with counters } : LogicalHeap).lasting = l.lasting := by
  simp only [Counters.add, Checked.bind_eq_ok, Checked.pure_eq_ok] at hrun
  obtain ⟨_, _, rfl⟩ := hrun
  simp only [LogicalHeap.lasting, LogicalHeap.view, LogicalHeap.face, List.length_set]

theorem lasting_recordMechanism (l : LogicalHeap) (m : Mechanism) :
    ({ l with counters := l.counters.recordMechanism m } : LogicalHeap).lasting = l.lasting := by
  simp only [LogicalHeap.lasting, LogicalHeap.view, LogicalHeap.face, Counters.recordMechanism,
    List.length_modify]

theorem lasting_recordCompaction (l : LogicalHeap) (r : CompactionReason) :
    ({ l with counters := l.counters.recordCompaction r } : LogicalHeap).lasting = l.lasting := by
  simp only [LogicalHeap.lasting, LogicalHeap.view, LogicalHeap.face, Counters.recordCompaction,
    List.length_modify]

/-! ## Stages -/

theorem lasts_sweepDead (live : Nat → Record → Bool) : h.Lasts (h.sweepDead live).2 := by
  have hfold (gone : List (Nat × Record)) (k : Heap) :
      k.Lasts (gone.foldl (fun h x => h.modifyHeap x.2.heap fun l =>
        { l with budgets := l.budgets.discharge x.2.generation x.2.size }) k) := by
    induction gone generalizing k with
    | nil => exact frame_lasts.refl k
    | cons x gone ih =>
      have hfirst : k.Lasts (k.modifyHeap x.2.heap fun l =>
          { l with budgets := l.budgets.discharge x.2.generation x.2.size }) :=
        lasts_modifyHeap fun _ => rfl
      exact frame_lasts.trans hfirst (ih _)
  have hgone := hfold (h.space.removeWhere fun a r => !live a r).1 h
  unfold Lasts lasting at hgone ⊢
  simp only [Lasting.mk.injEq] at hgone ⊢
  obtain ⟨hheaps, hbackground, hwatch, hwatching, hphase, _, hcollections, hstatistics⟩ := hgone
  exact ⟨hheaps, hbackground, hwatch, hwatching, hphase, rfl, hcollections, hstatistics⟩

theorem lasting_planHeap {reason : CollectionReason} {fixed : Std.TreeSet Nat} {l l' : LogicalHeap}
    {s : Survival} {p p' : CompactionPlan} {why : Option CompactionReason}
    (hrun : h.planHeap condemned reason fixed l s p = .ok (why, l', p')) :
    l'.lasting = l.lasting := by
  simp only [planHeap, Checked.bind_eq_ok] at hrun
  obtain ⟨inputs, _, hrun⟩ := hrun
  split at hrun
  next why _ =>
    simp only [Checked.bind_eq_ok, Checked.pure_eq_ok, Prod.mk.injEq] at hrun
    obtain ⟨after, _, counters₁, hobjects, counters₂, hbytes, _, rfl, _⟩ := hrun
    have hcompacted := lasting_recordMechanism
      { l with counters := l.counters.recordCompaction why } .compacted
    exact (lasting_add (l := { l with counters := counters₁ }) hbytes).trans
      ((lasting_add (l := { l with
        counters := (l.counters.recordCompaction why).recordMechanism .compacted }) hobjects).trans
        (hcompacted.trans (lasting_recordCompaction l why)))
  · simp only [Checked.pure_eq_ok, Prod.mk.injEq] at hrun
    obtain ⟨_, rfl, _⟩ := hrun
    rfl

theorem lasting_planHeaps {reason : CollectionReason} {fixed : Std.TreeSet Nat}
    {pairs : List (LogicalHeap × Survival)} {p p' : CompactionPlan}
    {why : Option CompactionReason} {heaps : List LogicalHeap}
    (hrun : h.planHeaps condemned reason fixed pairs p = .ok (why, heaps, p')) :
    heaps.map (·.lasting) = pairs.map (·.1.lasting) := by
  induction pairs generalizing p why heaps with
  | nil =>
    simp only [planHeaps, Checked.pure_eq_ok, Prod.mk.injEq] at hrun
    obtain ⟨_, rfl, _⟩ := hrun
    rfl
  | cons x pairs ih =>
    simp only [planHeaps, Checked.bind_eq_ok, Checked.pure_eq_ok, Prod.exists, Prod.mk.injEq] at hrun
    obtain ⟨_, l, p₁, hone, _, rest, p₂, hrest, _, rfl, rfl⟩ := hrun
    rw [List.map_cons, List.map_cons, lasting_planHeap hone, ih hrest]

theorem lasts_compact {fixed : Std.TreeSet Nat} (hlen : survivals.length = h.heaps.length)
    (hrun : h.compact condemned fixed survivals summary = .ok (summary', h')) : h.Lasts h' := by
  obtain ⟨why, heaps, p, hplan, -, happly⟩ := compact_stages.1 hrun
  have hplanned : h.Lasts { h with heaps } :=
    lasts_of_heaps ((lasting_planHeaps hplan).trans (map_zip_fst hlen LogicalHeap.lasting))
  obtain ⟨-, rfl⟩ | ⟨-, space, -, hrebuild⟩ := applyPlan_stages.1 happly
  · exact hplanned
  · have hforwarded : ({ h with heaps } : Heap).Lasts (({ h with heaps } : Heap).forwarded p space) :=
      lasts_modifyHeaps fun _ => rfl
    exact Eq.trans (lasts_rebuildSegments hrebuild) (Eq.trans hforwarded hplanned)

theorem lasts_tuneBudgets (hlen : survivals.length = h.heaps.length)
    (hrun : h.tuneBudgets condemned survivals = .ok h') : h.Lasts h' := by
  simp only [tuneBudgets, Checked.bind_eq_ok, Checked.pure_eq_ok] at hrun
  obtain ⟨heaps, hheaps, rfl⟩ := hrun
  refine lasts_of_heaps (Eq.trans (Checked.map_of_mapM (k := fun x => x.1.lasting) hheaps
    fun x l hl => ?_) (map_zip_fst hlen LogicalHeap.lasting))
  simp only [Checked.bind_eq_ok, Checked.pure_eq_ok] at hl
  obtain ⟨budgets, _, counters, hcounters, rfl⟩ := hl
  exact lasting_add hcounters

theorem lasts_promoteSurvivors
    (hrun : h.promoteSurvivors condemned summary = .ok (summary', h')) : h.Lasts h' := by
  simp only [promoteSurvivors, Checked.bind_eq_ok, Checked.pure_eq_ok, Prod.mk.injEq] at hrun
  obtain ⟨h₁, hfold, _, rfl⟩ := hrun
  refine Checked.foldlM_induct (fun k => h.Lasts k) (fun k x k' _ hk hstep => ?_)
    (frame_lasts.refl h) hfold
  simp only [promote, Checked.bind_eq_ok, Checked.pure_eq_ok] at hstep
  obtain ⟨mid, hmid, rfl⟩ := hstep
  have hupdated : k.Lasts mid := lasts_updateHeap (fun l l' hl => by
    simp only [Checked.bind_eq_ok, Checked.pure_eq_ok] at hl
    obtain ⟨budgets, _, counters, hcounters, rfl⟩ := hl
    exact lasting_add hcounters) hmid
  exact frame_lasts.trans hk hupdated

theorem lasts_syncHeap : Steady Lasts (syncHeap condemned i) := by
  intro k k' q hrun
  rw [syncHeap_apply] at hrun
  have hsorted : k.Lasts (k.sortQueue i) := lasts_modifyHeap fun _ => rfl
  exact frame_lasts.trans hsorted (lasts_onArena hrun)

theorem lasts_refreshCards (hrun : h.refreshCards condemned consumed = .ok h') : h.Lasts h' := by
  cases consumed with
  | none =>
    simp only [refreshCards, Checked.bind_eq_ok, Checked.pure_eq_ok] at hrun
    obtain ⟨_, _, rfl⟩ := hrun
    exact frame_lasts.refl h
  | some consumed =>
    simp only [refreshCards, Checked.bind_eq_ok, Checked.pure_eq_ok] at hrun
    obtain ⟨_, _, _, _, rfl⟩ := hrun
    exact frame_lasts.refl h

theorem lasts_settle (hlen : survivals.length = h.heaps.length)
    (hrun : settle condemned survivals consumed summary h = .ok (.ok summary', h')) :
    h.Lasts h' := by
  obtain ⟨h₁, h₂, h₃, h₄, htune, hpromote, hsync, hback, hrefresh⟩ := settle_stages.1 hrun
  have h₂' := frame_lasts.trans (lasts_tuneBudgets hlen htune) (lasts_promoteSurvivors hpromote)
  have h₃' : h₂.Lasts h₃ := steady_forM frame_lasts (fun _ => lasts_syncHeap) _ hsync
  have h₄' : h₃.Lasts h₄ := steady_forM frame_lasts
    (fun _ => steady_decommitEmpty_of frame_lasts fun _ _ _ _ hone => lasts_onArena hone) _ hback
  exact frame_lasts.trans (frame_lasts.trans h₂' (frame_lasts.trans h₃' h₄'))
    (lasts_refreshCards hrefresh)

theorem lasts_reclaim {compacts : Bool}
    (hrun : reclaim condemned live compacts consumed summary h = .ok (.ok summary', h')) :
    h.Lasts h' := by
  obtain ⟨h₁, summary₂, h₂, hsweep, hcompact, hsettle, -⟩ := reclaim_stages.1 hrun
  have hswept : h.Lasts (h.swept live).2 := lasts_sweepDead (h := { h with
    handles := h.handles.clearDeadWeak fun a => (h.space.get? a).any (live a) }) live
  have h₁' := frame_lasts.trans hswept (lasts_rebuildSegments hsweep)
  have hlen : (h₁.survivalsOf condemned (h.swept live).1).length = h₁.heaps.length :=
    length_survivalsOf
  obtain ⟨-, hcompact⟩ | ⟨-, rfl, rfl⟩ := compactIf_stages.1 hcompact
  · have h₂' := frame_lasts.trans h₁' (lasts_compact hlen hcompact)
    have hlen₂ := (stands_compact hlen hcompact).1.length
    exact frame_lasts.trans h₂' (lasts_settle (hlen.trans hlen₂.symm) hsettle)
  · exact frame_lasts.trans h₁' (lasts_settle hlen hsettle)

/-! ## Marking -/

theorem lasts_countCards {p : DataPoint} {cards : List Nat}
    (hrun : h.countCards p cards = .ok h') : h.Lasts h' := by
  refine Checked.foldlM_induct (fun k => h.Lasts k) (fun k card k' _ hk hstep => ?_)
    (frame_lasts.refl h) hrun
  rw [Checked.bind_eq_ok] at hstep
  obtain ⟨_, _, hstep⟩ := hstep
  refine frame_lasts.trans hk (lasts_updateHeap (fun l l' hl => ?_) hstep)
  simp only [Checked.bind_eq_ok, Checked.pure_eq_ok] at hl
  obtain ⟨_, hcounters, rfl⟩ := hl
  exact lasting_add hcounters

theorem lasts_scanFinalizable (live : Nat → Bool) :
    h.Lasts (h.scanFinalizable condemned live).2 := lasts_modifyHeaps fun _ => rfl

theorem lasting_markCondemned {scan : CardScan}
    (hrun : h.markCondemned condemned summary = .ok (scan, summary', h')) :
    h'.lasting = { h.lasting with phase := .done } := by
  simp only [markCondemned, Checked.bind_eq_ok, Checked.pure_eq_ok, Prod.exists, Prod.mk.injEq] at hrun
  obtain ⟨progress, cards, _, h₁, hscanned, h₂, hfalse, _, _, rfl⟩ := hrun
  have hscan : h₂.Lasts (h₂.scanFinalizable condemned (Marking.survives h₂.space condemned)).2 :=
    lasts_scanFinalizable _
  exact (frame_lasts.trans (lasts_countCards hscanned)
    (frame_lasts.trans (lasts_countCards hfalse) hscan) :)

theorem lasting_finishMarking {b b' : BackgroundMark}
    (hrun : h.finishMarking b = .ok (summary, b', h')) :
    h'.lasting = { h.lasting with writeWatch := h.writeWatch.clearAll } := by
  simp only [finishMarking, Checked.bind_eq_ok, Checked.pure_eq_ok, Prod.exists,
    Prod.mk.injEq] at hrun
  obtain ⟨n, b₁, _, _, _, rfl⟩ := hrun
  have hscan : h.Lasts (h.scanFinalizable .gen2 b₁.isLive).2 := lasts_scanFinalizable _
  unfold Lasts lasting at hscan
  unfold lasting
  simp only [Lasting.mk.injEq] at hscan ⊢
  obtain ⟨hheaps, hbackground, hwatch, hrest⟩ := hscan
  rw [hwatch]
  exact ⟨hheaps, hbackground, rfl, hrest⟩

end Heap

end GenHeap
