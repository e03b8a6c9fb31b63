import GenHeap.Proofs.Heap.Likeness
import GenHeap.Proofs.Heap.Reachable
import GenHeap.Proofs.Tracer

/-!
A full collection in a pause and a background cycle that nothing disturbs. Both find live what the
roots reach, and keep besides what waiting entries of other objects reach; the rest is common to both,
so they leave heaps that are alike unless the one in the pause relocates objects.
-/

namespace GenHeap

open Worklist (Reached)

namespace FinalizationQueue

/-- Which entries are made ready depends on the objects of waiting entries only. -/
theorem scanUnreachable_congr {q : FinalizationQueue} {c : Generation} {live live' : Nat → Bool}
    (h : ∀ g, ∀ e ∈ q.pending.get g, live' e.object = live e.object) :
    q.scanUnreachable c live' = q.scanUnreachable c live := by
  have hdead : q.unreachable c live' = q.unreachable c live := by
    refine List.flatMap_congr fun g _ => List.filter_congr fun e he => ?_
    rw [h g e he]
  have hpending (g : Generation) : (q.pending.get g).filter (live' ·.object) =
      (q.pending.get g).filter (live ·.object) := List.filter_congr fun e he => h g e he
  unfold scanUnreachable
  simp only [hdead, hpending]

end FinalizationQueue

namespace Memory

variable {m : Memory} {a : Nat}

/-! ## What a full collection finds -/

theorem live_gen2 : m.Live .gen2 a ↔ m.InUse a := by
  have hseed (b : Nat) : m.Seed .gen2 b ↔ m.Root b := by
    refine ⟨fun h => h.resolve_right ?_, .inl⟩
    rintro ⟨o, r, _, hc, _⟩
    cases hg : r.generation <;> rw [hg] at hc <;> cases hc
  unfold Live
  rw [ObjectSpace.condemned_gen2, Worklist.reached_congr fun b _ => hseed b]
  exact ⟨fun h => h.2 h.1, fun h => ⟨h.within, fun _ => h⟩⟩

theorem survives_gen2 : m.Survives .gen2 a ↔ m.InUse a ∨
    Reached (m.space.contains · = true) m.space.references (m.Revived .gen2) a := by
  unfold Survives
  rw [live_gen2, ObjectSpace.condemned_gen2]

end Memory

namespace Marking

/-- Tracing changes nothing but marks. -/
theorem alike_trace {workers threshold : Nat} {c : Generation} {s : ObjectSpace}
    {seeds : List Nat} : s.Alike (trace workers threshold c s seeds).space := by
  refine trace_induct (fun s' => s.Alike s') (fun s' a h => h.trans ⟨fun b => ?_, rfl, rfl⟩)
    (.refl s)
  rw [ObjectSpace.get?_update]
  split
  · rw [Option.map_map]
    rfl
  · rfl

end Marking

namespace Heap

variable {h h' k : Heap} {a : Nat} {live live' : Nat → Bool} {b : BackgroundMark}

/-! ## In a pause -/

theorem Alike.scanFinalizable (ha : h.Alike k) (c : Generation) (live : Nat → Bool) :
    (h.scanFinalizable c live).2.Alike (k.scanFinalizable c live).2 :=
  ha.modifyHeaps (fun l => { l with finalization := l.finalization.scanUnreachable c live })
    (fun _ => rfl) fun _ => rfl

theorem scanFinalizable_congr (hm : h.memory.Sorted) {c : Generation}
    (hlive : ∀ a, h.space.contains a = true → live' a = live a) :
    (h.scanFinalizable c live').2 = (h.scanFinalizable c live).2 := by
  have hheaps : h.heaps.map (fun l =>
        { l with finalization := l.finalization.scanUnreachable c live' }) =
      h.heaps.map fun l => { l with finalization := l.finalization.scanUnreachable c live } := by
    refine List.map_congr_left fun l hl => ?_
    rw [FinalizationQueue.scanUnreachable_congr fun g e he => hlive _ ?_]
    exact hm.contains (List.mem_map_of_mem hl) he
  show h.modifyHeaps _ = h.modifyHeaps _
  unfold modifyHeaps
  rw [hheaps]

/-- Full marking in a pause: entries are made ready by what the roots reach, and the marks tell what
survives. -/
theorem markCondemned_gen2 (hm : h.memory.Sound) {summary summary' : CollectionSummary}
    {scan : CardScan} (hrun : h.markCondemned .gen2 summary = .ok (scan, summary', h')) :
    ∃ live, (∀ a, live a = true ↔ h.memory.InUse a) ∧
      (∀ a r, h'.space.get? a = some r →
        (outlives .gen2 a r = true ↔ h.memory.Survives .gen2 a)) ∧
      (h.scanFinalizable .gen2 live).2.Alike h' := by
  obtain ⟨space, _, _, _, hout, hmemory⟩ := markCondemned_eq_ok hm hrun
  have hspace : h'.space = space := congrArg Memory.space hmemory
  rw [← hspace] at hout
  simp only [markCondemned, Checked.bind_eq_ok, Checked.pure_eq_ok, Prod.exists,
    Prod.mk.injEq] at hrun
  obtain ⟨progress, scan', hmark, h₁, hcount, h₂, hcount', _, _, rfl⟩ := hrun
  have htraced := mark_eq_ok hm hmark
  refine ⟨Marking.survives progress.space .gen2,
    fun a => (survives_iff htraced).trans Memory.live_gen2, hout, ?_⟩
  -- no cards are scanned, and so none are counted
  simp only [Marking.mark] at hmark
  rw [if_neg (by decide)] at hmark
  cases hmark
  cases hcount
  cases hcount'
  have hclear : h.space.Alike h.space.clearMarks :=
    ⟨ObjectSpace.sameButMarks_clearMarks _, rfl, rfl⟩
  exact ⟨rfl, rfl, rfl, (hclear.trans Marking.alike_trace).trans Marking.alike_trace, rfl, rfl, rfl⟩

/-- A collection without a cycle to give up marks the heap as it stands. -/
theorem markCondemned_beginCollection (hm : h.memory.Sound) (hnone : h.background = none)
    {summary summary' : CollectionSummary} {scan : CardScan}
    (hrun : h.beginCollection.markCondemned .gen2 summary = .ok (scan, summary', h')) :
    ∃ live, (∀ a, live a = true ↔ h.memory.InUse a) ∧
      (∀ a r, h'.space.get? a = some r →
        (outlives .gen2 a r = true ↔ h.memory.Survives .gen2 a)) ∧
      (h.scanFinalizable .gen2 live).2.Alike h' := by
  have hdiscard : h.discardCycle = h := by
    unfold discardCycle
    rw [hnone]
  have hbegin : h.beginCollection = { h with collections := h.collections + 1 } := by
    unfold beginCollection
    rw [hdiscard]
  have hmemory : h.beginCollection.memory = { h.memory with
      background := none, collections := h.collections + 1 } := by
    rw [hbegin]
    simp only [memory, hnone]
  have hsound := withoutCycle hm (.refl h.writeWatch) h.watching (h.collections + 1)
  obtain ⟨live, hlive, hout, halike⟩ := markCondemned_gen2 (hmemory ▸ hsound) hrun
  rw [hmemory] at hlive hout
  refine ⟨live, hlive, hout, .trans ?_ halike⟩
  rw [hbegin]
  exact ⟨rfl, rfl, rfl, .refl _, rfl, rfl, rfl⟩

/-! ## In the background -/

/-- The heap `k` is `h` with a cycle on it that began there and that nothing disturbed: the tracer has
marked, and has still to visit, only what the roots reach. -/
structure Tracing (h k : Heap) : Prop where
  alike : h.Alike k
  space : k.space = h.space
  writeWatch : k.writeWatch = h.writeWatch.clearAll
  sound : k.memory.Sound
  cycle : ∃ b, k.background = some b ∧ b.Confined h.space h.space.references (· ∈ h.roots) (· ∈ b.worklist)

theorem Alike.roots (ha : h.Alike k) : k.roots = h.roots := by
  unfold Heap.roots
  rw [ha.handles]
  exact congrArg (_ ++ List.flatten ·) (ha.map_heaps (·.finalization.roots))

theorem alike_beginCycle : h.Alike h.beginCycle := by
  refine Alike.trans ?_ alike_publish
  have hsaved : h.Alike (h.modifyHeaps fun l =>
      { l with savedEphemeral := l.ephemeral?.map fun s => (s.start, s.allocated) }) :=
    alike_modifyHeaps fun _ => rfl
  exact ⟨rfl, rfl, rfl, .refl _, rfl, hsaved.heaps, rfl⟩

theorem tracing_beginCycle (hm : h.memory.Sound) : h.Tracing h.beginCycle := by
  exact ⟨alike_beginCycle, rfl, rfl, sound_beginCycle hm, h.firstCycle, rfl,
    confined_firstCycle hm.laid⟩

/-- Whatever the tracer does alone, if its steps keep to what the roots reach. -/
theorem Tracing.advance (ht : h.Tracing k) {step : BackgroundMark → BackgroundMark}
    (hsound : Memory.Sound { k.memory with background := k.background.map step })
    (hstep : ∀ b, b.Matched → k.memory.Guarded b →
      b.Confined h.space h.space.references (· ∈ h.roots) (· ∈ b.worklist) →
      (step b).Confined h.space h.space.references (· ∈ h.roots) (· ∈ (step b).worklist)) :
    h.Tracing { k with background := k.background.map step } := by
  obtain ⟨b, hb, hc⟩ := ht.cycle
  have hg := ht.sound.guarded b hb
  refine ⟨⟨ht.alike.config, ht.alike.provider, ht.alike.cards, ht.alike.space, ht.alike.handles,
    ht.alike.heaps, ht.alike.totals⟩, ht.space, ht.writeWatch, hsound, step b, ?_,
    hstep b hg.matched hg hc⟩
  show k.background.map step = _
  rw [hb, Option.map_some]

theorem Tracing.traceStep (ht : h.Tracing k) : h.Tracing k.traceStep := by
  refine ht.advance (leads_traceStep ht.sound).sound fun b hb _ hc => ?_
  have hspace := ht.sound.laid.apart
  show (b.step k.space _).Confined h.space _ _ (· ∈ (b.step k.space _).worklist)
  have hspace : k.space.Apart := hspace
  rw [ht.space] at hspace ⊢
  exact hc.step (fun _ _ => id) hb hspace

theorem Tracing.trace (ht : h.Tracing k) : h.Tracing k.trace := by
  refine ht.advance (leads_trace ht.sound).sound fun b hb hg hc => ?_
  have hspace : k.space.Apart := ht.sound.laid.apart
  have hall : k.space.NoDangling := ht.sound.closed.slots
  have hguarded : b.Guarded k.space k.writeWatch (· ∈ b.worklist) := hg.guarded
  show (BackgroundMark.run k.space _ b).Confined h.space _ _
    (· ∈ (BackgroundMark.run k.space _ b).worklist)
  rw [ht.space] at hspace hall hguarded ⊢
  exact hc.steps (fun _ _ => id) hb hguarded hspace hall

theorem Tracing.traceSteps (ht : h.Tracing k) (n : Nat) : h.Tracing (Heap.traceStep^[n] k) := by
  induction n generalizing k with
  | zero => exact ht
  | succ n ih => exact ih ht.traceStep

/-- Steps of the tracer on the heap are steps of the tracer. -/
theorem background_traceSteps (k : Heap) (n : Nat) : (traceStep^[n] k).background =
    k.background.map (BackgroundMark.step k.space k.config.tuning.backgroundChunk)^[n] := by
  induction n generalizing k with
  | zero => exact Option.map_id'.symm
  | succ n ih =>
    rw [Function.iterate_succ_apply, ih]
    show (k.background.map _).map _ = _
    rw [Option.map_map]
    rfl

/-- The tracer ends. -/
theorem Tracing.exists_finished (ht : h.Tracing k) :
    ∃ n, ∀ j, n ≤ j → (Heap.traceStep^[j] k).tracerFinished = true := by
  obtain ⟨b, hb, _⟩ := ht.cycle
  have hspace : k.space.Apart := ht.sound.laid.apart
  obtain ⟨n, hn⟩ := BackgroundMark.exists_finished hspace (ht.sound.guarded b hb).matched
  refine ⟨n, fun j hj => ?_⟩
  unfold tracerFinished
  rw [background_traceSteps, hb]
  exact hn j hj

/-- The final pause of an undisturbed cycle: entries are made ready by what the roots reach, and what
is live then is what survives. -/
theorem Tracing.finishMarking (ht : h.Tracing k) (hm : h.memory.Sound)
    (hb : k.background = some b) :
    ∃ summary b' k' live, k.stopCycle.finishMarking b = .ok (summary, b', k') ∧
      summary.compaction = none ∧ summary.objectsRelocated = 0 ∧ k'.space = h.space ∧
      (∀ a, h.space.contains a = true → (live a = true ↔ h.memory.InUse a)) ∧
      (∀ a, h.space.contains a = true → (b'.isLive a = true ↔ h.memory.Survives .gen2 a)) ∧
      (h.scanFinalizable .gen2 live).2.Alike k' := by
  obtain ⟨c, hc, hconfined⟩ := ht.cycle
  cases hb.symm.trans hc
  have hg := ht.sound.guarded b hb
  have hguarded : b.Guarded k.space k.writeWatch (· ∈ b.worklist) := hg.guarded
  rw [ht.space, ht.writeWatch] at hguarded
  obtain ⟨b₁, hpause, hmatched, hreached⟩ :=
    hconfined.finishUnderPause k.ranges hg.matched hguarded hm.laid.apart
  have hlive (a : Nat) (ha : h.space.contains a = true) :
      b₁.isLive a = true ↔ h.memory.InUse a :=
    (hreached a ha).trans (Worklist.reached_congr fun _ _ => mem_roots)
  have hrevived (a : Nat) (ha : h.space.contains a = true) :
      a ∈ (k.stopCycle.scanFinalizable .gen2 b₁.isLive).1 ↔ h.memory.Revived .gen2 a := by
    have hqueues : k.stopCycle.memory.queues = h.memory.queues := ht.alike.map_heaps (·.finalization)
    rw [mem_scanFinalizable, hqueues, ← Bool.not_eq_true, hlive a ha, ← Memory.live_gen2]
    rfl
  have hagain : BackgroundMark.Closes h.space b₁
      (· ∈ (k.stopCycle.scanFinalizable .gen2 b₁.isLive).1)
      (BackgroundMark.traceToClosure h.space b₁
        (k.stopCycle.scanFinalizable .gen2 b₁.isLive).1) := by
    refine BackgroundMark.traceToClosure_closes hmatched hm.laid.apart fun o t hl ho ht hc => ?_
    exact .inl ((hreached t hc).2 (.step ((hreached o ho).1 hl) ht hc))
  have hrun : k.stopCycle.finishMarking b = .ok (
      { index := k.collections + 1, condemned := .gen2, reason := .background, background := true
        cardsScanned := 0
        finalizersReady := (k.stopCycle.scanFinalizable .gen2 b₁.isLive).1.length },
      BackgroundMark.traceToClosure h.space b₁ (k.stopCycle.scanFinalizable .gen2 b₁.isLive).1,
      { (k.stopCycle.scanFinalizable .gen2 b₁.isLive).2 with
        writeWatch := (k.stopCycle.scanFinalizable .gen2 b₁.isLive).2.writeWatch.clearAll }) := by
    rw [← ht.space, ← ht.alike.roots, ← ht.writeWatch] at hpause
    unfold Heap.finishMarking
    rw [show BackgroundMark.finishUnderPause k.stopCycle.space b k.stopCycle.roots
      k.stopCycle.writeWatch k.stopCycle.ranges = _ from hpause, ← ht.space]
    rfl
  refine ⟨_, _, _, b₁.isLive, hrun, rfl, rfl, ht.space, hlive, fun a ha => ?_, ?_⟩
  · rw [hagain.live_iff a ha, hlive a ha, Memory.survives_gen2, Worklist.reached_congr hrevived]
    rfl
  · have hscanned := ht.alike.scanFinalizable .gen2 b₁.isLive
    exact ⟨hscanned.config, hscanned.provider, hscanned.cards, hscanned.space, hscanned.handles,
      hscanned.heaps, hscanned.totals⟩

/-! ## The agreement -/

/-- A cycle that nothing disturbs and that runs to its end leaves a heap like the one that a full
collection of the same heap leaves, if that one relocates no object. -/
theorem background_agrees (hr : h.Reachable) (hconcurrent : h.config.concurrent = true)
    (hnone : h.background = none) {summary : CollectionSummary} {h₁ : Heap}
    (hrun : collect .gen2 .induced h = .ok (.ok summary, h₁))
    (hidle : summary.objectsRelocated = 0) :
    ∃ k, startBackground h = .ok (.ok true, k) ∧
      (∃ n, ∀ j, n ≤ j → (traceStep^[j] k).tracerFinished = true) ∧
      ∀ n, ∃ s h₂, completeBackground (traceStep^[n] k) = .ok (.ok (some s), h₂) ∧
        h₁.Alike h₂ := by
  have hm := hr.sound
  have ht := tracing_beginCycle hm
  have hcan : h.canStartCycle = true := by
    unfold canStartCycle
    rw [hconcurrent, hnone]
    rfl
  refine ⟨h.beginCycle, ?_, ht.exists_finished, fun n => ?_⟩
  · unfold startBackground
    rw [Effect.get_bind]
    simp only [hcan, if_true]
    rfl
  · have htn := (ht.traceSteps n).trace
    obtain ⟨b, hb, _⟩ := htn.cycle
    obtain ⟨s, b', k₁, live', hfinish, hcompaction, hmoved, hspace, hlive', hleft, hk₁⟩ :=
      htn.finishMarking hm hb
    obtain ⟨scan, summary₁, h₂, h₃, hmark, hreclaim, hlast⟩ := collect_stages.1 hrun
    have hfull : h.condemnedOf .gen2 = .gen2 := by
      unfold condemnedOf
      rw [hnone]
      rfl
    rw [hfull] at hmark hreclaim
    obtain ⟨live, hlive, hout, hh₂⟩ := markCondemned_beginCollection hm hnone hmark
    have hready : (h.scanFinalizable .gen2 live').2 = (h.scanFinalizable .gen2 live).2 :=
      scanFinalizable_congr hm.sorted fun a ha =>
        Bool.eq_iff_iff.2 ((hlive' a ha).trans (hlive a).symm)
    have hmarked : h₂.Alike k₁ := hh₂.symm.trans (hready ▸ hk₁)
    have hkept (a : Nat) : (k₁.space.get? a).any (fun _ => b'.isLive a) =
        (h₂.space.get? a).any (outlives .gen2 a) := by
      have hsame := hmarked.space.objects a
      cases hget : h₂.space.get? a with
      | none =>
        rw [hget, Option.map_none, Option.map_eq_none_iff] at hsame
        rw [hsame]
        rfl
      | some r =>
        obtain ⟨marked, hget'⟩ := hmarked.space.objects.get? hget
        rw [hget', Option.any_some, Option.any_some]
        have ha : h.space.contains a = true :=
          ObjectSpace.contains_iff.2 ⟨_, hspace ▸ hget'⟩
        exact Bool.eq_iff_iff.2 ((hleft a ha).trans (hout a r hget).symm)
    obtain ⟨s', k₂, hreclaim', hreclaimed, hbytes⟩ :=
      hmarked.reclaim hkept hcompaction hmoved hreclaim hidle
    have hswept : Alike { h₃ with sweeper := { h₃.sweeper with next := 0 } }
        { k₂ with sweeper := { k₂.sweeper with next := b'.high } } :=
      ⟨hreclaimed.config, hreclaimed.provider, hreclaimed.cards, hreclaimed.space,
        hreclaimed.handles, hreclaimed.heaps, hreclaimed.totals⟩
    have hended := hswept.trans
      (alike_modifyHeaps (f := fun l => { l with savedEphemeral := none }) fun _ => rfl)
    obtain ⟨h', hlast', halike⟩ := hended.finishCollection hbytes hlast
    exact ⟨s', h', (completeBackground_stages hb).2 ⟨s, b', k₁, k₂, hfinish, hreclaim', hlast'⟩,
      halike⟩

/-- An object that only an entry waits for is made ready with the one it refers to, and the fourth
object is freed. -/
theorem background_agrees_page : ∃ h h₁ k summary, h.Reachable ∧ h.config.concurrent = true ∧
    h.background = none ∧ collect .gen2 .induced h = .ok (.ok summary, h₁) ∧
    summary.objectsRelocated = 0 ∧ h.space.entries.map (·.1) = [4096, 4144, 4192, 4240] ∧
    h₁.space.entries.map (·.1) = [4096, 4144, 4192] ∧ h₁.roots = [4096, 4144] ∧
    startBackground h = .ok (.ok true, k) ∧
    (∃ n, ∀ j, n ≤ j → (traceStep^[j] k).tracerFinished = true) ∧
    ∀ n, ∃ s h₂, completeBackground (traceStep^[n] k) = .ok (.ok (some s), h₂) ∧
      h₁.Alike h₂ := by
  have hpage : leadsTo pageConfig
      [.allocate 0 { size := 48, generation := .gen2 },
        .allocate 0 { size := 48, generation := .gen2, slots := 1, finalizable := true },
        .allocate 0 { size := 48, generation := .gen2 },
        .allocate 0 { size := 48, generation := .gen2 }, .writeSlot 4144 0 4192,
        .createHandle .strong 4096]
      (fun h => (h.config.concurrent && h.background.isNone &&
          h.space.entries.map (·.1) == [4096, 4144, 4192, 4240]) &&
        ((collect .gen2 .induced).apply h).toOption.any fun x =>
          x.1.toOption.any (·.objectsRelocated == 0) &&
            x.2.space.entries.map (·.1) == [4096, 4144, 4192] &&
            x.2.roots == [4096, 4144]) = true := by
    decide +kernel
  obtain ⟨h, hr, hp⟩ := exists_of_leadsTo hpage
  obtain ⟨hbefore, hp⟩ := Bool.and_eq_true_iff.1 hp
  obtain ⟨⟨answer, h₁⟩, hrun, hafter⟩ := Checked.of_any hp
  simp only [Bool.and_eq_true, beq_iff_eq, Option.isNone_iff_eq_none] at hbefore hafter
  obtain ⟨⟨hconcurrent, hnone⟩, hobjects⟩ := hbefore
  obtain ⟨⟨hidle, hleft⟩, hroots⟩ := hafter
  cases answer with
  | error e => cases hidle
  | ok summary =>
    have hzero : summary.objectsRelocated = 0 := eq_of_beq hidle
    obtain ⟨k, hagrees⟩ := background_agrees hr hconcurrent hnone hrun hzero
    exact ⟨h, h₁, k, summary, hr, hconcurrent, hnone, hrun, hzero, hobjects, hleft, hroots, hagrees⟩

end Heap

end GenHeap
