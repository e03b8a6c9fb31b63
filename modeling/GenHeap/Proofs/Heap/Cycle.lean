import GenHeap.Proofs.Heap.Collect
import GenHeap.Proofs.Tracer

/-!
A background cycle from its begin to its completion. The guard holds when it begins, since nothing is
live yet; tracing keeps it and makes more objects live; and from it the final pause marks all that
the roots of then reach.
-/

namespace GenHeap

open Worklist (Reached)
open Memory (Leads)

/-- What the final pause of a cycle with marks `b` found live, before it made entries ready: all that
the roots reach, and else only what the cycle reached. What is left besides, those entries reach. -/
structure BackgroundMark.Finds (b : BackgroundMark) (live : Nat → Prop) (m : Memory)
    (found : Nat → Bool) : Prop where
  inUse : ∀ {a}, m.InUse a → found a = true
  confined : ∀ {next seeds}, (∀ o t, t ∈ m.space.references o → t ∈ next o) →
    b.Confined m.space next seeds (· ∈ b.worklist) → ∀ {a}, m.space.contains a = true →
    found a = true → Reached (m.space.contains · = true) next (fun t => seeds t ∨ m.Root t) a
  revived : ∀ {a}, m.space.contains a = true → live a → found a = true ∨
    Reached (m.space.contains · = true) m.space.references
      (fun t => ∃ q ∈ m.queues, ∃ e ∈ q.unreachable .gen2 found, e.object = t) a

/-- The memory `m'` after a cycle with marks `b` was completed on `m`, and the objects left. -/
structure Completed (b : BackgroundMark) (live : Nat → Prop) (m m' : Memory) : Prop where
  sound : m'.Sound
  forth : ∀ {a r}, m.space.get? a = some r → live a → m'.space.get? a = some (Heap.aged .gen2 r)
  back : ∀ {a q}, m'.space.get? a = some q → m.space.contains a = true ∧ live a
  cycle : ∀ {a}, m.space.contains a = true → b.isLive a = true → live a
  roots : ∀ {a}, m.Root a → live a
  references : ∀ {a t}, live a → m.space.contains a = true → t ∈ m.space.references a → live t
  pending : ∀ {q g e}, q ∈ m.queues → e ∈ q.pending.get g → live e.object
  handles : ∃ found, (∀ a, found a = true ↔ m.space.contains a = true ∧ live a) ∧
    m'.handles = m.handles.clearDeadWeak found
  revived : ∃ found, b.Finds live m found ∧ m'.queues =
    m.queues.map fun q => Heap.sortedBy m'.space (q.scanUnreachable .gen2 found)
  cards : ∀ card, m'.cards.isCardDirty card = true ↔
    ∃ o slot, m'.space.Younger o slot ∧ m'.cards.index? (Object.slotPlace o slot) = some card
  collections : m'.collections = m.collections + 1
  background : m'.background = none

theorem Completed.queues {b : BackgroundMark} {live : Nat → Prop} {m m' : Memory}
    (h : Completed b live m m') : ∃ found, m'.queues =
      m.queues.map fun q => Heap.sortedBy m'.space (q.scanUnreachable .gen2 found) := by
  obtain ⟨found, _, hq⟩ := h.revived
  exact ⟨found, hq⟩

namespace Heap

variable {h h' : Heap} {a o t : Nat} {r : Record}

/-! ## Begin -/

theorem foldl_bounds (bs : List (Nat × Nat)) (b : Nat × Nat) :
    ∀ x ∈ b :: bs, (bs.foldl (fun y z => (min y.1 z.1, max y.2 z.2)) b).1 ≤ x.1 ∧
      x.2 ≤ (bs.foldl (fun y z => (min y.1 z.1, max y.2 z.2)) b).2 := by
  induction bs generalizing b with
  | nil =>
    intro x hx
    cases List.mem_singleton.1 hx
    exact ⟨Nat.le_refl _, Nat.le_refl _⟩
  | cons z bs ih =>
    have hfirst := ih (min b.1 z.1, max b.2 z.2) _ List.mem_cons_self
    intro x hx
    rw [List.foldl_cons]
    rcases List.mem_cons.1 hx with rfl | hx
    · exact ⟨Nat.le_trans hfirst.1 (Nat.min_le_left ..), Nat.le_trans (Nat.le_max_left ..) hfirst.2⟩
    · rcases List.mem_cons.1 hx with rfl | hx
      · exact ⟨Nat.le_trans hfirst.1 (Nat.min_le_right ..),
          Nat.le_trans (Nat.le_max_right ..) hfirst.2⟩
      · exact ih _ x (List.mem_cons_of_mem _ hx)

/-- The bounds of a cycle enclose all objects. -/
theorem cycleBounds_encloses (hl : h.memory.Laid) (hr : h.space.get? o = some r) :
    h.cycleBounds.1 ≤ o ∧ o < h.cycleBounds.2 := by
  obtain ⟨table, s, ht, hs, hstart, hstop⟩ := hl.held hr
  obtain ⟨lo, hi, hb, hlo, hhi⟩ := SegmentTable.bounds?_encloses hs
  have hpos := hl.apart.size_pos hr
  have hmem : (lo, hi) ∈ h.tables.filterMap SegmentTable.bounds? :=
    List.mem_filterMap.2 ⟨table, List.mem_of_getElem? ht, hb⟩
  unfold cycleBounds
  cases hbounds : h.tables.filterMap SegmentTable.bounds? with
  | nil =>
    rw [hbounds] at hmem
    cases hmem
  | cons b bs =>
    rw [hbounds] at hmem
    obtain ⟨hlow, hhigh⟩ := foldl_bounds bs b (lo, hi) hmem
    have hlt : o < hi := by omega
    exact ⟨Nat.le_trans hlow (Nat.le_trans hlo hstart), Nat.lt_of_lt_of_le hlt hhigh⟩

/-- The cycle that begins now: nothing is live but what lies outside the bounds. -/
def firstCycle (h : Heap) : BackgroundMark :=
  { BackgroundMark.ofRoots h.cycleBounds.1 h.cycleBounds.2 h.roots with phase := .trace }

theorem memory_beginCycle : h.beginCycle.memory = { h.memory with
    writeWatch := h.writeWatch.clearAll, watching := true, background := some h.firstCycle } := by
  refine (memory_publish _).trans ?_
  have hsame : (h.modifyHeaps fun l =>
      { l with savedEphemeral := l.ephemeral?.map fun s => (s.start, s.allocated) }).memory =
      h.memory := memory_modifyHeaps (fun _ => rfl) fun _ => rfl
  simp only [memory, Memory.mk.injEq] at hsame ⊢
  obtain ⟨hp, ht, hs, hh, hq, hc, _, _, _, hn⟩ := hsame
  exact ⟨hp, ht, hs, hh, hq, hc, rfl, trivial, rfl, hn⟩

theorem isLive_firstCycle (hl : h.memory.Laid) (hr : h.space.get? o = some r) :
    h.firstCycle.isLive o = false := by
  obtain ⟨hlow, hhigh⟩ := cycleBounds_encloses hl hr
  have hcovers : h.firstCycle.covers o = true := by
    show (decide (h.cycleBounds.1 ≤ o) && decide (o < h.cycleBounds.2)) = true
    simp [hlow, hhigh]
  have hmarked : h.firstCycle.bitmap.isMarked o = false := MarkBitmap.not_isMarked_ofBounds
  unfold BackgroundMark.isLive
  rw [hcovers, hmarked]
  rfl

/-- The tracer begins with the roots. -/
theorem confined_firstCycle (hl : h.memory.Laid) : h.firstCycle.Confined h.space h.space.references
    (· ∈ h.roots) (· ∈ h.firstCycle.worklist) := by
  intro a ha hlive
  rcases hlive with hlive | hw
  · obtain ⟨r, hr⟩ := ObjectSpace.contains_iff.1 ha
    rw [isLive_firstCycle hl hr] at hlive
    cases hlive
  · have hw : a ∈ Worklist.add [] h.roots := hw
    rw [Worklist.Search.mem_add] at hw
    exact .seed (hw.resolve_right List.not_mem_nil) ha

theorem sound_beginCycle (hm : h.memory.Sound) : h.beginCycle.memory.Sound := by
  rw [memory_beginCycle]
  refine ⟨hm.laid.congr rfl rfl rfl, hm.spans,
    hm.closed.congr rfl rfl rfl, hm.sorted,
    hm.carded.congr rfl rfl rfl h.writeWatch.sameGrid_clearAll, ?_⟩
  rintro b ⟨rfl⟩
  refine ⟨rfl, ⟨rfl, rfl⟩, fun o r slot t hr hl _ _ => ?_⟩
  rw [isLive_firstCycle hm.laid hr] at hl
  cases hl

/-- A cycle begins where there is none, or nothing changes. -/
theorem startBackground_cases {x : Except HeapError Bool}
    (hrun : startBackground h = .ok (x, h')) : x = .ok false ∧ h' = h ∨
      x = .ok true ∧ h.background = none ∧ h' = h.beginCycle := by
  unfold startBackground at hrun
  rw [Effect.get_bind] at hrun
  by_cases hcan : h.canStartCycle = true
  · simp only [hcan, if_true, Effect.set_bind, Effect.pure_apply] at hrun
    cases hrun
    simp only [canStartCycle, Bool.and_eq_true, Option.isNone_iff_eq_none] at hcan
    exact .inr ⟨rfl, hcan.2, rfl⟩
  · simp only [hcan, Bool.false_eq_true, if_false, Effect.pure_apply] at hrun
    cases hrun
    exact .inl ⟨rfl, rfl⟩

theorem leads_startBackground (hm : h.memory.Sound) {x : Except HeapError Bool}
    (hrun : startBackground h = .ok (x, h')) :
    (∃ started, x = .ok started) ∧ h'.space = h.space ∧ Leads h.memory h'.memory := by
  obtain ⟨rfl, rfl⟩ | ⟨rfl, hnone, rfl⟩ := startBackground_cases hrun
  · exact ⟨⟨_, rfl⟩, rfl, .refl hm⟩
  · have hsound := sound_beginCycle hm
    have hspace : h.beginCycle.space = h.space := congrArg Memory.space memory_beginCycle
    rw [memory_beginCycle] at hsound ⊢
    refine ⟨⟨_, rfl⟩, hspace, hsound, Nat.le_refl _, fun _ => ⟨fun _ ha => ha, fun b hb => ?_⟩⟩
    have hb' : h.background = some b := hb
    rw [hnone] at hb'
    cases hb'

/-! ## Tracing -/

/-- Steps of the tracer, any number of them. -/
theorem leads_steps (hm : h.memory.Sound) {step : BackgroundMark → BackgroundMark}
    (hstep : ∀ b, (b.Matched → h.memory.Guarded b → (step b).Matched ∧
      (step b).Guarded h.space h.writeWatch (· ∈ (step b).worklist)) ∧
      ∀ a, b.isLive a = true → (step b).isLive a = true) :
    Leads h.memory { h.memory with background := h.background.map step } := by
  refine ⟨⟨hm.laid.congr rfl rfl rfl, hm.spans,
    hm.closed.congr rfl rfl rfl, hm.sorted, hm.carded.congr rfl rfl rfl (.refl _), ?_⟩,
    Nat.le_refl _, fun _ => ⟨fun _ ha => ha, ?_⟩⟩
  · intro b' hb'
    obtain ⟨b, hb, rfl⟩ := Option.map_eq_some_iff.1 hb'
    have hg := hm.guarded b hb
    obtain ⟨hmatched, hguarded⟩ := (hstep b).1 hg.matched hg
    exact ⟨hg.watching, hmatched, hguarded⟩
  · intro b hb
    have hb : h.background = some b := hb
    refine ⟨step b, by rw [hb]; rfl, fun a _ hl => (hstep b).2 a hl, fun _ ha => .inl ha⟩

theorem leads_trace (hm : h.memory.Sound) : Leads h.memory h.trace.memory :=
  leads_steps hm fun _ => ⟨fun hb hg => hg.guarded.steps hb hm.laid.apart hm.closed.slots,
    fun _ ha => BackgroundMark.isLive_steps ha⟩

theorem leads_traceStep (hm : h.memory.Sound) : Leads h.memory h.traceStep.memory :=
  leads_steps hm fun _ => ⟨fun hb hg => hg.guarded.step hb hm.laid.apart hm.closed.slots,
    fun _ ha => BackgroundMark.isLive_step ha⟩

/-! ## Giving it up -/

/-- A cycle in progress is given up, and there may be none. -/
theorem abortBackground_cases {x : Except HeapError Bool} (hrun : abortBackground h = .ok (x, h')) :
    h.background = none ∧ x = .ok false ∧ h = h' ∨
      (∃ b, h.background = some b) ∧ x = .ok true ∧ h.discardCycle.publish = h' := by
  unfold abortBackground at hrun
  rw [Effect.get_bind] at hrun
  cases hb : h.background with
  | none =>
    simp only [hb, Option.isSome_none, Bool.false_eq_true, if_false, Effect.pure_apply] at hrun
    cases hrun
    exact .inl ⟨rfl, rfl, rfl⟩
  | some b =>
    simp only [hb, Option.isSome_some, if_true, Effect.set_bind, Effect.pure_apply] at hrun
    cases hrun
    exact .inr ⟨⟨b, rfl⟩, rfl, rfl⟩

theorem sound_abortBackground (hm : h.memory.Sound) {x : Except HeapError Bool}
    (hrun : abortBackground h = .ok (x, h')) : h'.memory.Sound ∧ h'.background = none := by
  obtain ⟨hb, -, rfl⟩ | ⟨-, -, rfl⟩ := abortBackground_cases hrun
  · exact ⟨hm, hb⟩
  · obtain ⟨watching, watch, hgrid, hdiscard⟩ := memory_discardCycle (h := h)
    have hquiet := withoutCycle hm hgrid watching h.collections
    have hm' : h.discardCycle.publish.memory = { h.memory with
        background := none, watching, writeWatch := watch } := (memory_publish _).trans hdiscard
    refine ⟨?_, congrArg Memory.background hm'⟩
    rw [hm']
    exact hquiet

/-! ## Completion -/

/-- What the marks `b'` at the end of a cycle make live, where its tracing left the marks `b`. -/
structure Finished (b b' : BackgroundMark) (m : Memory) : Prop where
  cycle : ∀ {a}, m.space.contains a = true → b.isLive a = true → b'.isLive a = true
  roots : ∀ {a}, m.Root a → b'.isLive a = true
  references : ∀ {a t}, b'.isLive a = true → m.space.contains a = true →
    t ∈ m.space.references a → b'.isLive t = true
  pending : ∀ {q g e}, q ∈ m.queues → e ∈ q.pending.get g → b'.isLive e.object = true

/-- The first trace of the final pause starts at the roots, the second one at what it left dead. -/
theorem finished_of_closes {m : Memory} (hclosed : m.Closed) (hsorted : m.Sorted)
    {b b₁ b₂ : BackgroundMark} {seeds₁ seeds₂ : Nat → Prop}
    (h₁ : BackgroundMark.Closes m.space b seeds₁ b₁)
    (h₂ : BackgroundMark.Closes m.space b₁ seeds₂ b₂)
    (hroots : ∀ t, m.Root t → b₁.isLive t = true)
    (hrevived : ∀ q ∈ m.queues, ∀ g, ∀ e ∈ q.pending.get g, b₁.isLive e.object = false →
      seeds₂ e.object) : Finished b b₂ m := by
  have hmono {a : Nat} (ha : m.space.contains a = true) (hl : b₁.isLive a = true) :
      b₂.isLive a = true := (h₂.live_iff a ha).2 (.inl hl)
  constructor
  · intro a ha hl
    exact hmono ha ((h₁.live_iff a ha).2 (.inl hl))
  · intro a ha
    exact hmono (hclosed.root ha) (hroots a ha)
  · intro a t hl ha ht
    obtain ⟨r, hr, hslot, hne⟩ := ObjectSpace.mem_references.1 ht
    exact h₂.closed a t hl ha ht (hclosed.slots a r t hr hslot hne)
  · intro q g e hq he
    have hc := hsorted.contains hq he
    cases hl : b₁.isLive e.object with
    | true => exact hmono hc hl
    | false => exact (h₂.live_iff _ hc).2 (.inr (.seed (hrevived q hq g e he hl) hc))

theorem Finished.keeps {m : Memory} {b b' : BackgroundMark} (h : Finished b b' m)
    (hclosed : m.Closed) (hsorted : m.Sorted) : m.Keeps fun a _ => b'.isLive a := by
  have hkept {a : Nat} (ha : m.space.contains a = true) (hl : b'.isLive a = true) :
      ∃ r, m.space.get? a = some r ∧ b'.isLive a = true := by
    obtain ⟨r, hr⟩ := ObjectSpace.contains_iff.1 ha
    exact ⟨r, hr, hl⟩
  constructor
  · intro a r t hr hl ht hne
    refine hkept (hclosed.slots a r t hr ht hne) ?_
    exact h.references hl (ObjectSpace.contains_iff.2 ⟨r, hr⟩)
      (ObjectSpace.mem_references.2 ⟨r, hr, ht, hne⟩)
  · intro a ha
    exact hkept (hclosed.root ha) (h.roots ha)
  · intro q g e hq he
    exact hkept (hsorted.contains hq he) (h.pending hq he)

/-- The final pause leaves alive all that has to be, and makes the entries of the others ready. -/
theorem finishMarking_eq_ok (hm : h.memory.Sound) {b b' : BackgroundMark} (hb : b.Matched)
    (hg : b.Guarded h.space h.writeWatch (· ∈ b.worklist)) {summary : CollectionSummary}
    (hrun : h.finishMarking b = .ok (summary, b', h')) :
    Finished b b' h.memory ∧ ∃ found, b.Finds (b'.isLive · = true) h.memory found ∧
      h'.memory = { h.memory with
        writeWatch := h.writeWatch.clearAll
        queues := h.memory.queues.map (·.scanUnreachable .gen2 found) } := by
  simp only [finishMarking, Checked.bind_eq_ok, Checked.pure_eq_ok, Prod.exists,
    Prod.mk.injEq] at hrun
  obtain ⟨n, b₁, hpause, _, rfl, rfl⟩ := hrun
  have hwatch : 0 < h.writeWatch.cardSize := by
    have hsize := hm.carded.watch.cardSize
    have hpos := hm.carded.cardSize
    exact hsize ▸ hpos
  have hranges : ∀ o r, h.space.get? o = some r → ∃ start stop, (start, stop) ∈ h.ranges ∧
      h.writeWatch.base ≤ start ∧ start ≤ o ∧ o + r.size ≤ stop ∧ o + r.size < Word.count := by
    intro o r hr
    have hbase : h.writeWatch.base = h.provider.space.range.start :=
      hm.carded.watch.base.trans hm.carded.base
    rw [hbase]
    exact exists_range hm.laid hr
  obtain ⟨stack, hfirst, hroots, hstack⟩ :=
    hg.finishUnderPause hb hm.laid.apart hm.laid.slots_fit hwatch hranges hpause
  have hscanned : (h.scanFinalizable .gen2 b₁.isLive).2.memory = { h.memory with
      queues := h.memory.queues.map (·.scanUnreachable .gen2 b₁.isLive) } := memory_scanFinalizable
  have hspace : (h.scanFinalizable .gen2 b₁.isLive).2.space = h.space :=
    congrArg Memory.space hscanned
  rw [hspace]
  have hsecond : BackgroundMark.Closes h.space b₁ (· ∈ (h.scanFinalizable .gen2 b₁.isLive).1)
      (BackgroundMark.traceToClosure h.space b₁ (h.scanFinalizable .gen2 b₁.isLive).1) :=
    BackgroundMark.traceToClosure_closes hfirst.matched hm.laid.apart fun o t ho hc ht ht' =>
      .inl (hfirst.closed o t ho hc ht ht')
  constructor
  · refine finished_of_closes hm.closed hm.sorted hfirst hsecond ?_ ?_
    · intro t ht
      exact hroots t (mem_roots.2 ht) (hm.closed.root ht)
    · intro q hq g e he hdead
      exact mem_scanFinalizable.2 ⟨hdead, q, hq, g, by cases g <;> rfl, e, he, rfl⟩
  · refine ⟨b₁.isLive, ⟨fun ha => ?_, fun hnext hb a ha hl => ?_, fun {a} ha hl => ?_⟩, ?_⟩
    · exact ha.of_closed (fun t ht hc => hroots t (mem_roots.2 ht) hc)
        fun o t ho hl ht hc => hfirst.closed o t hl ho ht hc
    · refine (hb.closes hnext hfirst hstack ha hl).mono fun t ht hc => .seed ?_ hc
      exact ht.imp_right mem_roots.1
    · refine ((hsecond.live_iff a ha).1 hl).imp_right fun hr => hr.mono fun t ht hc => .seed ?_ hc
      obtain ⟨hdead, q, hq, g, hg, e, he, rfl⟩ := mem_scanFinalizable.1 ht
      exact ⟨q, hq, e, FinalizationQueue.mem_unreachable.2 ⟨g, hg, he, hdead⟩, rfl⟩
    simp only [memory, Memory.mk.injEq] at hscanned ⊢
    obtain ⟨hp, ht, _, hh, hq, hc, hw, hrest⟩ := hscanned
    exact ⟨hp, ht, trivial, hh, hq, hc, by rw [hw], hrest⟩

/-- The memory between the final pause and reclaiming. -/
structure Paused (b b' : BackgroundMark) (m : Memory) (found : Nat → Bool) (m₁ : Memory) : Prop
    extends Finished b b' m where
  finds : b.Finds (b'.isLive · = true) m found
  memory : m₁ = { m with
    background := none, watching := false, writeWatch := m.writeWatch.clearAll
    collections := m.collections + 1, queues := m.queues.map (·.scanUnreachable .gen2 found) }

theorem background_trace {b : BackgroundMark} (hb : h.background = some b) : h.trace.background =
    some (BackgroundMark.run h.space h.config.tuning.backgroundChunk b) := by
  show h.background.map _ = _
  rw [hb, Option.map_some]

theorem paused_of_finishMarking (hm : h.memory.Sound) {b b' : BackgroundMark}
    (hb : h.trace.background = some b) {summary : CollectionSummary} {h₁ : Heap}
    (hrun : h.trace.stopCycle.finishMarking b = .ok (summary, b', h₁)) :
    ∃ found, Paused b b' h.memory found h₁.memory := by
  have hg := (leads_trace hm).sound.guarded b hb
  have hquiet := withoutCycle hm (.refl h.writeWatch) false (h.collections + 1)
  have hstop : h.trace.stopCycle.memory = { h.memory with
      background := none, watching := false, collections := h.collections + 1 } := (rfl)
  have hquiet' : h.trace.stopCycle.memory.Sound := hstop ▸ hquiet
  obtain ⟨hfinished, found, hfound, hm₁⟩ := finishMarking_eq_ok hquiet' hg.matched hg.guarded hrun
  rw [hstop] at hfinished hm₁
  exact ⟨found, ⟨hfinished.cycle, hfinished.roots, hfinished.references, hfinished.pending⟩,
    ⟨hfound.inUse, hfound.confined, hfound.revived⟩, hm₁⟩

/-- Reclaiming may follow: it keeps all that is named. -/
theorem Paused.keeps {m m₁ : Memory} {b b' : BackgroundMark} {found : Nat → Bool}
    (h : Paused b b' m found m₁) (hm : m.Sound) :
    m₁.Laid ∧ 0 < m₁.cards.cardSize ∧ m₁.Keeps fun a _ => b'.isLive a := by
  have hkeeps := (h.toFinished.keeps hm.closed hm.sorted).scanUnreachable .gen2 found
  obtain ⟨_, _, rfl⟩ := h
  exact ⟨hm.laid.congr rfl rfl rfl, hm.carded.cardSize, hkeeps.slots, hkeeps.roots, hkeeps.pending⟩

/-- What the final pause and reclaiming do together. -/
theorem completed_of_reclaimed {m m₁ m' : Memory} (hm : m.Sound) {b b' : BackgroundMark}
    {found : Nat → Bool} (h : Paused b b' m found m₁)
    (hr : Reclaimed .gen2 (fun a _ => b'.isLive a) id m₁ m') (hcards : Recarded .gen2 none m₁ m') :
    Completed b (fun a => b'.isLive a = true) m m' := by
  obtain ⟨hlaid, _, hkeeps⟩ := h.keeps hm
  obtain ⟨h, hfound, rfl⟩ := h
  have hquiet := withoutCycle hm m.writeWatch.sameGrid_clearAll false (m.collections + 1)
  constructor
  · exact hr.sound hlaid hkeeps
      (hquiet.carded.congr rfl rfl rfl (.refl _)) hcards rfl
  · intro a r hget hl
    have hsame := hr.get?_of_live hget hl
    simpa only [List.map_id, id_eq] using hsame
  · intro a q hq
    obtain ⟨c, r, hget, hl, rfl, _⟩ := hr.get?_iff.1 hq
    exact ⟨ObjectSpace.contains_iff.2 ⟨r, hget⟩, hl⟩
  · exact h.cycle
  · exact h.roots
  · exact h.references
  · exact h.pending
  · refine ⟨_, fun a => ?_, hr.handles.trans (HandleTable.relocate_id _)⟩
    show (m.space.get? a).any _ = true ↔ _
    rw [Option.any_eq_true, ObjectSpace.contains_iff]
    exact ⟨fun ⟨r, hget, hl⟩ => ⟨⟨r, hget⟩, hl⟩, fun ⟨⟨r, hget⟩, hl⟩ => ⟨r, hget, hl⟩⟩
  · refine ⟨found, hfound, ?_⟩
    rw [hr.queues, List.map_map]
    simp only [Function.comp_def, FinalizationQueue.relocate_id]
  · intro card
    rw [hcards card]
    simp only [hr.grid.index?]
  · rw [hr.rest]
  · rw [hr.rest]

/-- Completing a cycle never fails, and answers a summary. -/
theorem completeBackground_eq_ok (hm : h.memory.Sound) {b : BackgroundMark}
    (hb : h.background = some b) {x : Except HeapError (Option CollectionSummary)}
    (hrun : completeBackground h = .ok (x, h')) :
    ∃ summary live, x = .ok (some summary) ∧ Completed b live h.memory h'.memory := by
  have hg := hm.guarded b hb
  have htraced := background_trace hb
  obtain ⟨hnone, -⟩ | ⟨_, summary, b₂, h₁, q, h₂, hb', hfinish, hreclaim, hend⟩ :=
    completeBackground_cases hrun
  · cases htraced.symm.trans hnone
  cases htraced.symm.trans hb'
  obtain ⟨found, hpaused⟩ := paused_of_finishMarking hm htraced hfinish
  obtain ⟨hlaid, hpos, _⟩ := hpaused.keeps hm
  obtain ⟨⟨summary', rfl⟩, f, hid, hr, hcards⟩ := reclaim_eq_ok hlaid hpos hreclaim
  cases hid rfl
  obtain ⟨e, he, -⟩ | ⟨_, hq, rfl, hlast⟩ := hend
  · cases he
  · cases hq
    rw [memory_finishCollection hlast, memory_dropSaved, memory_sweeper]
    have hdone := completed_of_reclaimed hm hpaused hr hcards
    obtain ⟨found, hfinds, hqueues⟩ := hdone.revived
    have hfinds' : b.Finds (b₂.isLive · = true) h.memory found :=
      ⟨hfinds.inUse, fun hnext hc => hfinds.confined hnext
        (hc.steps hnext hg.matched hg.guarded hm.laid.apart hm.closed.slots), hfinds.revived⟩
    exact ⟨summary', _, rfl, hdone.sound, hdone.forth, hdone.back,
      fun ha hl => hdone.cycle ha (BackgroundMark.isLive_steps hl), hdone.roots, hdone.references,
      hdone.pending, hdone.handles, ⟨found, hfinds', hqueues⟩, hdone.cards, hdone.collections,
      hdone.background⟩

end Heap

end GenHeap
