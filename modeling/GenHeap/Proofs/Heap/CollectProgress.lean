import GenHeap.Proofs.Heap.SettleProgress

/-!
Collections of a heap in which nothing was written do not fault, in a pause or in the background,
and leave such a heap. A collection adds at most five times the bytes of the address range to any
running total.
-/

namespace GenHeap

/-- A heap of configuration `c` in which nothing was written, with running totals of at most `n`. -/
structure Heap.Calm (c : Config) (n : Nat) (h : Heap) : Prop where
  sound : h.memory.Sound
  shaped : h.Shaped
  config : h.config = c
  range : h.provider.space.range = c.addressRange
  unwritten : h.memory.Unwritten
  tallied : h.Tallied n

/-- Such a heap between marking and reclaiming. -/
structure Heap.Poised (c : Config) (n : Nat) (h : Heap) : Prop where
  laid : h.memory.Laid
  cardSize : 0 < h.cards.cardSize
  weighed : h.space.Weighed
  config : h.config = c
  range : h.provider.space.range = c.addressRange
  unwritten : h.memory.Unwritten
  tallied : h.Tallied n

theorem Marking.dirtyCards_of_clean {cards : CardTable} (h : cards.dirtyCards = [])
    (ranges : List (Nat × Nat)) : dirtyCards cards ranges = [] := by
  apply List.flatMap_eq_nil_iff.2
  intro x _
  obtain ⟨start, stop⟩ := x
  simp only [CardTable.dirtyIn, h]
  cases cards.index? start <;> rfl

namespace Heap

variable {c : Config} {h h' : Heap} {n k : Nat} {condemned : Generation}
  {summary : CollectionSummary}

theorem Calm.mono (hc : h.Calm c n) (hle : n ≤ k) : h.Calm c k :=
  ⟨hc.sound, hc.shaped, hc.config, hc.range, hc.unwritten, hc.tallied.mono hle⟩

theorem Calm.size_eq (hc : h.Calm c n) : h.provider.space.range.size = c.addressSpaceSize :=
  congrArg AddressRange.size hc.range

/-! ## The end of a collection -/

theorem tallied_recordCollection {s : Statistics} (ht : s.Tallied n)
    (hfreed : summary.bytesFreed ≤ k) (hpromoted : summary.bytesPromoted ≤ k)
    (hrelocated : summary.objectsRelocated ≤ k) (hroom : n + k < Word.count) :
    ∃ s', s.recordCollection summary = .ok s' ∧ s'.Tallied (n + k) := by
  have hadd {a b : Nat} (ha : a ≤ n) (hb : b ≤ k) : Word.add a b = .ok (a + b) :=
    Word.add_eq_ok_iff.2 ⟨by omega, rfl⟩
  simp only [Statistics.recordCollection, hadd ht.freed hfreed, hadd ht.promoted hpromoted,
    hadd ht.relocated hrelocated]
  exact ⟨_, rfl, Nat.le_add_right_of_le ht.allocated, Nat.add_le_add ht.freed hfreed,
    Nat.add_le_add ht.promoted hpromoted, Nat.add_le_add ht.relocated hrelocated⟩

theorem sameTallies_countMechanism (h : Heap) (m : Mechanism) :
    SameTallies h (h.countMechanism m) :=
  sameTallies_modifyHeaps (fun _ => rfl) fun _ => rfl

theorem tallied_finishCollection (ht : h.Tallied n) (hfreed : summary.bytesFreed ≤ k)
    (hpromoted : summary.bytesPromoted ≤ k) (hrelocated : summary.objectsRelocated ≤ k)
    (hroom : n + k < Word.count) :
    ∃ h', h.finishCollection summary = .ok h' ∧ h'.Tallied (n + k) := by
  have hcounted : (h.counted summary).Tallied n :=
    counted_induct (P := fun k => k.Tallied n) ht fun k m _ hk =>
      hk.same (sameTallies_countMechanism k m)
  obtain ⟨statistics, hstatistics, ht'⟩ :=
    tallied_recordCollection ht.statistics hfreed hpromoted hrelocated hroom
  refine ⟨_, finishCollection_stages.2 ⟨statistics, hstatistics, rfl⟩,
    Tallied.same ?_ (sameTallies_publish _)⟩
  exact ⟨ht', (hcounted.mono (Nat.le_add_right n k)).heaps⟩

/-! ## Marking -/

theorem sameTallies_scanFinalizable (h : Heap) (condemned : Generation) (live : Nat → Bool) :
    SameTallies h (h.scanFinalizable condemned live).2 :=
  sameTallies_modifyHeaps (fun _ => rfl) fun _ => rfl

theorem mark_of_clean {cards : CardTable} (hclean : cards.dirtyCards = [])
    (workers threshold : Nat) (space : ObjectSpace) (roots : List Nat) (condemned : Generation)
    (ranges : List (Nat × Nat)) :
    ∃ p, Marking.mark workers threshold space roots condemned cards ranges = .ok (p, {}) := by
  unfold Marking.mark Marking.scanCards
  rw [Marking.dirtyCards_of_clean hclean ranges]
  split <;> exact ⟨_, rfl⟩

theorem markCondemned_of_clean (hclean : h.cards.dirtyCards = []) (condemned : Generation)
    (summary : CollectionSummary) :
    ∃ scan summary' h', h.markCondemned condemned summary = .ok (scan, summary', h') ∧
      scan.consumed = [] ∧ summary'.objectsRelocated = summary.objectsRelocated ∧
      SameTallies h h' ∧ h'.writeWatch = h.writeWatch := by
  obtain ⟨p, hmark⟩ := mark_of_clean hclean h.config.gcThreads
    h.config.tuning.parallelMarkThreshold h.space h.roots condemned h.ranges
  simp only [markCondemned, hmark]
  have hscan := sameTallies_scanFinalizable { h with space := p.space, pausePhase := .done }
    condemned (Marking.survives p.space condemned)
  exact ⟨_, _, _, rfl, rfl, rfl, ⟨hscan.statistics, hscan.budgets, hscan.counters⟩, rfl⟩

theorem finishMarking_of_clean (hclean : h.writeWatch.dirtyCards = []) (b : BackgroundMark) :
    ∃ summary b' h', h.finishMarking b = .ok (summary, b', h') ∧ summary.objectsRelocated = 0 ∧
      SameTallies h h' := by
  unfold finishMarking BackgroundMark.finishUnderPause
  rw [Marking.dirtyCards_of_clean hclean h.ranges]
  have hscan (live : Nat → Bool) := sameTallies_scanFinalizable h .gen2 live
  refine ⟨_, _, _, rfl, rfl, rfl, ?_, ?_⟩
  · exact (hscan _).budgets
  · exact (hscan _).counters

/-! ## Giving up a cycle -/

theorem sameTallies_dropSaved (h : Heap) :
    SameTallies h (h.modifyHeaps fun l => { l with savedEphemeral := none }) :=
  sameTallies_modifyHeaps (fun _ => rfl) fun _ => rfl

theorem Tallied.discardCycle (ht : h.Tallied n) : h.discardCycle.Tallied n := by
  unfold Heap.discardCycle
  cases h.background with
  | none => exact ht
  | some b =>
    have hdropped := (ht.same (sameTallies_countMechanism h .backgroundAborted)).same
      (sameTallies_dropSaved _)
    have hstatistics := ht.statistics
    exact ⟨⟨hstatistics.allocated, hstatistics.freed, hstatistics.promoted,
      hstatistics.relocated⟩, hdropped.heaps⟩

theorem writeWatch_discardCycle (hclean : h.writeWatch.dirtyCards = []) :
    h.discardCycle.writeWatch.dirtyCards = [] := by
  unfold discardCycle
  cases h.background with
  | none => exact hclean
  | some b => exact CardTable.dirtyCards_clearAll h.writeWatch

/-! ## Collections -/

/-- Reclaiming runs, and so does whatever ends the collection. -/
theorem Poised.reclaim_runs (hp : h.Poised c n) (htuning : c.tuning = {})
    (hroom : n + 5 * c.addressSpaceSize < Word.count) {consumed : Option (List Nat)}
    (hconsumed : consumed = none ∨ consumed = some []) (compacts : Bool) (condemned : Generation)
    (live : Nat → Record → Bool) (hrelocated : summary.objectsRelocated = 0) :
    ∃ summary' h', reclaim condemned live compacts consumed summary h = .ok (.ok summary', h') ∧
      h'.provider.space.range = c.addressRange ∧ h'.memory.Unwritten ∧
      ∀ k, SameTallies h' k → ∃ k', k.finishCollection summary' = .ok k' ∧
        k'.Tallied (n + 5 * c.addressSpaceSize) := by
  have hsize : h.provider.space.range.size = c.addressSpaceSize :=
    congrArg AddressRange.size hp.range
  obtain ⟨summary', h', hreclaim, hwritten, ht, hfreed, hpromoted, hmoved⟩ :=
    tallied_reclaim hp.laid hp.unwritten hp.weighed hp.tallied (hp.config ▸ htuning)
    (by rw [hsize]; omega) hconsumed compacts condemned live summary
    (hrelocated ▸ Nat.zero_le _)
  obtain ⟨_, _, _, hr, _⟩ := reclaim_eq_ok hp.laid hp.cardSize hreclaim
  rw [hsize] at ht hfreed hpromoted hmoved
  refine ⟨summary', h', hreclaim, hr.range.trans hp.range, hwritten, fun k hk => ?_⟩
  obtain ⟨k', hfinish, ht'⟩ :=
    tallied_finishCollection (ht.same hk) hfreed hpromoted hmoved (by omega)
  exact ⟨k', hfinish, ht'.mono (by omega)⟩

theorem poised_of_markCondemned (hc : h.Calm c n) (condemned : Generation)
    (hrelocated : summary.objectsRelocated = 0) :
    ∃ scan summary' h', h.beginCollection.markCondemned condemned summary =
        .ok (scan, summary', h') ∧ scan.consumed = [] ∧ summary'.objectsRelocated = 0 ∧
      h'.Poised c n := by
  have hm := hc.sound
  obtain ⟨_, _, _, hm₀⟩ := memory_beginCollection (h := h)
  have hcards₀ : h.beginCollection.cards = h.cards := congrArg Memory.cards hm₀
  have hwatch₀ : h.beginCollection.writeWatch.dirtyCards = [] :=
    writeWatch_discardCycle hc.unwritten.watch
  have ht₀ : h.beginCollection.Tallied n :=
    ⟨hc.tallied.discardCycle.statistics, hc.tallied.discardCycle.heaps⟩
  have hclean : h.beginCollection.cards.dirtyCards = [] := hcards₀ ▸ hc.unwritten.cards
  obtain ⟨scan, summary', h', hmark, hscan, hmoved, hsame, hwatch⟩ :=
    markCondemned_of_clean hclean condemned summary
  obtain ⟨space, live, hmarked⟩ := marked_of_markCondemned hm hmark
  obtain ⟨hl, hpos, -⟩ := hmarked.keeps hm
  have hrests := rests_beginCollection.trans (rests_markCondemned hmark).1
  obtain ⟨_, _, _, hm₁⟩ := hmarked.memory
  have hcards₁ : h'.memory.cards = h.memory.cards := by rw [hm₁]
  have hspace₁ : h'.memory.space = space := by rw [hm₁]
  refine ⟨scan, summary', h', hmark, hscan, hmoved.trans hrelocated, hl, hpos,
    hrests.weighed hc.shaped.weighed, hrests.config.trans hc.config,
    (congrArg (·.provider.space.range) hm₁).trans hc.range, ⟨?_, ?_, ?_⟩, ht₀.same hsame⟩
  · rw [hspace₁]
    apply hc.unwritten.slots.carried (f := id) rfl
    intro a r hr
    obtain ⟨q, hq, hnode⟩ := hmarked.same.sameGraph.back hr
    exact ⟨a, q, hq, hnode.targets.trans (List.map_id q.slots).symm⟩
  · exact hcards₁ ▸ hc.unwritten.cards
  · exact (congrArg CardTable.dirtyCards hwatch).trans hwatch₀

theorem config_collect (hs : h.Shaped) {generation : Generation} {reason : CollectionReason}
    (hrun : collect generation reason h = .ok (.ok summary, h')) : h'.config = h.config := by
  cases reason with
  | lastBeforeOutOfMemory =>
    exact congrArg Standing.config (resorts_collect hs.standing.counted hrun).standing
  | _ => exact (stands_collect (by decide) hrun).config

theorem calm_collect (hc : h.Calm c n) (htuning : c.tuning = {})
    (hroom : n + 5 * c.addressSpaceSize < Word.count) (generation : Generation)
    (reason : CollectionReason) :
    ∃ summary h', collect generation reason h = .ok (.ok summary, h') ∧
      h'.Calm c (n + 5 * c.addressSpaceSize) := by
  let first : CollectionSummary :=
    { index := h.beginCollection.collections, condemned := h.condemnedOf generation, reason
      abortedBackground := h.background.isSome }
  obtain ⟨scan, summary₁, h₁, hmark, hscan, hrelocated, hp⟩ :=
    poised_of_markCondemned hc (h.condemnedOf generation) (rfl : first.objectsRelocated = 0)
  have hconsumed : (if h.condemnedOf generation = .gen2 then none else some scan.consumed) = none ∨
      (if h.condemnedOf generation = .gen2 then none else some scan.consumed) = some [] := by
    rw [hscan]
    split
    · exact .inl rfl
    · exact .inr rfl
  obtain ⟨summary₂, h₂, hreclaim, hrange, hwritten, hlast⟩ := hp.reclaim_runs htuning
    hroom hconsumed true (h.condemnedOf generation) (outlives (h.condemnedOf generation)) hrelocated
  obtain ⟨h', hfinish, ht'⟩ := hlast { h₂ with sweeper := { h₂.sweeper with next := 0 } }
    ⟨rfl, rfl, rfl⟩
  have hrun : collect generation reason h = .ok (.ok summary₂, h') :=
    collect_stages.2 ⟨scan, summary₁, h₁, h₂, hmark, hreclaim, hfinish⟩
  have hm' : h'.memory = h₂.memory := (memory_finishCollection hfinish).trans memory_sweeper
  have hp' : h'.provider = h₂.provider := congrArg Memory.provider hm'
  exact ⟨summary₂, h', hrun, (leads_collect hc.sound hrun).2.2.sound, hc.shaped.collect hrun,
    (config_collect hc.shaped hrun).trans hc.config, hp' ▸ hrange, hm' ▸ hwritten, ht'⟩

/-! ## Background cycles -/

theorem sameTallies_beginCycle (h : Heap) : SameTallies h h.beginCycle := by
  have hsaved : SameTallies h (h.modifyHeaps fun l =>
      { l with savedEphemeral := l.ephemeral?.map fun s => (s.start, s.allocated) }) :=
    sameTallies_modifyHeaps (fun _ => rfl) fun _ => rfl
  refine sameTallies_frame.trans ?_ (sameTallies_publish _)
  exact ⟨hsaved.statistics, hsaved.budgets, hsaved.counters⟩

theorem calm_startBackground (hc : h.Calm c n) :
    ∃ started h', startBackground h = .ok (.ok started, h') ∧ h'.Calm c n := by
  unfold startBackground
  rw [Effect.get_bind]
  cases hcan : h.canStartCycle with
  | false => exact ⟨false, h, rfl, hc⟩
  | true =>
    have hrests : h.Rests h.beginCycle := rests_beginCycle
    have hm := memory_beginCycle (h := h)
    have hprovider : h.beginCycle.provider = h.provider := congrArg Memory.provider hm
    have hspace : h.beginCycle.memory.space = h.memory.space := by rw [hm]
    have hcards : h.beginCycle.memory.cards = h.memory.cards := by rw [hm]
    have hwatch : h.beginCycle.memory.writeWatch = h.writeWatch.clearAll := by rw [hm]
    refine ⟨true, h.beginCycle, rfl, sound_beginCycle hc.sound, hc.shaped.stands hrests.toStands,
      hrests.config.trans hc.config, hprovider ▸ hc.range, ⟨?_, ?_, ?_⟩,
      hc.tallied.same (sameTallies_beginCycle h)⟩
    · exact hspace ▸ hc.unwritten.slots
    · exact hcards ▸ hc.unwritten.cards
    · rw [hwatch]
      exact CardTable.dirtyCards_clearAll h.writeWatch

theorem Calm.traceStep (hc : h.Calm c n) : h.traceStep.Calm c n where
  sound := (leads_traceStep hc.sound).sound
  shaped := ⟨hc.shaped.standing, hc.shaped.weighed⟩
  config := hc.config
  range := hc.range
  unwritten := ⟨hc.unwritten.slots, hc.unwritten.cards, hc.unwritten.watch⟩
  tallied := ⟨hc.tallied.statistics, hc.tallied.heaps⟩

theorem poised_of_finishMarking (hc : h.Calm c n) {b : BackgroundMark}
    (hb : h.trace.background = some b) : ∃ summary b' h',
      h.trace.stopCycle.finishMarking b = .ok (summary, b', h') ∧ summary.objectsRelocated = 0 ∧
      h'.Poised c n := by
  obtain ⟨summary, b', h', hfinish, hrelocated, hsame⟩ :=
    finishMarking_of_clean (h := h.trace.stopCycle) hc.unwritten.watch b
  obtain ⟨found, hpaused⟩ := paused_of_finishMarking hc.sound hb hfinish
  obtain ⟨hl, hpos, -⟩ := hpaused.keeps hc.sound
  have hm := hpaused.memory
  have hspace : h'.memory.space = h.memory.space := by rw [hm]
  have hcards : h'.memory.cards = h.memory.cards := by rw [hm]
  have hwatch : h'.memory.writeWatch = h.writeWatch.clearAll := by rw [hm]; rfl
  have hprovider : h'.provider = h.provider := congrArg Memory.provider hm
  have hrests := (rests_finishMarking hfinish).1
  have hstopped : h.trace.stopCycle.Tallied n := ⟨hc.tallied.statistics, hc.tallied.heaps⟩
  refine ⟨summary, b', h', hfinish, hrelocated, hl, hpos, hrests.weighed hc.shaped.weighed,
    hrests.config.trans hc.config, hprovider ▸ hc.range, ⟨?_, ?_, ?_⟩, hstopped.same hsame⟩
  · exact hspace ▸ hc.unwritten.slots
  · exact hcards ▸ hc.unwritten.cards
  · rw [hwatch]
    exact CardTable.dirtyCards_clearAll h.writeWatch

theorem calm_completeBackground (hc : h.Calm c n) (htuning : c.tuning = {})
    (hroom : n + 5 * c.addressSpaceSize < Word.count) :
    ∃ summary h', completeBackground h = .ok (.ok summary, h') ∧
      h'.Calm c (n + 5 * c.addressSpaceSize) := by
  cases hb : h.trace.background with
  | none =>
    refine ⟨none, h, ?_, hc.mono (Nat.le_add_right n _)⟩
    unfold completeBackground
    rw [Effect.get_bind]
    simp only [hb]
    rfl
  | some b =>
    obtain ⟨summary, b', h₁, hmark, hrelocated, hp⟩ := poised_of_finishMarking hc hb
    obtain ⟨summary', h₂, hreclaim, hrange, hwritten, hlast⟩ := hp.reclaim_runs htuning
      hroom (.inl rfl) false .gen2 (fun a _ => b'.isLive a) hrelocated
    have hdropped :=
      sameTallies_dropSaved { h₂ with sweeper := { h₂.sweeper with next := b'.high } }
    obtain ⟨h', hfinish, ht'⟩ := hlast
      ({ h₂ with sweeper := { h₂.sweeper with next := b'.high } }.modifyHeaps
        fun l => { l with savedEphemeral := none })
      ⟨hdropped.statistics, hdropped.budgets, hdropped.counters⟩
    have hrun : completeBackground h = .ok (.ok (some summary'), h') :=
      (completeBackground_stages hb).2 ⟨summary, b', h₁, h₂, hmark, hreclaim, hfinish⟩
    have hm' : h'.memory = h₂.memory :=
      (memory_finishCollection hfinish).trans ((memory_dropSaved _).trans memory_sweeper)
    have hp' : h'.provider = h₂.provider := congrArg Memory.provider hm'
    have hstands := steady_completeBackground hrun
    exact ⟨some summary', h', hrun, (leads_completeBackground hc.sound hrun).2.2.2.sound,
      hc.shaped.stands hstands, hstands.config.trans hc.config, hp' ▸ hrange, hm' ▸ hwritten, ht'⟩

end Heap

end GenHeap
