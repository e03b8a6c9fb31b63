import GenHeap.Proofs.Heap.Reckoning

/-!
The counts of a heap agree with each other. What is counted for each logical heap and for all of
them together is counted on the same ways, those of a collection that breaks off included; only the
collections that have ended, and what they moved, are counted at their end, so one that a provider
breaks off is missing there.
-/

namespace GenHeap

namespace Heap

variable {h h' : Heap} {n begun moved i size : Nat} {target : Generation}

/-! ## Other operations -/

theorem ledger_fail {α : Type} {reason : OutOfMemory.Reason} {y : Except HeapError α}
    (hrun : fail i reason size target h = .ok (y, h')) : h'.ledger = h.ledger.fail i := by
  cases fail_apply.symm.trans hrun
  refine uncounted_publish.trans ?_
  have hheaps (event : OutOfMemory.Event) := map_modify (g := LogicalHeap.ledger)
    (f := fun l => { l with failures := l.failures.record event })
    (k := fun e => { e with failures := e.failures + 1 }) h.heaps i fun _ => rfl
  exact congrArg (fun heaps => ({ h.ledger.fail i with heaps } : Ledger)) (hheaps _)

/-- A collection, or the completion of a cycle, that an error breaks off. -/
def BreaksOff (h h' : Heap) : Prop :=
  ∃ e, (∃ generation reason, collect generation reason h = .ok (.error e, h')) ∨
    completeBackground h = .ok (.error e, h')

/-- A provider that takes all memory back breaks nothing off. -/
theorem not_breaksOff (hm : h.memory.Sound) : ¬ h.BreaksOff h' := by
  rintro ⟨e, ⟨generation, reason, hrun⟩ | hrun⟩
  · obtain ⟨⟨_, he⟩, _⟩ := leads_collect hm hrun
    cases he
  · cases hb : h.background with
    | none => cases (completeBackground_of_none hb hrun).1
    | some b =>
      obtain ⟨_, _, he, _⟩ := completeBackground_eq_ok hm hb hrun
      cases he

/-- What is no allocation keeps the balance, unless it is broken off. -/
theorem balanced_apply {op : Operation} (hb : h.ledger.Balanced n begun moved)
    (hnew : ∀ i request, op ≠ .allocate i request) (hrun : op.apply h = .ok h') :
    h'.ledger.Balanced n begun moved ∨
      h.BreaksOff h' ∧ ∃ k, h'.ledger.Balanced n (begun + 1) (moved + k) := by
  cases op with
  | allocate i request => exact absurd rfl (hnew i request)
  | collect generation reason =>
    obtain ⟨x, hrun⟩ := after_eq_ok.1 hrun
    rcases balanced_collect hb hrun with ⟨_, h'b⟩ | ⟨⟨e, rfl⟩, h'b⟩
    · exact .inl h'b
    · exact .inr ⟨⟨e, .inl ⟨generation, reason, hrun⟩⟩, h'b⟩
  | completeBackground =>
    obtain ⟨x, hrun⟩ := after_eq_ok.1 hrun
    rcases balanced_completeBackground hb hrun with ⟨_, h'b⟩ | ⟨⟨e, rfl⟩, h'b⟩
    · exact .inl h'b
    · exact .inr ⟨⟨e, .inr hrun⟩, h'b⟩
  | abortBackground =>
    obtain ⟨x, hrun⟩ := after_eq_ok.1 hrun
    obtain ⟨-, -, rfl⟩ | ⟨-, -, rfl⟩ := abortBackground_cases hrun
    · exact .inl hb
    · exact .inl (uncounted_publish.balanced (balanced_discardCycle hb))
  | _ => exact .inl ((uncounted_apply rfl hrun).balanced hb)

/-- A new heap has counted nothing. -/
theorem balanced_onRange {config : Config} {range : AddressRange}
    (hrun : onRange config range = .ok (.ok h)) : h.ledger.Balanced config.heapCount 0 0 := by
  obtain ⟨cards, heaps, _, hlen, hnew, rfl⟩ := onRange_eq_ok hrun
  refine uncounted_publish.balanced ?_
  have hnone (l : LogicalHeap) (hl : l ∈ heaps) : l.ledger =
      { points := 6, relocated := 0, compactions := List.replicate 5 0
        mechanisms := List.replicate 5 0, failures := 0 } := by
    have hl := hnew l hl
    simp only [LogicalHeap.ofConfig, Checked.bind_eq_ok, Checked.pure_eq_ok] at hl
    obtain ⟨failures, hfailures, _, _, rfl⟩ := hl
    have htotal : failures.total = 0 := (OutOfMemory.History.holds_empty hfailures).1.total
    unfold LogicalHeap.ledger
    rw [htotal]
    rfl
  have hheaps := List.map_eq_replicate_iff.2 hnone
  rw [hlen] at hheaps
  refine ⟨rfl, (List.length_map ..).trans hlen, rfl, fun e he => ?_, rfl, ?_, ?_⟩
  · have he : e ∈ heaps.map (·.ledger) := he
    rw [hheaps] at he
    cases List.eq_of_mem_replicate he
    exact ⟨rfl, rfl, rfl, rfl, rfl, rfl⟩
  · show ((heaps.map (·.ledger)).map (·.relocated)).sum = 0
    rw [hheaps, List.map_replicate, List.sum_replicate_nat, Nat.mul_zero]
  · show ((heaps.map (·.ledger)).map (·.failures)).sum = 0
    rw [hheaps, List.map_replicate, List.sum_replicate_nat, Nat.mul_zero]

/-! ## Runs -/

/-- The counts of `n` logical heaps agree, but for some collections that were broken off. -/
def Reconciled (n : Nat) (h : Heap) : Prop := ∃ begun moved, h.ledger.Balanced n begun moved

/-- An operation from a heap with its counts in order leads to another. -/
def Reconciles (n : Nat) (h h' : Heap) : Prop := h.Reconciled n → h'.Reconciled n

theorem frame_reconciles : Frame (Reconciles n) := ⟨fun _ hk => hk, fun h h' hk => h' (h hk)⟩

theorem Uncounted.reconciles (hu : h.Uncounted h') : h.Reconciles n h' :=
  fun ⟨begun, moved, hb⟩ => ⟨begun, moved, hu.balanced hb⟩

theorem reconciles_apply {op : Operation} (hnew : ∀ i request, op ≠ .allocate i request)
    (hrun : op.apply h = .ok h') : h.Reconciles n h' := by
  rintro ⟨begun, moved, hb⟩
  rcases balanced_apply hb hnew hrun with hb' | ⟨_, k, hb'⟩
  · exact ⟨_, _, hb'⟩
  · exact ⟨_, _, hb'⟩

theorem reconciles_collect {generation : Generation} {reason : CollectionReason} :
    Steady (Reconciles n) (collect generation reason) := by
  intro k k' x hrun
  have hafter : (Operation.collect generation reason).apply k = .ok k' := after_eq_ok.2 ⟨x, hrun⟩
  exact reconciles_apply (by rintro _ _ ⟨⟩) hafter

theorem reconciles_completeBackground : Steady (Reconciles n) completeBackground := by
  intro k k' x hrun
  have hafter : Operation.completeBackground.apply k = .ok k' := after_eq_ok.2 ⟨x, hrun⟩
  exact reconciles_apply (by rintro _ _ ⟨⟩) hafter

theorem reconciles_tryPlace : Steady (Reconciles n) (tryPlace i target size) := fun _ _ _ hrun =>
  (uncounted_of_refits (refits_tryPlace hrun)).reconciles

theorem reconciles_requireBudget : Steady (Reconciles n) (requireBudget i target size) :=
  steady_requireBudget_of frame_reconciles (fun _ => reconciles_collect)
    (uncounted_startBackground.mono Uncounted.reconciles) reconciles_completeBackground

theorem reconciles_fail {α : Type} {reason : OutOfMemory.Reason} (hi : i < n) :
    Steady (Reconciles n) (@fail α i reason size target) := by
  rintro k k' q hrun ⟨begun, moved, hb⟩
  exact ⟨begun, moved, ledger_fail hrun ▸ hb.fail hi⟩

theorem reconciles_placeOrCollect (hi : i < n) :
    Steady (Reconciles n) (placeOrCollect i target size) :=
  steady_placeOrCollect_of frame_reconciles reconciles_tryPlace reconciles_collect fun _ =>
    reconciles_fail hi

theorem reconciles_allocate {request : AllocRequest} :
    Steady (Reconciles n) (allocate i request) := by
  intro k k' y hrun hk
  have hwithin (hi : i < k.config.heapCount) : i < n := by
    obtain ⟨_, _, hb⟩ := hk
    exact Nat.lt_of_lt_of_eq hi hb.wanted
  cases allocate_cases hrun with
  | unknown => exact hk
  | oversized hi _ hfail => exact reconciles_fail (hwithin hi) hfail hk
  | uncollected _ _ hbudget => exact reconciles_requireBudget hbudget hk
  | unplaced hi _ hbudget hplace =>
    exact reconciles_placeOrCollect (hwithin hi) hplace (reconciles_requireBudget hbudget hk)
  | installed hi _ hbudget hplace hinstall =>
    have hplaced := reconciles_placeOrCollect (hwithin hi) hplace (reconciles_requireBudget hbudget hk)
    exact (uncounted_install hinstall).reconciles hplaced

theorem Strained.reconciled (hs : h.Strained) : ∃ n, h.Reconciled n := by
  induction hs with
  | start _ hrun => exact ⟨_, 0, 0, balanced_onRange hrun⟩
  | step op _ hrun ih =>
    obtain ⟨n, hn⟩ := ih
    refine ⟨n, ?_⟩
    cases op with
    | allocate i request =>
      obtain ⟨y, hrun⟩ := after_eq_ok.1 hrun
      exact reconciles_allocate hrun hn
    | _ => exact reconciles_apply (by rintro _ _ ⟨⟩) hrun hn
  | refuseReturns decommits releases _ ih => exact ih

/-- Nothing is broken off if the provider takes all memory back. -/
theorem Reachable.balanced (hr : h.Reachable) : ∃ n, h.ledger.Balanced n 0 0 := by
  have hpart {n : Nat} {op : Operation} {k k' : Heap} (hk : k.memory.Sound)
      (hb : k.ledger.Balanced n 0 0) (hnew : ∀ i request, op ≠ .allocate i request)
      (hrun : op.apply k = .ok k') : k'.ledger.Balanced n 0 0 := by
    rcases balanced_apply hb hnew hrun with hb' | ⟨hbroken, _⟩
    · exact hb'
    · exact absurd hbroken (not_breaksOff hk)
  induction hr with
  | start _ hrun => exact ⟨_, balanced_onRange hrun⟩
  | @step k k' op hr hrun ih =>
    obtain ⟨n, hb⟩ := ih
    refine ⟨n, ?_⟩
    cases op with
    | allocate i request =>
      obtain ⟨y, hrun⟩ := after_eq_ok.1 hrun
      by_cases hi : i < k.config.heapCount
      · have hparts {op : Operation} {k₁ k₂ : Heap} (hop : op.prepares = true) (hp : k.Prepares k₁)
            (hb₁ : k₁.ledger.Balanced n 0 0) (hstep : op.apply k₁ = .ok k₂) :
            k₂.ledger.Balanced n 0 0 :=
          hpart (sound_prepares hr.sound hp) hb₁ (by rintro _ _ rfl; cases hop) hstep
        have hfail {α : Type} {reason : OutOfMemory.Reason} {size : Nat} {target : Generation}
            {k₁ k₂ : Heap} {q : Except HeapError α} (hb₁ : k₁.ledger.Balanced n 0 0)
            (hfailed : fail i reason size target k₁ = .ok (q, k₂)) : k₂.ledger.Balanced n 0 0 :=
          ledger_fail hfailed ▸ hb₁.fail (Nat.lt_of_lt_of_eq hi hb.wanted)
        rcases allocate_induct (fun k => k.ledger.Balanced n 0 0) hr.sound hb hparts hfail hrun with
          ⟨_, hb'⟩ | ⟨k₁, _, _, _, _, _, hb₁, _, _, hinstall⟩
        · exact hb'
        · exact (uncounted_install hinstall).balanced hb₁
      · cases allocate_cases hrun with
        | unknown => exact hb
        | oversized hi' | uncollected hi' | unplaced hi' | installed hi' => exact absurd hi' hi
    | _ => exact hpart hr.sound hb (by rintro _ _ ⟨⟩) hrun

/-- The counts of a heap agree. Its logical heaps count the compactions with their reasons, and the
cycles given up and completed as the statistics do, and their failures add up to those there are. No
more collections have ended than begun, and no fewer objects moved than those collections say; none
is missing as long as the provider takes all memory back. -/
theorem counters_agree (hs : h.Strained) :
    (∀ l ∈ h.heaps,
      l.counters.mechanism .compacted = l.counters.compactions.sum ∧
      l.counters.mechanism .backgroundAborted = h.statistics.backgroundAborts ∧
      l.counters.mechanism .background = h.statistics.backgroundCollections) ∧
    (h.heaps.map (·.failures.total)).sum = h.statistics.allocationFailures ∧
    h.statistics.collections.sum ≤ h.collections ∧
    h.statistics.totalRelocated ≤ (h.heaps.map (·.counters.dataPoint .objectsRelocated)).sum ∧
    (h.Reachable → h.statistics.collections.sum = h.collections ∧
      (h.heaps.map (·.counters.dataPoint .objectsRelocated)).sum = h.statistics.totalRelocated) := by
  obtain ⟨n, begun, moved, hb⟩ := hs.reconciled
  have hrelocated (h : Heap) : h.ledger.heaps.map (·.relocated) =
      h.heaps.map (·.counters.dataPoint .objectsRelocated) := List.map_map ..
  have hfailures : h.ledger.heaps.map (·.failures) = h.heaps.map (·.failures.total) :=
    List.map_map ..
  refine ⟨fun l hl => ?_, hfailures ▸ hb.failures, ?_, ?_, fun hr => ?_⟩
  · have hl := hb.agree l.ledger (List.mem_map_of_mem hl)
    exact ⟨hl.compacted, hl.aborted, hl.completed⟩
  · exact Nat.le.intro hb.collections.symm
  · rw [← hrelocated, hb.relocated]
    exact Nat.le_add_right ..
  · obtain ⟨m, hb⟩ := hr.balanced
    exact ⟨hb.collections.symm, (congrArg List.sum (hrelocated h)).symm.trans hb.relocated⟩

/-- Two logical heaps after a compaction, a completed cycle, one given up, and two failures. -/
theorem counters_agree_two : ∃ h : Heap, h.Reachable ∧ h.heaps.length = 2 ∧
    h.statistics.collections.sum = 3 ∧ h.collections = 3 ∧ h.statistics.totalRelocated = 2 ∧
    h.heaps.map (·.counters.mechanism .backgroundAborted) = [1, 1] ∧
    (h.heaps.map (·.failures.total)).sum = 2 := by
  have htwo : leadsTo { pageConfig with heapCount := 2 }
      [.allocate 0 { size := 48, generation := .gen2 },
        .allocate 0 { size := 48, generation := .gen2 }, .createHandle .strong 4144,
        .allocate 1 { size := 48, generation := .gen2 },
        .allocate 1 { size := 48, generation := .gen2 }, .createHandle .strong 8240,
        .collect .gen2 .inducedCompacting, .startBackground, .completeBackground, .startBackground,
        .collect .gen0 .induced, .allocate 0 { size := 70000 }, .allocate 1 { size := 70000 }]
      (fun h => h.heaps.length == 2 && h.collections == 3 &&
        h.heaps.map (·.counters.dataPoint .objectsRelocated) == [1, 1] &&
        h.heaps.map (·.counters.mechanism .backgroundAborted) == [1, 1] &&
        h.statistics.allocationFailures == 2) = true := by
    decide +kernel
  obtain ⟨h, hr, hp⟩ := exists_of_leadsTo htwo
  simp only [Bool.and_eq_true, beq_iff_eq] at hp
  obtain ⟨⟨⟨⟨hlen, hcollections⟩, hrelocated⟩, haborted⟩, hfailed⟩ := hp
  obtain ⟨_, hfailures, _, _, hwhole⟩ := counters_agree hr.strained
  obtain ⟨hsum, htotal⟩ := hwhole hr
  rw [hrelocated] at htotal
  exact ⟨h, hr, hlen, hsum.trans hcollections, hcollections, htotal.symm, haborted,
    hfailures.trans hfailed⟩

/-- A collection that has moved an object, and is broken off before its end: the provider refuses to
take back the segment that it emptied. -/
theorem counters_broken_off : ∃ h : Heap, h.Strained ∧ h.statistics.collections.sum = 0 ∧
    h.collections = 1 ∧ h.statistics.totalRelocated = 0 ∧
    h.heaps.map (·.counters.dataPoint .objectsRelocated) = [1] := by
  have hbroken : leadsTo { pageConfig with tuning := { retainedEmptySegments := 0 } }
      [.allocate 0 { size := 48, generation := .gen2 },
        .allocate 0 { size := 48, generation := .gen2 }, .createHandle .strong 4144,
        .allocate 0 { size := 4096, generation := .gen2 },
        .allocate 0 { size := 4096, generation := .gen2 }]
      (fun k => (Operation.apply (k.onProvider fun p => (p.refuse .decommit 1).refuse .release 0)
          (.collect .gen2 .inducedCompacting)).toOption.any fun h =>
        h.statistics.collections.sum == 0 && h.collections == 1 &&
        h.statistics.totalRelocated == 0 &&
        h.heaps.map (·.counters.dataPoint .objectsRelocated) == [1]) = true := by
    decide +kernel
  obtain ⟨k, hr, hp⟩ := exists_of_leadsTo hbroken
  obtain ⟨h, hrun, hp⟩ := Checked.of_any hp
  simp only [Bool.and_eq_true, beq_iff_eq] at hp
  obtain ⟨⟨⟨hsum, hcollections⟩, htotal⟩, hrelocated⟩ := hp
  exact ⟨h, (hr.strained.refuseReturns 1 0).step _ hrun, hsum, hcollections, htotal, hrelocated⟩

end Heap

end GenHeap
