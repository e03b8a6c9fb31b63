import GenHeap.Proofs.Heap.Reachable
import GenHeap.Proofs.Heap.StandingCollect
import GenHeap.Proofs.OutOfMemory

/-!
The shape of a heap: as many logical heaps as its configuration asks for, each with the settings of
the configuration and with a count for each kind of collection. No operation changes it.
-/

namespace GenHeap.Heap

/-- All is as the configuration says. -/
structure Standing.Shaped (s : Standing) : Prop where
  length : s.heaps.length = s.config.heapCount
  constants : ∀ l ∈ s.heaps, l.constants = .ofConfig s.config
  counted : s.Counted
  capacities : ∀ l ∈ s.heaps, l.failures.capacity = s.config.oomHistoryCapacity

/-- A change of what stands that leaves the shape. -/
def SameShape (f : LogicalHeap.Standing → LogicalHeap.Standing) : Prop :=
  ∀ l, (f l).constants = l.constants ∧ (f l).mechanisms = l.mechanisms ∧
    (f l).failures.capacity = l.failures.capacity

variable {h h' : Heap} {i size : Nat} {target : Generation} {s s' : Standing}

theorem Standing.Shaped.map (h : s.Shaped) {f : LogicalHeap.Standing → LogicalHeap.Standing}
    (hf : SameShape f) (hconfig : s'.config = s.config) (hheaps : s'.heaps = s.heaps.map f) :
    s'.Shaped := by
  have hmem {l : LogicalHeap.Standing} (hl : l ∈ s'.heaps) : ∃ k ∈ s.heaps, f k = l := by
    rw [hheaps] at hl
    exact List.mem_map.1 hl
  refine ⟨?_, fun l hl => ?_, fun l hl => ?_, fun l hl => ?_⟩
  · rw [hheaps, List.length_map, hconfig]
    exact h.length
  · obtain ⟨k, hk, rfl⟩ := hmem hl
    rw [(hf k).1, hconfig]
    exact h.constants k hk
  · obtain ⟨k, hk, rfl⟩ := hmem hl
    exact (hf k).2.1.trans (h.counted k hk)
  · obtain ⟨k, hk, rfl⟩ := hmem hl
    rw [(hf k).2.2, hconfig]
    exact h.capacities k hk

theorem Standing.Shaped.modify (h : s.Shaped) {f : LogicalHeap.Standing → LogicalHeap.Standing}
    (hf : SameShape f) (hconfig : s'.config = s.config) (hheaps : s'.heaps = s.heaps.modify i f) :
    s'.Shaped := by
  have hmem {l : LogicalHeap.Standing} (hl : l ∈ s'.heaps) :
      l ∈ s.heaps ∨ ∃ k ∈ s.heaps, l = f k := by
    rw [hheaps] at hl
    exact mem_modify hl
  refine ⟨?_, fun l hl => ?_, fun l hl => ?_, fun l hl => ?_⟩
  · rw [hheaps, List.length_modify, hconfig]
    exact h.length
  · rw [hconfig]
    rcases hmem hl with hk | ⟨k, hk, rfl⟩
    · exact h.constants l hk
    · rw [(hf k).1]
      exact h.constants k hk
  · rcases hmem hl with hk | ⟨k, hk, rfl⟩
    · exact h.counted l hk
    · exact (hf k).2.1.trans (h.counted k hk)
  · rw [hconfig]
    rcases hmem hl with hk | ⟨k, hk, rfl⟩
    · exact h.capacities l hk
    · rw [(hf k).2.2]
      exact h.capacities k hk

theorem Standing.Shaped.lastResort (h : s.Shaped) : s.lastResort.Shaped :=
  h.map (f := fun l => { l with lastResorts := l.lastResorts + 1 }) (fun _ => ⟨rfl, rfl, rfl⟩) rfl
    rfl

theorem standing_onRange {config : Config} {range : AddressRange}
    (hrun : onRange config range = .ok (.ok h)) : h.standing.Shaped ∧ h.space = {} := by
  have hpos := Config.oomHistoryCapacity_pos (validate_of_onRange hrun)
  obtain ⟨cards, heaps, _, hlen, hnew, rfl⟩ := onRange_eq_ok hrun
  rw [rests_publish.standing]
  refine ⟨⟨?_, fun l hl => ?_, fun l hl => ?_, fun l hl => ?_⟩, rfl⟩
  · show (heaps.map (·.standing)).length = _
    rw [List.length_map, hlen]
    rfl
  · obtain ⟨k, hk, rfl⟩ := List.mem_map.1 hl
    show k.segments.constants = _
    rw [(logicalHeap_ofConfig (hnew k hk)).2.1, SegmentTable.constants_ofConfig]
    rfl
  · obtain ⟨k, hk, rfl⟩ := List.mem_map.1 hl
    show k.counters.mechanisms.length = 5
    rw [(logicalHeap_ofConfig (hnew k hk)).2.2.2.1]
    rfl
  · obtain ⟨k, hk, rfl⟩ := List.mem_map.1 hl
    have hk := hnew k hk
    simp only [LogicalHeap.ofConfig, Checked.bind_eq_ok, Checked.pure_eq_ok] at hk
    obtain ⟨failures, hfailures, _, _, rfl⟩ := hk
    exact (OutOfMemory.History.holds_empty hfailures).2.trans (Nat.max_eq_left hpos)

/-! ## What the embedder does -/

theorem rests_writeSlot {object slot : Nat} {value : Nat} {r : Except HeapError Unit}
    (hrun : writeSlot object slot value h = .ok (r, h')) : h.Rests h' := by
  obtain rfl | ⟨_, _, _, _, rfl⟩ := writeSlot_cases hrun
  · exact .refl h
  · have hsame (r : Record) :
        ObjectSpace.posting (withSlot slot value r) = ObjectSpace.posting r := rfl
    have hsize (r : Record) : (withSlot slot value r).size = r.size := rfl
    exact ⟨⟨rfl, fun hw => hw, fun hw => hw.update hsize object⟩, rfl,
      ObjectSpace.samePortions_update hsame object⟩

theorem rests_createHandle {kind : HandleKind} {a : Nat} {r : Except HeapError Nat}
    (hrun : createHandle kind a h = .ok (r, h')) : h.Rests h' := by
  obtain rfl | ⟨_, _, _, _, rfl⟩ := createHandle_cases hrun
  · exact .refl h'
  · exact ⟨⟨rfl, fun hw => hw, fun hw => hw⟩, rfl, .refl _⟩

theorem rests_freeHandle {id : Nat} {r : Except HeapError Unit}
    (hrun : freeHandle id h = .ok (r, h')) : h.Rests h' := by
  obtain rfl | ⟨_, _, rfl⟩ := freeHandle_cases hrun
  · exact .refl h
  · exact ⟨⟨rfl, fun hw => hw, fun hw => hw⟩, rfl, .refl _⟩

theorem rests_flag {object : Nat} {k : Record → Record} {f : LogicalHeap → LogicalHeap}
    (hk : ∀ r, ObjectSpace.posting (k r) = ObjectSpace.posting r)
    (hf : ∀ l, (f l).standing = l.standing) (hb : ∀ l, (f l).budgets = l.budgets) :
    h.Rests ({ h with space := h.space.update object k }.modifyHeap i f) := by
  have hsize (r : Record) : (k r).size = r.size := congrArg Prod.fst (hk r)
  have hflag : h.Rests { h with space := h.space.update object k } :=
    ⟨⟨rfl, fun hw => hw, fun hw => hw.update hsize object⟩, rfl,
      ObjectSpace.samePortions_update hk object⟩
  exact hflag.trans (rests_modifyHeap hf hb)

theorem rests_registerForFinalization {object : Nat} {r : Except HeapError Unit}
    (hrun : registerForFinalization object h = .ok (r, h')) : h.Rests h' := by
  obtain ⟨-, rfl⟩ | ⟨q, -, rfl⟩ := registerForFinalization_cases hrun
  · exact .refl h
  · refine rests_flag (fun _ => rfl) (fun l => ?_) fun l => ?_ <;> split <;> rfl

theorem rests_suppressFinalization {object : Nat} {r : Except HeapError Bool}
    (hrun : suppressFinalization object h = .ok (r, h')) : h.Rests h' := by
  obtain ⟨-, rfl⟩ | ⟨q, -, rfl⟩ := suppressFinalization_cases hrun
  · exact .refl h
  · exact rests_flag (fun _ => rfl) (fun _ => rfl) fun _ => rfl

theorem rests_takeReady : h.Rests h.takeReady.2 := rests_modifyHeaps (fun _ => rfl) fun _ => rfl

theorem rests_finishReady (batch : List (Nat × FinalizableEntry)) (report : FinalizerReport) :
    h.Rests (finishReady batch report h) := by
  have hdone : h.Rests (h.doneRunning batch) :=
    doneRunning_induct (P := h.Rests) (.refl h)
      (fun _ _ _ hk => hk.trans (rests_modifyHeap (fun _ => rfl) fun _ => rfl)) batch
  unfold finishReady
  refine Rests.publish ?_
  exact ⟨⟨hdone.standing, hdone.willing, hdone.weighed⟩, hdone.accounts, hdone.portions⟩

theorem rests_analyze {r : Except HeapError HeapAnalysis} (hrun : analyze h = .ok (r, h')) :
    h.Rests h' := by
  obtain rfl := analyze_cases hrun
  have hanalyzed : h.Rests h.analyzed :=
    rests_of_heaps (map_analyzed fun _ _ _ => rfl) (map_analyzed fun _ _ _ => rfl)
  exact hanalyzed.publish

theorem rests_abortBackground {r : Except HeapError Bool}
    (hrun : abortBackground h = .ok (r, h')) : h.Rests h' := by
  obtain ⟨-, -, rfl⟩ | ⟨-, -, rfl⟩ := abortBackground_cases hrun
  · exact .refl h
  · exact rests_discardCycle.publish

/-- What is no part of an allocation books nothing. It may set the clock, or tell the provider what to
refuse. -/
theorem rests_apply {op : Operation} (hrun : op.apply h = .ok h') (hop : op.prepares = false)
    (hnew : ∀ i request, op ≠ .allocate i request) :
    ∃ clock provider, h.Rests { h' with clock, provider } := by
  have hsame (hrests : h.Rests h') : ∃ clock provider, h.Rests { h' with clock, provider } :=
    ⟨h'.clock, h'.provider, hrests⟩
  cases op with
  | allocate heap request => exact absurd rfl (hnew heap request)
  | writeSlot object slot target =>
    obtain ⟨r, hrun⟩ := after_eq_ok.1 hrun
    exact hsame (rests_writeSlot hrun)
  | createHandle kind target =>
    obtain ⟨r, hrun⟩ := after_eq_ok.1 hrun
    exact hsame (rests_createHandle hrun)
  | freeHandle id =>
    obtain ⟨r, hrun⟩ := after_eq_ok.1 hrun
    exact hsame (rests_freeHandle hrun)
  | registerForFinalization object =>
    obtain ⟨r, hrun⟩ := after_eq_ok.1 hrun
    exact hsame (rests_registerForFinalization hrun)
  | suppressFinalization object =>
    obtain ⟨r, hrun⟩ := after_eq_ok.1 hrun
    exact hsame (rests_suppressFinalization hrun)
  | takeReady =>
    cases hrun
    exact hsame rests_takeReady
  | finishReady batch report =>
    cases hrun
    exact hsame (rests_finishReady batch report)
  | analyze =>
    obtain ⟨r, hrun⟩ := after_eq_ok.1 hrun
    exact hsame (rests_analyze hrun)
  | abortBackground =>
    obtain ⟨r, hrun⟩ := after_eq_ok.1 hrun
    exact hsame (rests_abortBackground hrun)
  | setClock | limitCommits | failNext | refuseNext =>
    cases hrun
    exact ⟨h.clock, h.provider, .refl h⟩
  | traceStep | dirtyCard =>
    cases hrun
    exact hsame ⟨⟨rfl, fun hw => hw, fun hw => hw⟩, rfl, .refl _⟩
  | findBlock | collect | startBackground | completeBackground => cases hop

/-! ## Allocations -/

/-- What stands after a failure of a logical heap. -/
def Standing.recordFailure (s : Standing) (i : Nat) (event : OutOfMemory.Event) : Standing :=
  { s with
    allocationFailures := s.allocationFailures + 1
    heaps := s.heaps.modify i fun l => { l with failures := l.failures.record event } }

theorem Standing.Shaped.recordFailure (h : s.Shaped) (event : OutOfMemory.Event) :
    (s.recordFailure i event).Shaped :=
  h.modify (f := fun l => { l with failures := l.failures.record event })
    (fun l => ⟨rfl, rfl, l.failures.capacity_record event⟩) rfl rfl

/-- A failure is on record with one logical heap. -/
theorem standing_fail {α : Type} {reason : OutOfMemory.Reason} {y : Except HeapError α}
    (hrun : fail i reason size target h = .ok (y, h')) :
    y = .error (.outOfMemory reason size target) ∧ h'.standing = h.standing.recordFailure i
      { time := h.clock, reason, size, generation := target, collection := h.collections } := by
  cases fail_apply.symm.trans hrun
  refine ⟨rfl, rests_publish.standing.trans ?_⟩
  have hheaps (event : OutOfMemory.Event) := map_modify (g := LogicalHeap.standing)
    (f := fun l : LogicalHeap => { l with failures := l.failures.record event })
    (k := fun l => { l with failures := l.failures.record event }) h.heaps i fun _ => rfl
  unfold Heap.standing Standing.recordFailure failed modifyHeap
  simp only [hheaps]

theorem standing_install {request : AllocRequest} {a x : Nat}
    (hrun : install i request target size a x h = .ok h') :
    ∃ total, h'.standing = { h.standing with totalAllocated := total } := by
  simp only [install, Checked.bind_eq_ok] at hrun
  obtain ⟨space, _, statistics, hstatistics, hrun⟩ := hrun
  simp only [Statistics.recordAllocation, Checked.bind_eq_ok, Checked.pure_eq_ok] at hstatistics
  obtain ⟨total, _, rfl⟩ := hstatistics
  refine ⟨total, ?_⟩
  have hstands := stands_updateHeap (fun l l' hl => ?_) hrun
  · exact hstands.standing
  · simp only [Checked.bind_eq_ok, Checked.pure_eq_ok] at hl
    obtain ⟨budgets, _, rfl⟩ := hl
    rfl

/-! ## All operations -/

/-- What stands has its shape, and the count of bytes is right. -/
structure Shaped (h : Heap) : Prop where
  standing : h.standing.Shaped
  weighed : h.space.Weighed

theorem Shaped.stands (hs : h.Shaped) (hstands : h.Stands h') : h'.Shaped :=
  ⟨hstands.standing.symm ▸ hs.standing, hstands.weighed hs.weighed⟩

theorem Shaped.resorts (hs : h.Shaped) (hlast : h.Resorts h') : h'.Shaped :=
  ⟨hlast.standing.symm ▸ hs.standing.lastResort, hlast.weighed hs.weighed⟩

theorem Shaped.fail {α : Type} (hs : h.Shaped) {reason : OutOfMemory.Reason}
    {y : Except HeapError α} (hrun : Heap.fail i reason size target h = .ok (y, h')) :
    h'.Shaped := by
  have hspace : h'.space = h.space := congrArg Memory.space (memory_fail hrun).2
  exact ⟨(standing_fail hrun).2.symm ▸ hs.standing.recordFailure _, hspace.symm ▸ hs.weighed⟩

theorem Shaped.collect (hs : h.Shaped) {generation : Generation} {reason : CollectionReason}
    {y : Except HeapError CollectionSummary}
    (hrun : Heap.collect generation reason h = .ok (y, h')) : h'.Shaped := by
  cases reason with
  | lastBeforeOutOfMemory =>
    cases y with
    | error e =>
      rcases collect_stands hrun with ⟨_, hstands⟩ | ⟨_, _, he, _⟩
      · exact hs.stands hstands
      · cases he
    | ok summary => exact hs.resorts (resorts_collect hs.standing.counted hrun)
  | _ => exact hs.stands (stands_collect (by decide) hrun)

theorem Shaped.placeOrCollect (hs : h.Shaped) {y : Except HeapError (Nat × Nat)}
    (hrun : Heap.placeOrCollect i target size h = .ok (y, h')) : h'.Shaped := by
  rcases placeOrCollect_cases hrun with ⟨p, _, hfirst⟩ | ⟨first, h₁, hfirst, hrest⟩
  · exact hs.stands (refits_tryPlace hfirst).stands
  · have h₁' := hs.stands (refits_tryPlace hfirst).stands
    rcases hrest with ⟨e, _, hcollect⟩ | ⟨summary, h₂, hcollect, hrest⟩
    · exact h₁'.collect hcollect
    · have h₂' := h₁'.collect hcollect
      rcases hrest with ⟨p, _, hsecond⟩ | ⟨reason, h₃, hsecond, hfail⟩
      · exact h₂'.stands (refits_tryPlace hsecond).stands
      · exact (h₂'.stands (refits_tryPlace hsecond).stands).fail hfail

theorem Shaped.install (hs : h.Shaped) {request : AllocRequest} {a x : Nat}
    (hrun : Heap.install i request target size a x h = .ok h') : h'.Shaped := by
  obtain ⟨total, htotal⟩ := standing_install hrun
  obtain ⟨space, hinsert, hm⟩ := install_eq_ok hrun
  have hspace : h'.space = space := congrArg Memory.space hm
  have h₀ := hs.standing
  refine ⟨?_, hspace ▸ hs.weighed.insert hinsert⟩
  rw [htotal]
  exact ⟨h₀.length, h₀.constants, h₀.counted, h₀.capacities⟩

theorem Shaped.allocate (hs : h.Shaped) {request : AllocRequest} {y : Except HeapError Nat}
    (hrun : Heap.allocate i request h = .ok (y, h')) : h'.Shaped := by
  cases allocate_cases hrun with
  | unknown => exact hs
  | oversized _ _ hfail => exact hs.fail hfail
  | uncollected _ _ hbudget => exact hs.stands (steady_requireBudget hbudget)
  | unplaced _ _ hbudget hplace =>
    exact (hs.stands (steady_requireBudget hbudget)).placeOrCollect hplace
  | installed _ _ hbudget hplace hinstall =>
    exact ((hs.stands (steady_requireBudget hbudget)).placeOrCollect hplace).install hinstall

theorem Shaped.apply (hs : h.Shaped) {op : Operation} (hrun : op.apply h = .ok h') :
    h'.Shaped := by
  cases op with
  | allocate heap request =>
    obtain ⟨r, hrun⟩ := after_eq_ok.1 hrun
    exact hs.allocate hrun
  | findBlock heap target size =>
    obtain ⟨r, hrun⟩ := after_eq_ok.1 hrun
    exact hs.stands (refits_tryPlace hrun).stands
  | collect generation reason =>
    obtain ⟨r, hrun⟩ := after_eq_ok.1 hrun
    exact hs.collect hrun
  | startBackground =>
    obtain ⟨r, hrun⟩ := after_eq_ok.1 hrun
    exact hs.stands (steady_startBackground hrun).toStands
  | completeBackground =>
    obtain ⟨r, hrun⟩ := after_eq_ok.1 hrun
    exact hs.stands (steady_completeBackground hrun)
  | _ =>
    obtain ⟨_, _, hrests⟩ := rests_apply hrun rfl nofun
    obtain ⟨h₀, hweighed⟩ := hs.stands hrests.toStands
    exact ⟨⟨h₀.length, h₀.constants, h₀.counted, h₀.capacities⟩, hweighed⟩

theorem Strained.shaped (hs : h.Strained) : h.Shaped := by
  induction hs with
  | start _ hrun =>
    obtain ⟨hstanding, hspace⟩ := standing_onRange hrun
    exact ⟨hstanding, hspace ▸ ObjectSpace.weighed_empty⟩
  | step op _ hrun ih => exact ih.apply hrun
  | refuseReturns _ _ _ ih => exact ⟨ih.standing, ih.weighed⟩

theorem Reachable.shaped (hr : h.Reachable) : h.Shaped := hr.strained.shaped

end GenHeap.Heap
