import GenHeap.Proofs.Heap.Upkeep

/-!
The life of a background cycle. It goes on through everything but a collection, and what was set when
it began stays as it was. Whatever ends it sets everything back, so that between two operations the
upkeep is in order, however many cycles came before.
-/

namespace GenHeap

namespace Upkeep

/-- The cycle in progress goes on, if there is one. Writes may be noted while they are watched, and
boards may be written. -/
structure Goes (u u' : Upkeep) : Prop where
  low : u'.low = u.low
  watching : u'.watching = u.watching
  written : u.watching = false → u'.written = u.written
  saved : u'.saved = u.saved
  shown : ∀ s ∈ u'.shown, s ∈ u.shown ∨ s = u.low.isSome
  phase : u'.phase = u.phase
  next : u'.next = u.next

variable {u u' : Upkeep}

theorem Goes.of_eq (he : u' = u) : u.Goes u' := by
  subst he
  exact ⟨rfl, rfl, fun _ => rfl, rfl, fun _ hs => .inl hs, rfl, rfl⟩

end Upkeep

namespace Heap

variable {h h' k : Heap} {i x a size : Nat} {target : Generation} {op : Operation}

/-! ## While a cycle goes on -/

theorem goes_publish (hsame : h'.upkeep = h.upkeep) : h.upkeep.Goes h'.publish.upkeep := by
  rw [upkeep_publish, ← hsame]
  refine ⟨rfl, rfl, fun _ => rfl, rfl, fun s hs => .inr ?_, rfl, rfl⟩
  obtain ⟨_, _, rfl⟩ := List.mem_map.1 hs
  exact Option.isSome_map.symm

theorem goes_writeSlot {object slot target : Nat} {r : Except HeapError Unit}
    (hrun : writeSlot object slot target h = .ok (r, h')) : h.upkeep.Goes h'.upkeep := by
  obtain rfl | ⟨q, _, _, _, rfl⟩ := writeSlot_cases hrun
  · exact .of_eq rfl
  · refine ⟨rfl, rfl, fun hwatching => ?_, rfl, fun _ hs => .inl hs, rfl, rfl⟩
    have hwatching : h.watching = false := hwatching
    simp only [upkeep, hwatching, Bool.false_eq_true, if_false]

theorem upkeep_createHandle {kind : HandleKind} {r : Except HeapError Nat}
    (hrun : createHandle kind a h = .ok (r, h')) : h'.upkeep = h.upkeep := by
  obtain rfl | ⟨_, _, _, _, rfl⟩ := createHandle_cases hrun <;> rfl

theorem upkeep_freeHandle {id : Nat} {r : Except HeapError Unit}
    (hrun : freeHandle id h = .ok (r, h')) : h'.upkeep = h.upkeep := by
  obtain rfl | ⟨_, _, rfl⟩ := freeHandle_cases hrun <;> rfl

theorem upkeep_registerForFinalization {object : Nat} {r : Except HeapError Unit}
    (hrun : registerForFinalization object h = .ok (r, h')) : h'.upkeep = h.upkeep := by
  obtain ⟨-, rfl⟩ | ⟨q, -, rfl⟩ := registerForFinalization_cases hrun
  · rfl
  · refine upkeep_modifyHeap (h := { h with space := h.space.update object _ }) (fun l => ?_)
      fun l => ?_ <;> split <;> rfl

theorem upkeep_suppressFinalization {object : Nat} {r : Except HeapError Bool}
    (hrun : suppressFinalization object h = .ok (r, h')) : h'.upkeep = h.upkeep := by
  obtain ⟨-, rfl⟩ | ⟨q, -, rfl⟩ := suppressFinalization_cases hrun
  · rfl
  · exact upkeep_modifyHeap (h := { h with space := h.space.update object _ }) (fun _ => rfl)
      fun _ => rfl

theorem goes_finishReady (batch : List (Nat × FinalizableEntry)) (report : FinalizerReport) :
    h.upkeep.Goes (finishReady batch report h).upkeep := by
  have hdone : (h.doneRunning batch).upkeep = h.upkeep := by
    refine doneRunning_induct (P := fun k => k.upkeep = h.upkeep) rfl
      (fun k i object hk => Eq.trans ?_ hk) batch
    exact upkeep_modifyHeap (fun _ => rfl) fun _ => rfl
  exact goes_publish hdone

theorem goes_analyze {r : Except HeapError HeapAnalysis} (hrun : analyze h = .ok (r, h')) :
    h.upkeep.Goes h'.upkeep := by
  obtain rfl := analyze_cases hrun
  exact goes_publish
    (upkeep_of_heaps (map_analyzed fun _ _ _ => rfl) (map_analyzed fun _ _ _ => rfl))

theorem upkeep_traceStep : h.traceStep.upkeep = h.upkeep := by
  have hlow : (h.background.map (BackgroundMark.step h.space h.config.tuning.backgroundChunk)).map
      (·.low) = h.background.map (·.low) := by
    rw [Option.map_map]
    exact Option.map_congr fun b _ => BackgroundMark.low_step ..
  unfold upkeep traceStep
  simp only [hlow]

/-- A cycle goes on while the embedder works and its tracer runs. -/
theorem goes_apply (hop : op.leavesCycle = true ∨ op = .traceStep) (hrun : op.apply h = .ok h') :
    h.upkeep.Goes h'.upkeep := by
  cases op with
  | findBlock heap target size =>
    obtain ⟨r, hrun⟩ := after_eq_ok.1 hrun
    exact .of_eq (upkeep_refits (refits_tryPlace hrun))
  | writeSlot object slot target =>
    obtain ⟨r, hrun⟩ := after_eq_ok.1 hrun
    exact goes_writeSlot hrun
  | createHandle kind target =>
    obtain ⟨r, hrun⟩ := after_eq_ok.1 hrun
    exact .of_eq (upkeep_createHandle hrun)
  | freeHandle id =>
    obtain ⟨r, hrun⟩ := after_eq_ok.1 hrun
    exact .of_eq (upkeep_freeHandle hrun)
  | registerForFinalization object =>
    obtain ⟨r, hrun⟩ := after_eq_ok.1 hrun
    exact .of_eq (upkeep_registerForFinalization hrun)
  | suppressFinalization object =>
    obtain ⟨r, hrun⟩ := after_eq_ok.1 hrun
    exact .of_eq (upkeep_suppressFinalization hrun)
  | takeReady =>
    cases hrun
    exact .of_eq (upkeep_modifyHeaps (fun _ => rfl) fun _ => rfl)
  | finishReady batch report =>
    cases hrun
    exact goes_finishReady batch report
  | analyze =>
    obtain ⟨r, hrun⟩ := after_eq_ok.1 hrun
    exact goes_analyze hrun
  | traceStep =>
    cases hrun
    exact .of_eq upkeep_traceStep
  | dirtyCard | limitCommits | failNext | refuseNext | setClock =>
    cases hrun
    exact .of_eq rfl
  | _ => rcases hop with hop | hop <;> cases hop

theorem goes_install {request : AllocRequest}
    (hrun : install i request target size a x h = .ok h') : h.upkeep.Goes h'.upkeep := by
  simp only [install, Checked.bind_eq_ok] at hrun
  obtain ⟨space, _, statistics, _, hrun⟩ := hrun
  refine .of_eq ((upkeep_updateHeap (fun l l' hl => ?_) hrun).trans ?_)
  · simp only [Checked.bind_eq_ok, Checked.pure_eq_ok] at hl
    obtain ⟨budgets, _, rfl⟩ := hl
    exact ⟨rfl, cycleActive_publish (cycleActive_writeAllocation _) l.board⟩
  · have hlow : (h.background.map (BackgroundMark.allocateBlack · a)).map (·.low) =
        h.background.map (·.low) := by
      rw [Option.map_map]
      exact Option.map_congr fun b _ => BackgroundMark.low_allocateBlack ..
    simp only [upkeep, hlow]

theorem goes_fail {α : Type} {reason : OutOfMemory.Reason} {y : Except HeapError α}
    (hrun : fail i reason size target h = .ok (y, h')) : h.upkeep.Goes h'.upkeep := by
  cases fail_apply.symm.trans hrun
  have hrecorded (event : OutOfMemory.Event) : (h.modifyHeap i fun l =>
      { l with failures := l.failures.record event }).upkeep = h.upkeep :=
    upkeep_modifyHeap (fun _ => rfl) fun _ => rfl
  exact goes_publish (hrecorded _)

/-! ## The begin of a cycle -/

theorem upkeep_beginCycle : h.beginCycle.upkeep = {
    low := some h.cycleBounds.1, watching := true, written := []
    saved := h.heaps.map fun l => l.ephemeral?.map fun s => (s.start, s.allocated)
    shown := h.heaps.map fun _ => true, phase := .trace, next := h.cycleBounds.1 } := by
  unfold beginCycle
  rw [upkeep_publish]
  simp only [upkeep, modifyHeaps, List.map_map, CardTable.dirtyCards_clearAll]
  rfl

/-- The cycle in progress began on the heap `k`. An allocation is taken apart, since it may end a cycle
and begin another. -/
inductive Began (k : Heap) : Heap → Prop where
  | begun {h : Heap} (hrun : startBackground k = .ok (.ok true, h)) : Began k h
  | continued {h h' : Heap} (op : Operation) (hb : Began k h)
    (hop : op.leavesCycle = true ∨ op = .traceStep) (hrun : op.apply h = .ok h') : Began k h'
  | installed {h h' : Heap} {i size a x : Nat} {request : AllocRequest} {target : Generation}
    (hb : Began k h) (hrun : install i request target size a x h = .ok h') : Began k h'
  | failed {α : Type} {h h' : Heap} {i size : Nat} {reason : OutOfMemory.Reason}
    {target : Generation} {answer : Except HeapError α} (hb : Began k h)
    (hrun : fail i reason size target h = .ok (answer, h')) : Began k h'

/-- What was set when the cycle began is as it was then. -/
theorem Began.upkeep (hb : k.Began h) : h.upkeep.low = some k.cycleBounds.1 ∧
    h.upkeep.saved = k.heaps.map fun l => l.ephemeral?.map fun s => (s.start, s.allocated) := by
  have hgoes {h h' : Heap} (hg : h.upkeep.Goes h'.upkeep)
      (hb : h.upkeep.low = some k.cycleBounds.1 ∧
        h.upkeep.saved = k.heaps.map fun l => l.ephemeral?.map fun s => (s.start, s.allocated)) :
      h'.upkeep.low = some k.cycleBounds.1 ∧
        h'.upkeep.saved = k.heaps.map fun l => l.ephemeral?.map fun s => (s.start, s.allocated) :=
    ⟨hg.low.trans hb.1, hg.saved.trans hb.2⟩
  induction hb with
  | begun hrun =>
    obtain ⟨he, -⟩ | ⟨-, -, rfl⟩ := startBackground_cases hrun
    · cases he
    · rw [upkeep_beginCycle]
      exact ⟨rfl, rfl⟩
  | continued op _ hop hrun ih => exact hgoes (goes_apply hop hrun) ih
  | installed _ hrun ih => exact hgoes (goes_install hrun) ih
  | failed _ hrun ih => exact hgoes (goes_fail hrun) ih

theorem Began.savedEphemeral (hb : k.Began h) : h.heaps.length = k.heaps.length ∧
    ∀ (i : Nat) l l₀, h.heaps[i]? = some l → k.heaps[i]? = some l₀ →
      l.savedEphemeral = l₀.ephemeral?.map fun s => (s.start, s.allocated) := by
  have hsaved : h.heaps.map (·.savedEphemeral) =
      k.heaps.map fun l => l.ephemeral?.map fun s => (s.start, s.allocated) := hb.upkeep.2
  refine ⟨by simpa only [List.length_map] using congrArg List.length hsaved, ?_⟩
  intro i l l₀ hl hl₀
  have hi := congrArg (·[i]?) hsaved
  simp only [List.getElem?_map, hl, hl₀, Option.map_some, Option.some.injEq] at hi
  exact hi

end Heap

end GenHeap
