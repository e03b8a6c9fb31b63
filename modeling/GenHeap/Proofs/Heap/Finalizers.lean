import Mathlib.Data.List.Induction
import GenHeap.Proofs.Heap.Anchors

/-!
Finalizers run in place. However many batches of ready objects are taken, one inside another or side
by side, the running lists hold the objects of those that are not finished; so each finalizer is run
on an object that is live where it was taken, and the end of a batch forgets that batch.
-/

namespace GenHeap

/-- Entries that were taken at one time, with their heaps. -/
abbrev Batch := List (Nat × FinalizableEntry)

/-- The objects of the entries of one heap. -/
def Batch.objectsIn (batch : Batch) (i : Nat) : List Nat :=
  (batch.filter (·.1 == i)).map (·.2.object)

namespace FinalizationQueue

/-- Forgetting an object that is running takes one occurrence away. -/
theorem perm_finishRunning {q : FinalizationQueue} {a : Nat} (h : a ∈ q.running) :
    q.running.Perm (a :: (q.finishRunning a).running) := by
  unfold finishRunning
  cases hi : q.running.idxOf? a with
  | none => exact absurd h (List.idxOf?_eq_none_iff.1 hi)
  | some i =>
    obtain ⟨hlt, he, _⟩ := List.idxOf?_eq_some_iff.1 hi
    exact perm_cons_swapErase (List.getElem?_eq_some_iff.2 ⟨hlt, he⟩)

/-- The running objects of one of several queues. -/
def runningIn (queues : List FinalizationQueue) (i : Nat) : List Nat :=
  ((queues.map (·.running))[i]?).getD []

variable {queues : List FinalizationQueue} {i a : Nat}

theorem mem_runningIn (h : a ∈ runningIn queues i) : ∃ q, queues[i]? = some q ∧ a ∈ q.running := by
  unfold runningIn at h
  rw [List.getElem?_map] at h
  cases hq : queues[i]? with
  | none =>
    rw [hq] at h
    cases h
  | some q =>
    rw [hq] at h
    exact ⟨q, rfl, h⟩

theorem perm_runningIn_finishRunning (h : a ∈ runningIn queues i) : (runningIn queues i).Perm
    (a :: runningIn (queues.modify i (·.finishRunning a)) i) := by
  obtain ⟨q, hq, ha⟩ := mem_runningIn h
  simp only [runningIn, List.getElem?_map, List.getElem?_modify, hq, if_true, Option.map_eq_map,
    Option.map_some, Option.getD_some]
  exact perm_finishRunning ha

theorem runningIn_modify_of_ne {j : Nat} (h : j ≠ i) (f : FinalizationQueue → FinalizationQueue) :
    runningIn (queues.modify j f) i = runningIn queues i := by
  simp only [runningIn, List.getElem?_map, List.getElem?_modify, h, if_false, Option.map_eq_map,
    Option.map_id']

/-- The end of a batch whose objects are all running leaves the others. -/
theorem perm_runningIn_finish {batch : Batch} {others : Nat → List Nat}
    (h : ∀ i, (runningIn queues i).Perm (batch.objectsIn i ++ others i)) (i : Nat) :
    (runningIn (batch.foldl (fun queues x => queues.modify x.1 (·.finishRunning x.2.object)) queues)
      i).Perm (others i) := by
  induction batch generalizing queues with
  | nil => exact h i
  | cons x batch ih =>
    refine ih fun j => ?_
    have hj := h j
    by_cases hx : x.1 = j
    · subst hx
      have hhead : Batch.objectsIn (x :: batch) x.1 = x.2.object :: Batch.objectsIn batch x.1 := by
        simp [Batch.objectsIn]
      rw [hhead, List.cons_append] at hj
      have hmem : x.2.object ∈ runningIn queues x.1 := hj.mem_iff.2 List.mem_cons_self
      exact List.Perm.cons_inv ((perm_runningIn_finishRunning hmem).symm.trans hj)
    · have hother : Batch.objectsIn (x :: batch) j = Batch.objectsIn batch j := by
        simp [Batch.objectsIn, hx]
      rw [hother] at hj
      rw [runningIn_modify_of_ne hx]
      exact hj

end FinalizationQueue

namespace Batch

theorem objectsIn_append (xs ys : Batch) (i : Nat) :
    objectsIn (xs ++ ys) i = xs.objectsIn i ++ ys.objectsIn i := by
  simp only [objectsIn, List.filter_append, List.map_append]

theorem objectsIn_perm {xs ys : Batch} (h : xs.Perm ys) (i : Nat) :
    (xs.objectsIn i).Perm (ys.objectsIn i) :=
  (h.filter _).map _

theorem mem_objectsIn {xs : Batch} {x : Nat × FinalizableEntry} (h : x ∈ xs) :
    x.2.object ∈ xs.objectsIn x.1 :=
  List.mem_map_of_mem (List.mem_filter.2 ⟨h, beq_self_eq_true _⟩)

theorem objectsIn_flatten_mapIdx {α : Type} (g : α → List FinalizableEntry) (xs : List α) (i : Nat) :
    objectsIn (xs.mapIdx fun j x => (g x).map fun e => (j, e)).flatten i =
      ((xs.map fun x => (g x).map (·.object))[i]?).getD [] := by
  induction xs using List.reverseRecOn with
  | nil => rfl
  | append_singleton xs x ih =>
    have hlast : objectsIn ((g x).map fun e => (xs.length, e)) i =
        if xs.length = i then (g x).map (·.object) else [] := by
      unfold objectsIn
      split
      next hi => simp [hi, List.filter_map, Function.comp_def]
      next hi => simp [hi]
    rw [List.mapIdx_concat, List.flatten_concat, objectsIn_append, ih, hlast, List.map_append,
      List.map_singleton, List.getElem?_append, List.length_map]
    split
    next hi => simp [hi]
    next hi =>
      split
      next hlt => simp
      next hge =>
        have hout : (xs.map fun x => (g x).map (·.object))[i]? = none := by
          rw [List.getElem?_eq_none_iff, List.length_map]
          omega
        rw [hout, List.getElem?_eq_none (by simp; omega)]
        rfl

end Batch

namespace Heap

open FinalizationQueue (runningIn)

/-! ## Several batches -/

/-- One step of a heap whose running finalizers belong to some open batches: an operation, the taking
of a batch or the end of one. -/
inductive Turn : Heap → List Batch → Heap → List Batch → Prop where
  | act {h h' : Heap} {opened : List Batch} (op : Operation) (hop : op.finalizes = false)
    (hrun : op.apply h = .ok h') : Turn h opened h' opened
  | take {opened opened' : List Batch} (h : Heap) (hopen : opened'.Perm (h.takeReady.1 :: opened)) :
    Turn h opened h.takeReady.2 opened'
  | finish {opened rest : List Batch} {batch : Batch} (h : Heap) (report : FinalizerReport)
    (hopen : opened.Perm (batch :: rest)) : Turn h opened (h.finishReady batch report) rest

/-- A run of such steps. -/
inductive Proceeds : Heap → List Batch → Heap → List Batch → Prop where
  | refl (h : Heap) (opened : List Batch) : Proceeds h opened h opened
  | step {h h₁ h' : Heap} {opened opened₁ opened' : List Batch} (hturn : Turn h opened h₁ opened₁)
    (hrest : Proceeds h₁ opened₁ h' opened') : Proceeds h opened h' opened'

variable {h h' h₁ : Heap} {opened opened' : List Batch} {own : Batch}

/-- What is running are the objects of the open batches. -/
def Minds (h : Heap) (opened : List Batch) : Prop :=
  ∀ i, (runningIn h.memory.queues i).Perm (Batch.objectsIn opened.flatten i)

theorem Turn.apply (ht : Turn h opened h' opened') : ∃ op : Operation, op.apply h = .ok h' := by
  cases ht with
  | act op _ hrun => exact ⟨op, hrun⟩
  | take => exact ⟨.takeReady, rfl⟩
  | finish h report => exact ⟨.finishReady _ report, rfl⟩

/-- Batches that stay open are no matter to a run. -/
theorem Turn.frame (ht : Turn h opened h' opened') (more : List Batch) :
    Turn h (opened ++ more) h' (opened' ++ more) := by
  cases ht with
  | act op hop hrun => exact .act op hop hrun
  | take h hopen => exact .take h (hopen.append_right more)
  | finish h report hopen => exact .finish h report (hopen.append_right more)

theorem Proceeds.frame (hp : Proceeds h opened h' opened') (more : List Batch) :
    Proceeds h (opened ++ more) h' (opened' ++ more) := by
  induction hp with
  | refl => exact .refl _ _
  | step ht _ ih => exact .step (ht.frame more) ih

theorem Proceeds.trans {h'' : Heap} {opened'' : List Batch} (hp : Proceeds h opened h' opened')
    (hp' : Proceeds h' opened' h'' opened'') : Proceeds h opened h'' opened'' := by
  induction hp with
  | refl => exact hp'
  | step ht _ ih => exact .step ht (ih hp')

theorem proceeds_of_run {ops : List Operation} (hops : ∀ op ∈ ops, op.finalizes = false)
    (hrun : h.run ops = .ok h') (opened : List Batch) : Proceeds h opened h' opened := by
  refine Checked.foldlM_induct (fun k => Proceeds h opened k opened) ?_ (.refl _ _) hrun
  intro k op k' hop hp hstep
  exact hp.trans (.step (.act op (hops op hop) hstep) (.refl _ _))

theorem Proceeds.reachable (hp : Proceeds h opened h' opened') (hr : h.Reachable) :
    h'.Reachable := by
  induction hp with
  | refl => exact hr
  | step ht _ ih =>
    obtain ⟨op, hop⟩ := ht.apply
    exact ih (.step op hr hop)

theorem Turn.minds (ht : Turn h opened h' opened') (hr : h.Reachable) (hm : Minds h opened) :
    Minds h' opened' := by
  cases ht with
  | act op hop hrun =>
    obtain ⟨_, _, ha⟩ := anchors_apply hr.sound hrun
    intro i
    rw [runningIn, ha.running hop]
    exact hm i
  | take h hopen =>
    intro i
    have hqueues : h.takeReady.2.memory.queues = h.memory.queues.map fun q =>
        (q.takeReady q.readyCount).2 := congrArg Memory.queues memory_takeReady
    have hready : Batch.objectsIn h.takeReady.1 i =
        ((h.heaps.map fun l => l.finalization.ready.map (·.object))[i]?).getD [] :=
      Batch.objectsIn_flatten_mapIdx (fun l : LogicalHeap => l.finalization.ready) h.heaps i
    have hsum : runningIn h.takeReady.2.memory.queues i =
        runningIn h.memory.queues i ++ Batch.objectsIn h.takeReady.1 i := by
      rw [hready, hqueues]
      simp only [runningIn, List.getElem?_map, memory]
      cases h.heaps[i]? with
      | none => rfl
      | some l =>
        show l.finalization.running ++ (List.take l.finalization.ready.length _).map _ = _
        rw [List.take_length]
        rfl
    rw [hsum]
    refine .trans ?_ (Batch.objectsIn_perm hopen.symm.flatten i)
    rw [List.flatten_cons, Batch.objectsIn_append]
    exact ((hm i).append_right _).trans List.perm_append_comm
  | finish h report hopen =>
    intro i
    rw [memory_finishReady, memory_doneRunning]
    refine FinalizationQueue.perm_runningIn_finish (fun j => ?_) i
    rw [← Batch.objectsIn_append, ← List.flatten_cons]
    exact (hm j).trans (Batch.objectsIn_perm hopen.flatten j)

theorem Proceeds.minds (hp : Proceeds h opened h' opened') (hr : h.Reachable)
    (hm : Minds h opened) : Minds h' opened' := by
  induction hp with
  | refl => exact hm
  | step ht _ ih =>
    obtain ⟨op, hop⟩ := ht.apply
    exact ih (.step op hr hop) (ht.minds hr hm)

/-! ### Their objects -/

theorem Minds.held (hm : Minds h opened) (hown : own ∈ opened) {x : Nat × FinalizableEntry}
    (hx : x ∈ own) : x.2.object ∈ runningIn h.memory.queues x.1 ∧ h.memory.Held x.2.object := by
  have hin : x.2.object ∈ runningIn h.memory.queues x.1 :=
    (hm x.1).mem_iff.2 (Batch.mem_objectsIn (List.mem_flatten_of_mem hown hx))
  obtain ⟨q, hq, ha⟩ := FinalizationQueue.mem_runningIn hin
  exact ⟨hin, .inr ⟨q, List.mem_of_getElem? hq, ha⟩⟩

theorem anchored_of_held {op : Operation} (hr : h.Reachable) (hrun : op.apply h = .ok h') {a : Nat}
    (ha : h.memory.Held a) : ∃ r q, h.space.get? a = some r ∧ h'.space.get? a = some q ∧
      r.Anchored q := by
  obtain ⟨f, left, hs⟩ := anchors_apply hr.sound hrun
  have hl := hs.held ha
  obtain ⟨r, q, hget, hq, hanchored, _⟩ := hs.records hl
  rw [hs.still hl (.inl ha)] at hq
  exact ⟨r, q, hget, hq, hanchored⟩

/-- The objects of a batch that stays open are there all the time. -/
theorem Proceeds.anchored (hp : Proceeds h opened h' opened') (hr : h.Reachable)
    (hm : Minds h (opened ++ [own])) {x : Nat × FinalizableEntry} (hx : x ∈ own) :
    ∃ r q, h.space.get? x.2.object = some r ∧ h'.space.get? x.2.object = some q ∧ r.Anchored q := by
  induction hp with
  | refl h opened =>
    obtain ⟨_, hheld⟩ := hm.held (List.mem_append_right _ List.mem_cons_self) hx
    have hself : Memory.Anchored id _ h.memory h.memory := .of_same rfl rfl rfl hr.sound
    obtain ⟨r, hget⟩ := ObjectSpace.contains_iff.1 (hself.held hheld)
    exact ⟨r, r, hget, hget, .refl r⟩
  | step ht _ ih =>
    obtain ⟨op, hop⟩ := ht.apply
    obtain ⟨_, hheld⟩ := hm.held (List.mem_append_right _ List.mem_cons_self) hx
    obtain ⟨r, q, hget, hq, hs⟩ := anchored_of_held hr hop hheld
    obtain ⟨q', z, hq', hz, hs'⟩ := ih (.step op hr hop) ((ht.frame [own]).minds hr hm)
    cases hq.symm.trans hq'
    exact ⟨r, z, hget, hz, hs.trans hs'⟩

/-- A state that an embedder can reach that finishes each batch at most once, with its open ones. -/
def Attended (h : Heap) (opened : List Batch) : Prop :=
  ∃ config range h₀, 0 < range.start ∧ onRange config range = .ok (.ok h₀) ∧
    Proceeds h₀ [] h opened

theorem Attended.reachable (ha : Attended h opened) : h.Reachable := by
  obtain ⟨_, _, h₀, hpos, hstart, hp⟩ := ha
  exact hp.reachable (.start hpos hstart)

theorem Attended.proceeds (ha : Attended h opened) (hp : Proceeds h opened h' opened') :
    Attended h' opened' := by
  obtain ⟨config, range, h₀, hpos, hstart, hp₀⟩ := ha
  exact ⟨config, range, h₀, hpos, hstart, hp₀.trans hp⟩

theorem Attended.minds (ha : Attended h opened) : Minds h opened := by
  obtain ⟨_, _, h₀, hpos, hstart, hp⟩ := ha
  apply hp.minds (.start hpos hstart)
  intro i
  obtain ⟨_, n, _, hm⟩ := memory_onRange hstart
  have hempty : runningIn (List.replicate n {}) i = [] := by
    unfold runningIn
    rw [List.map_replicate, List.getElem?_replicate]
    split <;> rfl
  rw [hm, hempty]
  exact .refl _

end Heap

/-! ## Running a batch -/

open Heap (Attended Proceeds runBatch runFinalizers)
open FinalizationQueue (runningIn)

/-- An embedder with a heap in its state. Its finalizers may run the heap, and take batches and finish
them, but not the batch that they belong to. -/
structure Embedder (σ : Type) where
  heap : σ → Heap
  setHeap : Heap → σ → σ
  /-- the batches that are open elsewhere -/
  opened : σ → List Batch
  run : FinalizableEntry → StateT σ Checked FinalizerOutcome
  heap_setHeap : ∀ h s, heap (setHeap h s) = h
  opened_setHeap : ∀ h s, opened (setHeap h s) = opened s
  proceeds : ∀ {e s o s'}, run e s = .ok (o, s') →
    Proceeds (heap s) (opened s) (heap s') (opened s')

namespace Embedder

/-- The batch that is taken in a state. -/
def batch {σ : Type} (e : Embedder σ) (s : σ) : Batch := (e.heap s).takeReady.1

/-- The state in which it was taken. -/
def started {σ : Type} (e : Embedder σ) (s : σ) : σ := e.setHeap (e.heap s).takeReady.2 s

variable {σ : Type} {e : Embedder σ} {s s' : σ} {entries : Batch} {report : FinalizerReport}

/-- Running the finalizers: each is called while its object runs, is live, and is where it was when
the batch was taken, and the end takes the objects of the batch from the running lists, no others. -/
structure RunsInPlace (e : Embedder σ) (s : σ) (report : FinalizerReport) (s' : σ) : Prop where
  called : ∀ {before x after r s₁}, e.batch s = before ++ x :: after →
    runBatch e.run before (e.started s) = .ok (r, s₁) →
    x.2.object ∈ runningIn (e.heap s₁).memory.queues x.1 ∧
      ∃ r q, (e.heap s).space.get? x.2.object = some r ∧
        (e.heap s₁).space.get? x.2.object = some q ∧ r.Anchored q
  closed : ∃ s₁, runBatch e.run (e.batch s) (e.started s) = .ok (report, s₁) ∧
    s' = e.setHeap ((e.heap s₁).finishReady (e.batch s) report) s₁ ∧
    ∀ i, (runningIn (e.heap s₁).memory.queues i).Perm
      ((e.batch s).objectsIn i ++ runningIn (e.heap s').memory.queues i)
  attended : Attended (e.heap s') (e.opened s')

theorem proceeds_runBatch (hrun : runBatch e.run entries s = .ok (report, s')) :
    Proceeds (e.heap s) (e.opened s) (e.heap s') (e.opened s') := by
  unfold runBatch at hrun
  generalize ({} : FinalizerReport) = start at hrun
  induction entries generalizing s start with
  | nil =>
    cases hrun
    exact .refl _ _
  | cons x entries ih =>
    rw [List.foldlM_cons, Checked.stateT_bind_eq_ok] at hrun
    obtain ⟨r, s₁, hone, hrun⟩ := hrun
    rw [Checked.stateT_bind_eq_ok] at hone
    obtain ⟨o, s₂, hone, hadd⟩ := hone
    cases hadd
    exact (e.proceeds hone).trans (ih _ hrun)

theorem runFinalizers_eq_ok (hrun : runFinalizers e.heap e.setHeap e.run s = .ok (report, s')) :
    ∃ s₁, runBatch e.run (e.batch s) (e.started s) = .ok (report, s₁) ∧
      s' = e.setHeap ((e.heap s₁).finishReady (e.batch s) report) s₁ := by
  simp only [runFinalizers, Checked.stateT_bind_eq_ok] at hrun
  obtain ⟨_, _, hget, _, _, htake, r, s₁, hbatch, _, _, hfinish, hlast⟩ := hrun
  cases hget
  cases htake
  cases hfinish
  cases hlast
  exact ⟨s₁, hbatch, rfl⟩

/-- Taking a batch, then running a part of it, during which it stays open. -/
theorem proceeds_started (hrun : runBatch e.run entries (e.started s) = .ok (report, s')) :
    Proceeds (e.heap s) (e.opened s) (e.heap s).takeReady.2 (e.opened s ++ [e.batch s]) ∧
      Proceeds (e.heap s).takeReady.2 (e.opened s) (e.heap s') (e.opened s') := by
  have hp := proceeds_runBatch hrun
  rw [started, e.heap_setHeap, e.opened_setHeap] at hp
  exact ⟨.step (.take _ List.perm_append_comm) (.refl _ _), hp⟩

theorem runsInPlace (ha : Attended (e.heap s) (e.opened s))
    (hrun : runFinalizers e.heap e.setHeap e.run s = .ok (report, s')) :
    e.RunsInPlace s report s' := by
  obtain ⟨s₁, hbatch, rfl⟩ := runFinalizers_eq_ok hrun
  obtain ⟨htake, hp⟩ := proceeds_started hbatch
  have hopen := (ha.proceeds htake).proceeds (hp.frame [e.batch s])
  have hclosed := hopen.proceeds (.step (.finish _ report List.perm_append_comm) (.refl _ _))
  constructor
  · intro before x after r s₂ hsplit hbefore
    obtain ⟨htake, hp⟩ := proceeds_started hbefore
    have hstarted := ha.proceeds htake
    have hx : x ∈ e.batch s := by simp [hsplit]
    have hown : e.batch s ∈ e.opened s₂ ++ [e.batch s] := by simp
    refine ⟨((hstarted.proceeds (hp.frame _)).minds.held hown hx).1, ?_⟩
    exact hp.anchored hstarted.reachable hstarted.minds hx
  · refine ⟨s₁, hbatch, rfl, fun i => ?_⟩
    rw [e.heap_setHeap]
    refine (hopen.minds i).trans (.trans (Batch.objectsIn_perm List.perm_append_comm.flatten i) ?_)
    show (Batch.objectsIn (e.batch s ++ (e.opened s₁).flatten) i).Perm _
    rw [Batch.objectsIn_append]
    exact (hclosed.minds i).symm.append_left _
  · rw [e.heap_setHeap, e.opened_setHeap]
    exact hclosed

end Embedder

/-- No operation moves an object that is pinned, of the pinned generation, the target of a pinned
handle or running, and the latter two it leaves in any case. So a finalizer is always called with
the address of its live object, and the end of its batch forgets just that batch. -/
theorem immovable_stay :
    (∀ (h : Heap) op h', h.Reachable → Operation.apply h op = .ok h' →
      ∃ f left, Heap.Anchors op f left h h') ∧
    ∀ (σ : Type) (e : Embedder σ) s report s', Attended (e.heap s) (e.opened s) →
      runFinalizers e.heap e.setHeap e.run s = .ok (report, s') → e.RunsInPlace s report s' := by
  constructor
  · intro h op h' hr hrun
    exact Heap.anchors_apply hr.sound hrun
  · intro σ e s report s' ha hrun
    exact Embedder.runsInPlace ha hrun

/-- An embedder whose finalizers compact the heap. -/
def compactingEmbedder : Embedder Heap where
  heap h := h
  setHeap h _ := h
  opened _ := []
  run _ h := do
    let (_, h) ← (Heap.collect .gen2 .inducedCompacting).apply h
    return (.done, h)
  heap_setHeap _ _ := rfl
  opened_setHeap _ _ := rfl
  proceeds := by
    intro e h o h' hrun
    obtain ⟨⟨r, h₁⟩, hcollect, hlast⟩ := Checked.bind_eq_ok.1 hrun
    cases hlast
    refine .step (.act (.collect .gen2 .inducedCompacting) rfl ?_) (.refl _ _)
    exact Heap.after_eq_ok.2 ⟨r, hcollect⟩

/-- While its finalizer runs, the last object stays where it is; another one moves. -/
theorem immovable_stay_page : ∃ h h₁ h' : Heap, ∃ report, h.Reachable ∧
    Operation.apply h (.collect .gen2 .inducedCompacting) = .ok h₁ ∧ Attended h [] ∧
    runFinalizers compactingEmbedder.heap compactingEmbedder.setHeap compactingEmbedder.run h =
      .ok (report, h') ∧
    h.space.entries.map (·.1) = [4096, 4160, 4224] ∧ h.takeReady.1.map (·.2.object) = [4224] ∧
    h'.space.entries.map (·.1) = [4096, 4224] ∧ h₁.space.entries.map (·.1) = [4096, 4160] ∧
    (∃ f left, Heap.Anchors (.collect .gen2 .inducedCompacting) f left h h₁) ∧
    compactingEmbedder.RunsInPlace h report h' := by
  have hpage : Heap.leadsTo Heap.pageConfig
      [.allocate 0 { size := 64 }, .allocate 0 { size := 64 },
        .allocate 0 { size := 64, finalizable := true }, .createHandle .strong 4096,
        .createHandle .strong 4160, .collect .gen0 .induced, .freeHandle 0]
      (fun h => (h.space.entries.map (·.1) == [4096, 4160, 4224] &&
          h.takeReady.1.map (·.2.object) == [4224]) &&
        ((Operation.apply h (.collect .gen2 .inducedCompacting)).toOption.any fun h₁ =>
            h₁.space.entries.map (·.1) == [4096, 4160]) &&
          (runFinalizers compactingEmbedder.heap compactingEmbedder.setHeap
              compactingEmbedder.run h).toOption.any fun x =>
            x.2.space.entries.map (·.1) == [4096, 4224]) = true := by
    decide +kernel
  obtain ⟨h₀, h, hstart, hops, hp⟩ := Heap.run_of_leadsTo hpage
  simp only [Bool.and_eq_true, beq_iff_eq] at hp
  obtain ⟨⟨⟨hbefore, hready⟩, hcollect⟩, hfinalize⟩ := hp
  obtain ⟨h₁, hcollect, hmoved⟩ := Checked.of_any hcollect
  obtain ⟨⟨report, h'⟩, hfinalize, hafter⟩ := Checked.of_any hfinalize
  have hr : h.Reachable := (Heap.Reachable.ofConfig hstart).run hops
  have ha : Attended h [] := ⟨Heap.pageConfig, Heap.pageConfig.addressRange, h₀, by decide, hstart,
    Heap.proceeds_of_run (by simp [Operation.finalizes]) hops []⟩
  exact ⟨h, h₁, h', report, hr, hcollect, ha, hfinalize, hbefore, hready, eq_of_beq hafter,
    eq_of_beq hmoved, immovable_stay.1 h _ h₁ hr hcollect,
    immovable_stay.2 Heap compactingEmbedder h report h' ha hfinalize⟩

end GenHeap
