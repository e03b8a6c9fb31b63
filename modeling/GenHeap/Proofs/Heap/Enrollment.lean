import GenHeap.Proofs.FinalizationOrder
import GenHeap.Proofs.Heap.Advances

/-!
The order in which finalizers become ready. Each logical heap has a roll of what waits there, in the
order of registration. Whatever a heap does, its buckets keep to the roll but for one thing: an object
that is registered in an older generation overtakes those that wait in younger ones then, and stays
in front of them when they get there.
-/

namespace GenHeap

open Memory (Sifted)

/-- Whether an operation registers nothing, and moves no object. -/
def Operation.enrollsNone : Operation → Bool
  | allocate .. | registerForFinalization .. | collect .. => false
  | _ => true

/-- The generation of a survivor is that of its bucket afterwards. -/
theorem Record.Carried.generation {c : Generation} {f : Nat → Nat} {r q : Record}
    (h : r.Carried c f q) : q.generation = Generation.aged c r.generation := by
  unfold Generation.aged
  split
  next hold =>
    rw [Bool.and_eq_true] at hold
    refine h.promoted hold.2 ?_
    cases hg : r.generation <;> rw [hg] at hold <;> simp [Generation.ephemeral] at hold ⊢
  next hold =>
    refine h.unpromoted ?_
    rintro ⟨hc, hg | hg⟩ <;> rw [hg] at hc hold <;> exact hold (by simp [Generation.ephemeral, hc])

/-- A collection takes dead objects out of the line of a queue, and changes nothing else in it. -/
theorem Memory.Sifted.keeps_queue {c : Generation} {f : Nat → Nat} {live : Nat → Bool}
    {m m' : Memory} {q : FinalizationQueue} (hm : m.Sound) (h : Sifted c f live m m')
    (hq : q ∈ m.queues) : q.Keeps f (Sifted.queue c f live m'.space q) := by
  have hspared : ∀ g, g.condemnedBy c = false → ∀ a ∈ q.bucket g, live a = true := by
    intro g hg a ha
    obtain ⟨e, he, rfl⟩ := List.mem_map.1 ha
    obtain ⟨r, hr, rfl⟩ := hm.sorted q hq g e he
    exact h.spared hr hg
  have hnext : ∀ g, ∀ e ∈ ((q.scanUnreachable c live).relocate f).pending.get g,
      ((m'.space.get? e.object).map (·.generation)).getD e.generation = Generation.aged c g := by
    intro g e he
    obtain ⟨e', he', rfl⟩ := FinalizationQueue.mem_pending_relocate.1 he
    have hpending := (FinalizationQueue.mem_pending_scanUnreachable.1 he').1
    have hneeded := hm.needed_of_waiting hq
      (FinalizationQueue.mem_waiting.2 ⟨g, e', hpending, rfl⟩)
    obtain ⟨r, x, hr, hx, hcarried⟩ := h.records hneeded
    obtain ⟨r', hr', rfl⟩ := hm.sorted q hq g e' hpending
    cases hr.symm.trans hr'
    rw [hx]
    exact hcarried.generation
  refine ⟨⟨live, ?_⟩, fun a ha b hb => ?_, rfl⟩
  · rw [Sifted.queue, Heap.sortedBy, FinalizationQueue.line_syncGenerations hnext,
      FinalizationQueue.line_relocate, FinalizationQueue.line_scanUnreachable hspared]
  · exact h.injective (hm.needed_of_waiting hq (FinalizationQueue.mem_line.1 ha))
      (hm.needed_of_waiting hq (FinalizationQueue.mem_line.1 hb))

namespace Heap

variable {h h' : Heap} {op : Operation} {i a : Nat} {g : Generation} {f : Nat → Nat}
  {rolls : Nat → List Ticket}

/-! ## Rolls -/

/-- The rolls of what still waits, with objects moved by `f`. -/
def keptRolls (f : Nat → Nat) (h' : Heap) (rolls : Nat → List Ticket) (i : Nat) : List Ticket :=
  match h'.heaps[i]? with
  | none => []
  | some l => l.finalization.retain f (rolls i)

/-- The rolls after an object of a generation was to be registered in a logical heap. -/
def enrolled (i a : Nat) (g : Generation) (h : Heap) (rolls : Nat → List Ticket) (j : Nat) :
    List Ticket :=
  match h.heaps[j]? with
  | none => []
  | some l =>
    if i = j ∧ l.finalization.isRegistered a = false then l.finalization.enroll a g (rolls j)
    else rolls j

/-- The registrations that wait in each logical heap, in the order in which they were made. -/
inductive Rolled : Heap → (Nat → List Ticket) → Prop where
  | start {config : Config} {range : AddressRange} {h : Heap} (hpos : 0 < range.start)
    (hrun : onRange config range = .ok (.ok h)) : Rolled h fun _ => []
  | collected {h h' : Heap} {rolls : Nat → List Ticket} {generation : Generation}
    {reason : CollectionReason} {summary : CollectionSummary} {f : Nat → Nat}
    (hr : Rolled h rolls) (hrun : collect generation reason h = .ok (.ok summary, h'))
    (hmoved : Collected (h.condemnedOf generation) f h.memory h'.memory) :
    Rolled h' (keptRolls f h' rolls)
  | installed {h h' : Heap} {rolls : Nat → List Ticket} {i a x size : Nat} {target : Generation}
    {request : AllocRequest} (hr : Rolled h rolls) (hsize : request.effectiveSize? = some size)
    (hfresh : h.memory.Fresh i x a size)
    (hrun : install i request target size a x h = .ok h') :
    Rolled h' (if request.finalizable then enrolled i a target h rolls else rolls)
  | failed {α : Type} {h h' : Heap} {rolls : Nat → List Ticket} {i size : Nat}
    {target : Generation} {reason : OutOfMemory.Reason} {answer : Except HeapError α}
    (hr : Rolled h rolls) (hrun : fail i reason size target h = .ok (answer, h')) :
    Rolled h' rolls
  | registered {h h' : Heap} {rolls : Nat → List Ticket} {object : Nat} {r : Record}
    {answer : Except HeapError Unit} (hr : Rolled h rolls) (hobject : h.space.get? object = some r)
    (hrun : registerForFinalization object h = .ok (answer, h')) :
    Rolled h' (enrolled r.heap object r.generation h rolls)
  | refused {h h' : Heap} {rolls : Nat → List Ticket} {object : Nat}
    {answer : Except HeapError Unit} (hr : Rolled h rolls) (hobject : h.space.get? object = none)
    (hrun : registerForFinalization object h = .ok (answer, h')) : Rolled h' rolls
  | stayed {h h' : Heap} {rolls : Nat → List Ticket} (op : Operation) (hr : Rolled h rolls)
    (hop : op.enrollsNone = true) (hrun : op.apply h = .ok h') : Rolled h' (keptRolls id h' rolls)

theorem Rolled.sound (hr : h.Rolled rolls) : h.memory.Sound ∧ h.memory.Registered := by
  have happly {h h' : Heap} (op : Operation) (hm : h.memory.Sound ∧ h.memory.Registered)
      (hrun : op.apply h = .ok h') : h'.memory.Sound ∧ h'.memory.Registered :=
    ⟨(apply_eq_ok hm.1 hrun).1, (advances_apply hm.1 hm.2 hrun).1⟩
  induction hr with
  | start hpos hrun =>
    exact ⟨sound_onRange hpos hrun, Reachable.registered (.start hpos hrun)⟩
  | @collected _ _ _ generation reason _ _ _ hrun _ ih =>
    exact happly (.collect generation reason) ih (after_eq_ok.2 ⟨_, hrun⟩)
  | installed _ hsize hfresh hrun ih =>
    have hsizes := AllocRequest.le_of_effectiveSize? hsize
    exact ⟨(leads_install ih.1 hfresh hsizes hrun).sound,
      (registered_install ih.1 ih.2 (Nat.lt_of_lt_of_le (by decide) hsizes.1) hfresh hrun).1⟩
  | failed _ hrun ih =>
    rw [(memory_fail hrun).2]
    exact ih
  | @registered _ _ _ object _ _ _ _ hrun ih | @refused _ _ _ object _ _ _ hrun ih =>
    exact happly (.registerForFinalization object) ih (after_eq_ok.2 ⟨_, hrun⟩)
  | stayed op _ _ hrun ih => exact happly op ih hrun

/-! ## Lines -/

/-- The line of each queue only loses objects, and they were moved by `f`. -/
def KeepsLines (f : Nat → Nat) (h h' : Heap) : Prop :=
  ∀ (i : Nat) l', h'.heaps[i]? = some l' → ∃ l, h.heaps[i]? = some l ∧
    l.finalization.Keeps f l'.finalization

theorem keepsLines_of_queues {F : Nat → FinalizationQueue → FinalizationQueue}
    (hqueues : ∀ i, h'.memory.queues[i]? = (h.memory.queues[i]?).map (F i))
    (hF : ∀ i, ∀ q ∈ h.memory.queues, q.Keeps f (F i q)) : KeepsLines f h h' := by
  intro i l' hl'
  have hi := hqueues i
  rw [memory_queues, memory_queues, hl', Option.map_some, Option.map_map] at hi
  obtain ⟨l, hl, he⟩ := Option.map_eq_some_iff.1 hi.symm
  exact ⟨l, hl, he ▸ hF i _ (List.mem_map_of_mem (List.mem_of_getElem? hl))⟩

theorem keepsLines_of_sifted {c : Generation} {live : Nat → Bool} (hm : h.memory.Sound)
    (hs : Sifted c f live h.memory h'.memory) : KeepsLines f h h' := by
  refine keepsLines_of_queues (F := fun _ => Sifted.queue c f live h'.memory.space) (fun i => ?_)
    fun _ _ hq => hs.keeps_queue hm hq
  rw [hs.queues, List.getElem?_map]

/-- Queues that differ in what is ready and running only. -/
theorem keepsLines_of_pending (hsame : h'.memory.queues.map (fun q => (q.pending, q.registered)) =
    h.memory.queues.map fun q => (q.pending, q.registered)) : KeepsLines id h h' := by
  intro i l' hl'
  have hi := congrArg (·[i]?) hsame
  simp only [List.getElem?_map, memory_queues, hl', Option.map_some] at hi
  rw [Option.map_map] at hi
  obtain ⟨l, hl, he⟩ := Option.map_eq_some_iff.1 hi.symm
  obtain ⟨hpending, hregistered⟩ := Prod.mk.inj he
  exact ⟨l, hl, .of_pending hpending.symm hregistered.symm⟩

theorem waits_finishReady (batch : List (Nat × FinalizableEntry)) (report : FinalizerReport) :
    (finishReady batch report h).memory.queues.map (fun q => (q.pending, q.registered)) =
      h.memory.queues.map fun q => (q.pending, q.registered) := by
  rw [memory_finishReady]
  refine doneRunning_induct (P := fun k => k.memory.queues.map _ = h.memory.queues.map _) rfl
    (fun k i object hk => Eq.trans ?_ hk) batch
  rw [memory_finishRunning]
  refine map_modify_of_same (fun q => ?_) _
  rw [FinalizationQueue.pending_finishRunning, FinalizationQueue.registered_finishRunning]

theorem keepsLines_apply (hm : h.memory.Sound) (hr : h.memory.Registered)
    (hop : op.enrollsNone = true) (hrun : op.apply h = .ok h') : KeepsLines id h h' := by
  have hsame (hspares : op.sparesQueues = true) : KeepsLines id h h' :=
    keepsLines_of_pending (congrArg _ (undisturbed_apply hm hspares hrun).queues)
  cases op with
  | completeBackground =>
    obtain ⟨r, hrun⟩ := after_eq_ok.1 hrun
    cases hb : h.background with
    | none =>
      obtain ⟨_, rfl⟩ := completeBackground_of_none hb hrun
      exact keepsLines_of_pending rfl
    | some b =>
      obtain ⟨_, _, _, hc⟩ := completeBackground_eq_ok hm hb hrun
      obtain ⟨_, hs⟩ := Memory.sifted_of_completed hm hc
      exact keepsLines_of_sifted hm hs
  | suppressFinalization object =>
    obtain ⟨r, hrun⟩ := after_eq_ok.1 hrun
    rcases suppressFinalization_eq_ok hrun with ⟨_, rfl⟩ | ⟨q, _, he⟩
    · exact keepsLines_of_pending rfl
    · refine keepsLines_of_queues
        (Memory.getElem?_suppressed (congrArg Memory.queues he)) fun j q hq => ?_
      split
      · exact FinalizationQueue.keeps_suppress (hr.tidy hq) object
      · exact .of_pending rfl rfl
  | takeReady =>
    cases hrun
    refine keepsLines_of_pending ?_
    rw [memory_takeReady, List.map_map]
    rfl
  | finishReady batch report =>
    cases hrun
    exact keepsLines_of_pending (waits_finishReady batch report)
  | allocate | registerForFinalization | collect => cases hop
  | _ => exact hsame rfl

/-! ## Rolls and lines -/

/-- Each roll holds what waits in its logical heap. -/
def EnlistsAll (h : Heap) (rolls : Nat → List Ticket) : Prop :=
  ∀ (i : Nat) l, h.heaps[i]? = some l → l.finalization.Enlists (rolls i)

theorem EnlistsAll.keeps (he : h.EnlistsAll rolls) (hk : KeepsLines f h h') :
    h'.EnlistsAll (keptRolls f h' rolls) := by
  intro i l' hl'
  obtain ⟨l, hl, hline⟩ := hk i l' hl'
  rw [keptRolls, hl']
  exact (he i l hl).keeps hline

theorem EnlistsAll.enrolled (he : h.EnlistsAll rolls)
    (hqueues : h'.memory.queues = h.memory.queues.modify i fun q =>
      if q.isRegistered a then q else q.register a g) :
    h'.EnlistsAll (Heap.enrolled i a g h rolls) := by
  intro j l' hl'
  have hj := congrArg (·[j]?) hqueues
  simp only [memory_queues, Memory.getElem?_modify_queues, hl', Option.map_some, Option.map_map] at hj
  obtain ⟨l, hl, hq⟩ := Option.map_eq_some_iff.1 hj.symm
  have hline := he j l hl
  rw [Heap.enrolled, hl, ← hq]
  simp only [Function.comp_apply]
  by_cases hij : i = j
  · rw [if_pos hij]
    cases hreg : l.finalization.isRegistered a with
    | true => simpa [hij] using hline
    | false => simpa [hij] using hline.register a g
  · simpa [hij] using hline

theorem EnlistsAll.of_queues (he : h.EnlistsAll rolls)
    (hqueues : h'.memory.queues = h.memory.queues) : h'.EnlistsAll rolls := by
  intro i l' hl'
  have hi := congrArg (·[i]?) hqueues
  simp only [memory_queues, hl', Option.map_some] at hi
  obtain ⟨l, hl, hq⟩ := Option.map_eq_some_iff.1 hi.symm
  rw [← hq]
  exact he i l hl

/-- A new object is not registered yet. -/
theorem queues_install {x size : Nat} {target : Generation} {request : AllocRequest}
    (hm : h.memory.Sound) (hr : h.memory.Registered) (hpos : 0 < size)
    (hfresh : h.memory.Fresh i x a size) (hrun : install i request target size a x h = .ok h') :
    h'.memory.queues = if request.finalizable then h.memory.queues.modify i (fun q =>
      if q.isRegistered a then q else q.register a target) else h.memory.queues := by
  obtain ⟨space, _, he⟩ := install_eq_ok hrun
  have hqueues : h'.memory.queues = h.memory.queues.modify i fun q =>
      if request.finalizable then q.register a target else q := congrArg Memory.queues he
  rw [hqueues]
  split
  next hfin =>
    obtain ⟨t, _, ht, _⟩ := hfresh.held
    obtain ⟨q, hq⟩ := exists_queue ht
    refine modify_congr hq ?_
    have hnew : q.isRegistered a = false := by
      refine Bool.eq_false_iff.2 fun hreg => ?_
      obtain ⟨r, hget, _⟩ := hr.owned hq
        (List.mem_append_left _ (FinalizationQueue.isRegistered_iff.1 hreg))
      rw [hfresh.get?_eq_none hm.laid hpos] at hget
      cases hget
    rw [hnew]
    rfl
  next => exact List.modify_id ..

/-- The queues are in the order that the rolls tell. -/
theorem Rolled.enlists (hr : h.Rolled rolls) : h.EnlistsAll rolls := by
  induction hr with
  | start _ hrun =>
    obtain ⟨_, _, _, _, hnew, rfl⟩ := onRange_eq_ok hrun
    intro i l hl
    obtain ⟨l₀, hl₀, rfl⟩ := List.mem_map.1 (List.mem_of_getElem? hl)
    refine FinalizationQueue.enlists_empty ?_
    rw [show _ = l₀.finalization from rfl, (logicalHeap_ofConfig (hnew l₀ hl₀)).2.2.1]
    rfl
  | collected hr _ hmoved ih =>
    obtain ⟨_, _, hs⟩ := Memory.sifted_of_collected hr.sound.1 hmoved
    exact ih.keeps (keepsLines_of_sifted hr.sound.1 hs)
  | installed hr hsize hfresh hrun ih =>
    have hmin : Object.minBytes ≤ _ := (AllocRequest.le_of_effectiveSize? hsize).1
    have hqueues := queues_install hr.sound.1 hr.sound.2 (Nat.lt_of_lt_of_le (by decide) hmin)
      hfresh hrun
    split
    next hfin => exact ih.enrolled (by rwa [if_pos hfin] at hqueues)
    next hfin => exact ih.of_queues (by rwa [if_neg hfin] at hqueues)
  | failed _ hrun ih => exact ih.of_queues (congrArg Memory.queues (memory_fail hrun).2)
  | registered _ hobject hrun ih =>
    rcases registerForFinalization_eq_ok hrun with ⟨hnone, _⟩ | ⟨r, hr, he⟩
    · cases hobject.symm.trans hnone
    · cases hobject.symm.trans hr
      exact ih.enrolled (congrArg Memory.queues he)
  | refused _ hobject hrun ih =>
    rcases registerForFinalization_eq_ok hrun with ⟨_, rfl⟩ | ⟨r, hr, _⟩
    · exact ih
    · cases hobject.symm.trans hr
  | stayed op hr hop hrun ih =>
    exact ih.keeps (keepsLines_apply hr.sound.1 hr.sound.2 hop hrun)

/-- Every heap there can be has rolls. -/
theorem Reachable.exists_rolled (hr : h.Reachable) : ∃ rolls, h.Rolled rolls := by
  refine hr.parts_induct (I := fun h => ∃ rolls, h.Rolled rolls)
    (fun hpos hrun => ⟨_, .start hpos hrun⟩) ?_ ?_ ?_
  · rintro op k k' hnew hk ⟨rolls, hrolled⟩ hrun
    cases op with
    | allocate i request => exact absurd rfl (hnew i request)
    | collect generation reason =>
      obtain ⟨r, hrun⟩ := after_eq_ok.1 hrun
      obtain ⟨summary, f, rfl, hmoved⟩ := collect_eq_ok hk.sound hrun
      exact ⟨_, hrolled.collected hrun hmoved⟩
    | registerForFinalization object =>
      obtain ⟨r, hrun⟩ := after_eq_ok.1 hrun
      cases hobject : k.space.get? object with
      | none => exact ⟨_, hrolled.refused hobject hrun⟩
      | some r => exact ⟨_, hrolled.registered hobject hrun⟩
    | _ => exact ⟨_, hrolled.stayed _ rfl hrun⟩
  · rintro request i size a x target k k' _ ⟨rolls, hrolled⟩ hsize hfresh hrun
    exact ⟨_, hrolled.installed hsize hfresh hrun⟩
  · rintro α reason i size target k k' y ⟨rolls, hrolled⟩ hrun
    exact ⟨_, hrolled.failed hrun⟩

/-! ## The order of registration -/

/-- What a collection makes ready in a logical heap follows what is ready there, bucket by bucket, each in
its order. -/
theorem ready_collect (hm : h.memory.Sound) {generation : Generation} {reason : CollectionReason}
    {answer : Except HeapError CollectionSummary}
    (hrun : collect generation reason h = .ok (answer, h')) : ∃ (f : Nat → Nat) (dead : Nat → Bool),
      (∀ a, dead a = true ↔ ¬ h.memory.Live (h.condemnedOf generation) a) ∧
      ∀ (i : Nat) l l', h.heaps[i]? = some l → h'.heaps[i]? = some l' →
        l'.finalization.ready.map (·.object) = (l.finalization.ready.map (·.object) ++
          (Generation.all.filter (·.condemnedBy (h.condemnedOf generation))).flatMap fun g =>
            (l.finalization.bucket g).filter dead).map f := by
  obtain ⟨_, f, _, hc⟩ := collect_eq_ok hm hrun
  obtain ⟨live, hlive, hqueues⟩ := hc.queues
  refine ⟨f, fun a => !live a, fun a => ?_, fun i l l' hl hl' => ?_⟩
  · rw [← hlive, Bool.not_eq_true', Bool.not_eq_true]
  · have hi := congrArg (·[i]?) hqueues
    simp only [List.getElem?_map, memory_queues, hl, hl', Option.map_some, Option.some.injEq] at hi
    have hdead : (l.finalization.unreachable (h.condemnedOf generation) live).map (·.object) =
        (Generation.all.filter (·.condemnedBy (h.condemnedOf generation))).flatMap fun g =>
          (l.finalization.bucket g).filter fun a => !live a := by
      simp only [FinalizationQueue.unreachable, FinalizationQueue.bucket, List.map_flatMap,
        List.filter_map]
      rfl
    have hready : l'.finalization.ready = (l.finalization.ready ++
        l.finalization.unreachable (h.condemnedOf generation) live).map fun e =>
          { e with object := f e.object } := congrArg FinalizationQueue.ready hi
    rw [hready, ← hdead]
    simp only [List.map_append, List.map_map]
    rfl

/-- Finalizers wait in the order of registration but for those that overtook others. Each logical heap
has a roll of what waits there, numbered in the order of registration; of two in one bucket, the
earlier one stands in front unless the later one was registered while it waited in a bucket behind,
in a younger generation. So a bucket is in the order of registration if and only if none in it has
overtaken another one in it. A collection makes what it finds dead ready in the order of its bucket. -/
theorem registration_order (hr : h.Reachable) : (∃ rolls, h.Rolled rolls) ∧
    ∀ rolls, h.Rolled rolls → ∀ (i : Nat) l, h.heaps[i]? = some l →
      ((rolls i).map (·.object)).Perm l.finalization.waiting ∧
      (rolls i).Pairwise (fun t u => t.number < u.number) ∧
      (∀ g, (l.finalization.bucket g).Sublist ((rolls i).map (·.object)) ↔
        ∀ t ∈ rolls i, ∀ u ∈ rolls i, t.number < u.number → t.object ∈ l.finalization.bucket g →
          u.object ∈ l.finalization.bucket g → t.number ∉ u.overtook) ∧
      (∀ g, ∀ t ∈ rolls i, ∀ u ∈ rolls i, t.number < u.number →
        t.object ∈ l.finalization.bucket g → u.object ∈ l.finalization.bucket g →
          ([t.object, u.object].Sublist (l.finalization.bucket g) ↔ t.number ∉ u.overtook)) ∧
      ∀ generation reason answer h' l', collect generation reason h = .ok (answer, h') →
        h'.heaps[i]? = some l' → ∃ (f : Nat → Nat) (dead : Nat → Bool),
          (∀ a, dead a = true ↔ ¬ h.memory.Live (h.condemnedOf generation) a) ∧
          l'.finalization.ready.map (·.object) = (l.finalization.ready.map (·.object) ++
            (Generation.all.filter (·.condemnedBy (h.condemnedOf generation))).flatMap fun g =>
              (l.finalization.bucket g).filter dead).map f := by
  refine ⟨hr.exists_rolled, fun rolls hrolled i l hl => ?_⟩
  have hline := hrolled.enlists i l hl
  have htidy := hr.registered.tidy (List.mem_map_of_mem (List.mem_of_getElem? hl))
  refine ⟨hline.objects.trans FinalizationQueue.perm_line, hline.numbers,
    hline.bucket_sublist_iff htidy.nodup_line, ?_, ?_⟩
  · intro g t ht u hu hlt htg hug
    exact hline.bucket_order htidy.nodup_line ht hu hlt htg hug
  · intro generation reason answer h' l' hrun hl'
    obtain ⟨f, dead, hdead, hready⟩ := ready_collect hr.sound hrun
    exact ⟨f, dead, hdead, hready i l l' hl hl'⟩

/-- An object is registered in an older generation while another one waits in a younger one. When they
meet, the later one is in front. -/
theorem registration_order_met : ∃ (h : Heap) (rolls : Nat → List Ticket), h.Reachable ∧
    h.Rolled rolls ∧ h.heaps.map (·.finalization.bucket .gen1) = [[4144, 4096]] ∧
    ∃ t ∈ rolls 0, ∃ u ∈ rolls 0, t.object = 4096 ∧ u.object = 4144 ∧
      (t.number < u.number → t.number ∈ u.overtook) := by
  have hpage : leadsTo pageConfig
      [.allocate 0 { size := 48, finalizable := true }, .createHandle .strong 4096,
        .allocate 0 { size := 48, generation := .gen1, finalizable := true },
        .createHandle .strong 4144, .collect .gen0 .induced]
      (fun h => h.heaps.map (·.finalization.bucket .gen1) == [[4144, 4096]]) = true := by
    decide +kernel
  obtain ⟨h, hr, hp⟩ := exists_of_leadsTo hpage
  have hbuckets := eq_of_beq hp
  obtain ⟨⟨rolls, hrolled⟩, horder⟩ := registration_order hr
  obtain ⟨l, _, hheaps, hbucket, _⟩ := List.map_eq_cons_iff.1 hbuckets
  have hl : h.heaps[0]? = some l := by rw [hheaps]; rfl
  obtain ⟨hperm, _, _, hpairs, _⟩ := horder rolls hrolled 0 l hl
  have hticket {a : Nat} (ha : a ∈ l.finalization.bucket .gen1) :
      ∃ t ∈ rolls 0, t.object = a := by
    have hwaits := FinalizationQueue.mem_line.1
      ((FinalizationQueue.bucket_sublist_line _ _).subset ha)
    exact List.mem_map.1 (hperm.mem_iff.2 hwaits)
  have hfirst : 4096 ∈ l.finalization.bucket .gen1 := by rw [hbucket]; decide
  have hsecond : 4144 ∈ l.finalization.bucket .gen1 := by rw [hbucket]; decide
  obtain ⟨t, ht, htobject⟩ := hticket hfirst
  obtain ⟨u, hu, huobject⟩ := hticket hsecond
  refine ⟨h, rolls, hr, hrolled, hbuckets, t, ht, u, hu, htobject, huobject, fun hlt => ?_⟩
  have hiff := hpairs .gen1 t ht u hu hlt (htobject ▸ hfirst) (huobject ▸ hsecond)
  rw [htobject, huobject, hbucket] at hiff
  exact Classical.not_not.1 fun hnot => absurd (hiff.2 hnot) (by decide)

/-- Then its finalizer becomes ready first, although it was registered last. -/
theorem registration_overtaken : ∃ h₀ h₁ h₂ h₃ : Heap,
    Heap.ofConfig pageConfig = .ok (.ok h₀) ∧
    h₀.run [.allocate 0 { size := 48, finalizable := true }, .createHandle .strong 4096] =
      .ok h₁ ∧
    h₁.run [.allocate 0 { size := 48, generation := .gen1, finalizable := true },
      .createHandle .strong 4144, .collect .gen0 .induced] = .ok h₂ ∧
    h₂.run [.freeHandle 0, .freeHandle 1, .collect .gen1 .induced] = .ok h₃ ∧
    h₁.heaps.map (·.finalization.waiting) = [[4096]] ∧
    h₂.heaps.map (·.finalization.bucket .gen1) = [[4144, 4096]] ∧
    h₃.takeReady.1.map (·.2.object) = [4144, 4096] := by
  have hpage : leadsTo pageConfig
      [.allocate 0 { size := 48, finalizable := true }, .createHandle .strong 4096]
      (fun h₁ => h₁.heaps.map (·.finalization.waiting) == [[4096]] &&
        (h₁.run [.allocate 0 { size := 48, generation := .gen1, finalizable := true },
          .createHandle .strong 4144, .collect .gen0 .induced]).toOption.any fun h₂ =>
        h₂.heaps.map (·.finalization.bucket .gen1) == [[4144, 4096]] &&
        (h₂.run [.freeHandle 0, .freeHandle 1, .collect .gen1 .induced]).toOption.any fun h₃ =>
        h₃.takeReady.1.map (·.2.object) == [4144, 4096]) = true := by
    decide +kernel
  obtain ⟨h₀, h₁, hstart, hrun₁, hp⟩ := run_of_leadsTo hpage
  rw [Bool.and_eq_true, beq_iff_eq] at hp
  obtain ⟨hwaiting, hp⟩ := hp
  obtain ⟨h₂, hrun₂, hp⟩ := Checked.of_any hp
  rw [Bool.and_eq_true, beq_iff_eq] at hp
  obtain ⟨hbucket, hp⟩ := hp
  obtain ⟨h₃, hrun₃, hp⟩ := Checked.of_any hp
  exact ⟨h₀, h₁, h₂, h₃, hstart, hrun₁, hrun₂, hrun₃, hwaiting, hbucket, eq_of_beq hp⟩

end Heap

end GenHeap
