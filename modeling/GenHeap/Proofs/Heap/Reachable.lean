import GenHeap.Proofs.Config
import GenHeap.Proofs.Heap.Allocate
import GenHeap.Proofs.Heap.StandingCollect

/-!
The states of a heap: what its embedder, its tracer and its provider can do to it, one operation at a
time, from an empty heap on. Every operation keeps the invariant, so it holds in all of them.
-/

namespace GenHeap

open Memory (BornLive Leads)

/-- One step of a heap. `findBlock` is the part of an allocation between two collections. A provider
may start and stop refusing reservations and commits at any time, and a card may be dirtied for no
reason. -/
inductive Operation where
  | allocate (heap : Nat) (request : AllocRequest)
  | findBlock (heap : Nat) (target : Generation) (size : Nat)
  | writeSlot (object slot target : Nat)
  | createHandle (kind : HandleKind) (target : Nat)
  | freeHandle (id : Nat)
  | registerForFinalization (object : Nat)
  | suppressFinalization (object : Nat)
  | takeReady
  | finishReady (batch : List (Nat × FinalizableEntry)) (report : FinalizerReport)
  | analyze
  | collect (generation : Generation) (reason : CollectionReason)
  | startBackground
  | traceStep
  | completeBackground
  | abortBackground
  | dirtyCard (a : Nat)
  | limitCommits (limit : Option Nat)
  | failNext (reserves commits : Nat)
  | refuseNext (reserves commits : Nat)
  | setClock (time : Int)

namespace Heap

/-- The heap after an operation, whatever its answer. -/
def after {α : Type} (t : Transition Heap α) (h : Heap) : Checked Heap := do
  return (← t.apply h).2

def onProvider (f : Provider → Provider) (h : Heap) : Heap := { h with provider := f h.provider }

end Heap

namespace Operation

open Heap (after)

def apply (h : Heap) : Operation → Checked Heap
  | allocate heap request => after (Heap.allocate heap request) h
  | findBlock heap target size => after (Heap.tryPlace heap target size) h
  | writeSlot object slot target => after (Heap.writeSlot object slot target) h
  | createHandle kind target => after (Heap.createHandle kind target) h
  | freeHandle id => after (Heap.freeHandle id) h
  | registerForFinalization object => after (Heap.registerForFinalization object) h
  | suppressFinalization object => after (Heap.suppressFinalization object) h
  | takeReady => .ok h.takeReady.2
  | finishReady batch report => .ok (h.finishReady batch report)
  | analyze => after Heap.analyze h
  | collect generation reason => after (Heap.collect generation reason) h
  | startBackground => after Heap.startBackground h
  | traceStep => .ok h.traceStep
  | completeBackground => after Heap.completeBackground h
  | abortBackground => after Heap.abortBackground h
  | dirtyCard a => .ok { h with cards := h.cards.mark a }
  | limitCommits limit => .ok (h.onProvider fun p => { p with
      space := { p.space with commitLimit := limit } })
  | failNext reserves commits => .ok (h.onProvider fun p => { p with
      space := { p.space with failingReserves := reserves, failingCommits := commits } })
  | refuseNext reserves commits => .ok (h.onProvider fun p =>
      (p.refuse .reserve reserves).refuse .commit commits)
  | setClock time => .ok { h with clock := time }

/-- Whether an operation leaves the cycle in progress as it is, and the set of all objects. -/
def leavesCycle : Operation → Bool
  | allocate .. | collect .. | startBackground | traceStep | completeBackground
  | abortBackground => false
  | _ => true

end Operation

namespace Heap

variable {h h' : Heap} {op : Operation}

/-- The heap after a sequence of operations. -/
def run (h : Heap) (ops : List Operation) : Checked Heap := ops.foldlM Operation.apply h

theorem run_append {h₁ : Heap} {ops ops' : List Operation} (hrun : h.run ops = .ok h₁)
    (hrun' : h₁.run ops' = .ok h') : h.run (ops ++ ops') = .ok h' := by
  rw [Heap.run, List.foldlM_append, Checked.bind_eq_ok]
  exact ⟨h₁, hrun, hrun'⟩

theorem run_singleton : h.run [op] = .ok h' ↔ op.apply h = .ok h' := by
  unfold Heap.run
  rw [List.foldlM_cons, Checked.bind_eq_ok]
  simp only [List.foldlM_nil, Checked.pure_eq_ok, exists_eq_right]

/-- The states that a heap can be in. No address of its provider is zero, which stands for an empty
reference. -/
inductive Reachable : Heap → Prop where
  | start {config : Config} {range : AddressRange} {h : Heap} (hpos : 0 < range.start)
    (hrun : onRange config range = .ok (.ok h)) : Reachable h
  | step {h h' : Heap} (op : Operation) (hr : Reachable h) (hrun : op.apply h = .ok h') :
    Reachable h'

theorem Reachable.run {ops : List Operation} (hr : h.Reachable) (hrun : h.run ops = .ok h') :
    h'.Reachable :=
  Checked.foldlM_induct Reachable (fun _ op _ _ hb hstep => .step op hb hstep) hr hrun

/-- The states of a heap whose provider may also refuse to take memory back. -/
inductive Strained : Heap → Prop where
  | start {config : Config} {range : AddressRange} {h : Heap} (hpos : 0 < range.start)
    (hrun : onRange config range = .ok (.ok h)) : Strained h
  | step {h h' : Heap} (op : Operation) (hs : Strained h) (hrun : op.apply h = .ok h') : Strained h'
  | refuseReturns {h : Heap} (decommits releases : Nat) (hs : Strained h) :
    Strained (h.onProvider fun p => (p.refuse .decommit decommits).refuse .release releases)

theorem Reachable.strained (hr : h.Reachable) : h.Strained := by
  induction hr with
  | start hpos hrun => exact .start hpos hrun
  | step op _ hrun ih => exact ih.step op hrun

theorem validate_of_onRange {config : Config} {range : AddressRange}
    (hrun : onRange config range = .ok (.ok h)) : config.validate = .ok () := by
  unfold onRange at hrun
  split at hrun
  · cases hrun
  next hvalid => exact hvalid

/-- The memory of a usable configuration does not begin at zero. -/
theorem Reachable.ofConfig {config : Config} (hrun : ofConfig config = .ok (.ok h)) :
    h.Reachable :=
  .start (Config.addressSpaceBase_pos (validate_of_onRange hrun)) hrun

/-- Whether operations on a new heap of a configuration lead to a state with some property. -/
def leadsTo (config : Config) (ops : List Operation) (p : Heap → Bool) : Bool :=
  (Heap.ofConfig config).toOption.any fun start =>
    start.toOption.any fun h => (h.run ops).toOption.any p

theorem run_of_leadsTo {config : Config} {ops : List Operation} {p : Heap → Bool}
    (hp : leadsTo config ops p = true) : ∃ h₀ h : Heap, Heap.ofConfig config = .ok (.ok h₀) ∧
      h₀.run ops = .ok h ∧ p h = true := by
  obtain ⟨start, hstart, hp⟩ := Checked.of_any hp
  cases start with
  | error e => cases hp
  | ok h₀ =>
    obtain ⟨h, hrun, hp⟩ := Checked.of_any hp
    exact ⟨h₀, h, hstart, hrun, hp⟩

theorem exists_of_leadsTo {config : Config} {ops : List Operation} {p : Heap → Bool}
    (hp : leadsTo config ops p = true) : ∃ h : Heap, h.Reachable ∧ p h = true := by
  obtain ⟨h₀, h, hstart, hrun, hp⟩ := run_of_leadsTo hp
  exact ⟨h, (Reachable.ofConfig hstart).run hrun, hp⟩

/-! ## The empty heap -/

/-- A new logical heap has only what its configuration tells. -/
theorem logicalHeap_ofConfig {config : Config} {l : LogicalHeap}
    (hl : LogicalHeap.ofConfig config = .ok l) : l.budgets = .ofConfig config ∧
      l.segments = .ofConfig config ∧ l.finalization = {} ∧ l.counters = {} ∧
      l.savedEphemeral = none := by
  simp only [LogicalHeap.ofConfig, Checked.bind_eq_ok, Checked.pure_eq_ok] at hl
  obtain ⟨_, _, _, _, rfl⟩ := hl
  exact ⟨rfl, rfl, rfl, rfl, rfl⟩

/-- A new heap has new logical heaps, and nothing else. -/
theorem onRange_eq_ok {config : Config} {range : AddressRange}
    (hrun : onRange config range = .ok (.ok h)) : ∃ cards heaps,
      CardTable.ofRange range config.cardSize = .ok cards ∧ heaps.length = config.heapCount ∧
      (∀ l ∈ heaps, LogicalHeap.ofConfig config = .ok l) ∧
      h = ({ config, provider := .ofRange range, cards, writeWatch := cards, heaps } : Heap).publish := by
  unfold onRange at hrun
  split at hrun
  · cases hrun
  · simp only [Checked.bind_eq_ok, Checked.pure_eq_ok, Except.ok.injEq] at hrun
    obtain ⟨cards, hcards, heaps, hheaps, rfl⟩ := hrun
    refine ⟨cards, heaps, hcards, ?_, fun l hl => ?_, rfl⟩
    · rw [Checked.mapM_length hheaps, List.length_range]
    · obtain ⟨j, hj⟩ := List.mem_iff_getElem?.1 hl
      rcases Checked.mapM_getElem? hheaps j with ⟨_, hnone⟩ | ⟨_, l', _, hl', hone⟩
      · rw [hnone] at hj
        cases hj
      · cases hl'.symm.trans hj
        exact hone

theorem memory_onRange {config : Config} {range : AddressRange}
    (hrun : onRange config range = .ok (.ok h)) : ∃ cards n,
      CardTable.ofRange range config.cardSize = .ok cards ∧ h.memory = {
        provider := .ofRange range, tables := List.replicate n (.ofConfig config), space := {}
        handles := {}, queues := List.replicate n {}, cards, writeWatch := cards
        watching := false, background := none, collections := 0 } := by
  obtain ⟨cards, heaps, hcards, hlen, hnew, rfl⟩ := onRange_eq_ok hrun
  refine ⟨cards, config.heapCount, hcards, (memory_publish _).trans ?_⟩
  have hmap {α : Type} (g : LogicalHeap → α) {a : α} (hg : ∀ l ∈ heaps, g l = a) :
      heaps.map g = List.replicate config.heapCount a := by
    rw [List.map_eq_replicate_iff.2 hg, hlen]
  have htables := hmap (·.segments) fun l hl => (logicalHeap_ofConfig (hnew l hl)).2.1
  have hqueues := hmap (·.finalization) fun l hl => (logicalHeap_ofConfig (hnew l hl)).2.2.1
  simp only [memory, htables, hqueues]

theorem sound_onRange {config : Config} {range : AddressRange} (hpos : 0 < range.start)
    (hrun : onRange config range = .ok (.ok h)) : h.memory.Sound := by
  obtain ⟨cards, n, hcards, hm⟩ := memory_onRange hrun
  obtain ⟨hbase, hcovered, hsize⟩ := CardTable.ofRange_eq_ok hcards
  rw [hm]
  have hnone {a : Nat} {r : Record} : ({} : ObjectSpace).get? a ≠ some r := by
    rw [ObjectSpace.get?_empty]
    exact nofun
  have hqueue {q : FinalizationQueue} (hq : q ∈ List.replicate n ({} : FinalizationQueue)) :
      q = {} := List.eq_of_mem_replicate hq
  have hshared : (⟨.ofRange range, List.replicate n (.ofConfig config)⟩ : SharedArena) =
      .ofConfigs range (List.replicate n config) := by
    unfold SharedArena.ofConfigs
    rw [List.map_replicate]
  constructor
  · refine ⟨?_, hpos, fun _ _ hr => absurd hr hnone, ?_, fun {i t} ht x s hs => ?_⟩
    · show SharedArena.Housed ⟨_, _⟩ id {}
      rw [hshared]
      exact SharedArena.housed_ofConfigs ..
    · show SharedArena.Balanced ⟨_, _⟩
      rw [hshared]
      exact SharedArena.balanced_ofConfigs ..
    · cases List.eq_of_mem_replicate (List.mem_of_getElem? ht)
      rw [SegmentTable.find?_ofConfig] at hs
      cases hs
  · show SharedArena.SpansUnused ⟨_, _⟩ {}
    rw [hshared]
    exact SharedArena.spansUnused_ofConfigs range _ {}
  · refine ⟨fun o r t hr => absurd hr hnone, fun t ht => absurd ht List.not_mem_nil, ?_⟩
    intro q hq t ht
    rw [hqueue hq] at ht
    cases ht
  · intro q hq g e he
    rw [hqueue hq] at he
    cases g <;> cases he
  · exact ⟨hbase, hcovered, hsize, .refl cards, fun o slot ⟨_, _, _, hr, _⟩ => absurd hr hnone⟩
  · exact nofun

/-! ## Operations -/

theorem after_eq_ok {α : Type} {t : Transition Heap α} :
    after t h = .ok h' ↔ ∃ r, t h = .ok (r, h') :=
  Transition.after_eq_ok

/-- A provider that keeps its books may refuse more or less. -/
theorem stays_onProvider (hm : h.memory.Sound) {f : Provider → Provider}
    (hrange : (f h.provider).space.range = h.provider.space.range)
    (hnext : (f h.provider).space.next = h.provider.space.next)
    (hholes : (f h.provider).space.holes = h.provider.space.holes)
    (hbooks : ∀ {reserved committed}, h.provider.Books reserved committed →
      (f h.provider).Books reserved committed)
    (hdecommits : (f h.provider).refusals.decommit = h.provider.refusals.decommit)
    (hreleases : (f h.provider).refusals.release = h.provider.refusals.release) :
    Memory.Stays h.memory (h.onProvider f).memory := by
  have hserves := hm.laid.serves
  have hlaid : (h.onProvider f).memory.Laid :=
    ⟨⟨⟨hserves.exclusive.of_same hrange hnext hholes, hdecommits.trans hserves.decommits,
      hreleases.trans hserves.releases⟩, hm.laid.wellFormed, hm.laid.apart, hm.laid.held⟩,
      hrange.symm ▸ hm.laid.start_pos, hm.laid.slots_fit, hbooks hm.laid.balanced, hm.laid.lists⟩
  exact hm.stays_rearranged ⟨hlaid, hm.spans, hrange, rfl, rfl⟩

/-- An operation that leaves the cycle alone neither collects nor makes an object. -/
theorem stays_apply (hm : h.memory.Sound) (hop : op.leavesCycle = true)
    (hrun : op.apply h = .ok h') : Memory.Stays h.memory h'.memory := by
  cases op with
  | findBlock heap target size =>
    obtain ⟨r, hrun⟩ := after_eq_ok.1 hrun
    obtain ⟨_, _, hfinds, _⟩ := tryPlace_eq_ok hm hrun
    exact hm.stays_rearranged hfinds
  | writeSlot object slot target =>
    obtain ⟨r, hrun⟩ := after_eq_ok.1 hrun
    exact stays_writeSlot hm hrun
  | createHandle kind target =>
    obtain ⟨r, hrun⟩ := after_eq_ok.1 hrun
    exact stays_createHandle hm hrun
  | freeHandle id =>
    obtain ⟨r, hrun⟩ := after_eq_ok.1 hrun
    exact stays_freeHandle hm hrun
  | registerForFinalization object =>
    obtain ⟨r, hrun⟩ := after_eq_ok.1 hrun
    exact stays_registerForFinalization hm hrun
  | suppressFinalization object =>
    obtain ⟨r, hrun⟩ := after_eq_ok.1 hrun
    exact stays_suppressFinalization hm hrun
  | takeReady =>
    cases hrun
    exact stays_takeReady hm
  | finishReady batch report =>
    cases hrun
    exact stays_finishReady hm batch report
  | analyze =>
    obtain ⟨r, hrun⟩ := after_eq_ok.1 hrun
    exact stays_analyze hm hrun
  | dirtyCard a =>
    cases hrun
    exact ⟨hm.dirtyCard a, rfl, rfl, fun _ => Iff.rfl⟩
  | limitCommits limit =>
    cases hrun
    exact stays_onProvider hm rfl rfl rfl (fun hb => hb.of_same rfl rfl rfl) rfl rfl
  | failNext reserves commits =>
    cases hrun
    exact stays_onProvider hm rfl rfl rfl (fun hb => hb.of_same rfl rfl rfl) rfl rfl
  | refuseNext reserves commits =>
    cases hrun
    exact stays_onProvider hm rfl rfl rfl id rfl rfl
  | setClock time =>
    cases hrun
    exact .refl hm
  | _ => cases hop

/-- What one operation does. Only giving a cycle up does not lead on from it. -/
theorem apply_eq_ok (hm : h.memory.Sound) (hrun : op.apply h = .ok h') :
    h'.memory.Sound ∧ BornLive h.memory h'.memory ∧
      (op ≠ .abortBackground → Leads h.memory h'.memory) := by
  have hnone (hl : Leads h.memory h'.memory) (hb : h'.memory.background = none) :
      h'.memory.Sound ∧ BornLive h.memory h'.memory ∧
        (op ≠ .abortBackground → Leads h.memory h'.memory) :=
    ⟨hl.sound, Memory.Quiet.bornLive (.inl hb), fun _ => hl⟩
  cases op with
  | allocate heap request =>
    obtain ⟨r, hrun⟩ := after_eq_ok.1 hrun
    obtain ⟨hl, hborn⟩ := leads_allocate hm hrun
    exact ⟨hl.sound, hborn, fun _ => hl⟩
  | collect generation reason =>
    obtain ⟨r, hrun⟩ := after_eq_ok.1 hrun
    obtain ⟨_, hb, hl⟩ := leads_collect hm hrun
    exact hnone hl hb
  | startBackground =>
    obtain ⟨r, hrun⟩ := after_eq_ok.1 hrun
    obtain ⟨_, hspace, hl⟩ := leads_startBackground hm hrun
    refine ⟨hl.sound, Memory.Quiet.bornLive (.inr fun a ha => ?_), fun _ => hl⟩
    have ha : h'.space.contains a = true := ha
    rwa [hspace] at ha
  | traceStep =>
    cases hrun
    have hl := leads_traceStep hm
    exact ⟨hl.sound, Memory.Quiet.bornLive (.inr fun _ ha => ha), fun _ => hl⟩
  | completeBackground =>
    obtain ⟨r, hrun⟩ := after_eq_ok.1 hrun
    obtain ⟨_, hb, _, hl⟩ := leads_completeBackground hm hrun
    exact hnone hl hb
  | abortBackground =>
    obtain ⟨r, hrun⟩ := after_eq_ok.1 hrun
    obtain ⟨hsound, hb⟩ := sound_abortBackground hm hrun
    exact ⟨hsound, Memory.Quiet.bornLive (.inl hb), fun hne => absurd rfl hne⟩
  | _ =>
    have hs := stays_apply hm rfl hrun
    exact ⟨hs.sound, hs.quiet.bornLive, fun _ => hs.leads⟩

theorem Reachable.sound (hr : h.Reachable) : h.memory.Sound := by
  induction hr with
  | start hpos hrun => exact sound_onRange hpos hrun
  | step op _ hrun ih => exact (apply_eq_ok ih hrun).1

/-- A run that gives no cycle up leads on, and continues the cycle if it holds no collection. -/
theorem leads_run {ops : List Operation} (hm : h.memory.Sound)
    (hops : ∀ op ∈ ops, op ≠ .abortBackground) (hrun : h.run ops = .ok h') :
    Leads h.memory h'.memory := by
  refine Checked.foldlM_induct (fun k => Leads h.memory k.memory) (fun k op k' hop hk hstep => ?_)
    (.refl hm) hrun
  exact hk.trans ((apply_eq_ok hk.sound hstep).2.2 (hops op hop))

end Heap

/-! ## The parts of an allocation -/

/-- The operations that an allocation can be made of, until it puts the object in its place. -/
def Operation.prepares : Operation → Bool
  | findBlock .. | collect .. | startBackground | completeBackground => true
  | _ => false

namespace Heap

/-- A run of such operations. -/
def Prepares (h h' : Heap) : Prop :=
  ∃ ops : List Operation, (∀ op ∈ ops, op.prepares = true) ∧ h.run ops = .ok h'

variable {h h' h'' : Heap} {i size : Nat} {target : Generation} {op : Operation}

theorem Prepares.refl (h : Heap) : h.Prepares h := ⟨[], fun _ hop => absurd hop List.not_mem_nil, rfl⟩

theorem Prepares.trans (hp : h.Prepares h') (hp' : h'.Prepares h'') : h.Prepares h'' := by
  obtain ⟨ops, hops, hrun⟩ := hp
  obtain ⟨ops', hops', hrun'⟩ := hp'
  refine ⟨ops ++ ops', fun op hop => ?_, run_append hrun hrun'⟩
  rcases List.mem_append.1 hop with hop | hop
  · exact hops op hop
  · exact hops' op hop

theorem Reachable.prepares (hr : h.Reachable) (hp : h.Prepares h') : h'.Reachable := by
  obtain ⟨ops, _, hrun⟩ := hp
  exact hr.run hrun

theorem sound_prepares (hm : h.memory.Sound) (hp : h.Prepares h') : h'.memory.Sound := by
  obtain ⟨ops, _, hrun⟩ := hp
  exact Checked.foldlM_induct (fun k => k.memory.Sound)
    (fun _ _ _ _ hk hstep => (apply_eq_ok hk hstep).1) hm hrun

theorem Prepares.single (hop : op.prepares = true) (hrun : op.apply h = .ok h') : h.Prepares h' := by
  refine ⟨[op], fun x hx => ?_, run_singleton.2 hrun⟩
  cases List.mem_singleton.1 hx
  exact hop

/-- One operation, whatever its answer. -/
theorem prepares_of_run {α : Type} {t : Transition Heap α} {r : Except HeapError α}
    (op : Operation) (hop : op.prepares = true) (happly : op.apply h = after t h)
    (hrun : t h = .ok (r, h')) : h.Prepares h' :=
  .single hop (happly.trans (after_eq_ok.2 ⟨r, hrun⟩))

theorem prepares_requireBudget {y : Except HeapError Unit}
    (hrun : requireBudget i target size h = .ok (y, h')) : h.Prepares h' := by
  have hframe : Frame Prepares := ⟨.refl, .trans⟩
  have hpart {α : Type} {t : Transition Heap α} (op : Operation) (hop : op.prepares = true)
      (happly : ∀ k, op.apply k = after t k) : Steady Prepares t :=
    fun _ _ _ hrun => prepares_of_run op hop (happly _) hrun
  exact steady_requireBudget_of hframe (fun c => hpart (.collect c .allocationBudget) rfl fun _ => rfl)
    (hpart .startBackground rfl fun _ => rfl) (hpart .completeBackground rfl fun _ => rfl) hrun

/-- Looking for a place prepares it, or is prepared and fails then. -/
theorem prepares_placeOrCollect {y : Except HeapError (Nat × Nat)}
    (hrun : placeOrCollect i target size h = .ok (y, h')) : (∃ p, y = .ok p) ∧ h.Prepares h' ∨
      (∃ e, y = .error e) ∧ (h.Prepares h' ∨
        ∃ reason k, h.Prepares k ∧ fail i reason size target k = .ok (y, h')) := by
  have hfind {k k' : Heap} {q : Except HeapError (Except OutOfMemory.Reason (Nat × Nat))}
      (hrun : tryPlace i target size k = .ok (q, k')) : k.Prepares k' :=
    prepares_of_run (.findBlock i target size) rfl rfl hrun
  have hlast {k k' : Heap} {q : Except HeapError CollectionSummary}
      (hrun : collect .gen2 .lastBeforeOutOfMemory k = .ok (q, k')) : k.Prepares k' :=
    prepares_of_run (.collect .gen2 .lastBeforeOutOfMemory) rfl rfl hrun
  rcases placeOrCollect_cases hrun with ⟨p, rfl, hfirst⟩ | ⟨first, k₁, hfirst, hrest⟩
  · exact .inl ⟨⟨p, rfl⟩, hfind hfirst⟩
  · rcases hrest with ⟨e, rfl, hcollect⟩ | ⟨summary, k₂, hcollect, hrest⟩
    · exact .inr ⟨⟨e, rfl⟩, .inl ((hfind hfirst).trans (hlast hcollect))⟩
    · have hp₂ := (hfind hfirst).trans (hlast hcollect)
      rcases hrest with ⟨p, rfl, hsecond⟩ | ⟨reason, k₃, hsecond, hfailed⟩
      · exact .inl ⟨⟨p, rfl⟩, hp₂.trans (hfind hsecond)⟩
      · obtain ⟨⟨e, rfl⟩, _⟩ := memory_fail hfailed
        exact .inr ⟨⟨e, rfl⟩, .inr ⟨reason, k₃, hp₂.trans (hfind hsecond), hfailed⟩⟩

/-- What the parts of an allocation keep holds when it has failed, and else when the object is put in its
place. -/
theorem allocate_induct (I : Heap → Prop) (hm : h.memory.Sound) (hI : I h)
    (hpart : ∀ {op : Operation} {k k' : Heap}, op.prepares = true → h.Prepares k → I k →
      op.apply k = .ok k' → I k')
    (hfail : ∀ {α : Type} {reason : OutOfMemory.Reason} {size : Nat} {target : Generation}
      {k k' : Heap} {y : Except HeapError α}, I k → fail i reason size target k = .ok (y, k') →
      I k')
    {request : AllocRequest} {y : Except HeapError Nat}
    (hrun : allocate i request h = .ok (y, h')) :
    (∃ e, y = .error e) ∧ I h' ∨ ∃ k size a x, y = .ok a ∧ h.Prepares k ∧ I k ∧
      request.effectiveSize? = some size ∧ k.memory.Fresh i x a size ∧
      k.install i request (targetOf h.config request.generation size) size a x = .ok h' := by
  have hprepares {k : Heap} (hp : h.Prepares k) : I k := by
    obtain ⟨ops, hops, hrun⟩ := hp
    have hall := Checked.foldlM_induct (fun k => h.Prepares k ∧ I k) ?_ ⟨.refl h, hI⟩ hrun
    · exact hall.2
    · rintro k op k' hop ⟨hp, hk⟩ hstep
      exact ⟨hp.trans (.single (hops op hop) hstep), hpart (hops op hop) hp hk hstep⟩
  cases allocate_cases hrun with
  | unknown => exact .inl ⟨⟨_, rfl⟩, hI⟩
  | oversized _ _ hfailed => exact .inl ⟨⟨_, rfl⟩, hfail hI hfailed⟩
  | uncollected _ _ hbudget => exact .inl ⟨⟨_, rfl⟩, hprepares (prepares_requireBudget hbudget)⟩
  | unplaced _ _ hbudget hplaced =>
    have hp₁ := prepares_requireBudget hbudget
    refine .inl ⟨⟨_, rfl⟩, ?_⟩
    rcases prepares_placeOrCollect hplaced with ⟨⟨_, he⟩, _⟩ | ⟨_, hp₂ | ⟨reason, k, hp₂, hfailed⟩⟩
    · cases he
    · exact hprepares (hp₁.trans hp₂)
    · exact hfail (hprepares (hp₁.trans hp₂)) hfailed
  | installed _ hsize hbudget hplaced hinstall =>
    have hp₁ := prepares_requireBudget hbudget
    obtain ⟨_, _, hfresh⟩ := leads_placeOrCollect (sound_prepares hm hp₁) hplaced
    rcases prepares_placeOrCollect hplaced with ⟨_, hp₂⟩ | ⟨⟨_, he⟩, _⟩
    · exact .inr ⟨_, _, _, _, rfl, hp₁.trans hp₂, hprepares (hp₁.trans hp₂),
        (Option.filter_eq_some_iff.1 hsize).1, hfresh _ _ rfl, hinstall⟩
    · cases he

/-- An allocation prepares a place for the object and puts it there, or leaves the memory and the
accounts as they are then. So its collections begin in states that a heap can be in. -/
theorem prepares_allocate (hm : h.memory.Sound) {request : AllocRequest} {y : Except HeapError Nat}
    (hrun : allocate i request h = .ok (y, h')) : ∃ h₁, h.Prepares h₁ ∧
      ((∃ e, y = .error e) ∧ h'.memory = h₁.memory ∧ h'.accounts = h₁.accounts ∨
        ∃ target size a x, y = .ok a ∧ 0 < size ∧ h₁.memory.Fresh i x a size ∧
          h₁.install i request target size a x = .ok h') := by
  let Prepared (k : Heap) : Prop :=
    ∃ h₁, h.Prepares h₁ ∧ k.memory = h₁.memory ∧ k.accounts = h₁.accounts
  have hpart {op : Operation} {k k' : Heap} (hop : op.prepares = true) (hp : h.Prepares k)
      (_ : Prepared k) (hstep : op.apply k = .ok k') : Prepared k' :=
    ⟨k', hp.trans (.single hop hstep), rfl, rfl⟩
  have hfail {α : Type} {reason : OutOfMemory.Reason} {size : Nat} {target : Generation}
      {k k' : Heap} {y : Except HeapError α} (hk : Prepared k)
      (hfailed : fail i reason size target k = .ok (y, k')) : Prepared k' := by
    obtain ⟨h₁, hp, hsame, haccounts⟩ := hk
    exact ⟨h₁, hp, (memory_fail hfailed).2.trans hsame, (accounts_fail hfailed).trans haccounts⟩
  rcases allocate_induct Prepared hm ⟨h, .refl h, rfl, rfl⟩ hpart hfail hrun with
    ⟨he, h₁, hp, hsame, haccounts⟩ | ⟨k, size, a, x, rfl, hp, _, heff, hfresh, hinstall⟩
  · exact ⟨h₁, hp, .inl ⟨he, hsame, haccounts⟩⟩
  · have hpos : 0 < size := Nat.lt_of_lt_of_le (by decide) (AllocRequest.le_of_effectiveSize? heff).1
    exact ⟨k, hp, .inr ⟨_, _, _, _, rfl, hpos, hfresh, hinstall⟩⟩

/-- What holds of a new heap and is kept by the operations, an allocation taken apart, holds of all heaps
there can be. -/
theorem Reachable.parts_induct {I : Heap → Prop}
    (hstart : ∀ {config : Config} {range : AddressRange} {k : Heap}, 0 < range.start →
      onRange config range = .ok (.ok k) → I k)
    (hpart : ∀ {op : Operation} {k k' : Heap}, (∀ i request, op ≠ .allocate i request) →
      k.Reachable → I k → op.apply k = .ok k' → I k')
    (hinstall : ∀ {request : AllocRequest} {i size a x : Nat} {target : Generation} {k k' : Heap},
      k.Reachable → I k → request.effectiveSize? = some size → k.memory.Fresh i x a size →
      install i request target size a x k = .ok k' → I k')
    (hfail : ∀ {α : Type} {reason : OutOfMemory.Reason} {i size : Nat} {target : Generation}
      {k k' : Heap} {y : Except HeapError α}, I k → fail i reason size target k = .ok (y, k') →
      I k')
    (hr : h.Reachable) : I h := by
  induction hr with
  | start hpos hrun => exact hstart hpos hrun
  | step op hprev hrun ih =>
    cases op with
    | allocate i request =>
      obtain ⟨y, hrun⟩ := after_eq_ok.1 hrun
      have hparts {op : Operation} {k k' : Heap} (hop : op.prepares = true)
          (hp : Prepares _ k) (hk : I k) (hstep : op.apply k = .ok k') : I k' :=
        hpart (by rintro _ _ rfl; cases hop) (hprev.prepares hp) hk hstep
      rcases allocate_induct I hprev.sound ih hparts hfail hrun with
        ⟨_, hI⟩ | ⟨k, size, a, x, _, hp, hk, hsize, hfresh, hlast⟩
      · exact hI
      · exact hinstall (hprev.prepares hp) hk hsize hfresh hlast
    | _ => exact hpart (by rintro _ _ ⟨⟩) hprev ih hrun

/-- A heap of one page, for examples. -/
def pageConfig : Config where
  addressSpaceBase := 4096
  addressSpaceSize := 65536
  cardSize := 64
  initialSegmentSize := 4096
  maxSegmentSize := 4096
  regionSize := 4096
  commitGranularity := 4096

end Heap

end GenHeap
