import GenHeap.Proofs.Heap.Registrations

/-!
What each operation of a heap does to the registrations for finalization. They wait until they are
suppressed or a collection does not reach their objects from the roots, and are then ready until all
ready ones are taken.
-/

namespace GenHeap

open Memory (Evolves Registered Revives Sifted Undisturbed)

/-! ## One operation -/

namespace Operation

/-- Whether an operation may collect. -/
def collects : Operation → Bool
  | allocate .. | collect .. | completeBackground => true
  | _ => false

/-- Whether an operation that has led from `h` to `h'` asked for a registration: of an object in
its heap, or of the object that it made. -/
def registers (h h' : Heap) : Operation → Registration → Prop
  | registerForFinalization object, x =>
    x.object = object ∧ ∃ r, h.space.get? object = some r ∧ r.heap = x.heap
  | allocate heap request, x => x.heap = heap ∧ request.finalizable = true ∧
    Heap.allocate heap request h = .ok (.ok x.object, h')
  | _, _ => False

/-- Whether an operation leaves all queues as they are. -/
def sparesQueues : Operation → Bool
  | allocate .. | registerForFinalization .. | suppressFinalization .. | takeReady | finishReady ..
  | collect .. | completeBackground => false
  | _ => true

/-- The entries that an operation hands out, with their heaps. -/
def delivers (h : Heap) : Operation → List (Nat × FinalizableEntry)
  | takeReady => h.takeReady.1
  | _ => []

end Operation

/-- What an operation from `h` to `h'` may do to a registration whose object it moves by `f`. -/
inductive Registration.Step (op : Operation) (h h' : Heap) (f : Nat → Nat) (x : Registration) :
    Registration → Prop
  /-- A ready one stays unless all such are taken, a waiting one unless it is suppressed. -/
  | stay (hready : x.stage = .ready → op ≠ .takeReady)
      (hpending : x.stage = .pending → op ≠ .suppressFinalization x.object) :
      Step op h h' f x ⟨x.heap, f x.object, x.stage⟩
  /-- A collection did not reach the object of a waiting one from the roots. -/
  | revive (hstage : x.stage = .pending) (hcollected : h.collections < h'.collections)
      (hdead : ¬ h.InUse x.object) :
      Step op h h' f x ⟨x.heap, f x.object, .ready⟩
  | deliver (hstage : x.stage = .ready) (hop : op = .takeReady) :
      Step op h h' f x ⟨x.heap, f x.object, .delivered⟩
  | suppress (hstage : x.stage = .pending) (hop : op = .suppressFinalization x.object) :
      Step op h h' f x ⟨x.heap, f x.object, .suppressed⟩

theorem Registration.Step.delivered_iff {op : Operation} {h h' : Heap} {f : Nat → Nat}
    {x y : Registration} (hstep : x.Step op h h' f y) :
    y.stage = .delivered ↔ x.stage = .delivered ∨ op = .takeReady ∧ x.stage = .ready := by
  cases hstep with
  | stay hready =>
    refine ⟨.inl, ?_⟩
    rintro (hs | ⟨hop, hs⟩)
    · exact hs
    · exact absurd hop (hready hs)
  | revive hs => simp [hs]
  | deliver hs hop => simp [hs, hop]
  | suppress hs => simp [hs]

namespace Heap

variable {h h' h₁ : Heap} {op : Operation} {f : Nat → Nat} {g : Nat → Stage → Stage}
  {new : List Registration}

theorem inUse_iff {a : Nat} : h.InUse a ↔ h.memory.InUse a :=
  Worklist.reached_congr fun _ _ => mem_roots

/-- The objects with entries that are still to be delivered are kept, at the addresses that `f`
gives. Only collections move them, with all their references. -/
structure Retains (op : Operation) (f : Nat → Nat) (h h' : Heap) : Prop where
  kept : ∀ {x}, h.memory.Lists x → ∃ r q, h.space.get? x.object = some r ∧
    h'.space.get? (f x.object) = some q ∧ r.SameShape q ∧
    (op.collects = true → q.slots = r.slots.map f)
  injective : ∀ {x y}, h.memory.Lists x → h.memory.Lists y → f x.object = f y.object →
    x.object = y.object
  unmoved : op.collects = false → f = id

/-- What an operation does to the registrations: those before it turn by `f` and `g`, and then there
may be a new one. -/
structure Advances (op : Operation) (f : Nat → Nat) (g : Nat → Stage → Stage)
    (new : List Registration) (h h' : Heap) : Prop extends Retains op f h h' where
  steps : ∀ {x}, h.memory.Lists x → x.Step op h h' f (x.turn f g)
  turned : ∃ m, Evolves f g h.memory m ∧ (∀ {y}, h'.memory.Lists y ↔ m.Lists y ∨ y ∈ new) ∧
    ∀ y ∈ new, ¬ m.Lists y
  made : ∀ y ∈ new, y.stage = .pending ∧ op.registers h h' y
  accepted : ∀ {y}, op.registers h h' y → y.stage = .pending → h'.memory.Lists y
  once : new.length ≤ 1

/-- Where nothing new is registered. -/
theorem Retains.advances (hr : Retains op f h h') (hs : Evolves f g h.memory h'.memory)
    (hsteps : ∀ {x}, h.memory.Lists x → x.Step op h h' f (x.turn f g))
    (haccepted : ∀ {y}, op.registers h h' y → y.stage = .pending → h'.memory.Lists y) :
    Advances op f g [] h h' where
  toRetains := hr
  steps := hsteps
  turned := ⟨_, hs, by simp, by simp⟩
  made := by simp
  accepted := haccepted
  once := by simp

/-- Where one registration is new. -/
theorem Retains.advances_new {m : Memory} {x : Registration} (hr : Retains op f h h')
    (hs : Evolves f g h.memory m) (hsteps : ∀ {y}, h.memory.Lists y → y.Step op h h' f (y.turn f g))
    (hlists : ∀ {y}, h'.memory.Lists y ↔ m.Lists y ∨ y = x) (hnew : ¬ m.Lists x)
    (hmade : x.stage = .pending ∧ op.registers h h' x)
    (hasked : ∀ {y}, op.registers h h' y → y.stage = .pending → y = x) :
    Advances op f g [x] h h' where
  toRetains := hr
  steps := hsteps
  turned := by
    refine ⟨m, hs, ?_, ?_⟩
    · intro y
      rw [List.mem_singleton]
      exact hlists
    · intro y hy
      rw [List.mem_singleton.1 hy]
      exact hnew
  made y hy := by
    rw [List.mem_singleton.1 hy]
    exact hmade
  accepted hy hstage := hlists.2 (.inr (hasked hy hstage))
  once := Nat.le_refl _

/-! ### Collections -/

theorem same_startBackground {x : Except HeapError Bool}
    (hrun : startBackground h = .ok (x, h')) : h'.memory.space = h.memory.space ∧
      h'.memory.handles = h.memory.handles ∧ h'.memory.queues = h.memory.queues ∧
      h'.memory.collections = h.memory.collections ∧ h'.memory.tables = h.memory.tables := by
  obtain ⟨-, rfl⟩ | ⟨-, -, rfl⟩ := startBackground_cases hrun
  · exact ⟨rfl, rfl, rfl, rfl, rfl⟩
  · rw [memory_beginCycle]
    exact ⟨rfl, rfl, rfl, rfl, rfl⟩

/-- The operations that an allocation is made of. -/
theorem revives_apply (hm : h.memory.Sound) (hr : h.memory.Registered) (hop : op.prepares = true)
    (hrun : op.apply h = .ok h') :
    h'.memory.Registered ∧ ∃ f g, Revives f g h.memory h'.memory := by
  have hsame (hs : h'.memory.space = h.memory.space) (hh : h'.memory.handles = h.memory.handles)
      (hq : h'.memory.queues = h.memory.queues)
      (hn : h'.memory.collections = h.memory.collections) :
      h'.memory.Registered ∧ ∃ f g, Revives f g h.memory h'.memory :=
    ⟨hr.undisturbed (.of_same hq hs), _, _, .of_same hs hh hq hn⟩
  have hsifted {c : Generation} {f : Nat → Nat} {live : Nat → Bool} (hm' : h'.memory.Sound)
      (hs : Sifted c f live h.memory h'.memory) :
      h'.memory.Registered ∧ ∃ f g, Revives f g h.memory h'.memory :=
    ⟨hs.registered hm hr, _, _, hs.revives hm hm'⟩
  cases op with
  | findBlock heap target size =>
    obtain ⟨r, hrun⟩ := after_eq_ok.1 hrun
    obtain ⟨_, _, hfinds, _⟩ := tryPlace_eq_ok hm hrun
    rw [hfinds.rest] at hsame ⊢
    exact hsame rfl rfl rfl rfl
  | collect generation reason =>
    obtain ⟨r, hrun⟩ := after_eq_ok.1 hrun
    obtain ⟨_, _, _, hc⟩ := collect_eq_ok hm hrun
    obtain ⟨_, _, hs⟩ := Memory.sifted_of_collected hm hc
    exact hsifted hc.sound hs
  | startBackground =>
    obtain ⟨r, hrun⟩ := after_eq_ok.1 hrun
    obtain ⟨hs, hh, hq, hn, _⟩ := same_startBackground hrun
    exact hsame hs hh hq hn
  | completeBackground =>
    obtain ⟨r, hrun⟩ := after_eq_ok.1 hrun
    cases hb : h.background with
    | none =>
      obtain ⟨_, rfl⟩ := completeBackground_of_none hb hrun
      exact hsame rfl rfl rfl rfl
    | some b =>
      obtain ⟨_, _, _, hc⟩ := completeBackground_eq_ok hm hb hrun
      obtain ⟨_, hs⟩ := Memory.sifted_of_completed hm hc
      exact hsifted hc.sound hs
  | _ => cases hop

theorem revives_prepares (hm : h.memory.Sound) (hr : h.memory.Registered) (hp : h.Prepares h₁) :
    h₁.memory.Sound ∧ h₁.memory.Registered ∧ ∃ f g, Revives f g h.memory h₁.memory := by
  obtain ⟨ops, hops, hrun⟩ := hp
  refine Checked.foldlM_induct (fun k => k.memory.Sound ∧ k.memory.Registered ∧
    ∃ f g, Revives f g h.memory k.memory) ?_ ⟨hm, hr, id, _, .of_same rfl rfl rfl rfl⟩ hrun
  rintro k op k' hop ⟨hk, hkr, f, g, hs⟩ hstep
  obtain ⟨hkr', f', g', hs'⟩ := revives_apply hk hkr (hops op hop) hstep
  exact ⟨(apply_eq_ok hk hstep).1, hkr', _, _, hs.trans hs'⟩

theorem step_of_revives (hop : op.collects = true) (hs : Revives f g h.memory h₁.memory)
    (hle : h₁.collections ≤ h'.collections) (x : Registration) :
    x.Step op h h' f (x.turn f g) := by
  rcases hs.dead x.object x.stage with hg | ⟨hstage, hg, hlt, hn⟩
  · rw [Registration.turn, hg]
    refine .stay ?_ ?_
    · rintro _ rfl
      cases hop
    · intro _ he
      rw [he] at hop
      cases hop
  · rw [Registration.turn, hg]
    exact .revive hstage (Nat.lt_of_lt_of_le hlt hle) fun ha => hn (inUse_iff.1 ha)

theorem retains_of_revives (hm : h.memory.Sound) (hop : op.collects = true)
    (hs : Revives f g h.memory h₁.memory)
    (hkept : ∀ {b r}, h₁.space.get? b = some r → h'.space.get? b = some r) :
    Retains op f h h' := by
  constructor
  · intro x hx
    obtain ⟨r, q, hr, hq, hshape, hslots⟩ := hs.carries.records (hx.needed hm)
    exact ⟨r, q, hr, hkept hq, hshape, fun _ => hslots⟩
  · intro x y hx hy
    exact hs.carries.injective (hx.needed hm) (hy.needed hm)
  · intro hno
    rw [hop] at hno
    cases hno

/-- A collection by itself registers nothing. -/
theorem advances_of_revives (hm : h.memory.Sound) (hop : op.collects = true)
    (hno : ∀ y, ¬ op.registers h h' y) (hs : Revives f g h.memory h'.memory) :
    Advances op f g [] h h' :=
  (retains_of_revives hm hop hs fun hb => hb).advances hs.evolves
    (fun {x} _ => step_of_revives hop hs (Nat.le_refl _) x) fun hy => absurd hy (hno _)

/-! ### Allocation -/

/-- A new object is registered if the request asks for it. -/
theorem registered_install {i x a size : Nat} {target : Generation} {request : AllocRequest}
    (hm : h.memory.Sound) (hr : h.memory.Registered) (hpos : 0 < size)
    (hf : h.memory.Fresh i x a size) (hrun : install i request target size a x h = .ok h') :
    h'.memory.Registered ∧
    (∀ {b r}, h.space.get? b = some r → h'.space.get? b = some r) ∧
    (request.finalizable = false ∧ h'.memory.queues = h.memory.queues ∨
      request.finalizable = true ∧ ¬ h.memory.Lists ⟨i, a, .pending⟩ ∧
        ∀ {y}, h'.memory.Lists y ↔ h.memory.Lists y ∨ y = ⟨i, a, .pending⟩) := by
  obtain ⟨space, hinsert, he⟩ := install_eq_ok hrun
  have hadds : h.space.Adds a (newRecord i request target size x) space :=
    ⟨hf.get?_eq_none hm.laid hpos, fun b => ObjectSpace.get?_insert hinsert, references_newRecord⟩
  obtain ⟨t, _, ht, _⟩ := hf.held
  obtain ⟨q, hq⟩ := exists_queue ht
  have hold : Registered { h.memory with space } :=
    hr.undisturbed ⟨rfl, fun hb => ⟨_, hadds.old hb, .refl _⟩⟩
  have hnew : ¬ h.memory.Lists ⟨i, a, .pending⟩ := by
    intro hx
    obtain ⟨r, hget, _⟩ := hr.owner hx
    have hfree : h.memory.space.get? a = none := hadds.free
    rw [hfree] at hget
    cases hget
  have hs : h'.space = space := congrArg Memory.space he
  have hqueues : h'.memory.queues = h.memory.queues.modify i fun q =>
      if request.finalizable then q.register a target else q := congrArg Memory.queues he
  have hkept {b : Nat} {r : Record} (hb : h.space.get? b = some r) :
      h'.space.get? b = some r := by
    rw [hs]
    exact hadds.old hb
  cases hfin : request.finalizable with
  | false =>
    simp only [hfin, Bool.false_eq_true, if_false] at hqueues
    have hsame : h'.memory.queues = h.memory.queues := hqueues.trans (List.modify_id ..)
    exact ⟨hold.undisturbed (.of_same hsame hs), hkept, .inl ⟨rfl, hsame⟩⟩
  | true =>
    simp only [hfin, if_true] at hqueues
    refine ⟨hold.register hadds.self hq ?_ hs hqueues, hkept, .inr ⟨rfl, hnew, ?_⟩⟩
    · intro ha
      exact hnew ⟨q, hq, ha⟩
    · exact Memory.lists_register hq hqueues

theorem advances_allocate {i : Nat} {request : AllocRequest} (hm : h.memory.Sound)
    (hr : h.memory.Registered) (hrun : Operation.apply h (.allocate i request) = .ok h') :
    h'.memory.Registered ∧ ∃ f g new, Advances (.allocate i request) f g new h h' := by
  obtain ⟨answer, hrun⟩ := after_eq_ok.1 hrun
  obtain ⟨h₁, hp, hlast⟩ := prepares_allocate hm hrun
  obtain ⟨hm₁, hr₁, f, g, hs⟩ := revives_prepares hm hr hp
  rcases hlast with ⟨⟨e, rfl⟩, hsame, _⟩ | ⟨target, size, a, x, rfl, hpos, hf, hinstall⟩
  · rw [← hsame] at hr₁ hs
    refine ⟨hr₁, f, g, [], advances_of_revives hm rfl ?_ hs⟩
    rintro y ⟨_, _, hno⟩
    cases hrun.symm.trans hno
  · obtain ⟨hr', hkept, hnew⟩ := registered_install hm₁ hr₁ hpos hf hinstall
    obtain ⟨_, _, he⟩ := install_eq_ok hinstall
    have hle : h₁.collections ≤ h'.collections :=
      Nat.le_of_eq (congrArg Memory.collections he).symm
    have hretains : Retains (.allocate i request) f h h' := retains_of_revives hm rfl hs hkept
    refine ⟨hr', f, g, ?_⟩
    rcases hnew with ⟨hfin, hqueues⟩ | ⟨hfin, hnew, hlists⟩
    · refine ⟨[], hretains.advances (hs.evolves.trans (.of_same hqueues))
        (fun {y} _ => step_of_revives rfl hs hle y) ?_⟩
      rintro y ⟨_, hyes, _⟩
      cases hfin.symm.trans hyes
    · refine ⟨_, hretains.advances_new hs.evolves (fun {y} _ => step_of_revives rfl hs hle y) hlists
        hnew ⟨rfl, rfl, hfin, hrun⟩ ?_⟩
      rintro ⟨j, b, s⟩ ⟨rfl, _, hsame⟩ rfl
      cases hrun.symm.trans hsame
      rfl

/-! ### The embedder -/

theorem retains_of_shape (hr : h.memory.Registered) (hop : op.collects = false)
    (hshape : ∀ {a r}, h.space.get? a = some r → ∃ q, h'.space.get? a = some q ∧ r.SameShape q) :
    Retains op id h h' := by
  constructor
  · intro x hx
    obtain ⟨r, hget, _⟩ := hr.owner hx
    obtain ⟨q, hq, hs⟩ := hshape hget
    refine ⟨r, q, hget, hq, hs, fun hyes => ?_⟩
    rw [hop] at hyes
    cases hyes
  · exact fun _ _ he => he
  · exact fun _ => rfl

theorem advances_of_undisturbed (hr : h.memory.Registered) (hop : op.collects = false)
    (hu : Undisturbed h.memory h'.memory) (hready : op ≠ .takeReady)
    (hpending : ∀ {x}, h.memory.Lists x → op ≠ .suppressFinalization x.object)
    (haccepted : ∀ {y}, op.registers h h' y → y.stage = .pending → h'.memory.Lists y) :
    h'.memory.Registered ∧ ∃ f g new, Advances op f g new h h' :=
  ⟨hr.undisturbed hu, _, _, _, (retains_of_shape hr hop hu.shape).advances (.of_same hu.queues)
    (fun hx => .stay (fun _ => hready) fun _ => hpending hx) haccepted⟩

theorem advances_suppress {object : Nat} (hr : h.memory.Registered)
    (hrun : Operation.apply h (.suppressFinalization object) = .ok h') :
    h'.memory.Registered ∧ ∃ f g new, Advances (.suppressFinalization object) f g new h h' := by
  obtain ⟨answer, hrun⟩ := after_eq_ok.1 hrun
  rcases suppressFinalization_eq_ok hrun with ⟨hnone, rfl⟩ | ⟨q, hq, he⟩
  · refine advances_of_undisturbed hr rfl (.of_same rfl rfl) nofun ?_ nofun
    rintro x hx ⟨rfl⟩
    obtain ⟨r, hget, _⟩ := hr.owner hx
    cases hnone.symm.trans hget
  · have hflag : Undisturbed h.memory { h.memory with
        space := h.space.update object fun r => { r with finalizable := false } } :=
      .update rfl rfl fun _ => ⟨rfl, rfl, rfl, rfl⟩
    have hshape {a : Nat} {r : Record} (hget : h.memory.space.get? a = some r) :
        ∃ q, h'.memory.space.get? a = some q ∧ r.SameShape q := by
      rw [he]
      exact hflag.shape hget
    have hqueues := congrArg Memory.queues he
    refine ⟨hr.suppress hqueues hshape, _, _, _, (retains_of_shape hr rfl hshape).advances
      (Memory.evolves_suppress hr hq hqueues) ?_ nofun⟩
    rintro ⟨i, a, s⟩ _
    unfold Registration.turn Memory.unregistered
    split
    next hcase =>
      obtain ⟨rfl, rfl⟩ := hcase
      exact .suppress rfl rfl
    next hcase =>
      refine .stay (fun _ => nofun) ?_
      rintro rfl ⟨rfl⟩
      exact hcase ⟨rfl, rfl⟩

/-- An object is not registered twice. -/
theorem modify_unless_registered {queues queues' : List FinalizationQueue} {i object : Nat}
    {q : FinalizationQueue} {k : Generation} (hq : queues[i]? = some q)
    (he : queues' = queues.modify i fun x =>
      if x.isRegistered object then x else x.register object k) :
    object ∈ q.waiting ∧ queues' = queues ∨
      object ∉ q.waiting ∧ queues' = queues.modify i (·.register object k) := by
  rw [he]
  cases hreg : q.isRegistered object with
  | true =>
    refine .inl ⟨FinalizationQueue.isRegistered_iff.1 hreg, ?_⟩
    refine (modify_congr hq ?_).trans (List.modify_id ..)
    exact if_pos hreg
  | false =>
    have hno : ¬ q.isRegistered object = true := by
      rw [hreg]
      exact Bool.false_ne_true
    refine .inr ⟨fun ha => hno (FinalizationQueue.isRegistered_iff.2 ha), ?_⟩
    exact modify_congr hq (if_neg hno)

theorem advances_register {object : Nat} (hm : h.memory.Sound) (hr : h.memory.Registered)
    (hrun : Operation.apply h (.registerForFinalization object) = .ok h') :
    h'.memory.Registered ∧ ∃ f g new, Advances (.registerForFinalization object) f g new h h' := by
  obtain ⟨answer, hrun⟩ := after_eq_ok.1 hrun
  rcases registerForFinalization_eq_ok hrun with ⟨hnone, rfl⟩ | ⟨r, hget, he⟩
  · refine advances_of_undisturbed hr rfl (.of_same rfl rfl) nofun (fun _ => nofun) ?_
    rintro y ⟨_, r, hget, _⟩
    cases hnone.symm.trans hget
  · have hflag : Undisturbed h.memory { h.memory with
        space := h.space.update object fun r => { r with finalizable := true } } :=
      .update rfl rfl fun _ => ⟨rfl, rfl, rfl, rfl⟩
    have hspace : h'.memory.space = h.space.update object fun r =>
      { r with finalizable := true } := congrArg Memory.space he
    have hshape {a : Nat} {x : Record} (hget : h.memory.space.get? a = some x) :
        ∃ q, h'.memory.space.get? a = some q ∧ x.SameShape q := by
      rw [hspace]
      exact hflag.shape hget
    have hasked {y : Registration}
        (hy : Operation.registers h h' (.registerForFinalization object) y)
        (hstage : y.stage = .pending) : y = ⟨r.heap, object, .pending⟩ := by
      obtain ⟨i, a, s⟩ := y
      obtain ⟨rfl, x, hx, rfl⟩ := hy
      cases hget.symm.trans hx
      exact congrArg _ hstage
    obtain ⟨_, _, ht, _⟩ := hm.laid.held hget
    obtain ⟨q, hq⟩ := exists_queue ht
    rcases modify_unless_registered hq (congrArg Memory.queues he) with ⟨hold, hsame⟩ | ⟨hnew, hadd⟩
    · refine advances_of_undisturbed hr rfl ⟨hsame, hshape⟩ nofun (fun _ => nofun) ?_
      intro y hy hstage
      rw [hasked hy hstage]
      exact ⟨q, hsame ▸ hq, hold⟩
    · refine ⟨?_, id, fun _ s => s, _, (retains_of_shape hr rfl hshape).advances_new
        (m := h.memory) (.of_same rfl) (fun _ => .stay (fun _ => nofun) fun _ => nofun)
        (Memory.lists_register hq hadd) ?_ ⟨rfl, rfl, r, hget, rfl⟩ hasked⟩
      · obtain ⟨x, hx, hs⟩ := hflag.shape hget
        rw [← hs.heap] at hadd
        exact (hr.undisturbed hflag).register hx (hs.heap.symm ▸ hq) hnew hspace hadd
      · rintro ⟨q', hq', ha⟩
        cases hq.symm.trans hq'
        exact hnew ha

theorem advances_takeReady (hr : h.memory.Registered) :
    h.takeReady.2.memory.Registered ∧
      ∃ f g new, Advances .takeReady f g new h h.takeReady.2 := by
  have hqueues : h.takeReady.2.memory.queues = h.memory.queues.map fun q =>
      (q.takeReady q.readyCount).2 := congrArg Memory.queues memory_takeReady
  have hretains : Retains .takeReady id h h.takeReady.2 :=
    retains_of_shape hr rfl fun {a r} hget => ⟨r, hget, .refl r⟩
  refine ⟨hr.takeReady rfl hqueues, _, _, _,
    hretains.advances (Memory.evolves_takeReady hqueues) ?_ nofun⟩
  rintro ⟨i, a, s⟩ _
  unfold Registration.turn Memory.taken
  split
  next hready => exact .deliver hready rfl
  next hready => exact .stay (fun hs => absurd hs hready) fun _ => nofun

/-- The end of a batch takes nothing away that is still to be delivered. -/
theorem evolves_finishReady (hr : h.memory.Registered) (batch : List (Nat × FinalizableEntry))
    (report : FinalizerReport) : (h.finishReady batch report).memory.Registered ∧
      (h.finishReady batch report).memory.space = h.memory.space ∧
      Evolves id (fun _ s => s) h.memory (h.finishReady batch report).memory := by
  rw [memory_finishReady]
  refine doneRunning_induct (P := fun k => k.memory.Registered ∧ k.memory.space = h.memory.space ∧
    Evolves id (fun _ s => s) h.memory k.memory) ⟨hr, rfl, .of_same rfl⟩ ?_ batch
  rintro k i object ⟨hk, hspace, hevolves⟩
  have hone : (k.modifyHeap i fun l =>
      { l with finalization := l.finalization.finishRunning object }).memory = _ :=
    memory_finishRunning object
  have hqueues := congrArg Memory.queues hone
  have hsame := congrArg Memory.space hone
  exact ⟨hk.finishRunning hsame hqueues, hsame.trans hspace,
    hevolves.trans (Memory.evolves_finishRunning hqueues)⟩

theorem advances_finishReady {batch : List (Nat × FinalizableEntry)} {report : FinalizerReport}
    (hr : h.memory.Registered) : (h.finishReady batch report).memory.Registered ∧
      ∃ f g new, Advances (.finishReady batch report) f g new h (h.finishReady batch report) := by
  obtain ⟨hlast, hspace, hs⟩ := evolves_finishReady hr batch report
  refine ⟨hlast, _, _, _, (retains_of_shape hr rfl fun {a r} hget => ⟨r, ?_, .refl r⟩).advances hs
    (fun _ => .stay (fun _ => nofun) fun _ => nofun) nofun⟩
  show (h.finishReady batch report).memory.space.get? a = some r
  rw [hspace]
  exact hget

theorem undisturbed_writeSlot {object slot target : Nat} {r : Except HeapError Unit}
    (hrun : writeSlot object slot target h = .ok (r, h')) : Undisturbed h.memory h'.memory := by
  rcases writeSlot_eq_ok hrun with rfl | ⟨_, _, _, _, he⟩
  · exact .of_same rfl rfl
  · rw [he]
    exact .update rfl rfl fun _ => ⟨rfl, rfl, rfl, List.length_set ..⟩

theorem same_abortBackground {r : Except HeapError Bool} (hrun : abortBackground h = .ok (r, h')) :
    h'.memory.space = h.memory.space ∧ h'.memory.queues = h.memory.queues ∧
      h'.memory.tables = h.memory.tables := by
  obtain ⟨-, -, rfl⟩ | ⟨-, -, rfl⟩ := abortBackground_cases hrun
  · exact ⟨rfl, rfl, rfl⟩
  · obtain ⟨_, _, _, he⟩ := memory_discardCycle (h := h)
    rw [memory_publish, he]
    exact ⟨rfl, rfl, rfl⟩

/-- An operation that makes no object, collects nothing and does not concern finalization leaves the
queues alone, and all objects in their places. -/
theorem undisturbed_apply (hm : h.memory.Sound) (hop : op.sparesQueues = true)
    (hrun : op.apply h = .ok h') : Undisturbed h.memory h'.memory := by
  cases op with
  | findBlock heap target size =>
    obtain ⟨r, hrun⟩ := after_eq_ok.1 hrun
    obtain ⟨_, _, hfinds, _⟩ := tryPlace_eq_ok hm hrun
    rw [hfinds.rest]
    exact .of_same rfl rfl
  | writeSlot object slot target =>
    obtain ⟨r, hrun⟩ := after_eq_ok.1 hrun
    exact undisturbed_writeSlot hrun
  | createHandle kind target =>
    obtain ⟨r, hrun⟩ := after_eq_ok.1 hrun
    rw [memory_createHandle hrun]
    exact .of_same rfl rfl
  | freeHandle id =>
    obtain ⟨r, hrun⟩ := after_eq_ok.1 hrun
    rw [memory_freeHandle hrun]
    exact .of_same rfl rfl
  | analyze =>
    obtain ⟨r, hrun⟩ := after_eq_ok.1 hrun
    rw [memory_analyze hrun]
    exact .of_same rfl rfl
  | startBackground =>
    obtain ⟨r, hrun⟩ := after_eq_ok.1 hrun
    obtain ⟨hs, _, hq, _⟩ := same_startBackground hrun
    exact .of_same hq hs
  | abortBackground =>
    obtain ⟨r, hrun⟩ := after_eq_ok.1 hrun
    obtain ⟨hs, hq, _⟩ := same_abortBackground hrun
    exact .of_same hq hs
  | traceStep | dirtyCard | limitCommits | failNext | refuseNext | setClock =>
    cases hrun
    exact .of_same rfl rfl
  | _ => cases hop

/-- What one operation does to the registrations. -/
theorem advances_apply (hm : h.memory.Sound) (hr : h.memory.Registered)
    (hrun : op.apply h = .ok h') :
    h'.memory.Registered ∧ ∃ f g new, Advances op f g new h h' := by
  have hrevives (hprepares : op.prepares = true) (hop : op.collects = true)
      (hno : ∀ y, ¬ op.registers h h' y) :
      h'.memory.Registered ∧ ∃ f g new, Advances op f g new h h' := by
    obtain ⟨hr', f, g, hs⟩ := revives_apply hm hr hprepares hrun
    exact ⟨hr', f, g, [], advances_of_revives hm hop hno hs⟩
  have hsame (hop : op.collects = false) (hready : op ≠ .takeReady)
      (hpending : ∀ a, op ≠ .suppressFinalization a) (hno : ∀ y, ¬ op.registers h h' y)
      (hspares : op.sparesQueues = true) :
      h'.memory.Registered ∧ ∃ f g new, Advances op f g new h h' :=
    advances_of_undisturbed hr hop (undisturbed_apply hm hspares hrun) hready (fun _ => hpending _)
      fun hy => absurd hy (hno _)
  cases op with
  | allocate heap request => exact advances_allocate hm hr hrun
  | registerForFinalization object => exact advances_register hm hr hrun
  | suppressFinalization object => exact advances_suppress hr hrun
  | takeReady =>
    cases hrun
    exact advances_takeReady hr
  | finishReady batch report =>
    cases hrun
    exact advances_finishReady hr
  | collect generation reason => exact hrevives rfl rfl fun _ => id
  | completeBackground => exact hrevives rfl rfl fun _ => id
  | _ => exact hsame rfl nofun nofun (fun _ => id) rfl

/-- Queues name objects of their own heap, none twice, in every state. -/
theorem Reachable.registered (hr : h.Reachable) : h.memory.Registered := by
  induction hr with
  | start _ hrun =>
    obtain ⟨_, n, _, hm⟩ := memory_onRange hrun
    rw [hm]
    constructor
    · intro i q a hq ha
      rw [List.eq_of_mem_replicate (List.mem_of_getElem? hq)] at ha
      cases ha
    · intro q hq
      rw [List.eq_of_mem_replicate hq]
      exact FinalizationQueue.tidy_empty
  | step op hr hrun ih => exact (advances_apply hr.sound ih hrun).1

end Heap

end GenHeap
