import GenHeap.Proofs.Heap.Advances

/-!
What keeps its place. No operation moves an object that is pinned or of the pinned generation, and
the targets of pinned handles and the objects whose finalizers run neither move nor go, whichever
heap they belong to.
-/

namespace GenHeap

open Memory (Culled)

/-- A later record of the same object, as far as that object's place depends on it. -/
structure Record.Anchored (r q : Record) : Prop extends r.SameShape q where
  pinned : q.pinned = r.pinned
  generation : r.generation = .pinned → q.generation = .pinned

namespace Record.Anchored

variable {r q x : Record}

theorem refl (r : Record) : r.Anchored r := ⟨.refl r, rfl, id⟩

theorem trans (h : r.Anchored q) (h' : q.Anchored x) : r.Anchored x :=
  ⟨h.toSameShape.trans h'.toSameShape, h'.pinned.trans h.pinned,
    fun hg => h'.generation (h.generation hg)⟩

theorem of_carried {c : Generation} {f : Nat → Nat} (h : r.Carried c f q) : r.Anchored q := by
  refine ⟨⟨h.size, h.heap, h.segment, ?_⟩, h.pinned, fun hg => ?_⟩
  · rw [h.slots, List.length_map]
  · refine (h.unpromoted ?_).trans hg
    rw [hg]
    rintro ⟨_, h | h⟩ <;> cases h

end Record.Anchored

namespace Memory

/-- The effect of collections, any number of them: the objects `left` are at the addresses given by
`f`, where nothing immovable has moved, and what was held from outside is held still. -/
structure Anchored (f : Nat → Nat) (left : Nat → Prop) (m m' : Memory) : Prop where
  records : ∀ {a}, left a → ∃ r q, m.space.get? a = some r ∧ m'.space.get? (f a) = some q ∧
    r.Anchored q ∧ q.slots = r.slots.map f
  injective : ∀ {a b}, left a → left b → f a = f b → a = b
  sources : ∀ {b}, m'.space.contains b = true → ∃ a, left a ∧ f a = b
  still : ∀ {a}, left a → m.Immovable a → f a = a
  held : ∀ {a}, m.Held a → left a
  pinned : ∀ {a}, a ∈ m.handles.pinnedTargets → a ∈ m'.handles.pinnedTargets
  running : m'.queues.map (·.running) = m.queues.map (·.running)

variable {m m' m'' : Memory} {f f' : Nat → Nat} {left left' : Nat → Prop} {a : Nat}

theorem running_of_map (hq : m'.queues.map (·.running) = m.queues.map (·.running))
    {q : FinalizationQueue} (hmem : q ∈ m.queues) (ha : a ∈ q.running) :
    ∃ x ∈ m'.queues, a ∈ x.running := by
  have hin : q.running ∈ m'.queues.map (·.running) := hq ▸ List.mem_map_of_mem hmem
  obtain ⟨x, hx, he⟩ := List.mem_map.1 hin
  exact ⟨x, hx, he ▸ ha⟩

namespace Anchored

theorem heldAfter (h : Anchored f left m m') (ha : m.Held a) : m'.Held a :=
  ha.carried h.pinned fun _ hq ha => running_of_map h.running hq ha

/-- What does not move in one collection does not in the next. -/
theorem immovable (h : Anchored f left m m') (hl : left a) (ha : m.Immovable a) :
    m'.Immovable a := by
  have hstill := h.still hl ha
  rcases ha with ha | ⟨r, hr, hcase⟩
  · exact .inl (h.heldAfter ha)
  · obtain ⟨r', q, hr', hq, hs, _⟩ := h.records hl
    cases hr.symm.trans hr'
    rw [hstill] at hq
    exact .inr ⟨q, hq, hcase.imp hs.pinned.trans hs.generation⟩

theorem of_same (hs : m'.space = m.space) (hh : m'.handles = m.handles)
    (hq : m'.queues = m.queues) (hm : m.Sound) :
    Anchored id (m.space.contains · = true) m m' := by
  constructor
  · intro a ha
    obtain ⟨r, hr⟩ := ObjectSpace.contains_iff.1 ha
    exact ⟨r, r, hr, hs ▸ hr, .refl r, (List.map_id _).symm⟩
  · intro a b _ _ he
    exact he
  · intro b hb
    exact ⟨b, hs ▸ hb, rfl⟩
  · intro a _ _
    rfl
  · rintro a (ha | ⟨q, hq, ha⟩)
    · obtain ⟨hne, id, hid⟩ := HandleTable.mem_pinnedTargets.1 ha
      exact hm.closed.handles a (HandleTable.mem_targets.2 ⟨hne, id, _, hid⟩)
    · exact hm.closed.roots q hq a (List.mem_append_right _ ha)
  · intro a ha
    exact hh ▸ ha
  · rw [hq]

theorem trans (h : Anchored f left m m') (h' : Anchored f' left' m' m'') :
    Anchored (f' ∘ f) (fun a => left a ∧ left' (f a)) m m'' := by
  constructor
  · intro a ⟨hl, hl'⟩
    obtain ⟨r, q, hr, hq, hs, hslots⟩ := h.records hl
    obtain ⟨q', x, hq', hx, hs', hslots'⟩ := h'.records hl'
    cases hq.symm.trans hq'
    refine ⟨r, x, hr, hx, hs.trans hs', ?_⟩
    rw [hslots', hslots, List.map_map]
  · intro a b ⟨ha, ha'⟩ ⟨hb, hb'⟩ he
    exact h.injective ha hb (h'.injective ha' hb' he)
  · intro b hb
    obtain ⟨c, hc, rfl⟩ := h'.sources hb
    obtain ⟨r, _, hr, _⟩ := h'.records hc
    obtain ⟨a, ha, rfl⟩ := h.sources (ObjectSpace.contains_iff.2 ⟨r, hr⟩)
    exact ⟨a, ⟨ha, hc⟩, rfl⟩
  · intro a ⟨hl, hl'⟩ ha
    have hstill := h.still hl ha
    have hstill' : f' (f a) = f a := by
      rw [hstill] at hl' ⊢
      exact h'.still hl' (h.immovable hl ha)
    exact hstill'.trans hstill
  · intro a ha
    have hl := h.held ha
    refine ⟨hl, ?_⟩
    rw [h.still hl (.inl ha)]
    exact h'.held (h.heldAfter ha)
  · intro a ha
    exact h'.pinned (h.pinned ha)
  · exact h'.running.trans h.running

end Anchored

theorem anchored_of_culled {c : Generation} (h : Culled c f left m m') :
    Anchored f left m m' := by
  constructor
  · intro a ha
    obtain ⟨r, q, hr, hq, hc⟩ := h.records ha
    exact ⟨r, q, hr, hq, .of_carried hc, hc.slots⟩
  · exact h.injective
  · exact h.sources
  · intro a _ ha
    exact h.immovable ha
  · rintro a (ha | ⟨q, hq, ha⟩)
    · obtain ⟨hne, id, hid⟩ := HandleTable.mem_pinnedTargets.1 ha
      exact h.roots (.inl (HandleTable.mem_roots.2 ⟨hne, id, _, hid, nofun⟩))
    · exact h.roots (.inr ⟨q, hq, List.mem_append_right _ ha⟩)
  · intro a ha
    obtain ⟨found, _, hhandles⟩ := h.handles
    have hstill := h.immovable (.inl (.inl ha))
    obtain ⟨hne, id, hid⟩ := HandleTable.mem_pinnedTargets.1 ha
    refine HandleTable.mem_pinnedTargets.2 ⟨hne, id, ?_⟩
    rw [hhandles, HandleTable.find?_relocate, HandleTable.find?_clearDeadWeak_of_ne hid nofun,
      Option.map_some, hstill]
  · obtain ⟨live, hqueues⟩ := h.queues
    rw [hqueues, List.map_map]
    apply List.map_congr_left
    intro q hq
    show q.running.map f = q.running
    refine (List.map_congr_left fun a ha => ?_).trans (List.map_id _)
    exact h.immovable (.inl (.inr ⟨q, hq, ha⟩))

end Memory

/-! ## Operations -/

namespace Operation

/-- Whether an operation changes what counts as running. -/
def finalizes : Operation → Bool
  | takeReady | finishReady .. => true
  | _ => false

/-- Whether an operation that has led from `h` to `h'` made the object with a record at an address,
pinned if that was asked for. -/
def Makes (h h' : Heap) (op : Operation) (a : Nat) (r : Record) : Prop :=
  ∃ i request, op = allocate i request ∧ Heap.allocate i request h = .ok (.ok a, h') ∧
    (request.pinned = true → r.pinned = true)

end Operation

namespace Heap

variable {h h' h₁ : Heap} {op : Operation} {f : Nat → Nat} {left : Nat → Prop}

/-- What an operation does to objects: those `left` are at the addresses given by `f`, and the others
are gone. Only collections move or remove any, or the operation makes one. -/
structure Anchors (op : Operation) (f : Nat → Nat) (left : Nat → Prop) (h h' : Heap) : Prop where
  records : ∀ {a}, left a → ∃ r q, h.space.get? a = some r ∧ h'.space.get? (f a) = some q ∧
    r.Anchored q ∧ (op.collects = true → q.slots = r.slots.map f)
  injective : ∀ {a b}, left a → left b → f a = f b → a = b
  sources : ∀ {b q}, h'.space.get? b = some q → (∃ a, left a ∧ f a = b) ∨ op.Makes h h' b q
  unmoved : op.collects = false → f = id ∧ ∀ a, h.space.contains a = true → left a
  still : ∀ {a}, left a → h.memory.Immovable a → f a = a
  held : ∀ {a}, h.memory.Held a → left a
  running : op.finalizes = false →
    h'.memory.queues.map (·.running) = h.memory.queues.map (·.running)

theorem anchored_apply (hm : h.memory.Sound) (hop : op.prepares = true) (hrun : op.apply h = .ok h') :
    ∃ f left, Memory.Anchored f left h.memory h'.memory := by
  cases op with
  | findBlock heap target size =>
    obtain ⟨r, hrun⟩ := after_eq_ok.1 hrun
    obtain ⟨_, _, hfinds, _⟩ := tryPlace_eq_ok hm hrun
    rw [hfinds.rest]
    exact ⟨_, _, .of_same rfl rfl rfl hm⟩
  | collect generation reason =>
    obtain ⟨r, hrun⟩ := after_eq_ok.1 hrun
    obtain ⟨_, _, _, hc⟩ := collect_eq_ok hm hrun
    exact ⟨_, _, Memory.anchored_of_culled (Memory.culled_of_collected hm hc)⟩
  | startBackground =>
    obtain ⟨r, hrun⟩ := after_eq_ok.1 hrun
    obtain ⟨hs, hh, hq, _⟩ := same_startBackground hrun
    exact ⟨_, _, .of_same hs hh hq hm⟩
  | completeBackground =>
    obtain ⟨r, hrun⟩ := after_eq_ok.1 hrun
    cases hb : h.background with
    | none =>
      obtain ⟨_, rfl⟩ := completeBackground_of_none hb hrun
      exact ⟨_, _, .of_same rfl rfl rfl hm⟩
    | some b =>
      obtain ⟨_, _, _, hc⟩ := completeBackground_eq_ok hm hb hrun
      exact ⟨_, _, Memory.anchored_of_culled (Memory.culled_of_completed hm hc)⟩
  | _ => cases hop

theorem anchored_prepares (hm : h.memory.Sound) (hp : h.Prepares h₁) :
    ∃ f left, Memory.Anchored f left h.memory h₁.memory := by
  obtain ⟨ops, hops, hrun⟩ := hp
  have hall := Checked.foldlM_induct (fun k => k.memory.Sound ∧
    ∃ f left, Memory.Anchored f left h.memory k.memory) ?_
    ⟨hm, _, _, .of_same rfl rfl rfl hm⟩ hrun
  · exact hall.2
  · intro k op k' hop ⟨hk, f, left, ha⟩ hstep
    obtain ⟨f', left', ha'⟩ := anchored_apply hk (hops op hop) hstep
    exact ⟨(apply_eq_ok hk hstep).1, _, _, ha.trans ha'⟩

/-- A collection that may have made an object after all. -/
theorem anchors_of_anchored (hop : op.collects = true)
    (ha : Memory.Anchored f left h.memory h₁.memory)
    (hkept : ∀ {b r}, h₁.space.get? b = some r → h'.space.get? b = some r)
    (hnew : ∀ {b q}, h'.space.get? b = some q → h₁.space.contains b = true ∨ op.Makes h h' b q)
    (hrunning : h'.memory.queues.map (·.running) = h₁.memory.queues.map (·.running)) :
    Anchors op f left h h' := by
  constructor
  · intro a hl
    obtain ⟨r, q, hr, hq, hs, hslots⟩ := ha.records hl
    exact ⟨r, q, hr, hkept hq, hs, fun _ => hslots⟩
  · exact ha.injective
  · intro b q hq
    exact (hnew hq).imp_left ha.sources
  · intro hno
    rw [hop] at hno
    cases hno
  · exact ha.still
  · exact ha.held
  · intro _
    exact hrunning.trans ha.running

theorem anchors_allocate {i : Nat} {request : AllocRequest} (hm : h.memory.Sound)
    (hrun : Operation.apply h (.allocate i request) = .ok h') :
    ∃ f left, Anchors (.allocate i request) f left h h' := by
  obtain ⟨answer, hrun⟩ := after_eq_ok.1 hrun
  obtain ⟨h₁, hp, hlast⟩ := prepares_allocate hm hrun
  obtain ⟨f, left, ha⟩ := anchored_prepares hm hp
  refine ⟨f, left, ?_⟩
  rcases hlast with ⟨_, hsame, _⟩ | ⟨target, size, a, x, rfl, hpos, hf, hinstall⟩
  · rw [← hsame] at ha
    exact anchors_of_anchored rfl ha id (fun hq => .inl (ObjectSpace.contains_iff.2 ⟨_, hq⟩)) rfl
  · obtain ⟨space, hadds, he⟩ := adds_install (sound_prepares hm hp).laid hf hpos hinstall
    have hs : h'.space = space := congrArg Memory.space he
    apply anchors_of_anchored rfl ha
    · intro b r hb
      exact hs ▸ hadds.old hb
    · intro b q hq
      rw [hs, hadds.get?] at hq
      split at hq
      next hab =>
        subst hab
        cases hq
        refine .inr ⟨i, request, rfl, hrun, fun hpinned => ?_⟩
        simp [newRecord, hpinned]
      next => exact .inl (ObjectSpace.contains_iff.2 ⟨q, hq⟩)
    · have hq : h'.memory.queues = _ := congrArg Memory.queues he
      rw [hq, map_modify (k := id) _ _ fun q => by split <;> rfl, List.modify_id]

/-- Where nothing moves and nothing is made or removed. -/
theorem anchors_of_map (hm : h.memory.Sound) (hop : op.collects = false)
    {k : Nat → Record → Record} (hk : ∀ a (r : Record), r.Anchored (k a r))
    (hspace : ∀ a, h'.space.get? a = (h.space.get? a).map (k a))
    (hrunning : op.finalizes = false →
      h'.memory.queues.map (·.running) = h.memory.queues.map (·.running)) :
    Anchors op id (h.space.contains · = true) h h' := by
  have hself := Memory.Anchored.of_same (m := h.memory) rfl rfl rfl hm
  constructor
  · intro a ha
    obtain ⟨r, hr⟩ := ObjectSpace.contains_iff.1 ha
    refine ⟨r, k a r, hr, ?_, hk a r, fun hyes => ?_⟩
    · show h'.space.get? a = _
      rw [hspace, hr]
      rfl
    · rw [hop] at hyes
      cases hyes
  · exact hself.injective
  · intro b q hq
    rw [hspace, Option.map_eq_some_iff] at hq
    obtain ⟨r, hr, _⟩ := hq
    exact .inl ⟨b, ObjectSpace.contains_iff.2 ⟨r, hr⟩, rfl⟩
  · intro _
    exact ⟨rfl, fun _ ha => ha⟩
  · exact hself.still
  · exact hself.held
  · exact hrunning

theorem anchors_of_same (hm : h.memory.Sound) (hop : op.collects = false)
    (hs : h'.memory.space = h.memory.space)
    (hrunning : op.finalizes = false →
      h'.memory.queues.map (·.running) = h.memory.queues.map (·.running)) :
    Anchors op id (h.space.contains · = true) h h' := by
  refine anchors_of_map hm hop (k := fun _ r => r) (fun _ r => .refl r) (fun a => ?_) hrunning
  have hs : h'.space = h.space := hs
  rw [hs, Option.map_id']

theorem anchors_of_update (hm : h.memory.Sound) (hop : op.collects = false) {object : Nat}
    {k : Record → Record} (hk : ∀ r : Record, r.Anchored (k r))
    (hs : h'.memory.space = h.space.update object k)
    (hrunning : op.finalizes = false →
      h'.memory.queues.map (·.running) = h.memory.queues.map (·.running)) :
    Anchors op id (h.space.contains · = true) h h' := by
  refine anchors_of_map hm hop (k := fun a => if object = a then k else id) ?_ ?_ hrunning
  · intro a r
    split
    · exact hk r
    · exact .refl r
  · intro a
    have hs : h'.space = h.space.update object k := hs
    rw [hs, ObjectSpace.get?_update]
    split
    · rfl
    · rw [Option.map_id]
      rfl

/-! ### The end of a batch -/

theorem memory_doneRunning (batch : List (Nat × FinalizableEntry)) :
    (h.doneRunning batch).memory = { h.memory with
      queues := batch.foldl (fun queues x => queues.modify x.1 (·.finishRunning x.2.object))
        h.memory.queues } := by
  unfold doneRunning
  induction batch generalizing h with
  | nil => rfl
  | cons x batch ih => rw [List.foldl_cons, ih, memory_finishRunning, List.foldl_cons]

/-! ### One operation -/

theorem anchors_register {object : Nat} (hm : h.memory.Sound)
    (hrun : Operation.apply h (.registerForFinalization object) = .ok h') :
    Anchors (.registerForFinalization object) id (h.space.contains · = true) h h' := by
  obtain ⟨r, hrun⟩ := after_eq_ok.1 hrun
  rcases registerForFinalization_eq_ok hrun with ⟨_, rfl⟩ | ⟨q, _, he⟩
  · exact anchors_of_same hm rfl rfl fun _ => rfl
  · refine anchors_of_update hm rfl (k := fun r => { r with finalizable := true })
      (fun r => ⟨⟨rfl, rfl, rfl, rfl⟩, rfl, id⟩) (congrArg Memory.space he) fun _ => ?_
    rw [congrArg Memory.queues he]
    exact (map_modify (k := id) _ _ fun x => by split <;> rfl).trans (List.modify_id ..)

theorem anchors_suppress {object : Nat} (hm : h.memory.Sound)
    (hrun : Operation.apply h (.suppressFinalization object) = .ok h') :
    Anchors (.suppressFinalization object) id (h.space.contains · = true) h h' := by
  obtain ⟨r, hrun⟩ := after_eq_ok.1 hrun
  rcases suppressFinalization_eq_ok hrun with ⟨_, rfl⟩ | ⟨q, _, he⟩
  · exact anchors_of_same hm rfl rfl fun _ => rfl
  · refine anchors_of_update hm rfl (k := fun r => { r with finalizable := false })
      (fun r => ⟨⟨rfl, rfl, rfl, rfl⟩, rfl, id⟩) (congrArg Memory.space he) fun _ => ?_
    rw [congrArg Memory.queues he]
    exact (map_modify (k := id) _ _ fun _ => FinalizationQueue.running_suppress).trans
      (List.modify_id ..)

theorem anchors_writeSlot {object slot target : Nat} (hm : h.memory.Sound)
    (hrun : Operation.apply h (.writeSlot object slot target) = .ok h') :
    Anchors (.writeSlot object slot target) id (h.space.contains · = true) h h' := by
  obtain ⟨r, hrun⟩ := after_eq_ok.1 hrun
  rcases writeSlot_eq_ok hrun with rfl | ⟨_, _, _, _, he⟩
  · exact anchors_of_same hm rfl rfl fun _ => rfl
  · refine anchors_of_update hm rfl (k := withSlot slot target)
      (fun r => ⟨⟨rfl, rfl, rfl, List.length_set ..⟩, rfl, id⟩) (congrArg Memory.space he) fun _ => ?_
    rw [congrArg Memory.queues he]

/-- What one operation does to objects. -/
theorem anchors_apply (hm : h.memory.Sound) (hrun : op.apply h = .ok h') :
    ∃ f left, Anchors op f left h h' := by
  have hcollects (hprepares : op.prepares = true) (hop : op.collects = true) :
      ∃ f left, Anchors op f left h h' := by
    obtain ⟨f, left, ha⟩ := anchored_apply hm hprepares hrun
    exact ⟨f, left, anchors_of_anchored hop ha id
      (fun hq => .inl (ObjectSpace.contains_iff.2 ⟨_, hq⟩)) rfl⟩
  have hsame (hop : op.collects = false) (hs : h'.memory.space = h.memory.space)
      (hrunning : op.finalizes = false →
        h'.memory.queues.map (·.running) = h.memory.queues.map (·.running)) :
      ∃ f left, Anchors op f left h h' :=
    ⟨_, _, anchors_of_same hm hop hs hrunning⟩
  cases op with
  | allocate heap request => exact anchors_allocate hm hrun
  | collect generation reason => exact hcollects rfl rfl
  | completeBackground => exact hcollects rfl rfl
  | writeSlot object slot target => exact ⟨_, _, anchors_writeSlot hm hrun⟩
  | registerForFinalization object => exact ⟨_, _, anchors_register hm hrun⟩
  | suppressFinalization object => exact ⟨_, _, anchors_suppress hm hrun⟩
  | findBlock heap target size =>
    obtain ⟨r, hrun⟩ := after_eq_ok.1 hrun
    obtain ⟨_, _, hfinds, _⟩ := tryPlace_eq_ok hm hrun
    rw [hfinds.rest] at hsame
    exact hsame rfl rfl fun _ => rfl
  | createHandle kind target =>
    obtain ⟨r, hrun⟩ := after_eq_ok.1 hrun
    rw [memory_createHandle hrun] at hsame
    exact hsame rfl rfl fun _ => rfl
  | freeHandle id =>
    obtain ⟨r, hrun⟩ := after_eq_ok.1 hrun
    rw [memory_freeHandle hrun] at hsame
    exact hsame rfl rfl fun _ => rfl
  | takeReady =>
    cases hrun
    exact hsame rfl rfl nofun
  | finishReady batch report =>
    cases hrun
    rw [memory_finishReady, memory_doneRunning] at hsame
    exact hsame rfl rfl nofun
  | analyze =>
    obtain ⟨r, hrun⟩ := after_eq_ok.1 hrun
    rw [memory_analyze hrun] at hsame
    exact hsame rfl rfl fun _ => rfl
  | startBackground =>
    obtain ⟨r, hrun⟩ := after_eq_ok.1 hrun
    obtain ⟨hs, _, hq, _⟩ := same_startBackground hrun
    exact hsame rfl hs fun _ => congrArg _ hq
  | abortBackground =>
    obtain ⟨r, hrun⟩ := after_eq_ok.1 hrun
    obtain ⟨hs, hq, _⟩ := same_abortBackground hrun
    exact hsame rfl hs fun _ => congrArg _ hq
  | _ =>
    cases hrun
    exact hsame rfl rfl fun _ => rfl

end Heap

end GenHeap
