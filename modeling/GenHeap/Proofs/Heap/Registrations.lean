import GenHeap.Proofs.Heap.Sifting

/-!
Registrations for finalization, one operation at a time. A registration waits as an entry of the
queue of its object's heap until it is suppressed or a collection makes it ready, and is ready until
it is taken.
-/

namespace GenHeap

/-- How far a registration has come. -/
inductive Stage where
  | pending | ready | delivered | suppressed
  deriving DecidableEq, Repr

/-- Whether a registration is still to be delivered. -/
def Stage.outstanding : Stage → Bool
  | pending | ready => true
  | delivered | suppressed => false

structure Registration where
  heap : Nat
  object : Nat
  stage : Stage
  deriving DecidableEq, Repr

namespace Registration

def outstanding (x : Registration) : Bool := x.stage.outstanding

/-- The registration of the same object, which `f` has moved, at the stage that `g` gives. -/
def turn (f : Nat → Nat) (g : Nat → Stage → Stage) (x : Registration) : Registration :=
  ⟨x.heap, f x.object, g x.object x.stage⟩

end Registration

/-- The objects with entries at a stage. Queues forget what is delivered or suppressed. -/
def FinalizationQueue.objects (q : FinalizationQueue) : Stage → List Nat
  | .pending => q.waiting
  | .ready => q.ready.map (·.object)
  | .delivered | .suppressed => []

theorem FinalizationQueue.mem_named {q : FinalizationQueue} {a : Nat} {s : Stage}
    (ha : a ∈ q.objects s) : a ∈ q.waiting ++ q.roots ∧ s.outstanding = true := by
  cases s with
  | pending => exact ⟨List.mem_append_left _ ha, rfl⟩
  | ready => exact ⟨List.mem_append_right _ (List.mem_append_left _ ha), rfl⟩
  | delivered => cases ha
  | suppressed => cases ha

namespace Memory

/-- A registration that is an entry of a queue. -/
def Lists (m : Memory) (x : Registration) : Prop :=
  ∃ q, m.queues[x.heap]? = some q ∧ x.object ∈ q.objects x.stage

/-- Queues name objects of their own heap, none twice. -/
structure Registered (m : Memory) : Prop where
  owned : ∀ {i : Nat} {q : FinalizationQueue} {a : Nat}, m.queues[i]? = some q →
    a ∈ q.waiting ++ q.roots → ∃ r, m.space.get? a = some r ∧ r.heap = i
  tidy : ∀ {q : FinalizationQueue}, q ∈ m.queues → q.Tidy

variable {m m' m'' : Memory} {x y : Registration} {f f' : Nat → Nat} {g g' : Nat → Stage → Stage}
  {i object : Nat}

theorem Lists.outstanding (h : m.Lists x) : x.outstanding = true := by
  obtain ⟨q, _, hx⟩ := h
  exact (FinalizationQueue.mem_named hx).2

theorem Registered.owner (h : m.Registered) (hx : m.Lists x) :
    ∃ r, m.space.get? x.object = some r ∧ r.heap = x.heap := by
  obtain ⟨q, hq, hx⟩ := hx
  exact h.owned hq (FinalizationQueue.mem_named hx).1

theorem Lists.needed (hm : m.Sound) (h : m.Lists x) : m.Needed x.object := by
  obtain ⟨q, hq, hx⟩ := h
  have hmem := List.mem_of_getElem? hq
  rcases List.mem_append.1 (FinalizationQueue.mem_named hx).1 with hx | hx
  · exact hm.needed_of_waiting hmem hx
  · exact (hm.inUse_of_root hmem hx).needed

/-- Every queue changes by a function of its own, and names objects of its heap again. -/
theorem Registered.of_queues (h : m.Registered) {F : Nat → FinalizationQueue → FinalizationQueue}
    (hqueues : ∀ i, m'.queues[i]? = (m.queues[i]?).map (F i))
    (htidy : ∀ {i q}, m.queues[i]? = some q → q.Tidy → (F i q).Tidy)
    (howned : ∀ {i q b}, m.queues[i]? = some q → b ∈ (F i q).waiting ++ (F i q).roots →
      ∃ r, m'.space.get? b = some r ∧ r.heap = i) : m'.Registered := by
  constructor
  · intro i q' a hq' ha
    rw [hqueues, Option.map_eq_some_iff] at hq'
    obtain ⟨q, hq, rfl⟩ := hq'
    exact howned hq ha
  · intro q' hmem
    obtain ⟨i, hq'⟩ := List.mem_iff_getElem?.1 hmem
    rw [hqueues, Option.map_eq_some_iff] at hq'
    obtain ⟨q, hq, rfl⟩ := hq'
    exact htidy hq (h.tidy (List.mem_of_getElem? hq))

theorem getElem?_modify_queues {F : FinalizationQueue → FinalizationQueue}
    (queues : List FinalizationQueue) (i j : Nat) :
    (queues.modify i F)[j]? = (queues[j]?).map fun q => if i = j then F q else q :=
  List.getElem?_modify ..

/-! ## What becomes of the registrations -/

/-- The entries afterwards are those before, with their objects moved by `f` and at the stages that
`g` gives; no two become one. -/
structure Evolves (f : Nat → Nat) (g : Nat → Stage → Stage) (m m' : Memory) : Prop where
  lists : ∀ {y}, y.outstanding = true → (m'.Lists y ↔ ∃ x, m.Lists x ∧ x.turn f g = y)
  injective : ∀ {x y}, m.Lists x → m.Lists y → (x.turn f g).outstanding = true →
    x.turn f g = y.turn f g → x = y
  final : ∀ {a s}, s.outstanding = false → g a s = s

theorem Evolves.outstanding (h : Evolves f g m m') (hx : (x.turn f g).outstanding = true) :
    x.outstanding = true := by
  cases hs : x.outstanding with
  | true => rfl
  | false =>
    have hkept : g x.object x.stage = x.stage := h.final hs
    have hout : (g x.object x.stage).outstanding = true := hx
    rw [hkept] at hout
    exact hs.symm.trans hout

theorem Evolves.of_same (hq : m'.queues = m.queues) : Evolves id (fun _ s => s) m m' where
  lists {y} _ := by
    unfold Lists
    rw [hq]
    exact ⟨fun hy => ⟨y, hy, rfl⟩, fun ⟨_, hx, he⟩ => he ▸ hx⟩
  injective _ _ _ he := he
  final _ := rfl

theorem Evolves.trans (h : Evolves f g m m') (h' : Evolves f' g' m' m'') :
    Evolves (f' ∘ f) (fun a s => g' (f a) (g a s)) m m'' where
  lists {y} hy := by
    rw [h'.lists hy]
    constructor
    · rintro ⟨z, hz, rfl⟩
      obtain ⟨x, hx, rfl⟩ := (h.lists hz.outstanding).1 hz
      exact ⟨x, hx, rfl⟩
    · rintro ⟨x, hx, rfl⟩
      exact ⟨x.turn f g, (h.lists (h'.outstanding (x := x.turn f g) hy)).2 ⟨x, hx, rfl⟩, rfl⟩
  injective {x y} hx hy hout he := by
    have hmid : (x.turn f g).outstanding = true := h'.outstanding hout
    have hmid' : (y.turn f g).outstanding = true := by
      refine h'.outstanding ?_
      show ((y.turn f g).turn f' g').outstanding = true
      rw [← show (x.turn f g).turn f' g' = (y.turn f g).turn f' g' from he]
      exact hout
    refine h.injective hx hy hmid (h'.injective ?_ ?_ hout he)
    · exact (h.lists hmid).2 ⟨x, hx, rfl⟩
    · exact (h.lists hmid').2 ⟨y, hy, rfl⟩
  final hs := by
    rw [h.final hs, h'.final hs]

/-- The entries of each queue are those that `f` and `g` give. -/
theorem Evolves.of_queues {F : Nat → FinalizationQueue → FinalizationQueue}
    (hqueues : ∀ i, m'.queues[i]? = (m.queues[i]?).map (F i))
    (hobjects : ∀ {i q}, m.queues[i]? = some q → ∀ {b s}, s.outstanding = true →
      (b ∈ (F i q).objects s ↔ ∃ a t, a ∈ q.objects t ∧ f a = b ∧ g a t = s))
    (hinj : ∀ {x y}, m.Lists x → m.Lists y → (x.turn f g).outstanding = true →
      x.turn f g = y.turn f g → x = y)
    (hfinal : ∀ {a s}, s.outstanding = false → g a s = s) : Evolves f g m m' := by
  refine ⟨fun {y} hy => ?_, hinj, hfinal⟩
  constructor
  · rintro ⟨q', hq', hb⟩
    rw [hqueues, Option.map_eq_some_iff] at hq'
    obtain ⟨q, hq, rfl⟩ := hq'
    obtain ⟨a, t, ha, hf, hg⟩ := (hobjects hq hy).1 hb
    exact ⟨⟨y.heap, a, t⟩, ⟨q, hq, ha⟩, by rw [Registration.turn, hf, hg]⟩
  · rintro ⟨x, ⟨q, hq, ha⟩, rfl⟩
    exact ⟨F x.heap q, by rw [Registration.turn, hqueues, hq]; rfl,
      (hobjects hq hy).2 ⟨_, _, ha, rfl, rfl⟩⟩

/-! ### Collections -/

/-- The stage after a collection: an entry whose object was not found live is ready. -/
def revived (live : Nat → Bool) (a : Nat) (s : Stage) : Stage :=
  if s = .pending ∧ live a = false then .ready else s

theorem revived_eq_pending {live : Nat → Bool} {a : Nat} {s : Stage} :
    revived live a s = .pending ↔ s = .pending ∧ live a = true := by
  cases s <;> cases h : live a <;> simp [revived, h]

theorem revived_eq_ready {live : Nat → Bool} {a : Nat} {s : Stage} :
    revived live a s = .ready ↔ s = .ready ∨ s = .pending ∧ live a = false := by
  cases s <;> cases h : live a <;> simp [revived, h]

/-- A ready object is live, so no other registration of it becomes ready beside that one. -/
theorem revived_injective {live : Nat → Bool} {a : Nat} {s t : Stage} (hs : s.outstanding = true)
    (ht : t.outstanding = true) (hready : s = .ready ∨ t = .ready → live a = true)
    (he : revived live a s = revived live a t) : s = t := by
  cases hl : live a with
  | true => simpa [revived, hl] using he
  | false =>
    have hpending {s : Stage} (hs : s.outstanding = true) (hn : s ≠ .ready) : s = .pending := by
      cases s with
      | pending => rfl
      | ready => exact absurd rfl hn
      | delivered => cases hs
      | suppressed => cases hs
    have hnone (h : s = .ready ∨ t = .ready) : False := by
      have hlive := hready h
      rw [hl] at hlive
      cases hlive
    exact (hpending hs fun h => hnone (.inl h)).trans (hpending ht fun h => hnone (.inr h)).symm

namespace Sifted

variable {c : Generation} {live : Nat → Bool}

theorem registered (hm : m.Sound) (h : Sifted c f live m m') (hr : m.Registered) :
    m'.Registered := by
  refine hr.of_queues (F := fun _ => queue c f live m'.space) (fun i => ?_) ?_ ?_
  · rw [h.queues, List.getElem?_map]
  · intro i q hq ht
    exact h.tidy_queue hm (List.mem_of_getElem? hq) ht
  · intro i q b hq hb
    have hmem := List.mem_of_getElem? hq
    obtain ⟨a, ha, rfl⟩ := named_queue hb
    obtain ⟨r, hget, hheap⟩ := hr.owned hq ha
    have hneeded : m.Needed a := by
      rcases List.mem_append.1 ha with ha | ha
      · exact hm.needed_of_waiting hmem ha
      · exact (hm.inUse_of_root hmem ha).needed
    obtain ⟨r', x, hget', hx, hc⟩ := h.records hneeded
    cases hget.symm.trans hget'
    exact ⟨x, hx, hc.heap.trans hheap⟩

theorem evolves (hm : m.Sound) (h : Sifted c f live m m') : Evolves f (revived live) m m' := by
  refine .of_queues (F := fun _ => queue c f live m'.space) (fun i => ?_) ?_ ?_ ?_
  · rw [h.queues, List.getElem?_map]
  · intro i q hq b s hs
    have hmem := List.mem_of_getElem? hq
    cases s with
    | pending =>
      refine (h.mem_waiting_queue hm hmem).trans ⟨?_, ?_⟩
      · rintro ⟨a, ha, hl, rfl⟩
        exact ⟨a, .pending, ha, rfl, revived_eq_pending.2 ⟨rfl, hl⟩⟩
      · rintro ⟨a, t, ha, rfl, ht⟩
        obtain ⟨rfl, hl⟩ := revived_eq_pending.1 ht
        exact ⟨a, ha, hl, rfl⟩
    | ready =>
      refine (h.mem_ready_queue hm hmem).trans ⟨?_, ?_⟩
      · rintro ⟨a, ha | ⟨ha, hl⟩, rfl⟩
        · exact ⟨a, .ready, ha, rfl, revived_eq_ready.2 (.inl rfl)⟩
        · exact ⟨a, .pending, ha, rfl, revived_eq_ready.2 (.inr ⟨rfl, hl⟩)⟩
      · rintro ⟨a, t, ha, rfl, ht⟩
        rcases revived_eq_ready.1 ht with rfl | ⟨rfl, hl⟩
        · exact ⟨a, .inl ha, rfl⟩
        · exact ⟨a, .inr ⟨ha, hl⟩, rfl⟩
    | delivered => cases hs
    | suppressed => cases hs
  · rintro ⟨i, a, s⟩ ⟨j, b, t⟩ hx hy hout he
    simp only [Registration.turn, Registration.mk.injEq] at he
    obtain ⟨rfl, hf, hstage⟩ := he
    cases h.injective (hx.needed hm) (hy.needed hm) hf
    refine congrArg _ (revived_injective hx.outstanding hy.outstanding (fun hs => ?_) hstage)
    have hready : m.Lists ⟨i, a, .ready⟩ := by
      rcases hs with rfl | rfl
      · exact hx
      · exact hy
    obtain ⟨q, hq, ha⟩ := hready
    exact h.inUse (hm.inUse_of_root (List.mem_of_getElem? hq) (List.mem_append_left _ ha))
  · intro a s hs
    cases s with
    | pending => cases hs
    | ready => cases hs
    | delivered => rfl
    | suppressed => rfl

end Sifted

/-- The effect of collections, any number of them: what is needed is carried over, no object is new,
and only they make entries ready, whose objects were not in use. -/
structure Revives (f : Nat → Nat) (g : Nat → Stage → Stage) (m m' : Memory) : Prop where
  evolves : Evolves f g m m'
  carries : Carries f m m'
  sources : ∀ {b}, m'.space.contains b = true → ∃ a, m.space.contains a = true ∧ f a = b
  collections_le : m.collections ≤ m'.collections
  dead : ∀ a s, g a s = s ∨
    s = .pending ∧ g a s = .ready ∧ m.collections < m'.collections ∧ ¬ m.InUse a

theorem Carries.of_same (hs : m'.space = m.space) (hh : m'.handles = m.handles)
    (hq : m'.queues = m.queues) : Carries id m m' := by
  have hroot : m'.Root = m.Root := by
    unfold Root
    rw [hh, hq]
  constructor
  · intro a b _ _ he
    exact he
  · intro a ha
    obtain ⟨r, hr⟩ := ObjectSpace.contains_iff.1 ha.within
    exact ⟨r, r, hr, hs ▸ hr, .refl r, (List.map_id _).symm⟩
  · intro a ha
    unfold Needed
    rw [hs, hq, hroot]
    exact ha
  · intro a ha
    unfold InUse
    rw [hs, hroot]
    exact ha

theorem Revives.of_same (hs : m'.space = m.space) (hh : m'.handles = m.handles)
    (hq : m'.queues = m.queues) (hn : m'.collections = m.collections) :
    Revives id (fun _ s => s) m m' :=
  ⟨.of_same hq, .of_same hs hh hq, fun {b} hb => ⟨b, hs ▸ hb, rfl⟩, Nat.le_of_eq hn.symm,
    fun _ _ => .inl rfl⟩

theorem Revives.trans (h : Revives f g m m') (h' : Revives f' g' m' m'') :
    Revives (f' ∘ f) (fun a s => g' (f a) (g a s)) m m'' where
  evolves := h.evolves.trans h'.evolves
  carries := h.carries.trans h'.carries
  sources hb := by
    obtain ⟨c, hc, rfl⟩ := h'.sources hb
    obtain ⟨a, ha, rfl⟩ := h.sources hc
    exact ⟨a, ha, rfl⟩
  collections_le := Nat.le_trans h.collections_le h'.collections_le
  dead a s := by
    rcases h.dead a s with hg | ⟨rfl, hg, hlt, hn⟩
    · rw [hg]
      refine (h'.dead (f a) s).imp_right fun ⟨hs, hr, hlt, hn⟩ => ⟨hs, hr, ?_, fun ha => hn ?_⟩
      · exact Nat.lt_of_le_of_lt h.collections_le hlt
      · exact h.carries.inUse ha
    · refine .inr ⟨rfl, ?_, Nat.lt_of_lt_of_le hlt h'.collections_le, hn⟩
      rw [hg]
      exact (h'.dead (f a) .ready).resolve_right fun ⟨hs, _⟩ => nomatch hs

theorem Sifted.revives {c : Generation} {live : Nat → Bool} (hm : m.Sound) (hm' : m'.Sound)
    (h : Sifted c f live m m') : Revives f (revived live) m m' := by
  have hlt : m.collections < m'.collections := h.collections ▸ Nat.lt_succ_self _
  refine ⟨h.evolves hm, h.carries hm hm', h.sources, Nat.le_of_lt hlt, fun a s => ?_⟩
  unfold revived
  split
  next hdead =>
    refine .inr ⟨hdead.1, rfl, hlt, fun ha => ?_⟩
    have hlive := h.inUse ha
    rw [hdead.2] at hlive
    cases hlive
  next => exact .inl rfl

/-! ### The embedder -/

/-- The same queues, and the same objects in the same places. -/
structure Undisturbed (m m' : Memory) : Prop where
  queues : m'.queues = m.queues
  shape : ∀ {a : Nat} {r : Record}, m.space.get? a = some r →
    ∃ q, m'.space.get? a = some q ∧ r.SameShape q

theorem Undisturbed.of_same (hq : m'.queues = m.queues) (hs : m'.space = m.space) :
    Undisturbed m m' := by
  refine ⟨hq, fun {a r} hr => ⟨r, ?_, .refl r⟩⟩
  rw [hs]
  exact hr

theorem Undisturbed.update {k : Record → Record} (hq : m'.queues = m.queues)
    (hs : m'.space = m.space.update object k) (hk : ∀ r : Record, r.SameShape (k r)) :
    Undisturbed m m' := by
  refine ⟨hq, fun {a r} hr => ?_⟩
  rw [hs, ObjectSpace.get?_update]
  split
  · exact ⟨k r, by rw [hr]; rfl, hk r⟩
  · exact ⟨r, hr, .refl r⟩

/-- Queues that name no object anew stay as good as they were. -/
theorem Registered.of_subset (h : m.Registered) {F : Nat → FinalizationQueue → FinalizationQueue}
    (hqueues : ∀ i, m'.queues[i]? = (m.queues[i]?).map (F i))
    (hspace : ∀ {a : Nat} {r : Record}, m.space.get? a = some r →
      ∃ q, m'.space.get? a = some q ∧ r.SameShape q)
    (htidy : ∀ {i q}, m.queues[i]? = some q → q.Tidy → (F i q).Tidy)
    (hsub : ∀ {i q b}, m.queues[i]? = some q → b ∈ (F i q).waiting ++ (F i q).roots →
      b ∈ q.waiting ++ q.roots) : m'.Registered := by
  refine h.of_queues hqueues htidy fun hq hb => ?_
  obtain ⟨r, hr, hheap⟩ := h.owned hq (hsub hq hb)
  obtain ⟨q, hget, hs⟩ := hspace hr
  exact ⟨q, hget, hs.heap.trans hheap⟩

theorem Registered.undisturbed (h : m.Registered) (hu : Undisturbed m m') : m'.Registered := by
  refine h.of_subset (F := fun _ q => q) (fun i => ?_) hu.shape (fun _ ht => ht) fun _ hb => hb
  rw [hu.queues]
  exact (Option.map_id' ..).symm

/-- Where nothing moves, entries stay as they are or go. -/
theorem Evolves.of_ending {F : Nat → FinalizationQueue → FinalizationQueue}
    (hqueues : ∀ i, m'.queues[i]? = (m.queues[i]?).map (F i))
    (hends : ∀ a s, g a s = s ∨ s.outstanding = true ∧ (g a s).outstanding = false)
    (hobjects : ∀ {i q}, m.queues[i]? = some q → ∀ {b s}, s.outstanding = true →
      (b ∈ (F i q).objects s ↔ b ∈ q.objects s ∧ g b s = s)) : Evolves id g m m' := by
  have hkept {a : Nat} {s : Stage} (hout : (g a s).outstanding = true) : g a s = s := by
    refine (hends a s).resolve_right fun h => ?_
    rw [h.2] at hout
    cases hout
  refine .of_queues hqueues ?_ ?_ ?_
  · intro i q hq b s hs
    rw [hobjects hq hs]
    constructor
    · rintro ⟨hb, hg⟩
      exact ⟨b, s, hb, rfl, hg⟩
    · rintro ⟨_, t, ha, rfl, rfl⟩
      have hg := hkept hs
      exact ⟨hg.symm ▸ ha, congrArg _ hg⟩
  · intro x y _ _ hout he
    have hself {x : Registration} (hout : (x.turn id g).outstanding = true) : x.turn id g = x :=
      congrArg (Registration.mk x.heap x.object) (hkept hout)
    rw [← hself hout, he, hself (he ▸ hout)]
  · intro a s hs
    refine (hends a s).resolve_right fun h => ?_
    rw [hs] at h
    cases h.1

/-- The stage after an object was suppressed. -/
def unregistered (object a : Nat) (s : Stage) : Stage :=
  if a = object ∧ s = .pending then .suppressed else s

theorem getElem?_suppressed (hqueues : m'.queues = m.queues.modify i (·.suppress object))
    (j : Nat) :
    m'.queues[j]? = (m.queues[j]?).map fun q => if i = j then q.suppress object else q := by
  rw [hqueues, getElem?_modify_queues]

theorem Registered.suppress (h : m.Registered)
    (hqueues : m'.queues = m.queues.modify i (·.suppress object))
    (hspace : ∀ {a : Nat} {r : Record}, m.space.get? a = some r →
      ∃ q, m'.space.get? a = some q ∧ r.SameShape q) : m'.Registered := by
  refine h.of_subset (getElem?_suppressed hqueues) hspace (fun _ ht => ?_) fun hq hb => ?_
  · split
    · exact ht.suppress
    · exact ht
  · split at hb
    · rw [List.mem_append, FinalizationQueue.roots_suppress,
        FinalizationQueue.mem_waiting_suppress (h.tidy (List.mem_of_getElem? hq))] at hb
      exact List.mem_append.2 (hb.imp_left And.left)
    · exact hb

/-- Suppressing takes the one waiting entry of an object away, which is in the queue of its heap. -/
theorem evolves_suppress (h : m.Registered) {r : Record} (hr : m.space.get? object = some r)
    (hqueues : m'.queues = m.queues.modify r.heap (·.suppress object)) :
    Evolves id (unregistered object) m m' := by
  refine .of_ending (getElem?_suppressed hqueues) ?_ ?_
  · intro a s
    unfold unregistered
    split
    next h => exact .inr ⟨by rw [h.2]; rfl, rfl⟩
    next => exact .inl rfl
  · intro j q hq b s hs
    cases s with
    | pending =>
      have hstage : unregistered object b .pending = .pending ↔ b ≠ object := by
        simp [unregistered]
      show b ∈ FinalizationQueue.waiting _ ↔ b ∈ q.waiting ∧ _
      rw [hstage]
      split
      · exact FinalizationQueue.mem_waiting_suppress (h.tidy (List.mem_of_getElem? hq))
      next hne =>
        refine ⟨fun hb => ⟨hb, ?_⟩, And.left⟩
        rintro rfl
        obtain ⟨x, hx, hheap⟩ := h.owned hq (List.mem_append_left _ hb)
        cases hr.symm.trans hx
        exact hne hheap
    | ready =>
      have hsame : (if r.heap = j then q.suppress object else q).ready = q.ready := by
        split
        · exact FinalizationQueue.ready_suppress
        · rfl
      have hstage : unregistered object b .ready = .ready := by simp [unregistered]
      show b ∈ List.map _ (FinalizationQueue.ready _) ↔ b ∈ q.ready.map _ ∧ _
      rw [hsame, hstage]
      exact ⟨fun hb => ⟨hb, rfl⟩, And.left⟩
    | delivered => cases hs
    | suppressed => cases hs

/-- The stage after all ready entries were taken. -/
def taken (_ : Nat) (s : Stage) : Stage := if s = .ready then .delivered else s

theorem Registered.takeReady (h : m.Registered) (hs : m'.space = m.space)
    (hqueues : m'.queues = m.queues.map fun q => (q.takeReady q.readyCount).2) :
    m'.Registered := by
  refine h.of_subset (F := fun _ q => (q.takeReady q.readyCount).2)
    (fun i => by rw [hqueues, List.getElem?_map]) (fun {a r} hr => ⟨r, hs ▸ hr, .refl r⟩)
    (fun _ ht => ht.takeReady _) fun _ hb => ?_
  rw [List.mem_append, FinalizationQueue.roots_takeReady.mem_iff] at hb
  exact List.mem_append.2 hb

theorem evolves_takeReady
    (hqueues : m'.queues = m.queues.map fun q => (q.takeReady q.readyCount).2) :
    Evolves id taken m m' := by
  refine .of_ending (F := fun _ q => (q.takeReady q.readyCount).2)
    (fun i => by rw [hqueues, List.getElem?_map]) ?_ ?_
  · intro a s
    cases s with
    | ready => exact .inr ⟨rfl, rfl⟩
    | _ => exact .inl rfl
  · intro i q _ b s hs
    cases s with
    | pending => exact ⟨fun hb => ⟨hb, rfl⟩, And.left⟩
    | ready =>
      have hnone : (q.takeReady q.readyCount).2.ready = [] := List.drop_length
      show b ∈ List.map _ (q.takeReady q.readyCount).2.ready ↔ _
      rw [hnone]
      exact ⟨fun hb => absurd hb List.not_mem_nil, fun hb => nomatch hb.2⟩
    | delivered => cases hs
    | suppressed => cases hs

theorem Registered.finishRunning (h : m.Registered) (hs : m'.space = m.space)
    (hqueues : m'.queues = m.queues.modify i (·.finishRunning object)) : m'.Registered := by
  refine h.of_subset (fun j => by rw [hqueues, getElem?_modify_queues])
    (fun {a r} hr => ⟨r, hs ▸ hr, .refl r⟩) (fun _ ht => ?_) fun _ hb => ?_
  · split
    · exact ht.finishRunning
    · exact ht
  · split at hb
    · rw [List.mem_append, FinalizationQueue.waiting,
        FinalizationQueue.pending_finishRunning] at hb
      exact List.mem_append.2 (hb.imp_right FinalizationQueue.mem_roots_of_finishRunning)
    · exact hb

/-- What is still to be delivered is not touched when a finalizer has ended. -/
theorem evolves_finishRunning
    (hqueues : m'.queues = m.queues.modify i (·.finishRunning object)) :
    Evolves id (fun _ s => s) m m' := by
  refine .of_ending (fun j => by rw [hqueues, getElem?_modify_queues]) (fun _ _ => .inl rfl) ?_
  intro j q _ b s _
  have hsame : (q.finishRunning object).objects s = q.objects s := by
    cases s with
    | pending =>
      show FinalizationQueue.waiting _ = q.waiting
      rw [FinalizationQueue.waiting, FinalizationQueue.pending_finishRunning]
      rfl
    | ready =>
      show List.map _ (FinalizationQueue.ready _) = List.map _ q.ready
      rw [FinalizationQueue.ready_finishRunning]
    | delivered => rfl
    | suppressed => rfl
  split
  · rw [hsame]
    exact ⟨fun hb => ⟨hb, rfl⟩, And.left⟩
  · exact ⟨fun hb => ⟨hb, rfl⟩, And.left⟩

/-! ### New registrations -/

theorem Registered.register (h : m.Registered) {r : Record} {q : FinalizationQueue}
    {k : Generation} (hr : m.space.get? object = some r) (hq : m.queues[r.heap]? = some q)
    (hnew : object ∉ q.waiting) (hs : m'.space = m.space)
    (hqueues : m'.queues = m.queues.modify r.heap (·.register object k)) : m'.Registered := by
  refine h.of_queues (fun j => by rw [hqueues, getElem?_modify_queues]) ?_ ?_
  · intro j x hx ht
    split
    next hj =>
      subst hj
      cases hq.symm.trans hx
      exact ht.register hnew
    next => exact ht
  · intro j x b hx hb
    rw [hs]
    split at hb
    next hj =>
      rw [List.mem_append, FinalizationQueue.waiting_register.mem_iff, List.mem_cons] at hb
      rcases hb with (rfl | hb) | hb
      · exact ⟨r, hr, hj⟩
      · exact h.owned hx (List.mem_append_left _ hb)
      · exact h.owned hx (List.mem_append_right _ hb)
    next => exact h.owned hx hb

/-- Registering adds one entry. -/
theorem lists_register {q : FinalizationQueue} {k : Generation} (hq : m.queues[i]? = some q)
    (hqueues : m'.queues = m.queues.modify i (·.register object k)) :
    m'.Lists y ↔ m.Lists y ∨ y = ⟨i, object, .pending⟩ := by
  obtain ⟨j, b, s⟩ := y
  have hobjects (x : FinalizationQueue) : b ∈ (x.register object k).objects s ↔
      b ∈ x.objects s ∨ b = object ∧ s = .pending := by
    cases s with
    | pending =>
      show b ∈ (x.register object k).waiting ↔ _
      rw [FinalizationQueue.waiting_register.mem_iff, List.mem_cons, or_comm]
      exact or_congr_right ⟨fun he => ⟨he, rfl⟩, And.left⟩
    | ready => exact ⟨.inl, fun hb => hb.resolve_right nofun⟩
    | delivered => exact ⟨.inl, fun hb => hb.resolve_right nofun⟩
    | suppressed => exact ⟨.inl, fun hb => hb.resolve_right nofun⟩
  unfold Lists
  rw [hqueues, getElem?_modify_queues, Registration.mk.injEq]
  constructor
  · rintro ⟨_, hmap, hb⟩
    obtain ⟨x, hx, rfl⟩ := Option.map_eq_some_iff.1 hmap
    split at hb
    next hj =>
      rcases (hobjects x).1 hb with hb | hb
      · exact .inl ⟨x, hx, hb⟩
      · exact .inr ⟨hj.symm, hb⟩
    next => exact .inl ⟨x, hx, hb⟩
  · rintro (⟨x, hx, hb⟩ | ⟨rfl, hb⟩)
    · refine ⟨_, by rw [hx]; rfl, ?_⟩
      split
      · exact (hobjects x).2 (.inl hb)
      · exact hb
    · refine ⟨_, by rw [hq]; rfl, ?_⟩
      show b ∈ (if j = j then q.register object k else q).objects s
      rw [if_pos rfl]
      exact (hobjects q).2 (.inr hb)

end Memory

end GenHeap
