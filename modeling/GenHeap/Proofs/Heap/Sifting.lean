import GenHeap.Proofs.Heap.Preservation

/-!
What collections of both kinds do to finalization. An object that a queue names is carried over with
all that it needs, and the entries of those that the roots do not reach are made ready.
-/

namespace GenHeap

open Worklist (Reached)

namespace Memory

/-- What roots and waiting entries reach. -/
def Needed (m : Memory) : Nat → Prop :=
  Reached (m.space.contains · = true) m.space.references fun a =>
    m.Root a ∨ ∃ q ∈ m.queues, a ∈ q.waiting

variable {m m' m'' : Memory} {f f' : Nat → Nat} {a t : Nat}

theorem InUse.needed (h : m.InUse a) : m.Needed a := h.mono fun _ hb hin => .seed (.inl hb) hin

theorem Sound.needed_of_waiting (hm : m.Sound) {q : FinalizationQueue} (hq : q ∈ m.queues)
    (ha : a ∈ q.waiting) : m.Needed a := by
  refine .seed (.inr ⟨q, hq, ha⟩) ?_
  obtain ⟨g, e, he, rfl⟩ := FinalizationQueue.mem_waiting.1 ha
  exact hm.sorted.contains hq he

theorem Sound.inUse_of_root (hm : m.Sound) {q : FinalizationQueue} (hq : q ∈ m.queues)
    (ha : a ∈ q.roots) : m.InUse a := by
  have hroot : m.Root a := .inr ⟨q, hq, ha⟩
  exact .seed hroot (hm.closed.root hroot)

/-- The objects that are needed are still there, at the addresses given by `f`, and so are the
references between them. -/
structure Carries (f : Nat → Nat) (m m' : Memory) : Prop where
  injective : ∀ {a b}, m.Needed a → m.Needed b → f a = f b → a = b
  records : ∀ {a}, m.Needed a → ∃ r q, m.space.get? a = some r ∧ m'.space.get? (f a) = some q ∧
    r.SameShape q ∧ q.slots = r.slots.map f
  needed : ∀ {a}, m.Needed a → m'.Needed (f a)
  inUse : ∀ {a}, m.InUse a → m'.InUse (f a)

theorem Carries.trans (h : Carries f m m') (h' : Carries f' m' m'') :
    Carries (f' ∘ f) m m'' where
  injective ha hb he := h.injective ha hb (h'.injective (h.needed ha) (h.needed hb) he)
  records ha := by
    obtain ⟨r, q, hr, hq, hs, hslots⟩ := h.records ha
    obtain ⟨q', x, hq', hx, hs', hslots'⟩ := h'.records (h.needed ha)
    cases hq.symm.trans hq'
    refine ⟨r, x, hr, hx, hs.trans hs', ?_⟩
    rw [hslots', hslots, List.map_map]
  needed ha := h'.needed (h.needed ha)
  inUse ha := h'.inUse (h.inUse ha)

/-- Where records are carried over with their references, what seeds reach is carried along. -/
theorem reached_carried {seeds seeds' : Nat → Prop} (hzero : m'.space.get? 0 = none)
    (hrecords : ∀ {a}, m.Needed a → ∃ r q, m.space.get? a = some r ∧
      m'.space.get? (f a) = some q ∧ q.slots = r.slots.map f)
    (hneeded : ∀ {a}, seeds a → m.space.contains a = true → m.Needed a)
    (hseeds : ∀ {a}, seeds a → seeds' (f a))
    (ha : Reached (m.space.contains · = true) m.space.references seeds a) :
    Reached (m'.space.contains · = true) m'.space.references seeds' (f a) := by
  have hin {b : Nat} (hb : m.Needed b) : m'.space.contains (f b) = true := by
    obtain ⟨_, q, _, hq, _⟩ := hrecords hb
    exact ObjectSpace.contains_iff.2 ⟨q, hq⟩
  have hall {b : Nat} (hb : Reached (m.space.contains · = true) m.space.references seeds b) :
      m.Needed b := hb.of_closed (fun _ hs hc => hneeded hs hc) fun _ _ _ hb ht hc => .step hb ht hc
  induction ha with
  | seed hs hc => exact .seed (hseeds hs) (hin (hneeded hs hc))
  | step hb ht hc ih =>
    have hnext := hin (hall (.step hb ht hc))
    refine .step ih ?_ hnext
    obtain ⟨r, hr, hslot, _⟩ := ObjectSpace.mem_references.1 ht
    obtain ⟨r', q, hr', hq, hslots⟩ := hrecords (hall hb)
    cases hr.symm.trans hr'
    refine ObjectSpace.mem_references.2 ⟨q, hq, hslots ▸ List.mem_map_of_mem hslot, ?_⟩
    intro hz
    obtain ⟨x, hx⟩ := ObjectSpace.contains_iff.1 hnext
    rw [hz, hzero] at hx
    cases hx

/-- A collection of `c` that moved objects by `f` and found `live` before it made entries ready. -/
structure Sifted (c : Generation) (f : Nat → Nat) (live : Nat → Bool) (m m' : Memory) : Prop where
  records : ∀ {a}, m.Needed a → ∃ r q, m.space.get? a = some r ∧ m'.space.get? (f a) = some q ∧
    r.Carried c f q
  injective : ∀ {a b}, m.Needed a → m.Needed b → f a = f b → a = b
  sources : ∀ {b}, m'.space.contains b = true → ∃ a, m.space.contains a = true ∧ f a = b
  handles : ∃ found, m'.handles = (m.handles.clearDeadWeak found).relocate f
  queues : m'.queues =
    m.queues.map fun q => Heap.sortedBy m'.space ((q.scanUnreachable c live).relocate f)
  inUse : ∀ {a}, m.InUse a → live a = true
  spared : ∀ {a r}, m.space.get? a = some r → r.generation.condemnedBy c = false → live a = true
  collections : m'.collections = m.collections + 1

theorem Culled.needed {c : Generation} {left : Nat → Prop} (h : Culled c f left m m')
    (ha : m.Needed a) : left a := by
  refine h.reached ?_ ha
  rintro b (hb | ⟨q, hq, hb⟩) _
  · exact h.roots hb
  · obtain ⟨g, e, he, rfl⟩ := FinalizationQueue.mem_waiting.1 hb
    exact h.pending hq he

theorem Culled.sifted {c : Generation} {left : Nat → Prop} (h : Culled c f left m m')
    {live : Nat → Bool} (hqueues : m'.queues =
      m.queues.map fun q => Heap.sortedBy m'.space ((q.scanUnreachable c live).relocate f))
    (hinUse : ∀ {a}, m.InUse a → live a = true)
    (hspared : ∀ {a r}, m.space.get? a = some r → r.generation.condemnedBy c = false →
      live a = true) : Sifted c f live m m' where
  records ha := h.records (h.needed ha)
  injective ha hb := h.injective (h.needed ha) (h.needed hb)
  sources hb := by
    obtain ⟨a, ha, he⟩ := h.sources hb
    exact ⟨a, h.contains ha, he⟩
  handles := by
    obtain ⟨found, _, hhandles⟩ := h.handles
    exact ⟨found, hhandles⟩
  queues := hqueues
  inUse := hinUse
  spared := hspared
  collections := h.collections

theorem sifted_of_collected {c : Generation} (hm : m.Sound) (h : Collected c f m m') :
    ∃ live, (∀ a, live a = true ↔ m.Live c a) ∧ Sifted c f live m m' := by
  obtain ⟨live, hlive, hqueues⟩ := h.queues
  refine ⟨live, hlive, (culled_of_collected hm h).sifted hqueues (fun ha => ?_)
    fun hr hc => (hlive _).2 (live_of_not_condemned hr hc)⟩
  refine (hlive _).2 ?_
  exact ha.of_closed (fun _ hb _ => hm.closed.live_root hb)
    fun _ _ _ hl ht _ => hm.closed.live_reference hl ht

theorem sifted_of_completed (hm : m.Sound) {b : BackgroundMark} {live : Nat → Prop}
    (h : Completed b live m m') : ∃ found, Sifted .gen2 id found m m' := by
  obtain ⟨found, hfound, hqueues⟩ := h.revived
  refine ⟨found, (culled_of_completed hm h).sifted ?_ hfound.inUse ?_⟩
  · simp only [hqueues, FinalizationQueue.relocate_id]
  · intro a r _ hc
    cases hg : r.generation <;> rw [hg] at hc <;> cases hc

namespace Sifted

variable {c : Generation} {live : Nat → Bool} {q : FinalizationQueue}

/-- What becomes of a queue. -/
abbrev queue (c : Generation) (f : Nat → Nat) (live : Nat → Bool) (space : ObjectSpace)
    (q : FinalizationQueue) : FinalizationQueue :=
  Heap.sortedBy space ((q.scanUnreachable c live).relocate f)

theorem roots_queue {space : ObjectSpace} : (queue c f live space q).roots =
    (q.scanUnreachable c live).roots.map f := by
  show ((q.scanUnreachable c live).relocate f).roots = _
  exact FinalizationQueue.roots_relocate

/-- An entry waits on if its object was found live. -/
theorem mem_waiting_queue (hm : m.Sound) (h : Sifted c f live m m') (hq : q ∈ m.queues) {b : Nat} :
    b ∈ (queue c f live m'.space q).waiting ↔ ∃ a ∈ q.waiting, live a = true ∧ f a = b := by
  rw [queue, Heap.sortedBy, FinalizationQueue.waiting_syncGenerations.mem_iff,
    FinalizationQueue.waiting_relocate, List.mem_map]
  constructor
  · rintro ⟨_, ha, rfl⟩
    obtain ⟨g, hl, e, he, rfl⟩ := FinalizationQueue.mem_waiting_scanUnreachable.1 ha
    refine ⟨e.object, FinalizationQueue.mem_waiting.2 ⟨g, e, he, rfl⟩, ?_, rfl⟩
    cases hc : g.condemnedBy c with
    | true => exact hl hc
    | false =>
      obtain ⟨r, hr, rfl⟩ := hm.sorted q hq g e he
      exact h.spared hr hc
  · rintro ⟨_, ha, hl, rfl⟩
    obtain ⟨g, e, he, rfl⟩ := FinalizationQueue.mem_waiting.1 ha
    exact ⟨e.object,
      FinalizationQueue.mem_waiting_scanUnreachable.2 ⟨g, fun _ => hl, e, he, rfl⟩, rfl⟩

/-- It is made ready if not. -/
theorem mem_ready_queue (hm : m.Sound) (h : Sifted c f live m m') (hq : q ∈ m.queues) {b : Nat} :
    b ∈ (queue c f live m'.space q).ready.map (·.object) ↔
      ∃ a, (a ∈ q.ready.map (·.object) ∨ a ∈ q.waiting ∧ live a = false) ∧ f a = b := by
  have hready : (queue c f live m'.space q).ready.map (·.object) =
      (q.ready.map (·.object) ++ (q.unreachable c live).map (·.object)).map f := by
    show List.map _ (List.map _ (q.ready ++ q.unreachable c live)) = _
    simp only [List.map_append, List.map_map, Function.comp_def]
  have hdead {a : Nat} : a ∈ (q.unreachable c live).map (·.object) ↔
      a ∈ q.waiting ∧ live a = false := by
    simp only [List.mem_map, FinalizationQueue.mem_unreachable, FinalizationQueue.mem_waiting]
    constructor
    · rintro ⟨e, ⟨g, _, he, hn⟩, rfl⟩
      exact ⟨⟨g, e, he, rfl⟩, hn⟩
    · rintro ⟨⟨g, e, he, rfl⟩, hn⟩
      refine ⟨e, ⟨g, ?_, he, hn⟩, rfl⟩
      obtain ⟨r, hr, rfl⟩ := hm.sorted q hq g e he
      cases hc : r.generation.condemnedBy c with
      | true => rfl
      | false =>
        rw [h.spared hr hc] at hn
        cases hn
  rw [hready, List.mem_map]
  simp only [List.mem_append, hdead]

/-- What a queue names afterwards, it named before. -/
theorem named_queue {space : ObjectSpace} {b : Nat}
    (hb : b ∈ (queue c f live space q).waiting ++ (queue c f live space q).roots) :
    ∃ a ∈ q.waiting ++ q.roots, f a = b := by
  have hwaiting {a : Nat} (ha : ∃ g, ∃ e ∈ q.pending.get g, e.object = a) :
      a ∈ q.waiting ++ q.roots :=
    List.mem_append_left _ (FinalizationQueue.mem_waiting.2 ha)
  rcases List.mem_append.1 hb with hb | hb
  · rw [queue, Heap.sortedBy, FinalizationQueue.waiting_syncGenerations.mem_iff,
      FinalizationQueue.waiting_relocate, List.mem_map] at hb
    obtain ⟨a, ha, rfl⟩ := hb
    obtain ⟨g, _, e, he, rfl⟩ := FinalizationQueue.mem_waiting_scanUnreachable.1 ha
    exact ⟨_, hwaiting ⟨g, e, he, rfl⟩, rfl⟩
  · rw [roots_queue, List.mem_map] at hb
    obtain ⟨a, ha, rfl⟩ := hb
    rcases FinalizationQueue.mem_roots_of_scanUnreachable ha with ha | ha
    · exact ⟨a, List.mem_append_right _ ha, rfl⟩
    · exact ⟨a, hwaiting ha, rfl⟩

theorem tidy_queue (hm : m.Sound) (h : Sifted c f live m m') (hq : q ∈ m.queues) (ht : q.Tidy) :
    (queue c f live m'.space q).Tidy := by
  have hscan : (q.scanUnreachable c live).Tidy :=
    ht.scanUnreachable fun a ha => h.inUse (hm.inUse_of_root hq ha)
  have hneeded {a : Nat} (ha : ∃ g, ∃ e ∈ q.pending.get g, e.object = a) : m.Needed a :=
    hm.needed_of_waiting hq (FinalizationQueue.mem_waiting.2 ha)
  refine (hscan.relocate (fun a b => h.injective) ?_ ?_).syncGenerations _
  · intro a ha
    obtain ⟨g, _, e, he, rfl⟩ := FinalizationQueue.mem_waiting_scanUnreachable.1 ha
    exact hneeded ⟨g, e, he, rfl⟩
  · intro a ha
    rcases FinalizationQueue.mem_roots_of_scanUnreachable ha with ha | ha
    · exact (hm.inUse_of_root hq ha).needed
    · exact hneeded ha

theorem mem_queues (h : Sifted c f live m m') (hq : q ∈ m.queues) :
    queue c f live m'.space q ∈ m'.queues :=
  h.queues ▸ List.mem_map_of_mem hq

/-- A root stays one. -/
theorem root (hm' : m'.Sound) (h : Sifted c f live m m') (ha : m.Root a)
    (hin : m'.space.contains (f a) = true) : m'.Root (f a) := by
  rcases ha with ha | ⟨q, hq, ha⟩
  · obtain ⟨_, id, kind, hid, hkind⟩ := HandleTable.mem_roots.1 ha
    obtain ⟨found, hhandles⟩ := h.handles
    refine .inl (HandleTable.mem_roots.2 ⟨?_, id, kind, ?_, hkind⟩)
    · intro hz
      obtain ⟨r, hr⟩ := ObjectSpace.contains_iff.1 hin
      rw [hz, hm'.laid.zero_free] at hr
      cases hr
    · rw [hhandles, HandleTable.find?_relocate, HandleTable.find?_clearDeadWeak_of_ne hid hkind]
      rfl
  · refine .inr ⟨_, h.mem_queues hq, ?_⟩
    rw [roots_queue]
    refine List.mem_map_of_mem ?_
    rw [FinalizationQueue.mem_roots] at ha ⊢
    rw [FinalizationQueue.ready_scanUnreachable]
    rcases ha with ⟨e, he, rfl⟩ | ha
    · exact .inl ⟨e, List.mem_append_left _ he, rfl⟩
    · exact .inr ha

theorem carries (hm : m.Sound) (hm' : m'.Sound) (h : Sifted c f live m m') : Carries f m m' := by
  have hrecords {a : Nat} (ha : m.Needed a) : ∃ r q, m.space.get? a = some r ∧
      m'.space.get? (f a) = some q ∧ q.slots = r.slots.map f := by
    obtain ⟨r, q, hr, hq, hc⟩ := h.records ha
    exact ⟨r, q, hr, hq, hc.slots⟩
  have hin {a : Nat} (ha : m.Needed a) : m'.space.contains (f a) = true := by
    obtain ⟨_, q, _, hq, _⟩ := hrecords ha
    exact ObjectSpace.contains_iff.2 ⟨q, hq⟩
  have hroot {a : Nat} (ha : m.Root a) : m'.Root (f a) :=
    h.root hm' ha (hin (.seed (.inl ha) (hm.closed.root ha)))
  refine ⟨h.injective, fun ha => ?_, ?_, ?_⟩
  · obtain ⟨r, q, hr, hq, hc⟩ := h.records ha
    refine ⟨r, q, hr, hq, ⟨hc.size, hc.heap, hc.segment, ?_⟩, hc.slots⟩
    rw [hc.slots, List.length_map]
  · refine reached_carried hm'.laid.zero_free hrecords (fun hs hc => .seed hs hc) ?_
    rintro a (ha | ⟨q, hq, ha⟩)
    · exact .inl (hroot ha)
    · cases hl : live a with
      | true => exact .inr ⟨_, h.mem_queues hq, (h.mem_waiting_queue hm hq).2 ⟨a, ha, hl, rfl⟩⟩
      | false =>
        -- it is ready now, and its object a root
        have hready := (h.mem_ready_queue hm hq).2 ⟨a, .inr ⟨ha, hl⟩, rfl⟩
        exact .inl (.inr ⟨_, h.mem_queues hq, List.mem_append_left _ hready⟩)
  · exact reached_carried hm'.laid.zero_free hrecords (fun hs hc => .seed (.inl hs) hc) hroot

end Sifted

/-- After a full collection all objects are in use. -/
theorem inUse_of_full (hm : m.Sound) (h : Collected .gen2 f m m') {b : Nat}
    (hb : m'.space.contains b = true) : m'.InUse b := by
  obtain ⟨live, hlive, hs⟩ := sifted_of_collected hm h
  have hcarries := hs.carries hm h.sound
  have hrecords {a : Nat} (ha : m.Needed a) : ∃ r q, m.space.get? a = some r ∧
      m'.space.get? (f a) = some q ∧ q.slots = r.slots.map f := by
    obtain ⟨r, q, hr, hq, _, hslots⟩ := hcarries.records ha
    exact ⟨r, q, hr, hq, hslots⟩
  -- what was left was reached from a root or from an entry that is ready now
  have hleft {a : Nat} (ha : m.Survives .gen2 a) : Reached (m.space.contains · = true)
      m.space.references (fun a => m.Root a ∨ m.Revived .gen2 a) a := by
    obtain ⟨r, hr⟩ := ObjectSpace.contains_iff.1 ha.contains
    have hall (q : Record) : q.generation.condemnedBy .gen2 = true := by
      cases q.generation <;> rfl
    rw [Worklist.reached_or_iff]
    refine ha.imp (fun hl => ?_) fun hrev => hrev.widen fun _ hc => hc.contains
    refine ((hl.2 ⟨r, hr, hall r⟩).widen fun _ hc => hc.contains).mono ?_
    rintro b (hb | ⟨o, q, _, hold, _⟩) hin
    · exact .seed hb hin
    · rw [hall] at hold
      cases hold
  obtain ⟨q, hq⟩ := ObjectSpace.contains_iff.1 hb
  obtain ⟨a, ha, rfl⟩ := h.back hq
  refine reached_carried h.sound.laid.zero_free hrecords ?_ ?_ (hleft ha)
  · rintro a (ha | ⟨_, q, hq, g, _, e, he, rfl⟩) hin
    · exact .seed (.inl ha) hin
    · exact hm.needed_of_waiting hq (FinalizationQueue.mem_waiting.2 ⟨g, e, he, rfl⟩)
  · rintro a (ha | ⟨hdead, q, hq, g, _, e, he, rfl⟩)
    · have hin := (hcarries.inUse (.seed ha (hm.closed.root ha))).within
      exact hs.root h.sound ha hin
    · have hdead : live e.object = false := by
        rw [← Bool.not_eq_true, hlive]
        exact hdead
      have hwaiting := FinalizationQueue.mem_waiting.2 ⟨g, e, he, rfl⟩
      have hready := (hs.mem_ready_queue hm hq).2 ⟨e.object, .inr ⟨hwaiting, hdead⟩, rfl⟩
      exact .inr ⟨_, hs.mem_queues hq, List.mem_append_left _ hready⟩

end Memory

end GenHeap
