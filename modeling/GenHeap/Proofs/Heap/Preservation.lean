import GenHeap.Proofs.Heap.Reachable

/-!
What a collection in a pause does to the objects. Those that the roots reach are carried over with
their references, and those that are left are the ones that a scan of all older objects would keep,
whichever cards are dirty.
-/

namespace GenHeap

open Worklist (Reached)

/-- The record of an object before and after a collection of `c` that moves objects by `f`. -/
structure Record.Carried (c : Generation) (f : Nat → Nat) (r q : Record) : Prop where
  size : q.size = r.size
  heap : q.heap = r.heap
  segment : q.segment = r.segment
  slots : q.slots = r.slots.map f
  finalizable : q.finalizable = r.finalizable
  pinned : q.pinned = r.pinned
  promoted : r.generation.condemnedBy c = true → r.generation = .gen0 ∨ r.generation = .gen1 →
    q.generation = r.generation.promoted
  unpromoted : ¬ (r.generation.condemnedBy c = true ∧
    (r.generation = .gen0 ∨ r.generation = .gen1)) → q.generation = r.generation

theorem Record.carried_aged {c : Generation} {f : Nat → Nat} {r : Record} {marked : Bool} :
    r.Carried c f (Heap.aged c { r with slots := r.slots.map f, marked }) := by
  have hephemeral : r.generation.ephemeral = true ↔ r.generation = .gen0 ∨ r.generation = .gen1 := by
    cases r.generation <;> simp [Generation.ephemeral]
  unfold Heap.aged Heap.isPromoted
  split
  next h =>
    obtain ⟨he, hc⟩ := Bool.and_eq_true_iff.1 h
    exact ⟨rfl, rfl, rfl, rfl, rfl, rfl, fun _ _ => rfl, fun hn => absurd ⟨hc, hephemeral.1 he⟩ hn⟩
  next h =>
    refine ⟨rfl, rfl, rfl, rfl, rfl, rfl, fun hc he => absurd ?_ h, fun _ => rfl⟩
    exact Bool.and_eq_true_iff.2 ⟨hephemeral.2 he, hc⟩

namespace Memory

/-- What a collection of `c` makes of a memory: the objects that are `left` are at the addresses given
by `f`, no others are there, and all that named them names them still. -/
structure Culled (c : Generation) (f : Nat → Nat) (left : Nat → Prop) (m m' : Memory) : Prop where
  sound : m'.Sound
  records : ∀ {a}, left a → ∃ r q, m.space.get? a = some r ∧ m'.space.get? (f a) = some q ∧
    r.Carried c f q
  sources : ∀ {b}, m'.space.contains b = true → ∃ a, left a ∧ f a = b
  injective : ∀ {a b}, left a → left b → f a = f b → a = b
  moved : ∀ {a}, f a ≠ a → m.space.Condemned c a
  immovable : ∀ {a}, m.Immovable a → f a = a
  spared : ∀ {a}, m.space.contains a = true → ¬ m.space.Condemned c a → left a
  roots : ∀ {a}, m.Root a → left a
  pending : ∀ {q g e}, q ∈ m.queues → e ∈ q.pending.get g → left e.object
  references : ∀ {a t}, left a → t ∈ m.space.references a → left t
  handles : ∃ found, (∀ a, found a = true ↔ left a) ∧
    m'.handles = (m.handles.clearDeadWeak found).relocate f
  queues : ∃ live, m'.queues =
    m.queues.map fun q => Heap.sortedBy m'.space ((q.scanUnreachable c live).relocate f)
  collections : m'.collections = m.collections + 1
  background : m'.background = none

variable {m m' : Memory} {c : Generation} {f : Nat → Nat} {left : Nat → Prop}

theorem culled_of_collected (hm : m.Sound) (h : Collected c f m m') :
    Culled c f (m.Survives c) m m' where
  sound := h.sound
  records ha := by
    obtain ⟨r, hr⟩ := ObjectSpace.contains_iff.1 ha.contains
    obtain ⟨marked, hq⟩ := h.forth hr ha
    exact ⟨r, _, hr, hq, Record.carried_aged⟩
  sources hb := by
    obtain ⟨q, hq⟩ := ObjectSpace.contains_iff.1 hb
    exact h.back hq
  injective := h.injective
  moved := h.moved
  immovable := h.immovable
  spared {a} ha hn := by
    obtain ⟨r, hr⟩ := ObjectSpace.contains_iff.1 ha
    refine survives_of_not_condemned hr ?_
    cases hc : r.generation.condemnedBy c with
    | false => rfl
    | true => exact absurd ⟨r, hr, hc⟩ hn
  roots := hm.closed.survives_root
  pending hq he := hm.sorted.survives_pending hq he
  references := hm.closed.survives_reference
  handles := h.handles
  queues := by
    obtain ⟨live, _, hq⟩ := h.queues
    exact ⟨live, hq⟩
  collections := h.collections
  background := h.background

theorem culled_of_completed (hm : m.Sound) {b : BackgroundMark} {live : Nat → Prop}
    (h : Completed b live m m') :
    Culled .gen2 id (fun a => m.space.contains a = true ∧ live a) m m' where
  sound := h.sound
  records := by
    intro a ⟨ha, hl⟩
    obtain ⟨r, hr⟩ := ObjectSpace.contains_iff.1 ha
    have hcarried : r.Carried .gen2 id (Heap.aged .gen2 { r with slots := r.slots.map id }) :=
      Record.carried_aged
    rw [List.map_id] at hcarried
    exact ⟨r, _, hr, h.forth hr hl, hcarried⟩
  sources {b} hb := by
    obtain ⟨q, hq⟩ := ObjectSpace.contains_iff.1 hb
    exact ⟨b, h.back hq, rfl⟩
  injective _ _ he := he
  moved hne := absurd rfl hne
  immovable _ := rfl
  spared {a} ha hn := by
    obtain ⟨r, hr⟩ := ObjectSpace.contains_iff.1 ha
    refine absurd ⟨r, hr, ?_⟩ hn
    cases r.generation <;> rfl
  roots ha := ⟨hm.closed.root ha, h.roots ha⟩
  pending hq he := ⟨hm.sorted.contains hq he, h.pending hq he⟩
  references := by
    intro a t ⟨ha, hl⟩ ht
    obtain ⟨r, hr, hslot, hne⟩ := ObjectSpace.mem_references.1 ht
    exact ⟨hm.closed.slots a r t hr hslot hne, h.references hl ha ht⟩
  handles := by
    obtain ⟨found, hfound, he⟩ := h.handles
    exact ⟨found, hfound, he.trans (HandleTable.relocate_id _).symm⟩
  queues := by
    obtain ⟨found, hq⟩ := h.queues
    refine ⟨found, ?_⟩
    simp only [hq, FinalizationQueue.relocate_id]
  collections := h.collections
  background := h.background

namespace Culled

variable {a : Nat}

theorem contains (h : Culled c f left m m') (ha : left a) : m.space.contains a = true := by
  obtain ⟨r, _, hr, _⟩ := h.records ha
  exact ObjectSpace.contains_iff.2 ⟨r, hr⟩

theorem contains_forward (h : Culled c f left m m') (ha : left a) :
    m'.space.contains (f a) = true := by
  obtain ⟨_, q, _, hq, _⟩ := h.records ha
  exact ObjectSpace.contains_iff.2 ⟨q, hq⟩

theorem zero (h : Culled c f left m m') (hm : m.Sound) : f 0 = 0 := by
  refine Classical.byContradiction fun hne => ?_
  obtain ⟨r, hr, _⟩ := h.moved hne
  rw [hm.laid.zero_free] at hr
  cases hr

/-- What is left needs nothing that is gone. -/
theorem reached (h : Culled c f left m m') {seeds : Nat → Prop}
    (hseeds : ∀ a, seeds a → m.space.contains a = true → left a)
    (ha : Reached (m.space.contains · = true) m.space.references seeds a) : left a :=
  ha.of_closed hseeds fun _ _ _ hl ht _ => h.references hl ht

end Culled

end Memory

namespace Heap

/-- The objects that the roots reach. -/
def InUse (h : Heap) : Nat → Prop :=
  Reached (h.space.contains · = true) h.space.references (· ∈ h.roots)

/-- A collection of `c` carries a set of objects over by `f`: their records with all references, the
handles that hold objects, and the entries that are ready or running. -/
structure Relocates (c : Generation) (f : Nat → Nat) (inside : Nat → Prop) (h h' : Heap) :
    Prop where
  injective : ∀ {a b}, inside a → inside b → f a = f b → a = b
  zero : f 0 = 0
  records : ∀ {a}, inside a → ∃ r q, h.space.get? a = some r ∧ h'.space.get? (f a) = some q ∧
    r.Carried c f q
  references : ∀ {a t}, inside a → t ∈ h.space.references a → inside t
  unmoved : ∀ {a}, inside a → ¬ h.space.Condemned c a → f a = a
  handles : ∀ {id kind a}, kind ≠ .weak → h.handles.find? id = some ⟨kind, a⟩ →
    h'.handles.find? id = some ⟨kind, f a⟩
  queues : ∀ {i : Nat} {l : LogicalHeap}, h.heaps[i]? = some l → ∃ l' made,
    h'.heaps[i]? = some l' ∧ l'.finalization.running = l.finalization.running.map f ∧
    l'.finalization.ready =
      (l.finalization.ready ++ made).map fun e => { e with object := f e.object }

variable {h h' : Heap} {c : Generation} {f : Nat → Nat} {a : Nat}

theorem Relocates.mono {inside inside' : Nat → Prop} (hr : Relocates c f inside h h')
    (hsub : ∀ a, inside' a → inside a)
    (hclosed : ∀ a t, inside' a → t ∈ h.space.references a → inside' t) :
    Relocates c f inside' h h' where
  injective ha hb := hr.injective (hsub _ ha) (hsub _ hb)
  zero := hr.zero
  records ha := hr.records (hsub _ ha)
  references ha ht := hclosed _ _ ha ht
  unmoved ha := hr.unmoved (hsub _ ha)
  handles := hr.handles
  queues := hr.queues

theorem relocates_of_culled {left : Nat → Prop} (hm : h.memory.Sound)
    (hc : Memory.Culled c f left h.memory h'.memory) : Relocates c f left h h' where
  injective := hc.injective
  zero := hc.zero hm
  records := hc.records
  references := hc.references
  unmoved _ hn := Classical.byContradiction fun hne => hn (hc.moved hne)
  handles hkind hid := by
    obtain ⟨found, _, hhandles⟩ := hc.handles
    have hhandles : h'.handles = (h.handles.clearDeadWeak found).relocate f := hhandles
    rw [hhandles, HandleTable.find?_relocate, HandleTable.find?_clearDeadWeak_of_ne hid hkind]
    rfl
  queues hl := by
    obtain ⟨live, hq⟩ := hc.queues
    obtain ⟨l', hl', he⟩ := getElem?_queues hq hl
    exact ⟨l', _, hl', by rw [he]; rfl, by rw [he]; rfl⟩

/-- The condemned objects that roots or other objects lead to, through condemned objects. -/
def Led (h : Heap) (c : Generation) : Nat → Prop :=
  Reached (h.space.Condemned c) h.space.references fun a => a ∈ h.roots ∨
    ∃ o r, h.space.get? o = some r ∧ r.generation.condemnedBy c = false ∧ a ∈ r.references

theorem led_iff :
    h.Led c a ↔ Reached (h.space.Condemned c) h.space.references (h.memory.Seed c) a :=
  Worklist.reached_congr fun _ _ => or_congr_left mem_roots

theorem live_iff : h.memory.Live c a ↔
    h.space.contains a = true ∧ (¬ h.space.Condemned c a ∨ h.Led c a) := by
  refine and_congr_right fun _ => ?_
  rw [led_iff]
  constructor
  · intro hl
    by_cases hc : h.space.Condemned c a
    · exact .inr (hl hc)
    · exact .inl hc
  · rintro (hn | hl) hc
    · exact absurd hc hn
    · exact hl

end Heap

end GenHeap
