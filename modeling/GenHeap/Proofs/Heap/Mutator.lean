import GenHeap.Proofs.Heap.Invariant

/-!
What the embedder does between collections keeps the invariant, and a background cycle in progress
goes on: no object disappears, live ones stay live, and new ones are born live.
-/

namespace GenHeap

namespace Memory

/-- A later state of the same background cycle, if there is one. -/
structure Continues (m m' : Memory) : Prop where
  contains : ∀ a, m.space.contains a = true → m'.space.contains a = true
  cycle : ∀ b, m.background = some b → ∃ b', m'.background = some b' ∧
    (∀ a, m.space.contains a = true → b.isLive a = true → b'.isLive a = true) ∧
    ∀ a, m'.space.contains a = true → m.space.contains a = true ∨ b'.isLive a = true

/-- The effect of an operation that collects or leaves the cycle alone. -/
structure Leads (m m' : Memory) : Prop where
  sound : m'.Sound
  collections_le : m.collections ≤ m'.collections
  continues : m'.collections = m.collections → Continues m m'

variable {m m' m'' : Memory}

theorem Continues.of_same (hb : m'.background = m.background)
    (hc : ∀ a, m'.space.contains a = true ↔ m.space.contains a = true) : Continues m m' where
  contains a ha := (hc a).2 ha
  cycle b h := ⟨b, hb.trans h, fun _ _ hl => hl, fun a ha => .inl ((hc a).1 ha)⟩

theorem Continues.refl (m : Memory) : Continues m m := .of_same rfl fun _ => Iff.rfl

theorem Continues.trans (h : Continues m m') (h' : Continues m' m'') : Continues m m'' where
  contains a ha := h'.contains a (h.contains a ha)
  cycle b hb := by
    obtain ⟨b', hb', hlive, hnew⟩ := h.cycle b hb
    obtain ⟨b'', hb'', hlive', hnew'⟩ := h'.cycle b' hb'
    refine ⟨b'', hb'', ?_, ?_⟩
    · intro a ha hl
      exact hlive' a (h.contains a ha) (hlive a ha hl)
    · intro a ha
      rcases hnew' a ha with ha' | hl
      · exact (hnew a ha').imp_right (hlive' a ha')
      · exact .inr hl

theorem Leads.refl (h : m.Sound) : Leads m m := ⟨h, Nat.le_refl _, fun _ => .refl m⟩

theorem Leads.trans (h : Leads m m') (h' : Leads m' m'') : Leads m m'' where
  sound := h'.sound
  collections_le := Nat.le_trans h.collections_le h'.collections_le
  continues he := by
    have := h.collections_le
    have := h'.collections_le
    exact (h.continues (by omega)).trans (h'.continues (by omega))

/-- An operation that is a collection; no cycle goes on behind it. -/
theorem Leads.of_collection (h : m'.Sound) (hn : m'.collections = m.collections + 1) :
    Leads m m' :=
  ⟨h, by omega, fun he => by omega⟩

/-- The effect of an operation on the same objects beside the cycle. -/
structure Stays (m m' : Memory) : Prop where
  sound : m'.Sound
  collections : m'.collections = m.collections
  background : m'.background = m.background
  contains : ∀ a, m'.space.contains a = true ↔ m.space.contains a = true

theorem Stays.refl (h : m.Sound) : Stays m m := ⟨h, rfl, rfl, fun _ => Iff.rfl⟩

theorem Stays.trans (h : Stays m m') (h' : Stays m' m'') : Stays m m'' where
  sound := h'.sound
  collections := h'.collections.trans h.collections
  background := h'.background.trans h.background
  contains a := (h'.contains a).trans (h.contains a)

theorem Stays.leads (h : Stays m m') : Leads m m' :=
  ⟨h.sound, Nat.le_of_eq h.collections.symm, fun _ => .of_same h.background h.contains⟩

/-- An operation that ends outside of a cycle, or makes no object. -/
def Quiet (m m' : Memory) : Prop :=
  m'.background = none ∨ ∀ a, m'.space.contains a = true → m.space.contains a = true

theorem Stays.quiet (h : Stays m m') : Quiet m m' := .inr fun a => (h.contains a).1

/-- What an operation makes is live in the cycle that it ends in, if there is one. -/
def BornLive (m m' : Memory) : Prop := ∀ b, m'.background = some b →
  ∀ a, m'.space.contains a = true → m.space.contains a = true ∨ b.isLive a = true

theorem Quiet.bornLive (h : Quiet m m') : BornLive m m' := by
  intro b hb a ha
  rcases h with hnone | hsub
  · rw [hnone] at hb
    cases hb
  · exact .inl (hsub a ha)

end Memory

open ObjectSpace (SameGraph SameNode)
open Memory (Stays)

namespace ObjectSpace

variable {s : ObjectSpace} {a b : Nat} {f : Record → Record}

theorem contains_update : (s.update a f).contains b = true ↔ s.contains b = true := by
  rw [contains_iff, contains_iff, get?_update]
  split
  · cases s.get? b with
    | none => simp
    | some r => simp
  · rfl

end ObjectSpace

namespace Heap

variable {h h' : Heap}

theorem stays_of_eq (hm : h.memory.Sound) (he : h'.memory = h.memory) :
    Stays h.memory h'.memory := by
  rw [he]
  exact .refl hm

theorem memory_registerFlag (hm : h.memory.Sound) {f : Record → Record}
    (hf : ∀ r, SameNode r (f r)) (a : Nat) :
    Memory.Sound { h.memory with space := h.space.update a f } :=
  hm.sameGraph (ObjectSpace.sameGraph_update hf a)

/-! ## Slots -/

theorem isYounger_iff {s : ObjectSpace} {g : Generation} {t : Nat} : isYounger s g t = true ↔
    t ≠ 0 ∧ ∃ q, s.get? t = some q ∧ q.generation.tier < g.tier := by
  simp [isYounger, Option.any_eq_true]

/-- The record of an object after a store. -/
def withSlot (slot target : Nat) (r : Record) : Record := { r with slots := r.slots.set slot target }

theorem get?_withSlot {s : ObjectSpace} {object slot target b : Nat} {q : Record}
    (hq : (s.update object (withSlot slot target)).get? b = some q) :
    ∃ r, s.get? b = some r ∧ r.SameShape q ∧ q.generation = r.generation ∧
      ∀ i t, q.slots[i]? = some t → (b = object ∧ i = slot ∧ t = target) ∨ r.slots[i]? = some t := by
  rw [ObjectSpace.get?_update] at hq
  split at hq
  next hb =>
    obtain ⟨r, hr, rfl⟩ := Option.map_eq_some_iff.1 hq
    refine ⟨r, hr, ⟨rfl, rfl, rfl, List.length_set ..⟩, rfl, fun i t hi => ?_⟩
    simp only [withSlot, List.getElem?_set] at hi
    split at hi
    next hslot =>
      split at hi
      · cases hi
        exact .inl ⟨hb.symm, hslot.symm, rfl⟩
      · cases hi
    next => exact .inr hi
  next => exact ⟨q, hq, ⟨rfl, rfl, rfl, rfl⟩, rfl, fun _ _ hi => .inr hi⟩

theorem get?_withSlot_some {s : ObjectSpace} {object slot target b : Nat} {r : Record}
    (hr : s.get? b = some r) :
    ∃ q, (s.update object (withSlot slot target)).get? b = some q ∧ q.generation = r.generation := by
  rw [ObjectSpace.get?_update]
  split
  · exact ⟨withSlot slot target r, by rw [hr]; rfl, rfl⟩
  · exact ⟨r, hr, rfl⟩

/-- A store is refused, or it writes the slot, makes its card dirty if the target is younger, and its
card in the watch during a cycle. -/
theorem writeSlot_cases {object slot target : Nat} {r : Except HeapError Unit}
    (hrun : writeSlot object slot target h = .ok (r, h')) : h = h' ∨
      ∃ q, h.space.get? object = some q ∧ slot < q.slots.length ∧
        (target = 0 ∨ h.space.contains target = true) ∧ { h with
          space := h.space.update object (withSlot slot target)
          cards := if isYounger h.space q.generation target
            then h.cards.mark (Object.slotPlace object slot) else h.cards
          writeWatch := if h.watching
            then h.writeWatch.mark (Object.slotPlace object slot) else h.writeWatch } = h' := by
  unfold writeSlot at hrun
  rw [Effect.get_bind, Transition.ofExcept_bind] at hrun
  unfold requireTarget at hrun
  split at hrun
  next htarget =>
    split at htarget
    next hok =>
      unfold fetchObject at hrun
      cases hq : h.space.get? object with
      | none =>
        simp only [hq, Transition.ofExcept_bind] at hrun
        cases hrun
        exact .inl rfl
      | some q =>
        simp only [hq, Transition.ofExcept_bind] at hrun
        by_cases hslot : slot < q.slots.length
        · simp only [hslot, if_true, Effect.lift_bind, Checked.bind_eq_ok, Effect.set_apply] at hrun
          obtain ⟨a, ha, hrun⟩ := hrun
          obtain ⟨rfl, _⟩ := Object.slotAddress_eq_ok.1 ha
          cases hrun
          exact .inr ⟨q, rfl, hslot, hok, rfl⟩
        · simp only [hslot, if_false, Effect.throw_bind] at hrun
          cases hrun
          exact .inl rfl
    next => cases htarget
  next =>
    cases hrun
    exact .inl rfl

theorem writeSlot_eq_ok {object slot target : Nat} {r : Except HeapError Unit}
    (hrun : writeSlot object slot target h = .ok (r, h')) : h' = h ∨
      ∃ q, h.space.get? object = some q ∧ slot < q.slots.length ∧
        (target = 0 ∨ h.space.contains target = true) ∧ h'.memory = { h.memory with
          space := h.space.update object (withSlot slot target)
          cards := if isYounger h.space q.generation target
            then h.cards.mark (Object.slotPlace object slot) else h.cards
          writeWatch := if h.watching
            then h.writeWatch.mark (Object.slotPlace object slot) else h.writeWatch } := by
  obtain rfl | ⟨q, hq, hslot, hok, rfl⟩ := writeSlot_cases hrun
  · exact .inl rfl
  · exact .inr ⟨q, hq, hslot, hok, rfl⟩

/-- The one reference to a younger object that a store can make is the one that it stores. -/
theorem younger_withSlot {s : ObjectSpace} {object slot target o i : Nat} {q : Record}
    (hq : s.get? object = some q) (hy : (s.update object (withSlot slot target)).Younger o i) :
    (o = object ∧ i = slot ∧ isYounger s q.generation target = true) ∨ s.Younger o i := by
  obtain ⟨x, t, z, hx, hi, hne, hz, hlt⟩ := hy
  obtain ⟨y, hy, _, hyg, hslots⟩ := get?_withSlot hx
  obtain ⟨w, hw, _, hwg, _⟩ := get?_withSlot hz
  rw [hyg, hwg] at hlt
  rcases hslots i t hi with ⟨rfl, rfl, rfl⟩ | hold
  · cases hq.symm.trans hy
    exact .inl ⟨rfl, rfl, isYounger_iff.2 ⟨hne, w, hw, hlt⟩⟩
  · exact .inr ⟨y, t, w, hy, hold, hne, hw, hlt⟩

theorem stays_writeSlot (hm : h.memory.Sound) {object slot target : Nat} {r : Except HeapError Unit}
    (hrun : writeSlot object slot target h = .ok (r, h')) : Stays h.memory h'.memory := by
  rcases writeSlot_eq_ok hrun with rfl | ⟨q, hq, hslot, htarget, he⟩
  · exact .refl hm
  · rw [he]
    have hwithin : h.space.Within (h.space.update object (withSlot slot target)) := by
      intro b x hx
      obtain ⟨y, hy, hs, _⟩ := get?_withSlot hx
      exact ⟨y, hy, hs⟩
    have hcontains (b : Nat) :
        (h.space.update object (withSlot slot target)).contains b = true ↔
          h.space.contains b = true := ObjectSpace.contains_update
    have hgrid : h.cards.SameGrid (if isYounger h.space q.generation target
        then h.cards.mark (Object.slotPlace object slot) else h.cards) := by
      split
      · exact h.cards.sameGrid_mark _
      · exact .refl _
    have hwatch : h.writeWatch.SameGrid (if h.watching
        then h.writeWatch.mark (Object.slotPlace object slot) else h.writeWatch) := by
      split
      · exact h.writeWatch.sameGrid_mark _
      · exact .refl _
    obtain ⟨card, hcard⟩ := hm.carded.index?_isSome hm.laid hq hslot
    refine ⟨⟨(hm.laid.within hwithin).congr rfl rfl rfl,
      Memory.SpansUnused.within hm.spans hwithin, ?_, ?_, ?_, ?_⟩, rfl, rfl, hcontains⟩
    · refine ⟨fun o x t hx ht hne => (hcontains t).2 ?_, fun t ht => (hcontains t).2
        (hm.closed.handles t ht), fun x hx t ht => (hcontains t).2 (hm.closed.roots x hx t ht)⟩
      obtain ⟨i, hi⟩ := List.mem_iff_getElem?.1 ht
      obtain ⟨y, hy, _, _, hslots⟩ := get?_withSlot hx
      rcases hslots i t hi with ⟨_, _, rfl⟩ | hold
      · exact htarget.resolve_left hne
      · exact hm.closed.slots o y t hy (List.mem_of_getElem? hold) hne
    · intro x hx g e he
      obtain ⟨y, hy, hg⟩ := hm.sorted x hx g e he
      obtain ⟨z, hz, hzg⟩ := get?_withSlot_some hy
      exact ⟨z, hz, hzg.trans hg⟩
    · refine ⟨hgrid.base.trans hm.carded.base, hgrid.covered.trans hm.carded.covered,
        hgrid.cardSize ▸ hm.carded.cardSize, (hgrid.symm.trans hm.carded.watch).trans hwatch, ?_⟩
      intro o i hy
      rcases younger_withSlot hq hy with ⟨rfl, rfl, hyounger⟩ | hy
      · rw [if_pos hyounger]
        exact CardTable.isDirty_mark_self hcard
      · have hdirty := hm.carded.dirty o i hy
        split
        · exact CardTable.isDirty_mark hdirty _
        · exact hdirty
    · intro b hb
      have hg := hm.guarded b hb
      refine ⟨hg.watching, hg.matched, ?_⟩
      intro o x i t hx hl ht hne
      have hwatching : h.watching = true := hg.watching
      obtain ⟨y, hy, _, _, hslots⟩ := get?_withSlot hx
      simp only [hwatching, if_true]
      rcases hslots i t ht with ⟨rfl, rfl, rfl⟩ | hold
      · exact .inr (.inr (CardTable.isDirty_mark_self ((hm.carded.watch.index? _).trans hcard)))
      · refine (hg.guarded o y i t hy hl hold hne).imp_right fun hr => hr.imp_right fun hd => ?_
        exact CardTable.isDirty_mark hd _

/-! ## Handles -/

/-- A handle is refused for what is no object, or has become one of the table. -/
theorem createHandle_cases {kind : HandleKind} {target : Nat} {r : Except HeapError Nat}
    (hrun : createHandle kind target h = .ok (r, h')) :
    h' = h ∨ ∃ id handles, h.requireTarget target = .ok () ∧
      h.handles.create kind target = .ok (id, handles) ∧ h' = { h with handles } := by
  unfold createHandle at hrun
  rw [Effect.get_bind, Transition.ofExcept_bind] at hrun
  split at hrun
  next htarget =>
    rw [Effect.lift_bind, Checked.bind_eq_ok] at hrun
    obtain ⟨⟨id, handles⟩, hcreate, hrun⟩ := hrun
    simp only [Effect.set_bind, Effect.pure_apply] at hrun
    cases hrun
    exact .inr ⟨id, handles, htarget, hcreate, rfl⟩
  next =>
    cases hrun
    exact .inl rfl

theorem memory_createHandle {kind : HandleKind} {target : Nat} {r : Except HeapError Nat}
    (hrun : createHandle kind target h = .ok (r, h')) :
    h'.memory = { h.memory with handles := h'.handles } := by
  obtain rfl | ⟨_, _, _, _, rfl⟩ := createHandle_cases hrun <;> rfl

/-- A handle that is none stays that way, or it has left the table. -/
theorem freeHandle_cases {id : Nat} {r : Except HeapError Unit}
    (hrun : freeHandle id h = .ok (r, h')) :
    h = h' ∨ ∃ handles, h.handles.release id = .ok handles ∧ { h with handles } = h' := by
  unfold freeHandle at hrun
  rw [Effect.get_bind, Transition.ofExcept_bind] at hrun
  split at hrun
  next handles hrelease =>
    rw [Effect.set_apply] at hrun
    cases hrun
    exact .inr ⟨handles, hrelease, rfl⟩
  next =>
    cases hrun
    exact .inl rfl

theorem memory_freeHandle {id : Nat} {r : Except HeapError Unit}
    (hrun : freeHandle id h = .ok (r, h')) :
    h'.memory = { h.memory with handles := h'.handles } := by
  obtain rfl | ⟨_, _, rfl⟩ := freeHandle_cases hrun <;> rfl

theorem stays_createHandle (hm : h.memory.Sound) {kind : HandleKind} {target : Nat}
    {r : Except HeapError Nat} (hrun : createHandle kind target h = .ok (r, h')) :
    Stays h.memory h'.memory := by
  obtain rfl | ⟨new, handles, htarget, hcreate, rfl⟩ := createHandle_cases hrun
  · exact .refl hm
  · unfold requireTarget at htarget
    split at htarget
    next hok =>
      refine ⟨(hm.handles fun t ht => ?_), rfl, rfl, fun _ => Iff.rfl⟩
      obtain ⟨hne, id, k, hid⟩ := HandleTable.mem_targets.1 ht
      rcases HandleTable.of_find?_create hcreate hid with hid | he
      · exact hm.closed.handles t (HandleTable.mem_targets.2 ⟨hne, id, k, hid⟩)
      · cases he
        exact hok.resolve_left hne
    next => cases htarget

theorem stays_freeHandle (hm : h.memory.Sound) {id : Nat} {r : Except HeapError Unit}
    (hrun : freeHandle id h = .ok (r, h')) : Stays h.memory h'.memory := by
  obtain rfl | ⟨handles, hrelease, rfl⟩ := freeHandle_cases hrun
  · exact .refl hm
  · refine ⟨(hm.handles fun t ht => ?_), rfl, rfl, fun _ => Iff.rfl⟩
    obtain ⟨hne, i, k, hi⟩ := HandleTable.mem_targets.1 ht
    exact hm.closed.handles t
      (HandleTable.mem_targets.2 ⟨hne, i, k, HandleTable.of_find?_release hrelease hi⟩)

/-! ## Finalization -/

/-- Registering is refused for what is no object. -/
theorem registerForFinalization_cases {object : Nat} {r : Except HeapError Unit}
    (hrun : registerForFinalization object h = .ok (r, h')) :
    (h.space.get? object = none ∧ h = h') ∨
      ∃ q, h.space.get? object = some q ∧ { h with
        space := h.space.update object fun r => { r with finalizable := true } }.modifyHeap q.heap
          (fun l => if l.finalization.isRegistered object then l else
            { l with finalization := l.finalization.register object q.generation }) = h' := by
  unfold registerForFinalization fetchObject at hrun
  rw [Effect.get_bind, Transition.ofExcept_bind] at hrun
  cases hq : h.space.get? object with
  | none =>
    simp only [hq] at hrun
    cases hrun
    exact .inl ⟨rfl, rfl⟩
  | some q =>
    simp only [hq, Effect.set_apply] at hrun
    cases hrun
    exact .inr ⟨q, rfl, rfl⟩

theorem registerForFinalization_eq_ok {object : Nat} {r : Except HeapError Unit}
    (hrun : registerForFinalization object h = .ok (r, h')) :
    (h.space.get? object = none ∧ h' = h) ∨
      ∃ q, h.space.get? object = some q ∧ h'.memory = { h.memory with
        space := h.space.update object fun r => { r with finalizable := true }
        queues := h.memory.queues.modify q.heap fun x =>
          if x.isRegistered object then x else x.register object q.generation } := by
  obtain ⟨hnone, rfl⟩ | ⟨q, hq, rfl⟩ := registerForFinalization_cases hrun
  · exact .inl ⟨hnone, rfl⟩
  · refine .inr ⟨q, hq, ?_⟩
    refine memory_modifyHeap_queues (fun l => ?_) fun l => ?_
    · split <;> rfl
    · split <;> rfl

theorem mem_modify {α : Type} {xs : List α} {i : Nat} {f : α → α} {x : α}
    (h : x ∈ xs.modify i f) : x ∈ xs ∨ ∃ y ∈ xs, x = f y := by
  obtain ⟨j, hj⟩ := List.mem_iff_getElem?.1 h
  rw [List.getElem?_modify] at hj
  cases hy : xs[j]? with
  | none =>
    rw [hy] at hj
    cases hj
  | some y =>
    have hmem := List.mem_of_getElem? hy
    rw [hy] at hj
    simp only [Option.map_eq_map, Option.map_some, Option.some.injEq] at hj
    split at hj
    · exact .inr ⟨y, hmem, hj.symm⟩
    · exact .inl (hj ▸ hmem)

theorem modify_congr {α : Type} {xs : List α} {i : Nat} {x : α} {F G : α → α}
    (hx : xs[i]? = some x) (h : F x = G x) : xs.modify i F = xs.modify i G := by
  apply List.ext_getElem?
  intro j
  rw [List.getElem?_modify, List.getElem?_modify]
  by_cases hj : i = j
  · subst hj
    simp only [hx, if_true, Option.map_eq_map, Option.map_some, h]
  · simp only [hj, if_false]

theorem stays_registerForFinalization (hm : h.memory.Sound) {object : Nat}
    {r : Except HeapError Unit} (hrun : registerForFinalization object h = .ok (r, h')) :
    Stays h.memory h'.memory := by
  rcases registerForFinalization_eq_ok hrun with ⟨_, rfl⟩ | ⟨q, hq, he⟩
  · exact .refl hm
  · rw [he]
    have hflag := memory_registerFlag hm
      (f := fun r => { r with finalizable := true }) (fun r => ⟨⟨rfl, rfl, rfl, rfl⟩, rfl, rfl⟩)
      object
    refine ⟨(hflag.queues ?_ ?_), rfl, rfl, fun _ => ObjectSpace.contains_update⟩
    · intro x hx t ht
      rcases mem_modify hx with hx | ⟨y, hy, rfl⟩
      · exact hflag.closed.roots x hx t ht
      · refine hflag.closed.roots y hy t ?_
        split at ht <;> exact ht
    · intro x hx g e hpending
      rcases mem_modify hx with hx | ⟨y, hy, rfl⟩
      · exact hflag.sorted x hx g e hpending
      · split at hpending
        · exact hflag.sorted y hy g e hpending
        · rcases FinalizationQueue.mem_pending_register.1 hpending with hold | ⟨rfl, rfl⟩
          · exact hflag.sorted y hy g e hold
          · refine ⟨{ q with finalizable := true }, ?_, rfl⟩
            show (h.space.update object _).get? object = _
            rw [ObjectSpace.get?_update, if_pos rfl, hq]
            rfl

/-- So is taking the registrations back. -/
theorem suppressFinalization_cases {object : Nat} {r : Except HeapError Bool}
    (hrun : suppressFinalization object h = .ok (r, h')) :
    (h.space.get? object = none ∧ h = h') ∨
      ∃ q, h.space.get? object = some q ∧ { h with
        space := h.space.update object fun r => { r with finalizable := false } }.modifyHeap q.heap
          (fun l => { l with finalization := l.finalization.suppress object }) = h' := by
  unfold suppressFinalization fetchObject at hrun
  rw [Effect.get_bind, Transition.ofExcept_bind] at hrun
  cases hq : h.space.get? object with
  | none =>
    simp only [hq] at hrun
    cases hrun
    exact .inl ⟨rfl, rfl⟩
  | some q =>
    simp only [hq, Effect.set_bind, Effect.pure_apply] at hrun
    cases hrun
    exact .inr ⟨q, rfl, rfl⟩

theorem suppressFinalization_eq_ok {object : Nat} {r : Except HeapError Bool}
    (hrun : suppressFinalization object h = .ok (r, h')) :
    (h.space.get? object = none ∧ h' = h) ∨
      ∃ q, h.space.get? object = some q ∧ h'.memory = { h.memory with
        space := h.space.update object fun r => { r with finalizable := false }
        queues := h.memory.queues.modify q.heap fun x => x.suppress object } := by
  obtain ⟨hnone, rfl⟩ | ⟨q, hq, rfl⟩ := suppressFinalization_cases hrun
  · exact .inl ⟨hnone, rfl⟩
  · exact .inr ⟨q, hq, memory_modifyHeap_queues (fun _ => rfl) fun _ => rfl⟩

theorem stays_suppressFinalization (hm : h.memory.Sound) {object : Nat}
    {r : Except HeapError Bool} (hrun : suppressFinalization object h = .ok (r, h')) :
    Stays h.memory h'.memory := by
  rcases suppressFinalization_eq_ok hrun with ⟨_, rfl⟩ | ⟨q, hq, he⟩
  · exact .refl hm
  · rw [he]
    have hflag := memory_registerFlag hm
      (f := fun r => { r with finalizable := false }) (fun r => ⟨⟨rfl, rfl, rfl, rfl⟩, rfl, rfl⟩)
      object
    refine ⟨(hflag.queues ?_ ?_), rfl, rfl, fun _ => ObjectSpace.contains_update⟩
    · intro x hx t ht
      rcases mem_modify hx with hx | ⟨y, hy, rfl⟩
      · exact hflag.closed.roots x hx t ht
      · exact hflag.closed.roots y hy t (FinalizationQueue.roots_suppress ▸ ht)
    · intro x hx g e hpending
      rcases mem_modify hx with hx | ⟨y, hy, rfl⟩
      · exact hflag.sorted x hx g e hpending
      · exact hflag.sorted y hy g e (FinalizationQueue.mem_pending_of_suppress hpending)

theorem memory_takeReady : h.takeReady.2.memory =
    { h.memory with queues := h.memory.queues.map fun q => (q.takeReady q.readyCount).2 } :=
  memory_modifyHeaps_queues (fun _ => rfl) fun _ => rfl

theorem stays_takeReady (hm : h.memory.Sound) : Stays h.memory h.takeReady.2.memory := by
  rw [memory_takeReady]
  refine ⟨(hm.queues ?_ ?_), rfl, rfl, fun _ => Iff.rfl⟩
  · intro x hx t ht
    obtain ⟨q, hq, rfl⟩ := List.mem_map.1 hx
    exact hm.closed.roots q hq t (FinalizationQueue.mem_roots_of_takeReady ht)
  · intro x hx g e he
    obtain ⟨q, hq, rfl⟩ := List.mem_map.1 hx
    exact hm.sorted q hq g e he

/-- The heap when the finalizers of a batch are done, before they are counted. -/
def doneRunning (batch : List (Nat × FinalizableEntry)) (h : Heap) : Heap :=
  batch.foldl (fun h x => h.modifyHeap x.1 fun l =>
    { l with finalization := l.finalization.finishRunning x.2.object }) h

/-- What the end of each finalizer keeps the end of the batch keeps. -/
theorem doneRunning_induct {P : Heap → Prop} (hstart : P h)
    (hstep : ∀ k i object, P k → P (k.modifyHeap i fun l =>
      { l with finalization := l.finalization.finishRunning object }))
    (batch : List (Nat × FinalizableEntry)) : P (h.doneRunning batch) :=
  List.foldlRecOn batch _ hstart fun k hk x _ => hstep k x.1 x.2.object hk

theorem memory_finishRunning (object : Nat) :
    (h.modifyHeap i fun l =>
      { l with finalization := l.finalization.finishRunning object }).memory =
      { h.memory with queues := h.memory.queues.modify i (·.finishRunning object) } :=
  memory_modifyHeap_queues (fun _ => rfl) fun _ => rfl

/-- Counting and publishing the outcome of a batch touches no part of the memory. -/
theorem memory_finishReady (batch : List (Nat × FinalizableEntry)) (report : FinalizerReport) :
    (h.finishReady batch report).memory = (h.doneRunning batch).memory := by
  unfold finishReady
  rw [memory_publish]
  rfl

theorem stays_finishReady (hm : h.memory.Sound) (batch : List (Nat × FinalizableEntry))
    (report : FinalizerReport) : Stays h.memory (finishReady batch report h).memory := by
  have hone {h : Heap} (hm : h.memory.Sound) (i object : Nat) :
      Stays h.memory (h.modifyHeap i fun l =>
        { l with finalization := l.finalization.finishRunning object }).memory := by
    rw [memory_finishRunning]
    refine ⟨hm.queues ?_ ?_, rfl, rfl, fun _ => Iff.rfl⟩
    · intro x hx t ht
      rcases mem_modify hx with hx | ⟨y, hy, rfl⟩
      · exact hm.closed.roots x hx t ht
      · exact hm.closed.roots y hy t (FinalizationQueue.mem_roots_of_finishRunning ht)
    · intro x hx g e he
      rcases mem_modify hx with hx | ⟨y, hy, rfl⟩
      · exact hm.sorted x hx g e he
      · rw [FinalizationQueue.pending_finishRunning] at he
        exact hm.sorted y hy g e he
  rw [memory_finishReady]
  exact doneRunning_induct (P := fun k => Stays h.memory k.memory) (.refl hm)
    (fun k i object hk => hk.trans (hone hk.sound i object)) batch

theorem map_mapIdx_of_same {α β : Type} {f : Nat → α → α} {g : α → β}
    (h : ∀ i a, g (f i a) = g a) (xs : List α) : (xs.mapIdx f).map g = xs.map g := by
  apply List.ext_getElem?
  intro i
  rw [List.getElem?_map, List.getElem?_map, List.getElem?_mapIdx, Option.map_map]
  cases xs[i]? with
  | none => rfl
  | some a => exact congrArg some (h i a)

/-- The heap with the roots and the outcome of an analysis, before it is published. -/
def analyzed (h : Heap) : Heap :=
  { h with heaps := h.heaps.mapIdx fun i l => { l with
      internalRoots := h.rootsIn i
      analysisSucceeded :=
        (HeapAnalysis.ofRoots h.space h.roots Diagnostics.maxInternalRoots).success } }

theorem analyze_cases {r : Except HeapError HeapAnalysis} (hrun : analyze h = .ok (r, h')) :
    h.analyzed.publish = h' := by
  unfold analyze at hrun
  rw [Effect.get_bind, Effect.set_bind, Effect.pure_apply] at hrun
  cases hrun
  rfl

/-- An analysis sets two fields of a logical heap. -/
theorem map_analyzed {β : Type} {g : LogicalHeap → β} (hg : ∀ l roots success,
    g { l with internalRoots := roots, analysisSucceeded := success } = g l) :
    h.analyzed.heaps.map g = h.heaps.map g :=
  map_mapIdx_of_same (fun _ _ => hg ..) h.heaps

theorem memory_analyze {r : Except HeapError HeapAnalysis} (hrun : analyze h = .ok (r, h')) :
    h'.memory = h.memory := by
  obtain rfl := analyze_cases hrun
  rw [memory_publish]
  have hsegments := map_analyzed (h := h) (g := LogicalHeap.segments) fun _ _ _ => rfl
  have hqueues := map_analyzed (h := h) (g := LogicalHeap.finalization) fun _ _ _ => rfl
  simp only [memory, hsegments, hqueues]
  rfl

theorem stays_analyze (hm : h.memory.Sound) {r : Except HeapError HeapAnalysis}
    (hrun : analyze h = .ok (r, h')) : Stays h.memory h'.memory :=
  stays_of_eq hm (memory_analyze hrun)

end Heap

end GenHeap
