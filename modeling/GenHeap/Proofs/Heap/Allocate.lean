import GenHeap.Proofs.Heap.Placement
import GenHeap.Proofs.ObjectSize

/-!
A new object: large enough for its slots, all of them empty, in a block of its own, and live for the
cycle in progress.
-/

namespace GenHeap

open Memory (BornLive Leads)

/-- The space `s'` has one more object than `s`, and its slots are empty. -/
structure ObjectSpace.Adds (s : ObjectSpace) (a : Nat) (new : Record) (s' : ObjectSpace) : Prop where
  free : s.get? a = none
  get? : ∀ b, s'.get? b = if a = b then some new else s.get? b
  empty : ∀ t ∈ new.slots, t = 0

namespace ObjectSpace.Adds

variable {s s' : ObjectSpace} {a b o slot t : Nat} {new r : Record}

theorem self (h : s.Adds a new s') : s'.get? a = some new := (h.get? a).trans (if_pos rfl)

theorem old (h : s.Adds a new s') (hr : s.get? b = some r) : s'.get? b = some r := by
  rw [h.get?, if_neg, hr]
  rintro rfl
  rw [h.free] at hr
  cases hr

theorem contains (h : s.Adds a new s') (hb : s.contains b = true) : s'.contains b = true := by
  obtain ⟨r, hr⟩ := contains_iff.1 hb
  exact contains_iff.2 ⟨r, h.old hr⟩

theorem eq_or_contains (h : s.Adds a new s') (hb : s'.contains b = true) :
    b = a ∨ s.contains b = true := by
  obtain ⟨r, hr⟩ := contains_iff.1 hb
  rw [h.get?] at hr
  split at hr
  next he => exact .inl he.symm
  next => exact .inr (contains_iff.2 ⟨r, hr⟩)

/-- A slot that is not empty belongs to an object from before. -/
theorem of_slot (h : s.Adds a new s') (hs : s.NoDangling) (hr : s'.get? o = some r)
    (ht : r.slots[slot]? = some t) (hne : t ≠ 0) : s.get? o = some r ∧ s.contains t = true := by
  have hmem := List.mem_of_getElem? ht
  rw [h.get?] at hr
  split at hr
  · cases hr
    exact absurd (h.empty t hmem) hne
  · exact ⟨hr, hs o r t hr hmem hne⟩

theorem noDangling (h : s.Adds a new s') (hs : s.NoDangling) : s'.NoDangling := by
  intro o r t hr ht hne
  obtain ⟨slot, hslot⟩ := List.mem_iff_getElem?.1 ht
  exact h.contains (h.of_slot hs hr hslot hne).2

theorem younger (h : s.Adds a new s') (hs : s.NoDangling) (hy : s'.Younger o slot) :
    s.Younger o slot := by
  obtain ⟨r, t, q, hr, ht, hne, hq, hlt⟩ := hy
  obtain ⟨hr, htc⟩ := h.of_slot hs hr ht hne
  obtain ⟨q', hq'⟩ := contains_iff.1 htc
  cases hq.symm.trans (h.old hq')
  exact ⟨r, t, q, hr, ht, hne, hq', hlt⟩

end ObjectSpace.Adds

namespace Heap

variable {h h' : Heap} {i x a size : Nat} {target : Generation} {request : AllocRequest}

theorem install_eq_ok (hrun : install i request target size a x h = .ok h') :
    ∃ space, h.space.insert a (newRecord i request target size x) = .ok space ∧
      h'.memory = { h.memory with
        space
        background := h.background.map (BackgroundMark.allocateBlack · a)
        queues := h.memory.queues.modify i fun q =>
          if request.finalizable then q.register a target else q } := by
  simp only [install, Checked.bind_eq_ok] at hrun
  obtain ⟨space, hspace, statistics, _, hrun⟩ := hrun
  refine ⟨space, hspace, ?_⟩
  have hq := memory_updateHeap_queues
    (q := fun q => if request.finalizable then q.register a target else q) (fun l l' hl' => ?_) hrun
  · exact hq
  · simp only [Checked.bind_eq_ok, Checked.pure_eq_ok] at hl'
    obtain ⟨budgets, _, rfl⟩ := hl'
    exact ⟨rfl, rfl⟩

theorem references_newRecord : ∀ t ∈ (newRecord i request target size x).slots, t = 0 :=
  fun _ ht => (List.mem_replicate.1 ht).2

theorem sorted_register {m : Memory} (hm : m.Sorted) {new : Record} {space : ObjectSpace}
    (hadds : m.space.Adds a new space) (finalizable : Bool) :
    Memory.Sorted { m with
      space
      queues := m.queues.modify i fun q =>
        if finalizable then q.register a new.generation else q } := by
  intro q' hq' g e he
  have hsorted {q : FinalizationQueue} (hq : q ∈ m.queues) (he : e ∈ q.pending.get g) :
      ∃ r, space.get? e.object = some r ∧ r.generation = g := by
    obtain ⟨r, hr, hg⟩ := hm q hq g e he
    exact ⟨r, hadds.old hr, hg⟩
  rcases mem_modify hq' with hq | ⟨q, hq, rfl⟩
  · exact hsorted hq he
  · split at he
    · rcases FinalizationQueue.mem_pending_register.1 he with he | ⟨rfl, rfl⟩
      · exact hsorted hq he
      · exact ⟨new, hadds.self, rfl⟩
    · exact hsorted hq he

theorem sound_install {space : ObjectSpace} (hm : h.memory.Sound) (hf : h.memory.Fresh i x a size)
    (hadds : h.space.Adds a (newRecord i request target size x) space)
    (hlaid : Memory.Laid { h.memory with space }) :
    Memory.Sound { h.memory with
      space
      background := h.background.map (BackgroundMark.allocateBlack · a)
      queues := h.memory.queues.modify i fun q =>
        if request.finalizable then q.register a target else q } where
  laid := hlaid.congr rfl rfl rfl
  spans := Memory.SpansUnused.insert hm.spans (r := newRecord i request target size x) hf hadds.get?
  closed := by
    refine ⟨hadds.noDangling hm.closed.slots, fun t ht => hadds.contains (hm.closed.handles t ht), ?_⟩
    intro q' hq' t ht
    rcases mem_modify hq' with hq | ⟨q, hq, rfl⟩
    · exact hadds.contains (hm.closed.roots q' hq t ht)
    · refine hadds.contains (hm.closed.roots q hq t ?_)
      split at ht <;> exact ht
  sorted := sorted_register hm.sorted hadds request.finalizable
  carded :=
    ⟨hm.carded.base, hm.carded.covered, hm.carded.cardSize, hm.carded.watch,
      fun o slot hy => hm.carded.dirty o slot (hadds.younger hm.closed.slots hy)⟩
  guarded := by
    intro b' hb'
    obtain ⟨b, hb, rfl⟩ := Option.map_eq_some_iff.1 hb'
    have hg := hm.guarded b hb
    refine ⟨hg.watching, BackgroundMark.matched_allocateBlack hg.matched a, ?_⟩
    rw [BackgroundMark.worklist_allocateBlack]
    exact hg.guarded.allocateBlack hg.matched hlaid.apart references_newRecord hadds.get?
      hm.closed.slots

/-- A new object in a fresh block is one object more. -/
theorem adds_install (hm : h.memory.Laid) (hf : h.memory.Fresh i x a size) (hpos : 0 < size)
    (hrun : install i request target size a x h = .ok h') :
    ∃ space, h.space.Adds a (newRecord i request target size x) space ∧
      h'.memory = { h.memory with
        space
        background := h.background.map (BackgroundMark.allocateBlack · a)
        queues := h.memory.queues.modify i fun q =>
          if request.finalizable then q.register a target else q } := by
  obtain ⟨space, hinsert, he⟩ := install_eq_ok hrun
  exact ⟨space, ⟨hf.get?_eq_none hm hpos, fun _ => ObjectSpace.get?_insert hinsert,
    references_newRecord⟩, he⟩

/-- A new object is large enough, in a fresh block, and live; nothing else changes. -/
theorem leads_install (hm : h.memory.Sound) (hf : h.memory.Fresh i x a size)
    (hsize : Object.minBytes ≤ size ∧ Object.headerBytes + request.slots * Object.slotBytes ≤ size)
    (hrun : install i request target size a x h = .ok h') : Leads h.memory h'.memory := by
  have hpos : 0 < size := Nat.lt_of_lt_of_le (by decide) hsize.1
  obtain ⟨space, hadds, he⟩ := adds_install hm.laid hf hpos hrun
  have hlaid : Memory.Laid { h.memory with space } := hm.laid.insert
    (r := newRecord i request target size x) hf hsize.1 (by
      show Object.headerBytes + (List.replicate request.slots 0).length * _ ≤ size
      rw [List.length_replicate]
      exact hsize.2) hadds.get?
  have hsound := sound_install hm hf hadds hlaid
  rw [he]
  refine ⟨hsound, Nat.le_refl _, fun _ => ⟨fun b hb => hadds.contains hb, fun b hb => ?_⟩⟩
  have hb : h.background = some b := hb
  have hmatched := (hm.guarded b hb).matched
  have hlive {c : Nat} (hc : space.contains c = true) :
      (b.allocateBlack a).isLive c = true ↔ b.isLive c = true ∨ c = a := by
    obtain ⟨r, hr⟩ := ObjectSpace.contains_iff.1 hc
    exact BackgroundMark.isLive_allocateBlack hmatched hlaid.apart hadds.self hr
  refine ⟨b.allocateBlack a, by rw [hb]; rfl, fun c hc hl => ?_, fun c hc => ?_⟩
  · exact (hlive (hadds.contains hc)).2 (.inl hl)
  · rcases hadds.eq_or_contains hc with rfl | hold
    · exact .inr ((hlive hc).2 (.inr rfl))
    · exact .inl hold

theorem background_install {b' : BackgroundMark}
    (hrun : install i request target size a x h = .ok h') (hb' : h'.background = some b') :
    ∃ b, h.background = some b ∧ h'.memory.collections = h.memory.collections := by
  obtain ⟨space, _, he⟩ := install_eq_ok hrun
  have hb : h'.background = h.background.map (BackgroundMark.allocateBlack · a) :=
    congrArg Memory.background he
  rw [hb, Option.map_eq_some_iff] at hb'
  obtain ⟨b, hb, _⟩ := hb'
  exact ⟨b, hb, by rw [he]⟩

theorem leads_allocate (hm : h.memory.Sound) {y : Except HeapError Nat}
    (hrun : allocate i request h = .ok (y, h')) :
    Leads h.memory h'.memory ∧ BornLive h.memory h'.memory := by
  cases allocate_cases hrun with
  | unknown => exact ⟨.refl hm, fun _ _ _ ha => .inl ha⟩
  | oversized _ _ hfail =>
    obtain ⟨_, hsame⟩ := memory_fail hfail
    have hs := stays_of_eq hm hsame
    exact ⟨hs.leads, hs.quiet.bornLive⟩
  | uncollected _ _ hbudget =>
    obtain ⟨_, hq, hl⟩ := leads_requireBudget hm hbudget
    exact ⟨hl, hq.bornLive⟩
  | unplaced _ _ hbudget hplace =>
    obtain ⟨_, hq, hl⟩ := leads_requireBudget hm hbudget
    obtain ⟨hstays, hl₂, _⟩ := leads_placeOrCollect hl.sound hplace
    exact ⟨hl.trans hl₂, (hq.of_placed hstays).bornLive⟩
  | installed _ hsize hbudget hplace hinstall =>
    have heff := (Option.filter_eq_some_iff.1 hsize).1
    obtain ⟨_, hq, hl⟩ := leads_requireBudget hm hbudget
    obtain ⟨hstays, hl₂, hfresh⟩ := leads_placeOrCollect hl.sound hplace
    have hq₂ := hq.of_placed hstays
    have hl₃ := leads_install hl₂.sound (hfresh _ _ rfl) (AllocRequest.le_of_effectiveSize? heff)
      hinstall
    refine ⟨(hl.trans hl₂).trans hl₃, fun b' hb' c hc => ?_⟩
    obtain ⟨b, hb, hcollections⟩ := background_install hinstall hb'
    obtain ⟨b'', hb'', hlive, hnew⟩ := (hl₃.continues hcollections).cycle b hb
    cases hb'.symm.trans hb''
    rcases hnew c hc with hold | hlive
    · exact (hq₂.bornLive b hb c hold).imp_right (hlive c hold)
    · exact .inr hlive

end Heap

end GenHeap
