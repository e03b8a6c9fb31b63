import GenHeap.Proofs.Heap.Preservation

/-!
Handles over collections of both kinds. A handle goes with its object. Only weak ones are emptied,
and only those whose object is removed, even if another object takes its address.
-/

namespace GenHeap

/-- The handles after the objects that are `left` have moved by `f`: all the same, of the same
objects, but that the weak ones of other objects are empty. -/
structure HandleTable.Follows (f : Nat → Nat) (left : Nat → Prop) (t t' : HandleTable) : Prop where
  free : t'.free = t.free
  none : ∀ {id}, t.find? id = none → t'.find? id = none
  empty : ∀ {id kind}, t.find? id = some ⟨kind, 0⟩ → t'.find? id = some ⟨kind, 0⟩
  held : ∀ {id kind a}, t.find? id = some ⟨kind, a⟩ → kind ≠ .weak → a ≠ 0 → left a
  named : ∀ {id kind a}, t.find? id = some ⟨kind, a⟩ → left a →
    t'.find? id = some ⟨kind, f a⟩ ∧ f a ≠ 0
  cleared : ∀ {id a}, t.find? id = some ⟨.weak, a⟩ → ¬ left a → t'.find? id = some ⟨.weak, 0⟩

theorem HandleTable.follows_relocate {t : HandleTable} {f : Nat → Nat} {left : Nat → Prop}
    {found : Nat → Bool} (hfound : ∀ a, found a = true ↔ left a) (hzero : f 0 = 0)
    (hnonzero : ∀ a, left a → f a ≠ 0)
    (hheld : ∀ id kind a, t.find? id = some ⟨kind, a⟩ → kind ≠ .weak → a ≠ 0 → left a) :
    Follows f left t ((t.clearDeadWeak found).relocate f) := by
  have hview (id : Nat) : ((t.clearDeadWeak found).relocate f).find? id = (t.find? id).map fun x =>
      ⟨x.kind, f (if x.isStale found then 0 else x.target)⟩ := by
    rw [find?_relocate, find?_clearDeadWeak]
    cases t.find? id with
    | none => rfl
    | some x => cases hstale : x.isStale found <;> simp [hstale]
  have hkept {id : Nat} {x : Handle} (hid : t.find? id = some x) (hstale : x.isStale found = false) :
      ((t.clearDeadWeak found).relocate f).find? id = some ⟨x.kind, f x.target⟩ := by
    simp [hview, hid, hstale]
  constructor
  · rfl
  · intro id hid
    rw [hview, hid]
    rfl
  · intro id kind hid
    rw [hkept hid (by simp [Handle.isStale])]
    simp only [hzero]
  · intro id kind a hid hkind hne
    exact hheld id kind a hid hkind hne
  · intro id kind a hid hleft
    refine ⟨hkept hid ?_, hnonzero a hleft⟩
    simp [Handle.isStale, (hfound a).2 hleft]
  · intro id a hid hgone
    have hdead : found a = false := by
      rw [← Bool.not_eq_true, hfound]
      exact hgone
    by_cases hne : a = 0
    · subst hne
      rw [hkept hid (by simp [Handle.isStale])]
      simp only [hzero]
    · have hstale : Handle.isStale found ⟨.weak, a⟩ = true := by
        simp [Handle.isStale, hne, hdead]
      simp [hview, hid, hstale, hzero]

namespace Heap

variable {h h' : Heap} {c : Generation} {f : Nat → Nat} {left : Nat → Prop}

/-- A collection of `c` that leaves some objects, which the handles follow. Among these are all that
are not condemned, are reached from the roots, or wait for their finalizer. -/
structure Followed (c : Generation) (f : Nat → Nat) (left : Nat → Prop) (h h' : Heap) : Prop
    extends Relocates c f left h h' where
  objects : ∀ b, h'.space.contains b = true ↔ ∃ a, left a ∧ f a = b
  table : h.handles.Follows f left h'.handles
  spared : ∀ a, h.space.contains a = true → ¬ h.space.Condemned c a → left a
  inUse : ∀ a, h.InUse a → left a
  waiting : ∀ l ∈ h.heaps, ∀ g, ∀ e ∈ l.finalization.pending.get g, left e.object

theorem followed_of_culled (hm : h.memory.Sound)
    (hc : Memory.Culled c f left h.memory h'.memory) : Followed c f left h h' := by
  refine ⟨relocates_of_culled hm hc, fun b => ⟨hc.sources, ?_⟩, ?_, fun a => hc.spared, ?_, ?_⟩
  · rintro ⟨a, ha, rfl⟩
    exact hc.contains_forward ha
  · obtain ⟨found, hfound, hhandles⟩ := hc.handles
    have hhandles : h'.handles = (h.handles.clearDeadWeak found).relocate f := hhandles
    rw [hhandles]
    apply HandleTable.follows_relocate hfound (hc.zero hm)
    · intro a ha hz
      obtain ⟨q, hq⟩ := ObjectSpace.contains_iff.1 (hc.contains_forward ha)
      rw [hz, hc.sound.laid.zero_free] at hq
      cases hq
    · intro id kind a hid hkind hne
      exact hc.roots (.inl (HandleTable.mem_roots.2 ⟨hne, id, kind, hid, hkind⟩))
  · intro a ha
    exact hc.reached (fun t ht _ => hc.roots (mem_roots.1 ht)) ha
  · intro l hl g e he
    exact hc.pending (List.mem_map_of_mem hl) he

/-- The targets of all handles are objects. In a collection of either kind, a weak handle whose object
is left names it at its new address, one whose object is removed is empty, and nothing else happens
to the handles. The collections of an allocation begin in such states too. -/
theorem handles_exact (hr : h.Reachable) :
    (∀ id kind a, h.handles.find? id = some ⟨kind, a⟩ → a ≠ 0 → h.space.contains a = true) ∧
    (∀ generation reason answer h', collect generation reason h = .ok (answer, h') →
      (∃ summary, answer = .ok summary) ∧
        ∃ f left, Followed (h.condemnedOf generation) f left h h') ∧
    ∀ b answer h', h.background = some b → completeBackground h = .ok (answer, h') →
      (∃ summary, answer = .ok (some summary)) ∧ ∃ left, Followed .gen2 id left h h' ∧
        ∀ a, h.space.contains a = true → b.isLive a = true → left a := by
  have hm := hr.sound
  refine ⟨?_, ?_, ?_⟩
  · intro id kind a hid hne
    exact hm.closed.handles a (HandleTable.mem_targets.2 ⟨hne, id, kind, hid⟩)
  · intro generation reason answer h' hrun
    obtain ⟨summary, f, rfl, hc⟩ := collect_eq_ok hm hrun
    exact ⟨⟨summary, rfl⟩, f, _, followed_of_culled hm (Memory.culled_of_collected hm hc)⟩
  · intro b answer h' hb hrun
    obtain ⟨summary, live, rfl, hc⟩ := completeBackground_eq_ok hm hb hrun
    refine ⟨⟨summary, rfl⟩, _, followed_of_culled hm (Memory.culled_of_completed hm hc), ?_⟩
    intro a ha hl
    exact ⟨ha, hc.cycle ha hl⟩

/-- The second object takes the place of the first, whose weak handle does not name it. -/
theorem handles_exact_page : ∃ h h' answer, h.Reachable ∧
    collect .gen0 .inducedCompacting h = .ok (answer, h') ∧
    h.handles.find? 0 = some ⟨.weak, 4096⟩ ∧ h.handles.find? 1 = some ⟨.weak, 4160⟩ ∧
    h'.handles.find? 0 = some ⟨.weak, 0⟩ ∧ h'.handles.find? 1 = some ⟨.weak, 4096⟩ ∧
    ∃ f left, Followed (h.condemnedOf .gen0) f left h h' := by
  have hpage : leadsTo pageConfig
      [.allocate 0 { size := 64 }, .allocate 0 { size := 64 }, .createHandle .weak 4096,
        .createHandle .weak 4160, .createHandle .strong 4160]
      (fun h => (h.handles.find? 0 == some ⟨.weak, 4096⟩ &&
          h.handles.find? 1 == some ⟨.weak, 4160⟩) &&
        ((collect .gen0 .inducedCompacting).apply h).toOption.any fun x =>
          x.2.handles.find? 0 == some ⟨.weak, 0⟩ &&
            x.2.handles.find? 1 == some ⟨.weak, 4096⟩) = true := by
    decide +kernel
  obtain ⟨h, hr, hp⟩ := exists_of_leadsTo hpage
  obtain ⟨hbefore, hp⟩ := Bool.and_eq_true_iff.1 hp
  obtain ⟨⟨answer, h'⟩, hrun, hafter⟩ := Checked.of_any hp
  obtain ⟨hfirst, hsecond⟩ := Bool.and_eq_true_iff.1 hbefore
  obtain ⟨hfirst', hsecond'⟩ := Bool.and_eq_true_iff.1 hafter
  obtain ⟨_, hfollowed⟩ := (handles_exact hr).2.1 _ _ _ _ hrun
  exact ⟨h, h', answer, hr, hrun, eq_of_beq hfirst, eq_of_beq hsecond, eq_of_beq hfirst',
    eq_of_beq hsecond', hfollowed⟩

end Heap

end GenHeap
