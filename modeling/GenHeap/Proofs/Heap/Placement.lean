import GenHeap.Proofs.Heap.Cycle

/-!
Allocation: the block found for a new object is fresh, whichever way it was found, so the object can
be put there; what is collected or started for it on the way keeps the invariant.
-/

namespace GenHeap

open Memory (Leads Quiet Rearranged Stays)

namespace Memory

variable {m m' : Memory}

theorem Sound.rearranged (h : m.Sound) (hr : Rearranged m m') : m'.Sound := by
  refine ⟨hr.laid, hr.spans, ?_, ?_, ?_, ?_⟩
  all_goals rw [hr.rest]
  · exact h.closed.congr rfl rfl rfl
  · exact h.sorted
  · exact h.carded.congr hr.range rfl rfl (.refl _)
  · intro b hb
    have hg := h.guarded b hb
    exact ⟨hg.watching, hg.matched, hg.guarded⟩

theorem Sound.stays_rearranged (h : m.Sound) (hr : Rearranged m m') : Stays m m' := by
  have hs := h.rearranged hr
  rw [hr.rest] at hs ⊢
  exact ⟨hs, rfl, rfl, fun _ => Iff.rfl⟩

theorem Quiet.of_placed {m'' : Memory} (h : Quiet m m')
    (h' : m''.background = none ∨ Stays m' m'') : Quiet m m'' := by
  rcases h' with hnone | hs
  · exact .inl hnone
  · refine h.imp (fun hnone => hs.background.trans hnone) fun hsub a ha => ?_
    exact hsub a ((hs.contains a).1 ha)

end Memory

namespace Heap

variable {h h' : Heap} {i x a size : Nat} {l : LogicalHeap} {target : Generation}

/-! ## How a search goes -/

/-- What an operation on segments answers decides how a search goes on; it ends no search of itself. -/
theorem tryArena_bind {α β : Type} {t : Transition SegmentArena α}
    {f : Except HeapError α → ExceptT OutOfMemory.Reason (StateT Heap Checked) β}
    {y : Except OutOfMemory.Reason β} (hrun : (tryArena i t >>= f) h = .ok (y, h')) :
    ∃ q h₁, onArena i t h = .ok (q, h₁) ∧ f q h₁ = .ok (y, h') := by
  have hanswers {r : Except OutOfMemory.Reason (Except HeapError α)} {k : Heap}
      (harena : tryArena i t h = .ok (r, k)) : ∃ q, r = .ok q ∧ onArena i t h = .ok (q, k) := by
    unfold tryArena at harena
    rw [Checked.bind_eq_ok] at harena
    obtain ⟨⟨q, h₁⟩, hq, harena⟩ := harena
    cases harena
    exact ⟨q, rfl, hq⟩
  rw [Effect.bind_eq_ok] at hrun
  rcases hrun with ⟨q, h₁, harena, hrun⟩ | ⟨e, harena, _⟩
  · obtain ⟨_, he, hq⟩ := hanswers harena
    cases he
    exact ⟨q, h₁, hq, hrun⟩
  · obtain ⟨_, he, _⟩ := hanswers harena
    cases he

/-- The answer of a search that ends behind the pointer of a segment. -/
def bumped (id : Nat) : Except HeapError (Option Nat) → Except OutOfMemory.Reason (Nat × Nat)
  | .ok (some a) => .ok (a, id)
  | .ok none => .error .addressSpaceExhausted
  | .error _ => .error .commitFailed

theorem bumped_eq_ok {id : Nat} {q : Except HeapError (Option Nat)}
    (hq : bumped id q = .ok (a, x)) : q = .ok (some a) ∧ x = id := by
  rcases q with e | _ | b <;> cases hq
  exact ⟨rfl, rfl⟩

/-- How a search in a new segment goes. -/
inductive PlacesInNew (i : Nat) (target : Generation) (size : Nat) (h : Heap) :
    Except OutOfMemory.Reason (Nat × Nat) → Heap → Prop where
  | without {e h₁} (fragmented : Bool)
      (hgrow : onArena i (SegmentArena.grow target size) h = .ok (.error e, h₁)) :
      PlacesInNew i target size h (.error (growthFailure fragmented e))
        (h₁.countExpansion i .noMemory)
  | grown {growth h₁ q h₂} (x : Expansion)
      (hgrow : onArena i (SegmentArena.grow target size) h = .ok (.ok growth, h₁))
      (hbump : onArena i (SegmentArena.bump growth.segment size) (h₁.countExpansion i x) =
        .ok (q, h₂)) : PlacesInNew i target size h (bumped growth.segment q) h₂

theorem placeInNew_cases {y : Except OutOfMemory.Reason (Nat × Nat)}
    (hrun : placeInNew i target size l h = .ok (y, h')) : PlacesInNew i target size h y h' := by
  unfold placeInNew at hrun
  simp only [Effect.lift_bind, Checked.bind_eq_ok] at hrun
  obtain ⟨free, _, hrun⟩ := hrun
  obtain ⟨q, h₁, hgrow, hrun⟩ := tryArena_bind hrun
  cases q with
  | error e =>
    simp only [Effect.modify_bind, Effect.throw_apply] at hrun
    cases hrun
    exact .without _ hgrow
  | ok growth =>
    simp only [Effect.modify_bind] at hrun
    obtain ⟨q, h₂, hbump, hrun⟩ := tryArena_bind hrun
    have hplaces := PlacesInNew.grown _ hgrow hbump
    rcases q with e | _ | b
    all_goals
      cases hrun
      exact hplaces

/-- How a search goes that no limit forbids. -/
inductive Places (i : Nat) (target : Generation) (size : Nat) (h : Heap) :
    Except OutOfMemory.Reason (Nat × Nat) → Heap → Prop where
  | nowhere (hnone : h.heaps[i]? = none) : Places i target size h (.error .addressSpaceExhausted) h
  | span {l a id segments} (hheap : h.heaps[i]? = some l)
      (hfree : takeFree size l.segments (l.segments.candidates target) = .ok (some (a, id, segments))) :
      Places i target size h (.ok (a, id)) (h.withArena i ⟨segments, h.provider⟩)
  | behind {l id q h'} (hheap : h.heaps[i]? = some l)
      (hfree : takeFree size l.segments (l.segments.candidates target) = .ok none)
      (hseg : l.segments.allocSegment? target = some id)
      (hbump : onArena i (SegmentArena.bump id size) h = .ok (q, h')) (hq : q ≠ .ok none) :
      Places i target size h (bumped id q) h'
  | ahead {l h₁ y h'} (hheap : h.heaps[i]? = some l)
      (hfree : takeFree size l.segments (l.segments.candidates target) = .ok none)
      (hseg : l.segments.allocSegment? target = none ∧ h₁ = h ∨ ∃ id,
        l.segments.allocSegment? target = some id ∧
          onArena i (SegmentArena.bump id size) h = .ok (.ok none, h₁))
      (hnew : PlacesInNew i target size h₁ y h') : Places i target size h y h'

theorem place_cases {y : Except OutOfMemory.Reason (Nat × Nat)}
    (hrun : place i target size h = .ok (y, h')) :
    (h.config.hardLimit.any (· < Word.addSat h.space.totalBytes size) = true ∧
        y = .error .budgetExceeded ∧ h' = h) ∨
      ¬ h.config.hardLimit.any (· < Word.addSat h.space.totalBytes size) = true ∧
        Places i target size h y h' := by
  unfold place at hrun
  rw [Effect.get_bind] at hrun
  split at hrun
  next hover =>
    cases hrun
    exact .inl ⟨hover, rfl, rfl⟩
  next hunder =>
    refine .inr ⟨hunder, ?_⟩
    cases hheap : h.heaps[i]? with
    | none =>
      simp only [hheap] at hrun
      cases hrun
      exact .nowhere hheap
    | some l =>
      simp only [hheap, Effect.lift_bind, Checked.bind_eq_ok] at hrun
      obtain ⟨found, hfree, hrun⟩ := hrun
      rcases found with _ | ⟨b, id, segments⟩
      · simp only at hrun
        cases hseg : l.segments.allocSegment? target with
        | none =>
          simp only [hseg] at hrun
          exact .ahead hheap hfree (.inl ⟨hseg, rfl⟩) (placeInNew_cases hrun)
        | some id =>
          simp only [hseg] at hrun
          obtain ⟨q, h₁, hbump, hrun⟩ := tryArena_bind hrun
          rcases q with e | _ | b
          · cases hrun
            exact .behind hheap hfree hseg hbump nofun
          · exact .ahead hheap hfree (.inr ⟨id, hseg, hbump⟩) (placeInNew_cases hrun)
          · cases hrun
            exact .behind hheap hfree hseg hbump nofun
      · simp only [Effect.set_bind] at hrun
        cases hrun
        exact .span hheap hfree

/-! ## Finding a block -/

theorem finds_onArena {α : Type} {t : Transition SegmentArena α} {q : Except HeapError α}
    (hi : i < h.heaps.length) (hrun : onArena i t h = .ok (q, h')) : ∃ arena,
      t { table := h.heaps[i].segments, provider := h.provider } = .ok (q, arena) ∧
      h'.memory = h.memory.withArena i arena := by
  obtain ⟨arena, hq, rfl⟩ := (onArena_eq_ok (List.getElem?_eq_getElem hi)).1 hrun
  exact ⟨arena, hq, memory_withArena⟩

theorem rearranged_bump (hl : h.memory.Laid) (hu : h.memory.SpansUnused) (hi : i < h.heaps.length)
    {q : Except HeapError (Option Nat)}
    (hrun : onArena i (SegmentArena.bump x size) h = .ok (q, h')) :
    Rearranged h.memory h'.memory ∧ ∀ a, q = .ok (some a) → h'.memory.Fresh i x a size := by
  obtain ⟨arena, hq, hm⟩ := finds_onArena hi hrun
  obtain ⟨hr, hfresh⟩ := hl.bump hu (getElem?_tables (List.getElem?_eq_getElem hi)) hq
  exact ⟨hm ▸ hr, hm ▸ hfresh⟩

theorem rearranged_grow (hl : h.memory.Laid) (hu : h.memory.SpansUnused) (hi : i < h.heaps.length)
    {q : Except HeapError Growth}
    (hrun : onArena i (SegmentArena.grow target size) h = .ok (q, h')) :
    Rearranged h.memory h'.memory := by
  obtain ⟨arena, hq, hm⟩ := finds_onArena hi hrun
  exact hm ▸ hl.grow hu (getElem?_tables (List.getElem?_eq_getElem hi)) hq

/-- The first segment with a span that is large enough, if there is one. -/
theorem takeFree_eq_ok {t t' : SegmentTable} {ids : List Nat}
    (hrun : takeFree size t ids = .ok (some (a, x, t'))) :
    t.takeFree x size = .ok (some a, t') ∧ x ∈ ids := by
  induction ids with
  | nil => cases hrun
  | cons id ids ih =>
    simp only [takeFree, Checked.bind_eq_ok, Prod.exists] at hrun
    obtain ⟨found, t₁, hone, hrun⟩ := hrun
    cases found with
    | some b =>
      cases hrun
      exact ⟨hone, List.mem_cons_self⟩
    | none =>
      rw [SegmentTable.takeFree_eq_none hone] at hrun
      exact (ih hrun).imp_right (List.mem_cons_of_mem _)

/-- What an attempt to find a block does: it rearranges segments, and a block found is fresh. -/
def Finds (h : Heap) (i size : Nat) (y : Except OutOfMemory.Reason (Nat × Nat)) (h' : Heap) : Prop :=
  Rearranged h.memory h'.memory ∧ ∀ a x, y = .ok (a, x) → h'.memory.Fresh i x a size

theorem finds_bump (hl : h.memory.Laid) (hu : h.memory.SpansUnused) (hi : i < h.heaps.length)
    {q : Except HeapError (Option Nat)}
    (hrun : onArena i (SegmentArena.bump x size) h = .ok (q, h')) :
    h.Finds i size (bumped x q) h' := by
  obtain ⟨hr, hfresh⟩ := rearranged_bump hl hu hi hrun
  refine ⟨hr, fun a z hq => ?_⟩
  obtain ⟨rfl, rfl⟩ := bumped_eq_ok hq
  exact hfresh a rfl

theorem finds_in_new (hl : h.memory.Laid) (hu : h.memory.SpansUnused) (hi : i < h.heaps.length)
    {y : Except OutOfMemory.Reason (Nat × Nat)} (hp : PlacesInNew i target size h y h') :
    h.Finds i size y h' := by
  cases hp with
  | without fragmented hgrow =>
    refine ⟨?_, nofun⟩
    rw [memory_countExpansion]
    exact rearranged_grow hl hu hi hgrow
  | @grown _ h₁ _ _ expansion hgrow hbump =>
    have hr := rearranged_grow hl hu hi hgrow
    have hcount := memory_countExpansion h₁ i expansion
    have hi₁ : i < (h₁.countExpansion i expansion).heaps.length := by
      rw [← length_tables, hcount, hr.heaps, length_tables]
      exact hi
    obtain ⟨hr', hfresh⟩ := finds_bump (hcount ▸ hr.laid) (hcount ▸ hr.spans) hi₁ hbump
    exact ⟨hr.trans (hcount ▸ hr'), hfresh⟩

theorem place_eq_ok (hl : h.memory.Laid) (hu : h.memory.SpansUnused)
    {y : Except OutOfMemory.Reason (Nat × Nat)} (hrun : place i target size h = .ok (y, h')) :
    h.Finds i size y h' := by
  have hnone {e : OutOfMemory.Reason} : h.Finds i size (.error e) h := ⟨.refl hl hu, nofun⟩
  have hlt {l : LogicalHeap} (hheap : h.heaps[i]? = some l) : i < h.heaps.length :=
    (List.getElem?_eq_some_iff.1 hheap).1
  rcases place_cases hrun with ⟨_, rfl, rfl⟩ | ⟨_, hp⟩
  · exact hnone
  · cases hp with
    | nowhere => exact hnone
    | span hheap hfree =>
      obtain ⟨hr, hfresh⟩ := hl.takeFree hu (getElem?_tables hheap) (takeFree_eq_ok hfree).1
      refine ⟨memory_withArena ▸ hr, ?_⟩
      rintro _ _ ⟨rfl⟩
      exact memory_withArena ▸ hfresh
    | behind hheap _ _ hbump _ => exact finds_bump hl hu (hlt hheap) hbump
    | @ahead _ h₁ _ _ hheap _ hseg hnew =>
      rcases hseg with ⟨_, rfl⟩ | ⟨id, _, hbump⟩
      · exact finds_in_new hl hu (hlt hheap) hnew
      · obtain ⟨hr, _⟩ := finds_bump hl hu (hlt hheap) hbump
        have hi₁ : i < h₁.heaps.length := by
          rw [← length_tables, hr.heaps, length_tables]
          exact hlt hheap
        obtain ⟨hr', hfresh⟩ := finds_in_new hr.laid hr.spans hi₁ hnew
        exact ⟨hr.trans hr', hfresh⟩

/-! ## Making room first -/

theorem memory_statistics {statistics : Statistics} :
    ({ h with statistics } : Heap).memory = h.memory := (rfl)

/-- The heap with a failure on record, before it is published. -/
def failed (i : Nat) (reason : OutOfMemory.Reason) (size : Nat) (target : Generation) (h : Heap) :
    Heap :=
  let event : OutOfMemory.Event :=
    { time := h.clock, reason, size, generation := target, collection := h.collections }
  { h.modifyHeap i (fun l => { l with failures := l.failures.record event }) with
    statistics := { h.statistics with
      allocationFailures := h.statistics.allocationFailures + 1 } }

theorem fail_apply {α : Type} {reason : OutOfMemory.Reason} :
    (fail i reason size target : Transition Heap α) h =
      .ok (.error (.outOfMemory reason size target), (h.failed i reason size target).publish) := by
  unfold fail
  rw [Effect.modify_bind]
  rfl

theorem memory_fail {α : Type} {reason : OutOfMemory.Reason} {y : Except HeapError α}
    (hrun : fail i reason size target h = .ok (y, h')) :
    (∃ e, y = .error e) ∧ h'.memory = h.memory := by
  cases fail_apply.symm.trans hrun
  have hrecord (event : OutOfMemory.Event) : (h.modifyHeap i fun l =>
      { l with failures := l.failures.record event }).memory = h.memory :=
    memory_modifyHeap (fun _ => rfl) fun _ => rfl
  exact ⟨⟨_, rfl⟩, (memory_publish _).trans (memory_statistics.trans (hrecord _))⟩

/-- Without a cycle there is nothing to complete. -/
theorem completeBackground_of_none (hb : h.background = none)
    {y : Except HeapError (Option CollectionSummary)}
    (hrun : completeBackground h = .ok (y, h')) : y = .ok none ∧ h' = h := by
  have ht : h.trace.background = none := by
    show h.background.map _ = none
    rw [hb]
    rfl
  obtain ⟨-, rfl, rfl⟩ | ⟨_, _, _, _, _, _, hsome, _⟩ := completeBackground_cases hrun
  · exact ⟨rfl, rfl⟩
  · cases ht.symm.trans hsome

theorem leads_completeBackground (hm : h.memory.Sound)
    {y : Except HeapError (Option CollectionSummary)}
    (hrun : completeBackground h = .ok (y, h')) :
    (∃ summary, y = .ok summary) ∧ h'.background = none ∧
      (∀ a, h'.space.contains a = true → h.space.contains a = true) ∧
      Leads h.memory h'.memory := by
  cases hb : h.background with
  | none =>
    obtain ⟨rfl, rfl⟩ := completeBackground_of_none hb hrun
    exact ⟨⟨_, rfl⟩, hb, fun _ ha => ha, .refl hm⟩
  | some b =>
    obtain ⟨summary, live, rfl, hc⟩ := completeBackground_eq_ok hm hb hrun
    refine ⟨⟨_, rfl⟩, hc.background, fun a ha => ?_, .of_collection hc.sound hc.collections⟩
    obtain ⟨q, hq⟩ := ObjectSpace.contains_iff.1 ha
    exact (hc.back hq).1

theorem leads_collectFor (hm : h.memory.Sound) {condemned : Generation} {y : Except HeapError Unit}
    (hrun : collectFor i target size condemned h = .ok (y, h')) :
    (∃ u, y = .ok u) ∧ Quiet h.memory h'.memory ∧ Leads h.memory h'.memory := by
  have hcollect {k : Heap} (hk : k.memory.Sound)
      (hrun : (collect condemned .allocationBudget >>= fun _ => pure ()) k = .ok (y, h')) :
      (∃ u, y = .ok u) ∧ h'.background = none ∧ Leads k.memory h'.memory := by
    rw [Effect.bind_eq_ok] at hrun
    rcases hrun with ⟨_, h₁, hcollect, hlast⟩ | ⟨e, hcollect, rfl⟩
    · cases hlast
      exact ⟨⟨_, rfl⟩, (leads_collect hk hcollect).2⟩
    · obtain ⟨⟨_, he⟩, _⟩ := leads_collect hk hcollect
      cases he
  unfold collectFor at hrun
  rw [Effect.get_bind] at hrun
  split at hrun
  · split at hrun
    · cases hrun
      exact ⟨⟨_, rfl⟩, .inr fun _ ha => ha, .refl hm⟩
    · obtain ⟨hu, hnone, hl⟩ := hcollect hm hrun
      exact ⟨hu, .inl hnone, hl⟩
  · split at hrun
    · rw [Effect.bind_eq_ok] at hrun
      rcases hrun with ⟨started, h₁, hstart, hrun⟩ | ⟨e, hstart, rfl⟩
      · obtain ⟨_, hspace, hl⟩ := leads_startBackground hm hstart
        cases started with
        | true =>
          cases hrun
          refine ⟨⟨_, rfl⟩, .inr fun a ha => ?_, hl⟩
          have ha : h'.space.contains a = true := ha
          rwa [hspace] at ha
        | false =>
          obtain ⟨hu, hnone, hl'⟩ := hcollect hl.sound hrun
          exact ⟨hu, .inl hnone, hl.trans hl'⟩
      · obtain ⟨⟨_, he⟩, _⟩ := leads_startBackground hm hstart
        cases he
    · obtain ⟨hu, hnone, hl⟩ := hcollect hm hrun
      exact ⟨hu, .inl hnone, hl⟩

theorem leads_requireBudget (hm : h.memory.Sound) {y : Except HeapError Unit}
    (hrun : requireBudget i target size h = .ok (y, h')) :
    (∃ u, y = .ok u) ∧ Quiet h.memory h'.memory ∧ Leads h.memory h'.memory := by
  unfold requireBudget at hrun
  rw [Effect.get_bind] at hrun
  cases hover : h.condemned? i target size with
  | none =>
    simp only [hover] at hrun
    cases hrun
    exact ⟨⟨_, rfl⟩, .inr fun _ ha => ha, .refl hm⟩
  | some condemned =>
    simp only [hover] at hrun
    split at hrun
    · rw [Effect.bind_eq_ok] at hrun
      rcases hrun with ⟨_, h₁, hcomplete, hrun⟩ | ⟨e, hcomplete, rfl⟩
      · obtain ⟨_, hnone, hback, hl⟩ := leads_completeBackground hm hcomplete
        rw [Effect.get_bind] at hrun
        cases hstill : h₁.condemned? i target size with
        | none =>
          simp only [hstill] at hrun
          cases hrun
          exact ⟨⟨_, rfl⟩, .inl hnone, hl⟩
        | some condemned =>
          simp only [hstill] at hrun
          obtain ⟨hu, hquiet, hl'⟩ := leads_collectFor hl.sound hrun
          exact ⟨hu, hquiet.imp_right fun hsub a ha => hback a (hsub a ha), hl.trans hl'⟩
      · obtain ⟨⟨_, he⟩, _⟩ := leads_completeBackground hm hcomplete
        cases he
    · exact leads_collectFor hm hrun

theorem tryPlace_stages {y : Except HeapError (Except OutOfMemory.Reason (Nat × Nat))} :
    tryPlace i target size h = .ok (y, h') ↔
      ∃ q, place i target size h = .ok (q, h') ∧ y = .ok q := by
  unfold tryPlace
  rw [Checked.bind_eq_ok]
  constructor
  · rintro ⟨⟨q, _⟩, hplace, hrun⟩
    cases hrun
    exact ⟨q, hplace, rfl⟩
  · rintro ⟨q, hplace, rfl⟩
    exact ⟨_, hplace, rfl⟩

theorem tryPlace_eq_ok (hm : h.memory.Sound)
    {y : Except HeapError (Except OutOfMemory.Reason (Nat × Nat))}
    (hrun : tryPlace i target size h = .ok (y, h')) : ∃ q, y = .ok q ∧ h.Finds i size q h' := by
  obtain ⟨q, hplace, rfl⟩ := tryPlace_stages.1 hrun
  exact ⟨q, rfl, place_eq_ok hm.laid hm.spans hplace⟩

theorem tryPlace_answers {y : Except HeapError (Except OutOfMemory.Reason (Nat × Nat))}
    (hrun : tryPlace i target size h = .ok (y, h')) : ∃ q, y = .ok q := by
  obtain ⟨q, -, rfl⟩ := tryPlace_stages.1 hrun
  exact ⟨q, rfl⟩

/-- A block is found at once, or a collection follows and a second attempt, whose failure is on
record. -/
theorem placeOrCollect_cases {y : Except HeapError (Nat × Nat)}
    (hrun : placeOrCollect i target size h = .ok (y, h')) :
    (∃ p, y = .ok p ∧ tryPlace i target size h = .ok (.ok (.ok p), h')) ∨
      ∃ first h₁, tryPlace i target size h = .ok (.ok (.error first), h₁) ∧
        ((∃ e, y = .error e ∧ collect .gen2 .lastBeforeOutOfMemory h₁ = .ok (.error e, h')) ∨
          ∃ summary h₂, collect .gen2 .lastBeforeOutOfMemory h₁ = .ok (.ok summary, h₂) ∧
            ((∃ p, y = .ok p ∧ tryPlace i target size h₂ = .ok (.ok (.ok p), h')) ∨
              ∃ reason h₃, tryPlace i target size h₂ = .ok (.ok (.error reason), h₃) ∧
                fail i reason size target h₃ = .ok (y, h'))) := by
  unfold placeOrCollect at hrun
  rw [Effect.bind_eq_ok] at hrun
  rcases hrun with ⟨q, h₁, hfirst, hrun⟩ | ⟨e, hfirst, _⟩
  · rcases q with first | p
    · refine .inr ⟨first, h₁, hfirst, ?_⟩
      simp only at hrun
      rw [Effect.bind_eq_ok] at hrun
      rcases hrun with ⟨summary, h₂, hcollect, hrun⟩ | ⟨e, hcollect, he⟩
      · refine .inr ⟨summary, h₂, hcollect, ?_⟩
        rw [Effect.bind_eq_ok] at hrun
        rcases hrun with ⟨q, h₃, hsecond, hrun⟩ | ⟨e, hsecond, _⟩
        · rcases q with reason | p
          · exact .inr ⟨reason, h₃, hsecond, hrun⟩
          · cases hrun
            exact .inl ⟨p, rfl, hsecond⟩
        · obtain ⟨_, he⟩ := tryPlace_answers hsecond
          cases he
      · exact .inl ⟨e, he, hcollect⟩
    · cases hrun
      exact .inl ⟨p, rfl, hfirst⟩
  · obtain ⟨_, he⟩ := tryPlace_answers hfirst
    cases he

/-- A block is found beside the cycle, or after a collection that has ended it. -/
theorem leads_placeOrCollect (hm : h.memory.Sound) {y : Except HeapError (Nat × Nat)}
    (hrun : placeOrCollect i target size h = .ok (y, h')) :
    (h'.memory.background = none ∨ Stays h.memory h'.memory) ∧ Leads h.memory h'.memory ∧
      ∀ a x, y = .ok (a, x) → h'.memory.Fresh i x a size := by
  rcases placeOrCollect_cases hrun with ⟨p, rfl, hfirst⟩ | ⟨first, h₁, hfirst, hrest⟩
  · obtain ⟨_, he, hr, hfresh⟩ := tryPlace_eq_ok hm hfirst
    cases he
    have hs := hm.stays_rearranged hr
    refine ⟨.inr hs, hs.leads, ?_⟩
    rintro _ _ ⟨rfl⟩
    exact hfresh _ _ rfl
  · obtain ⟨_, _, hr, _⟩ := tryPlace_eq_ok hm hfirst
    have hs := hm.stays_rearranged hr
    rcases hrest with ⟨e, _, hcollect⟩ | ⟨summary, h₂, hcollect, hrest⟩
    · obtain ⟨⟨_, he⟩, _⟩ := leads_collect hs.sound hcollect
      cases he
    · obtain ⟨_, hnone, hl⟩ := leads_collect hs.sound hcollect
      have hl₂ := hs.leads.trans hl
      rcases hrest with ⟨p, rfl, hsecond⟩ | ⟨reason, h₃, hsecond, hfail⟩
      · obtain ⟨_, he, hr₃, hfresh₃⟩ := tryPlace_eq_ok hl₂.sound hsecond
        cases he
        have hs₃ := hl₂.sound.stays_rearranged hr₃
        refine ⟨.inl (hs₃.background.trans hnone), hl₂.trans hs₃.leads, ?_⟩
        rintro _ _ ⟨rfl⟩
        exact hfresh₃ _ _ rfl
      · obtain ⟨_, _, hr₃, _⟩ := tryPlace_eq_ok hl₂.sound hsecond
        have hs₃ := hl₂.sound.stays_rearranged hr₃
        obtain ⟨⟨e, rfl⟩, hsame⟩ := memory_fail hfail
        have hnone' : h'.background = none :=
          (congrArg Memory.background hsame).trans (hs₃.background.trans hnone)
        exact ⟨.inl hnone', hsame ▸ hl₂.trans hs₃.leads, nofun⟩

/-! ## The parts of an allocation -/

/-- How an allocation goes: past the budget and to a place in which the object is put, or how far. -/
inductive Allocates (i : Nat) (request : AllocRequest) (h : Heap) :
    Except HeapError Nat → Heap → Prop where
  | unknown (hi : ¬ i < h.config.heapCount) : Allocates i request h (.error (.invalidHeap i)) h
  /-- The address space is too small for the request. -/
  | oversized {e h'} (hi : i < h.config.heapCount) (hsize : h.sizeOf? request = none)
      (hfail : fail i .addressSpaceExhausted request.size
        (targetOf h.config request.generation Word.largest) h =
          .ok ((.error e : Except HeapError Nat), h')) : Allocates i request h (.error e) h'
  | uncollected {size e h'} (hi : i < h.config.heapCount) (hsize : h.sizeOf? request = some size)
      (hbudget : requireBudget i (targetOf h.config request.generation size) size h =
        .ok (.error e, h')) : Allocates i request h (.error e) h'
  | unplaced {size h₁ e h'} (hi : i < h.config.heapCount) (hsize : h.sizeOf? request = some size)
      (hbudget : requireBudget i (targetOf h.config request.generation size) size h =
        .ok (.ok ⟨⟩, h₁))
      (hplace : placeOrCollect i (targetOf h.config request.generation size) size h₁ =
        .ok (.error e, h')) : Allocates i request h (.error e) h'
  | installed {size h₁ a x h₂ h'} (hi : i < h.config.heapCount)
      (hsize : h.sizeOf? request = some size)
      (hbudget : requireBudget i (targetOf h.config request.generation size) size h =
        .ok (.ok ⟨⟩, h₁))
      (hplace : placeOrCollect i (targetOf h.config request.generation size) size h₁ =
        .ok (.ok (a, x), h₂))
      (hinstall : h₂.install i request (targetOf h.config request.generation size) size a x =
        .ok h') : Allocates i request h (.ok a) h'

theorem allocate_cases {request : AllocRequest} {y : Except HeapError Nat}
    (hrun : allocate i request h = .ok (y, h')) : Allocates i request h y h' := by
  unfold allocate at hrun
  rw [Effect.get_bind] at hrun
  split at hrun
  next hi =>
    cases hsize : h.sizeOf? request with
    | none =>
      simp only [hsize] at hrun
      obtain ⟨⟨e, rfl⟩, _⟩ := memory_fail hrun
      exact .oversized hi hsize hrun
    | some size =>
      simp only [hsize] at hrun
      rw [Effect.bind_eq_ok] at hrun
      rcases hrun with ⟨_, h₁, hbudget, hrun⟩ | ⟨e, hbudget, rfl⟩
      · rw [Effect.bind_eq_ok] at hrun
        rcases hrun with ⟨⟨a, x⟩, h₂, hplace, hrun⟩ | ⟨e, hplace, rfl⟩
        · simp only [Effect.get_bind, Effect.lift_bind, Effect.set_bind, Checked.bind_eq_ok] at hrun
          obtain ⟨h₃, hinstall, hrun⟩ := hrun
          cases hrun
          exact .installed hi hsize hbudget hplace hinstall
        · exact .unplaced hi hsize hbudget hplace
      · exact .uncollected hi hsize hbudget
  next hi =>
    cases hrun
    exact .unknown hi

end Heap

end GenHeap
