import GenHeap.Heap.Collect
import GenHeap.Proofs.CardScan
import GenHeap.Proofs.Heap.Survivors

/-!
Which objects marking in a pause finds live. The scan looks at dirty cards only, but no reference to
a condemned object from another one is off these, so it finds the seeds that a scan of all older
objects would.
-/

namespace GenHeap

open Worklist (Reached Search)
open ObjectSpace (SameButMarks)

namespace Memory

/-- Where the marking of condemned objects starts: a root, or what another object refers to. -/
def Seed (m : Memory) (c : Generation) (a : Nat) : Prop :=
  m.Root a ∨ ∃ o r, m.space.get? o = some r ∧ r.generation.condemnedBy c = false ∧ a ∈ r.references

/-- An object that is not condemned, or reached from the seeds. -/
def Live (m : Memory) (c : Generation) (a : Nat) : Prop :=
  m.space.contains a = true ∧
    (m.space.Condemned c a → Reached (m.space.Condemned c) m.space.references (m.Seed c) a)

/-- A condemned object that waits for finalization and is not live. -/
def Revived (m : Memory) (c : Generation) (a : Nat) : Prop :=
  ¬ m.Live c a ∧ ∃ q ∈ m.queues, ∃ g, g.condemnedBy c = true ∧ ∃ e ∈ q.pending.get g, e.object = a

/-- An object that outlives the collection of `c`. -/
def Survives (m : Memory) (c : Generation) (a : Nat) : Prop :=
  m.Live c a ∨ Reached (m.space.Condemned c) m.space.references (m.Revived c) a

variable {m : Memory} {c : Generation} {a t : Nat} {r : Record}

theorem Survives.contains (h : m.Survives c a) : m.space.contains a = true := by
  rcases h with h | h
  · exact h.1
  · exact h.within.contains

theorem live_of_not_condemned (hr : m.space.get? a = some r)
    (hc : r.generation.condemnedBy c = false) : m.Live c a := by
  refine ⟨ObjectSpace.contains_iff.2 ⟨r, hr⟩, ?_⟩
  rintro ⟨q, hq, hcq⟩
  cases hr.symm.trans hq
  rw [hc] at hcq
  cases hcq

theorem survives_of_not_condemned (hr : m.space.get? a = some r)
    (hc : r.generation.condemnedBy c = false) : m.Survives c a :=
  .inl (live_of_not_condemned hr hc)

theorem Closed.live_root (h : m.Closed) (ha : m.Root a) : m.Live c a :=
  ⟨h.root ha, fun hc => .seed (.inl ha) hc⟩

theorem Closed.survives_root (h : m.Closed) (ha : m.Root a) : m.Survives c a :=
  .inl (h.live_root ha)

theorem Closed.contains_reference (h : m.Closed) (ht : t ∈ m.space.references a) :
    m.space.contains t = true := by
  obtain ⟨r, hr, hslot, hne⟩ := ObjectSpace.mem_references.1 ht
  exact h.slots a r t hr hslot hne

theorem Closed.live_reference (h : m.Closed) (hl : m.Live c a)
    (ht : t ∈ m.space.references a) : m.Live c t := by
  refine ⟨h.contains_reference ht, fun hct => ?_⟩
  obtain ⟨r, hr, _⟩ := ObjectSpace.mem_references.1 ht
  cases hc : r.generation.condemnedBy c with
  | true => exact .step (hl.2 ⟨r, hr, hc⟩) ht hct
  | false =>
    refine .seed (.inr ⟨a, r, hr, hc, ?_⟩) hct
    rwa [ObjectSpace.references_eq hr] at ht

theorem Closed.survives_reference (h : m.Closed) (hs : m.Survives c a)
    (ht : t ∈ m.space.references a) : m.Survives c t := by
  rcases hs with hlive | hrev
  · exact .inl (h.live_reference hlive ht)
  · by_cases hct : m.space.Condemned c t
    · exact .inr (.step hrev ht hct)
    · exact .inl ⟨h.contains_reference ht, fun hct' => absurd hct' hct⟩

theorem Sorted.survives_pending (h : m.Sorted) {q : FinalizationQueue} (hq : q ∈ m.queues)
    {g : Generation} {e : FinalizableEntry} (he : e ∈ q.pending.get g) : m.Survives c e.object := by
  obtain ⟨r, hr, hg⟩ := h q hq g e he
  by_cases hl : m.Live c e.object
  · exact .inl hl
  · cases hc : r.generation.condemnedBy c with
    | false => exact survives_of_not_condemned hr hc
    | true => exact .inr (.seed ⟨hl, q, hq, g, hg ▸ hc, e, he, rfl⟩ ⟨r, hr, hc⟩)

end Memory

namespace Heap

variable {h h' : Heap} {condemned : Generation} {a o : Nat} {r : Record}

/-- The scanned ranges hold all objects. -/
theorem exists_range (hl : h.memory.Laid) (hr : h.space.get? o = some r) :
    ∃ start stop, (start, stop) ∈ h.ranges ∧ h.provider.space.range.start ≤ start ∧ start ≤ o ∧
      o + r.size ≤ stop ∧ o + r.size < Word.count := by
  obtain ⟨t, s, ht, hs, hstart, hstop⟩ := hl.held hr
  obtain ⟨_, _, _, hword⟩ := hl.inside hr
  have hmem : s.range ∈ h.memory.tables.flatMap SegmentTable.holdings :=
    List.mem_flatMap.2 ⟨t, List.mem_of_getElem? ht, SegmentTable.range_mem_holdings hs⟩
  obtain ⟨l, hheap, rfl⟩ := List.mem_map.1 (List.mem_of_getElem? ht)
  exact ⟨s.start, s.allocated, List.mem_flatMap.2 ⟨l, hheap, SegmentTable.mem_ranges.2
    ⟨_, s, hs, rfl, rfl⟩⟩, (hl.serves.exclusive.inside_taken hmem).start_le, hstart, hstop, hword⟩

/-- A reference to a condemned object from another one is to a younger object. -/
theorem younger_of_condemned {s : ObjectSpace} (hr : s.get? o = some r)
    (hc : r.generation.condemnedBy condemned = false) (ha : a ∈ r.references)
    (hcond : s.Condemned condemned a) : ∃ slot, s.Younger o slot ∧ slot < r.slots.length := by
  obtain ⟨hslot, hne⟩ := List.mem_filter.1 ha
  obtain ⟨slot, hslot⟩ := List.mem_iff_getElem?.1 hslot
  obtain ⟨q, hq, hcq⟩ := hcond
  unfold Generation.condemnedBy at hc hcq
  refine ⟨slot, ⟨r, a, q, hr, hslot, by simpa using hne, hq, ?_⟩,
    (List.getElem?_eq_some_iff.1 hslot).1⟩
  have := of_decide_eq_false hc
  have := of_decide_eq_true hcq
  omega

/-- The condemned seeds are roots, or found on dirty cards. -/
theorem seed_iff (hm : h.memory.Sound) {scan : CardScan}
    (hscan : Marking.scanCards h.space.clearMarks condemned h.cards h.ranges = .ok scan)
    (hcond : h.space.Condemned condemned a) :
    h.memory.Seed condemned a ↔ a ∈ h.roots ++ scan.seeds := by
  have hsame := ObjectSpace.sameButMarks_clearMarks h.space
  rw [List.mem_append, mem_roots]
  refine or_congr_right ⟨?_, ?_⟩
  · rintro ⟨o, r, hr, hc, ha⟩
    obtain ⟨slot, hyounger, hslot⟩ := younger_of_condemned hr hc ha hcond
    obtain ⟨card, hi, hdirty⟩ := CardTable.isDirty_iff.1 (hm.carded.dirty o slot hyounger)
    obtain ⟨start, stop, hrange, hbase, hlo, hhi, hword⟩ := exists_range hm.laid hr
    have hin := hm.laid.slot_inside hr hslot
    have hcard : card ∈ Marking.dirtyCards h.cards h.ranges := Marking.mem_dirtyCards.2
      ⟨start, stop, hrange, CardTable.mem_dirtyIn hi hdirty (hm.carded.base ▸ hbase) (by omega)
        (by omega)⟩
    obtain ⟨marked, hget⟩ := hsame.get? hr
    exact Marking.scanCards_complete (hsame.apart hm.laid.apart) hscan hget hc ha
      (hsame.condemned_iff.2 hcond) hcard hi (by omega) hm.carded.cardSize hin
  · intro ha
    obtain ⟨o, r, hr, hc, ha, _⟩ := Marking.scanCards_sound hscan ha
    obtain ⟨marked, hget⟩ := hsame.symm.get? hr
    exact ⟨o, _, hget, hc, ha⟩

/-- Whichever way the seeds were found, the trace from them marks what they reach. -/
theorem mark_eq_ok (hm : h.memory.Sound) {workers threshold : Nat} {progress : Marking.Progress}
    {scan : CardScan} (hrun : Marking.mark workers threshold h.space h.roots condemned h.cards
      h.ranges = .ok (progress, scan)) :
    Marking.Traced h.space.clearMarks condemned (h.memory.Seed condemned) progress.space := by
  have hcond : h.space.clearMarks.Condemned condemned = h.space.Condemned condemned :=
    (ObjectSpace.sameButMarks_clearMarks h.space).condemned_eq
  have htrace {seeds : List Nat} (hseeds : ∀ a, h.space.Condemned condemned a →
      (h.memory.Seed condemned a ↔ a ∈ seeds)) :
      Marking.Traced h.space.clearMarks condemned (h.memory.Seed condemned)
        (Marking.trace workers threshold condemned h.space.clearMarks seeds).space := by
    refine (Marking.traced_trace workers threshold fun a _ _ hmarked => ?_).congr fun a ha => ?_
    · exact absurd hmarked (ObjectSpace.not_marked_clearMarks _ a)
    · rw [hcond] at ha
      exact (hseeds a ha).symm
  simp only [Marking.mark] at hrun
  split at hrun
  · simp only [Checked.bind_eq_ok, Checked.pure_eq_ok, Prod.mk.injEq] at hrun
    obtain ⟨scan', hscan, rfl, rfl⟩ := hrun
    exact htrace fun a ha => seed_iff hm hscan ha
  next hfull =>
    simp only [pure_bind, Checked.pure_eq_ok, Prod.mk.injEq] at hrun
    obtain ⟨rfl, rfl⟩ := hrun
    refine htrace fun a ha => ?_
    rw [List.mem_append, mem_roots]
    refine or_congr_right ⟨?_, fun hmem => absurd hmem List.not_mem_nil⟩
    -- with all generations condemned there is no older object
    rintro ⟨o, r, hr, hc, _⟩
    have holdest : r.generation.tier ≤ 2 := by cases r.generation <;> decide
    have holder : ¬ r.generation.tier ≤ condemned.condemnTier.tier := of_decide_eq_false hc
    omega

theorem memory_countCards {p : DataPoint} {cards : List Nat}
    (hrun : h.countCards p cards = .ok h') : h'.memory = h.memory := by
  refine Checked.foldlM_induct (fun k => k.memory = h.memory) (fun k card k' _ hk hround => ?_) rfl
    hrun
  simp only [Checked.bind_eq_ok] at hround
  obtain ⟨i, _, hround⟩ := hround
  exact (memory_count hround).trans hk

theorem memory_scanFinalizable {live : Nat → Bool} : (h.scanFinalizable condemned live).2.memory =
    { h.memory with queues := h.memory.queues.map (·.scanUnreachable condemned live) } :=
  memory_modifyHeaps_queues (fun _ => rfl) fun _ => rfl

theorem mem_scanFinalizable {live : Nat → Bool} : a ∈ (h.scanFinalizable condemned live).1 ↔
    live a = false ∧ ∃ q ∈ h.memory.queues, ∃ g, g.condemnedBy condemned = true ∧
      ∃ e ∈ q.pending.get g, e.object = a := by
  show a ∈ h.heaps.flatMap (fun l => (l.finalization.unreachable condemned live).map (·.object)) ↔
    live a = false ∧ ∃ q ∈ h.heaps.map (·.finalization), _
  simp only [List.mem_flatMap, List.mem_map, FinalizationQueue.mem_unreachable]
  constructor
  · rintro ⟨l, hl, e, ⟨g, hg, he, hdead⟩, rfl⟩
    exact ⟨hdead, _, ⟨l, hl, rfl⟩, g, hg, e, he, rfl⟩
  · rintro ⟨hdead, _, ⟨l, hl, rfl⟩, g, hg, e, he, rfl⟩
    exact ⟨l, hl, e, ⟨g, hg, he, hdead⟩, rfl⟩

/-- The marks after tracing from the roots tell which objects are live. -/
theorem survives_iff {space : ObjectSpace}
    (ht : Marking.Traced h.space.clearMarks condemned (h.memory.Seed condemned) space) :
    Marking.survives space condemned a = true ↔ h.memory.Live condemned a := by
  have hsame := (ObjectSpace.sameButMarks_clearMarks h.space).trans ht.same
  unfold Marking.survives
  rw [Option.any_eq_true]
  constructor
  · rintro ⟨r, hr, hlive⟩
    obtain ⟨m, hget⟩ := hsame.symm.get? hr
    refine ⟨ObjectSpace.contains_iff.2 ⟨_, hget⟩, fun hc => (ht.marked_of_clear hc).1 ⟨r, hr, ?_⟩⟩
    obtain ⟨q, hq, hcq⟩ := hsame.condemned_iff.2 hc
    cases hr.symm.trans hq
    simpa [hcq] using hlive
  · rintro ⟨ha, hlive⟩
    obtain ⟨r, hr⟩ := ObjectSpace.contains_iff.1 ha
    obtain ⟨m, hget⟩ := hsame.get? hr
    refine ⟨_, hget, ?_⟩
    cases hc : r.generation.condemnedBy condemned with
    | false => simp
    | true =>
      obtain ⟨q, hq, hm⟩ := (ht.marked_of_clear ⟨r, hr, hc⟩).2 (hlive ⟨r, hr, hc⟩)
      cases hget.symm.trans hq
      simpa [hc] using hm

/-- The marks after tracing from the waiting objects too tell which objects outlive the
collection. -/
theorem outlives_iff {space : ObjectSpace}
    (ht : Marking.Traced h.space.clearMarks condemned
      (fun a => h.memory.Seed condemned a ∨ h.memory.Revived condemned a) space)
    (hr : space.get? a = some r) :
    outlives condemned a r = true ↔ h.memory.Survives condemned a := by
  obtain ⟨m, hget⟩ :=
    ((ObjectSpace.sameButMarks_clearMarks h.space).trans ht.same).symm.get? hr
  cases hc : r.generation.condemnedBy condemned with
  | false =>
    have hsurvives : h.memory.Survives condemned a :=
      Memory.survives_of_not_condemned hget (by simpa using hc)
    simp [outlives, hc, hsurvives]
  | true =>
    have hcondemned : h.space.Condemned condemned a := ⟨_, hget, by simpa using hc⟩
    have hmarks : r.marked = true ↔ space.Marked a := by
      constructor
      · intro hm
        exact ⟨r, hr, hm⟩
      · rintro ⟨q, hq, hm⟩
        cases hr.symm.trans hq
        exact hm
    have hout : outlives condemned a r = true ↔ space.Marked a := by
      rw [← hmarks]
      simp [outlives, hc]
    rw [hout, ht.marked_of_clear hcondemned, Worklist.reached_or_iff]
    refine or_congr_left ⟨?_, ?_⟩
    · intro hreached
      exact ⟨hcondemned.contains, fun _ => hreached⟩
    · intro hl
      exact hl.2 hcondemned

/-- After marking, the marks tell which objects outlive the collection, and the entries of those
that were not live are ready. -/
theorem markCondemned_eq_ok (hm : h.memory.Sound) {summary summary' : CollectionSummary}
    {scan : CardScan} (hrun : h.markCondemned condemned summary = .ok (scan, summary', h')) :
    ∃ space live, SameButMarks h.space space ∧
      (∀ a, live a = true ↔ h.memory.Live condemned a) ∧
      (∀ a r, space.get? a = some r →
        (outlives condemned a r = true ↔ h.memory.Survives condemned a)) ∧
      h'.memory = { h.memory with
        space, queues := h.memory.queues.map (·.scanUnreachable condemned live) } := by
  simp only [markCondemned, Checked.bind_eq_ok, Checked.pure_eq_ok, Prod.exists,
    Prod.mk.injEq] at hrun
  obtain ⟨progress, scan', hmark, h₁, hcount, h₂, hcount', _, _, rfl⟩ := hrun
  have ht := mark_eq_ok hm hmark
  have hm₂ : h₂.memory = { h.memory with space := progress.space } := by
    rw [memory_countCards hcount', memory_countCards hcount]
    rfl
  have hs₂ : h₂.space = progress.space := congrArg Memory.space hm₂
  have hlive (a : Nat) : Marking.survives h₂.space condemned a = true ↔
      h.memory.Live condemned a := by
    rw [hs₂]
    exact survives_iff ht
  have hscanned : (h₂.scanFinalizable condemned
      (Marking.survives h₂.space condemned)).2.memory = { h₂.memory with
        queues := h₂.memory.queues.map (·.scanUnreachable condemned
          (Marking.survives h₂.space condemned)) } := memory_scanFinalizable
  have hspace : (h₂.scanFinalizable condemned (Marking.survives h₂.space condemned)).2.space =
      progress.space := (congrArg Memory.space hscanned).trans hs₂
  have hrevived (a : Nat) :
      a ∈ (h₂.scanFinalizable condemned (Marking.survives h₂.space condemned)).1 ↔
        h.memory.Revived condemned a := by
    rw [mem_scanFinalizable, ← Bool.not_eq_true, hlive, hm₂]
    rfl
  generalize h₂.scanFinalizable condemned (Marking.survives h₂.space condemned) = scanned at *
  have hagain := ht.then ((Marking.traced_trace h.config.gcThreads
    h.config.tuning.parallelMarkThreshold ht.closed_after).congr fun a _ => hrevived a)
  rw [hspace]
  generalize (Marking.trace h.config.gcThreads h.config.tuning.parallelMarkThreshold condemned
    progress.space scanned.1).space = space at *
  refine ⟨space, Marking.survives h₂.space condemned,
    (ObjectSpace.sameButMarks_clearMarks h.space).trans hagain.same, hlive,
    fun a r hr => outlives_iff hagain hr, ?_⟩
  have hrest : scanned.2.memory = { h.memory with
      space := progress.space
      queues := h.memory.queues.map (·.scanUnreachable condemned
        (Marking.survives h₂.space condemned)) } := by
    rw [hscanned, hm₂]
  simp only [memory, Memory.mk.injEq] at hrest ⊢
  obtain ⟨hp, ht, _, hh, hq, hrest⟩ := hrest
  exact ⟨hp, ht, trivial, hh, hq, hrest⟩

end Heap

end GenHeap
