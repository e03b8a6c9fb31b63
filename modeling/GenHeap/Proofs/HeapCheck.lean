import GenHeap.HeapCheck
import GenHeap.Proofs.Progress
import GenHeap.Proofs.Segment

/-!
What the heap check accepts: objects that share no address, lie in the allocated parts of live
segments of their heaps, and refer to objects only. What it reports of any other heap is there.
-/

namespace GenHeap

/-- What a violation says of a heap. -/
def Violation.Occurs (space : ObjectSpace) (tables : List SegmentTable) : Violation → Prop
  | overlap a previousEnd => space.contains a = true ∧ a < previousEnd ∧
      ∃ b r, space.get? b = some r ∧ b < a ∧ previousEnd = b + r.size
  | unknownHeap a heap => ∃ r, space.get? a = some r ∧ r.heap = heap ∧ tables[heap]? = none
  | releasedSegment a segment => ∃ r t, space.get? a = some r ∧ tables[r.heap]? = some t ∧
      r.segment = segment ∧ t.find? segment = none
  | outsideSegment a stop segment start allocated => ∃ r t s, space.get? a = some r ∧
      tables[r.heap]? = some t ∧ r.segment = segment ∧ t.find? segment = some s ∧
      stop = a + r.size ∧ start = s.start ∧ allocated = s.allocated ∧ (a < start ∨ allocated < stop)
  | danglingSlot a target => ∃ r, space.get? a = some r ∧ target ∈ r.slots ∧ target ≠ 0 ∧
      space.contains target = false

end GenHeap

namespace GenHeap.HeapCheck

open Checked (Runs)
open ObjectSpace (InLine)

/-- What the check asks of one object by itself. -/
structure Placed (space : ObjectSpace) (tables : List SegmentTable) (a : Nat) (r : Record) :
    Prop where
  word : a + r.size < Word.count
  held : ∃ t s, tables[r.heap]? = some t ∧ t.find? r.segment = some s ∧ s.start ≤ a ∧
    a + r.size ≤ s.allocated
  references : ∀ t ∈ r.references, space.contains t = true

/-- The spaces that pass. -/
structure Passes (space : ObjectSpace) (tables : List SegmentTable) : Prop where
  apart : ∀ {a b r q}, space.get? a = some r → space.get? b = some q → a < b → a + r.size ≤ b
  placed : ∀ {a r}, space.get? a = some r → Placed space tables a r

variable {space : ObjectSpace} {tables : List SegmentTable} {a cursor stop : Nat} {r : Record}
  {entries : List (Nat × Record)} {v : Violation}

theorem object_eq_ok : object space tables cursor a r = .ok (.ok stop) ↔
    cursor ≤ a ∧ stop = a + r.size ∧ Placed space tables a r := by
  unfold object
  constructor
  · intro h
    split at h
    · cases h
    next hcursor =>
      simp only [Checked.bind_eq_ok, Word.add_eq_ok_iff] at h
      obtain ⟨_, ⟨hword, rfl⟩, h⟩ := h
      cases ht : tables[r.heap]? with
      | none =>
        rw [ht] at h
        cases h
      | some t =>
        cases hs : t.find? r.segment with
        | none =>
          simp only [ht, hs] at h
          cases h
        | some s =>
          simp only [ht, hs] at h
          split at h
          · cases h
          next hinside =>
            cases hfind : r.references.find? (!space.contains ·) with
            | some target =>
              rw [hfind] at h
              cases h
            | none =>
              rw [hfind] at h
              cases h
              refine ⟨Nat.le_of_not_lt hcursor, rfl, hword, ⟨t, s, ht, hs, by omega, by omega⟩, ?_⟩
              intro target htarget
              have := List.find?_eq_none.1 hfind target htarget
              simpa using this
  · rintro ⟨hcursor, rfl, hword, ⟨t, s, ht, hs, hstart, hstop⟩, hreferences⟩
    have hfind : r.references.find? (!space.contains ·) = none := by
      rw [List.find?_eq_none]
      intro target htarget
      simp [hreferences target htarget]
    have hinside : ¬ (a < s.start ∨ s.allocated < a + r.size) := by omega
    rw [if_neg (Nat.not_lt.2 hcursor)]
    refine Checked.bind_eq_ok.2 ⟨_, Word.add_eq_ok_iff.2 ⟨hword, rfl⟩, ?_⟩
    simp only [ht, hs, if_neg hinside, hfind]
    rfl

theorem objects_eq_ok : objects space tables cursor entries = .ok (.ok ⟨⟩) ↔
    InLine cursor entries ∧ ∀ x ∈ entries, Placed space tables x.1 x.2 := by
  induction entries generalizing cursor with
  | nil => simp [objects, InLine]
  | cons x rest ih =>
    obtain ⟨a, r⟩ := x
    simp only [objects, Checked.bind_eq_ok, InLine, List.forall_mem_cons]
    constructor
    · rintro ⟨answer, hobject, h⟩
      cases answer with
      | error v => cases h
      | ok stop =>
        obtain ⟨hcursor, rfl, hplaced⟩ := object_eq_ok.1 hobject
        obtain ⟨hline, hrest⟩ := ih.1 h
        exact ⟨⟨hcursor, hline⟩, hplaced, hrest⟩
    · rintro ⟨⟨hcursor, hline⟩, hplaced, hrest⟩
      exact ⟨.ok (a + r.size), object_eq_ok.2 ⟨hcursor, rfl, hplaced⟩, ih.2 ⟨hline, hrest⟩⟩

/-- Ascending objects are in line from a cursor on exactly if they share no address. -/
theorem inLine_iff (hsorted : entries.Pairwise (·.1 < ·.1)) (hcursor : ∀ x ∈ entries, cursor ≤ x.1) :
    InLine cursor entries ↔ entries.Pairwise fun x y => x.1 + x.2.size ≤ y.1 := by
  induction entries generalizing cursor with
  | nil => simp [InLine]
  | cons x rest ih =>
    obtain ⟨a, r⟩ := x
    rw [List.pairwise_cons] at hsorted ⊢
    constructor
    · intro h
      have hbehind : ∀ y ∈ rest, a + r.size ≤ y.1 := fun y hy => h.2.le hy
      exact ⟨hbehind, (ih hsorted.2 hbehind).1 h.2⟩
    · intro h
      exact ⟨hcursor _ List.mem_cons_self, (ih hsorted.2 h.1).2 h.2⟩

theorem pairwise_entries_iff : (space.entries.Pairwise fun x y => x.1 + x.2.size ≤ y.1) ↔
    ∀ a b r q, space.get? a = some r → space.get? b = some q → a < b → a + r.size ≤ b := by
  have hsorted := space.entries_pairwise
  constructor
  · intro h a b r q hr hq hlt
    exact ObjectSpace.pairwise_of_lt hsorted h (ObjectSpace.mem_entries.2 hr)
      (ObjectSpace.mem_entries.2 hq) hlt
  · intro h
    refine List.Pairwise.imp_of_mem ?_ hsorted
    intro x y hx hy hlt
    exact h x.1 y.1 x.2 y.2 (ObjectSpace.mem_entries.1 hx) (ObjectSpace.mem_entries.1 hy) hlt

/-- The check accepts what passes, and nothing else. -/
theorem verify_eq_ok : verify space tables = .ok (.ok ⟨⟩) ↔ Passes space tables := by
  unfold verify
  rw [objects_eq_ok, inLine_iff space.entries_pairwise fun _ _ => Nat.zero_le _, pairwise_entries_iff]
  constructor
  · rintro ⟨hapart, hplaced⟩
    exact ⟨fun hr hq hlt => hapart _ _ _ _ hr hq hlt,
      fun hr => hplaced _ (ObjectSpace.mem_entries.2 hr)⟩
  · rintro ⟨hapart, hplaced⟩
    exact ⟨fun _ _ _ _ hr hq hlt => hapart hr hq hlt,
      fun x hx => hplaced (ObjectSpace.mem_entries.1 hx)⟩

/-! ## Answers -/

theorem runs_object (hstop : a + r.size < Word.count) : Runs (object space tables cursor a r) := by
  unfold object
  split
  · exact Checked.runs_ok _
  · rw [Checked.runs_bind]
    constructor
    · exact Word.runs_add.2 hstop
    · intro stop _
      repeat' split
      all_goals exact Checked.runs_ok _

theorem runs_objects (hstop : ∀ x ∈ entries, x.1 + x.2.size < Word.count) :
    Runs (objects space tables cursor entries) := by
  induction entries generalizing cursor with
  | nil => exact Checked.runs_ok _
  | cons x rest ih =>
    rw [List.forall_mem_cons] at hstop
    rw [objects, Checked.runs_bind]
    constructor
    · exact runs_object hstop.1
    · intro answer _
      cases answer with
      | error v => exact Checked.runs_ok _
      | ok stop => exact ih hstop.2

/-- Nothing is passed yet, or the object passed last lies below the ones to come. -/
def Passed (space : ObjectSpace) (cursor : Nat) (entries : List (Nat × Record)) : Prop :=
  cursor = 0 ∨ ∃ b q, space.get? b = some q ∧ cursor = b + q.size ∧ ∀ x ∈ entries, b < x.1

theorem object_eq_error (hr : space.get? a = some r) (hpassed : Passed space cursor ((a, r) :: entries))
    (h : object space tables cursor a r = .ok (.error v)) : v.Occurs space tables := by
  unfold object at h
  split at h
  next hcursor =>
    cases h
    refine ⟨ObjectSpace.contains_iff.2 ⟨r, hr⟩, hcursor, ?_⟩
    rcases hpassed with rfl | ⟨b, q, hq, rfl, hlt⟩
    · exact absurd hcursor (Nat.not_lt_zero _)
    · exact ⟨b, q, hq, hlt _ List.mem_cons_self, rfl⟩
  next =>
    simp only [Checked.bind_eq_ok, Word.add_eq_ok_iff] at h
    obtain ⟨_, ⟨_, rfl⟩, h⟩ := h
    cases ht : tables[r.heap]? with
    | none =>
      rw [ht] at h
      cases h
      exact ⟨r, hr, rfl, ht⟩
    | some t =>
      cases hs : t.find? r.segment with
      | none =>
        simp only [ht, hs] at h
        cases h
        exact ⟨r, t, hr, ht, rfl, hs⟩
      | some s =>
        simp only [ht, hs] at h
        split at h
        next houtside =>
          cases h
          exact ⟨r, t, s, hr, ht, rfl, hs, rfl, rfl, rfl, houtside⟩
        next =>
          cases hfind : r.references.find? (!space.contains ·) with
          | none =>
            rw [hfind] at h
            cases h
          | some target =>
            rw [hfind] at h
            cases h
            obtain ⟨htarget, hne⟩ := List.mem_filter.1 (List.mem_of_find?_eq_some hfind)
            have hgone := List.find?_some hfind
            exact ⟨r, hr, htarget, by simpa using hne, by simpa using hgone⟩

theorem objects_eq_error (hsorted : entries.Pairwise (·.1 < ·.1))
    (hget : ∀ x ∈ entries, space.get? x.1 = some x.2) (hpassed : Passed space cursor entries)
    (h : objects space tables cursor entries = .ok (.error v)) : v.Occurs space tables := by
  induction entries generalizing cursor with
  | nil => cases h
  | cons x rest ih =>
    obtain ⟨a, r⟩ := x
    rw [List.pairwise_cons] at hsorted
    rw [List.forall_mem_cons] at hget
    simp only [objects, Checked.bind_eq_ok] at h
    obtain ⟨answer, hobject, h⟩ := h
    cases answer with
    | error w =>
      cases h
      exact object_eq_error hget.1 hpassed hobject
    | ok stop =>
      obtain ⟨_, rfl, _⟩ := object_eq_ok.1 hobject
      exact ih hsorted.2 hget.2 (.inr ⟨a, r, hget.1, rfl, hsorted.1⟩) h

theorem verify_eq_error (h : verify space tables = .ok (.error v)) : v.Occurs space tables :=
  objects_eq_error space.entries_pairwise (fun _ => ObjectSpace.mem_entries.1) (.inl rfl) h

/-- The check answers for every space whose objects end at a word. It accepts exactly the spaces in
which each object starts at or behind the end of all below it, has a heap with a live segment that holds
it below the allocation pointer, and names objects in all its slots that are not empty; of any other
space it reports a violation that there is. -/
theorem verify_accepts_iff (hstop : ∀ a r, space.get? a = some r → a + r.size < Word.count) :
    ∃ answer, verify space tables = .ok answer ∧
      (answer = .ok ⟨⟩ ↔
        (∀ a b r q, space.get? a = some r → space.get? b = some q → a < b → a + r.size ≤ b) ∧
        ∀ a r, space.get? a = some r →
          (∃ t s, tables[r.heap]? = some t ∧ t.find? r.segment = some s ∧
            s.start ≤ a ∧ a + r.size ≤ s.allocated) ∧
          ∀ target ∈ r.slots, target ≠ 0 → space.contains target = true) ∧
      ∀ v, answer = .error v → v.Occurs space tables := by
  obtain ⟨answer, hanswer⟩ : Runs (verify space tables) :=
    runs_objects fun x hx => hstop x.1 x.2 (ObjectSpace.mem_entries.1 hx)
  refine ⟨answer, hanswer, ?_, fun v hv => verify_eq_error (hv ▸ hanswer)⟩
  have haccepts : answer = .ok ⟨⟩ ↔ Passes space tables := by
    rw [← verify_eq_ok, hanswer, Except.ok.injEq]
  rw [haccepts]
  constructor
  · rintro ⟨hapart, hplaced⟩
    refine ⟨fun _ _ _ _ => hapart, fun a r hr => ⟨(hplaced hr).held, fun target ht hne => ?_⟩⟩
    exact (hplaced hr).references target (List.mem_filter.2 ⟨ht, by simpa using hne⟩)
  · rintro ⟨hapart, hplaced⟩
    refine ⟨hapart _ _ _ _, fun {a r} hr => ⟨hstop a r hr, (hplaced a r hr).1, fun target ht => ?_⟩⟩
    obtain ⟨ht, hne⟩ := List.mem_filter.1 ht
    exact (hplaced a r hr).2 target ht (by simpa using hne)

/-- Two heaps. The segments of the first one hold nothing in front of 64, those of the second one nothing
in front of 256. -/
def twoTables : List SegmentTable :=
  [{ SegmentTable.ofConfig {} with
      slots := [none, some ⟨1, .segment, ⟨64, 4096⟩, 4096, 128, .gen0, []⟩] },
    { SegmentTable.ofConfig {} with
      slots := [some ⟨0, .segment, ⟨256, 4096⟩, 4096, 320, .gen2, [⟨280, 40⟩]⟩] }]

/-- The first two objects share an edge. -/
def threeObjects : ObjectSpace where
  objects := Std.TreeMap.ofList (β := Record) [
    (64, { size := 24, generation := .gen0, heap := 0, segment := 1, slots := [256] }),
    (88, { size := 40, generation := .gen0, heap := 0, segment := 1, slots := [0, 64, 88] }),
    (256, { size := 24, generation := .gen2, heap := 1, segment := 0, slots := [64] })]
  totalBytes := 88
  touched := true

theorem verify_accepts_iff_threeObjects :
    (∀ a r, threeObjects.get? a = some r → a + r.size < Word.count) ∧
    verify threeObjects twoTables = .ok (.ok ⟨⟩) ∧
    (∀ a b r q, threeObjects.get? a = some r → threeObjects.get? b = some q → a < b →
      a + r.size ≤ b) ∧
    ∀ a r, threeObjects.get? a = some r →
      (∃ t s, twoTables[r.heap]? = some t ∧ t.find? r.segment = some s ∧
        s.start ≤ a ∧ a + r.size ≤ s.allocated) ∧
      ∀ target ∈ r.slots, target ≠ 0 → threeObjects.contains target = true := by
  have hstop (a : Nat) (r : Record) (hr : threeObjects.get? a = some r) : a + r.size < Word.count := by
    have hall : ∀ x ∈ threeObjects.entries, x.1 + x.2.size < Word.count := by decide +kernel
    exact hall (a, r) (ObjectSpace.mem_entries.2 hr)
  have hverify : verify threeObjects twoTables = .ok (.ok ⟨⟩) := by
    obtain ⟨answer, hanswer, hok⟩ :=
      Checked.of_any (c := verify threeObjects twoTables) (p := Except.toBool) (by decide +kernel)
    cases answer with
    | error v => cases hok
    | ok _ => exact hanswer
  obtain ⟨answer, hanswer, hiff, -⟩ := verify_accepts_iff hstop
  cases hverify.symm.trans hanswer
  obtain ⟨hapart, hplaced⟩ := hiff.1 rfl
  exact ⟨hstop, hverify, hapart, hplaced⟩

/-- A slot that names no object. -/
example : ((verify (threeObjects.erase 64) twoTables).toOption.bind fun
    | .ok _ => none
    | .error v => some v) = some (.danglingSlot 88 64) := by
  decide +kernel

end GenHeap.HeapCheck
