import GenHeap.Segment
import GenHeap.Proofs.ObjectSpace

/-!
Free spans of a segment: taking a block from them and finding them anew in a sweep both leave spans
in ascending order that no object reaches into.
-/

namespace GenHeap

namespace FreeSpan

/-- Spans in ascending order between two addresses, each with room for an object. -/
def Chain (lo hi : Nat) : List FreeSpan → Prop
  | [] => lo ≤ hi
  | span :: rest =>
    lo ≤ span.start ∧ Object.minBytes ≤ span.size ∧ Chain (span.start + span.size) hi rest

variable {lo lo' hi hi' a size : Nat} {spans rest : List FreeSpan} {span : FreeSpan}

theorem Chain.le (h : Chain lo hi spans) : lo ≤ hi := by
  induction spans generalizing lo with
  | nil => exact h
  | cons span rest ih =>
    have := ih h.2.2
    have := h.1
    omega

theorem Chain.mono (h : Chain lo hi spans) (hlo : lo' ≤ lo) (hhi : hi ≤ hi') :
    Chain lo' hi' spans := by
  induction spans generalizing lo lo' with
  | nil => exact Nat.le_trans hlo (Nat.le_trans h hhi)
  | cons span rest ih => exact ⟨Nat.le_trans hlo h.1, h.2.1, ih h.2.2 (Nat.le_refl _)⟩

theorem Chain.bounds (h : Chain lo hi spans) (hs : span ∈ spans) :
    lo ≤ span.start ∧ span.start + span.size ≤ hi := by
  induction spans generalizing lo with
  | nil => cases hs
  | cons x rest ih =>
    rcases List.mem_cons.1 hs with rfl | hs
    · exact ⟨h.1, h.2.2.le⟩
    · have := ih h.2.2 hs
      have := h.1
      omega

theorem Chain.minBytes_le (h : Chain lo hi spans) (hs : span ∈ spans) :
    Object.minBytes ≤ span.size := by
  induction spans generalizing lo with
  | nil => cases hs
  | cons x rest ih =>
    rcases List.mem_cons.1 hs with rfl | hs
    · exact h.2.1
    · exact ih h.2.2 hs

theorem Chain.ascending (h : Chain lo hi spans) :
    spans.Pairwise fun p q => p.start + p.size ≤ q.start := by
  induction spans generalizing lo with
  | nil => exact .nil
  | cons x rest ih =>
    rw [List.pairwise_cons]
    exact ⟨fun q hq => (h.2.2.bounds hq).1, ih h.2.2⟩

/-- The block comes from the start of one span; what is left of the spans lies in them and keeps
apart from the block. -/
theorem takeFirst?_eq_some (h : Chain lo hi spans)
    (hrun : takeFirst? size spans = .ok (some (a, rest))) :
    Chain lo hi rest ∧ (∃ span ∈ spans, a = span.start ∧ size ≤ span.size) ∧
      ∀ q ∈ rest, (q.start + q.size ≤ a ∨ a + size ≤ q.start) ∧
        ∃ p ∈ spans, p.start ≤ q.start ∧ q.start + q.size ≤ p.start + p.size := by
  induction spans generalizing lo rest with
  | nil => cases hrun
  | cons span spans ih =>
    obtain ⟨hlo, hmin, hchain⟩ := h
    have hlater : ∀ q ∈ spans, span.start + span.size ≤ q.start := fun q hq =>
      (hchain.bounds hq).1
    unfold takeFirst? at hrun
    by_cases hsize : size ≤ span.size
    · rw [if_pos hsize] at hrun
      by_cases hrest : Object.minBytes ≤ span.size - size
      · rw [if_pos hrest, Checked.bind_eq_ok] at hrun
        obtain ⟨next, hnext, hrun⟩ := hrun
        obtain ⟨_, rfl⟩ := Word.add_eq_ok_iff.1 hnext
        cases hrun
        refine ⟨⟨by simp only; omega, hrest, hchain.mono (by simp only; omega) (Nat.le_refl _)⟩,
          ⟨span, List.mem_cons_self, rfl, hsize⟩, ?_⟩
        intro q hq
        rcases List.mem_cons.1 hq with rfl | hq
        · exact ⟨.inr (Nat.le_refl _), span, List.mem_cons_self, by simp only; omega,
            by simp only; omega⟩
        · have := hlater q hq
          exact ⟨.inr (by omega), q, List.mem_cons_of_mem _ hq, Nat.le_refl _, Nat.le_refl _⟩
      · rw [if_neg hrest] at hrun
        cases hrun
        refine ⟨hchain.mono (by omega) (Nat.le_refl _), ⟨span, List.mem_cons_self, rfl, hsize⟩, ?_⟩
        intro q hq
        have := hlater q hq
        exact ⟨.inr (by omega), q, List.mem_cons_of_mem _ hq, Nat.le_refl _, Nat.le_refl _⟩
    · simp only [hsize, if_false, Checked.bind_eq_ok, Checked.pure_eq_ok,
        Option.map_eq_some_iff] at hrun
      obtain ⟨_, hfound, ⟨a', rest'⟩, rfl, heq⟩ := hrun
      cases heq
      obtain ⟨hrest, ⟨p, hp, ha, hps⟩, hall⟩ := ih hchain hfound
      refine ⟨⟨hlo, hmin, hrest⟩, ⟨p, List.mem_cons_of_mem _ hp, ha, hps⟩, ?_⟩
      intro q hq
      rcases List.mem_cons.1 hq with rfl | hq
      · have := hlater p hp
        exact ⟨.inl (by omega), q, List.mem_cons_self, Nat.le_refl _, Nat.le_refl _⟩
      · obtain ⟨hap, x, hx, hin⟩ := hall q hq
        exact ⟨hap, x, List.mem_cons_of_mem _ hx, hin⟩

/-- No object reaches into the block of `size` bytes at `a`. -/
def Unused (space : ObjectSpace) (a size : Nat) : Prop :=
  ∀ b r, space.get? b = some r → b + r.size ≤ a ∨ a + size ≤ b

end FreeSpan

namespace ObjectSpace

/-- Objects from a cursor on, each behind the end of the one before. -/
def InLine (cursor : Nat) : List (Nat × Record) → Prop
  | [] => True
  | (a, r) :: rest => cursor ≤ a ∧ InLine (a + r.size) rest

variable {s : ObjectSpace} {a b : Nat} {r q : Record} {cursor : Nat} {objects : List (Nat × Record)}

theorem InLine.le (h : InLine cursor objects) (hm : (a, r) ∈ objects) : cursor ≤ a := by
  induction objects generalizing cursor with
  | nil => cases hm
  | cons x rest ih =>
    rcases List.mem_cons.1 hm with rfl | hm
    · exact h.1
    · have := ih h.2 hm
      have := h.1
      omega

/-- The objects of a range are in line from its start on. -/
theorem Spread.inLine (h : s.Spread) {start stop : Nat}
    (hrun : s.startingIn start stop = .ok objects) : InLine start objects := by
  have hsorted := startingIn_eq_ok hrun ▸ (entries_pairwise s).filter _
  have hall : ∀ a r, (a, r) ∈ objects → s.get? a = some r ∧ start ≤ a := fun a r hm =>
    ⟨((mem_startingIn hrun).1 hm).1, ((mem_startingIn hrun).1 hm).2.1⟩
  clear hrun
  induction objects generalizing start with
  | nil => trivial
  | cons x rest ih =>
    obtain ⟨a, r⟩ := x
    rw [List.pairwise_cons] at hsorted
    obtain ⟨hr, ha⟩ := hall a r List.mem_cons_self
    refine ⟨ha, ih hsorted.2 fun b q hm => ?_⟩
    obtain ⟨hq, _⟩ := hall b q (List.mem_cons_of_mem _ hm)
    exact ⟨hq, h.stop_le hr hq (hsorted.1 _ hm)⟩

end ObjectSpace

namespace Segment

open ObjectSpace (InLine)

/-- What a sweep finds among objects in line: an end of all objects that is no further than it has
to be, and the gaps between the objects. -/
theorem sweepObjects_eq_ok {cursor hi : Nat} {objects : List (Nat × Record)} {plan : SweepPlan}
    (hline : InLine cursor objects) (hle : cursor ≤ hi)
    (hhi : ∀ a r, (a, r) ∈ objects → a + r.size ≤ hi)
    (hrun : sweepObjects cursor objects = .ok plan) :
    plan.allocated ≤ hi ∧ FreeSpan.Chain cursor plan.allocated plan.freeSpans ∧
      ∀ a r, (a, r) ∈ objects → a + r.size ≤ plan.allocated ∧
        ∀ span ∈ plan.freeSpans, a + r.size ≤ span.start ∨ span.start + span.size ≤ a := by
  induction objects generalizing cursor plan with
  | nil =>
    cases hrun
    exact ⟨hle, Nat.le_refl _, fun _ _ hm => absurd hm List.not_mem_nil⟩
  | cons x rest ih =>
    obtain ⟨a, r⟩ := x
    obtain ⟨hca, hrest⟩ := hline
    simp only [sweepObjects, Checked.bind_eq_ok, Checked.pure_eq_ok, Word.add_eq_ok_iff] at hrun
    obtain ⟨_, ⟨_, rfl⟩, plan', hplan, rfl⟩ := hrun
    rw [Nat.max_eq_right (by omega)] at hplan
    obtain ⟨hall, hchain, hobjects⟩ := ih hrest (hhi a r List.mem_cons_self)
      (fun b q hm => hhi b q (List.mem_cons_of_mem _ hm)) hplan
    have hgap : ∀ span ∈ gapBefore cursor a, span.start + span.size ≤ a := by
      intro span hs
      unfold gapBefore at hs
      split at hs
      · cases List.mem_singleton.1 hs
        simp only
        omega
      · cases hs
    refine ⟨hall, ?_, ?_⟩
    · show FreeSpan.Chain cursor plan'.allocated (gapBefore cursor a ++ plan'.freeSpans)
      unfold gapBefore
      split
      · refine ⟨Nat.le_refl _, by assumption, hchain.mono ?_ (Nat.le_refl _)⟩
        simp only
        omega
      · exact hchain.mono (by omega) (Nat.le_refl _)
    · intro b q hm
      rcases List.mem_cons.1 hm with heq | hm
      · cases heq
        refine ⟨hchain.le, fun span hs => ?_⟩
        rcases List.mem_append.1 hs with hs | hs
        · exact .inr (hgap span hs)
        · exact .inl (hchain.bounds hs).1
      · obtain ⟨hb, hspans⟩ := hobjects b q hm
        refine ⟨hb, fun span hs => ?_⟩
        rcases List.mem_append.1 hs with hs | hs
        · have := hrest.le hm
          exact .inr (Nat.le_trans (hgap span hs) (by omega))
        · exact hspans span hs

/-- Start, allocation pointer, committed part and reserved range are in order, and the free spans
lie below the pointer. -/
structure Sound (s : Segment) : Prop where
  allocated_le : s.allocated ≤ s.start + s.committed
  committed_le : s.committed ≤ s.range.size
  chain : FreeSpan.Chain s.start s.allocated s.freeSpans

theorem Sound.start_le {s : Segment} (h : s.Sound) : s.start ≤ s.allocated := h.chain.le

theorem Sound.allocated_le_stop {s : Segment} (h : s.Sound) :
    s.allocated ≤ s.range.start + s.range.size := by
  have := h.allocated_le
  have := h.committed_le
  unfold start at *
  omega

/-- No object reaches into a free span of the segment. -/
def SpansUnused (s : Segment) (space : ObjectSpace) : Prop :=
  ∀ span ∈ s.freeSpans, FreeSpan.Unused space span.start span.size

/-- An object starts in the reserved range of the segment. -/
def Occupied (s : Segment) (space : ObjectSpace) : Prop :=
  ∃ a r, space.get? a = some r ∧ s.start ≤ a ∧ a < s.range.start + s.range.size

theorem outside_of_not_occupied {s : Segment} {space : ObjectSpace} (h : ¬ s.Occupied space)
    {a : Nat} {r : Record} (hr : space.get? a = some r) :
    a < s.start ∨ s.range.start + s.range.size ≤ a := by
  rcases Nat.lt_or_ge a s.start with hlo | hlo
  · exact .inl hlo
  · exact .inr (Nat.le_of_not_lt fun hhi => h ⟨a, r, hr, hlo, hhi⟩)

theorem reset_eq_ok {s s' : Segment} {allocated : Nat} {spans : List FreeSpan}
    (h : s.reset allocated spans = .ok s') :
    s' = { s with allocated, freeSpans := spans } ∧ allocated ≤ s.start + s.committed := by
  simp only [reset, committedEnd] at h
  split at h
  · cases h
  · simp only [Checked.bind_eq_ok, Word.add_eq_ok_iff] at h
    obtain ⟨_, ⟨_, rfl⟩, h⟩ := h
    split at h
    · cases h
    · cases h
      exact ⟨rfl, by unfold start; omega⟩

theorem range_rebuild {s s' : Segment} {space : ObjectSpace} {plan : SweepPlan}
    (hrun : s.rebuild space = .ok (plan, s')) : s'.range = s.range := by
  simp only [Segment.rebuild, Checked.bind_eq_ok, Checked.pure_eq_ok, Prod.mk.injEq] at hrun
  obtain ⟨_, _, _, hreset, rfl, rfl⟩ := hrun
  obtain ⟨rfl, _⟩ := reset_eq_ok hreset
  rfl

/-- A segment in which the sweep finds no object can be filled from its start. -/
theorem occupied_of_rebuild {s s' : Segment} {space : ObjectSpace} {plan : SweepPlan} (h : s.Sound)
    (hrun : s.rebuild space = .ok (plan, s')) (hused : s'.start < s'.allocated) :
    s'.Occupied space := by
  simp only [Segment.rebuild, sweepPlan, Checked.bind_eq_ok, Checked.pure_eq_ok, Prod.mk.injEq]
    at hrun
  obtain ⟨_, ⟨objects, hobjects, hplan⟩, _, hreset, rfl, rfl⟩ := hrun
  obtain ⟨rfl, _⟩ := reset_eq_ok hreset
  have hstop := h.allocated_le_stop
  cases objects with
  | nil =>
    cases hplan
    exact absurd hused (Nat.lt_irrefl _)
  | cons x objects =>
    obtain ⟨hr, hlo, hhi⟩ := (ObjectSpace.mem_startingIn hobjects).1 List.mem_cons_self
    exact ⟨x.1, x.2, hr, hlo, Nat.lt_of_lt_of_le hhi hstop⟩

/-- A sweep puts the pointer behind the last object of the segment and lists the gaps. -/
theorem Sound.rebuild {s s' : Segment} {space : ObjectSpace} {plan : SweepPlan} (h : s.Sound)
    (hspace : space.Apart)
    (hin : ∀ a r, space.get? a = some r → s.start ≤ a → a < s.allocated →
      a + r.size ≤ s.allocated)
    (hrun : s.rebuild space = .ok (plan, s')) :
    ∃ allocated spans, s' = { s with allocated, freeSpans := spans } ∧ s'.Sound ∧
      allocated ≤ s.allocated ∧
      ∀ a r, space.get? a = some r → s.start ≤ a → a < s.allocated → a + r.size ≤ allocated ∧
        ∀ span ∈ spans, a + r.size ≤ span.start ∨ span.start + span.size ≤ a := by
  simp only [Segment.rebuild, sweepPlan, Checked.bind_eq_ok, Checked.pure_eq_ok, Prod.mk.injEq]
    at hrun
  obtain ⟨_, ⟨objects, hobjects, hplan⟩, _, hreset, rfl, rfl⟩ := hrun
  obtain ⟨rfl, hcommitted⟩ := reset_eq_ok hreset
  have hmem := fun a r => ObjectSpace.mem_startingIn (a := a) (r := r) hobjects
  obtain ⟨hall, hchain, hfound⟩ := sweepObjects_eq_ok
    (hspace.spread.inLine hobjects) h.start_le
    (fun a r hm => hin a r ((hmem a r).1 hm).1 ((hmem a r).1 hm).2.1 ((hmem a r).1 hm).2.2) hplan
  exact ⟨_, _, rfl, ⟨hcommitted, h.committed_le, hchain⟩, hall,
    fun a r hr hs ha => hfound a r ((hmem a r).2 ⟨hr, hs, ha⟩)⟩

end Segment

end GenHeap
