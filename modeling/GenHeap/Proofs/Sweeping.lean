import GenHeap.Proofs.Housing
import GenHeap.Proofs.Sliding

/-!
What a sweep finds in a segment. Its objects and the gaps in front of them tile it from its start up
to the end of the last object, and the gaps in which an object has room become its free spans. The
objects below the pointer stay the same ones when the sweep draws the pointer back, so that a second
sweep finds the same.
-/

namespace GenHeap

open ObjectSpace (InLine residents mem_residents weight)

/-- Objects and the gaps in front of them fill the addresses from one on and before another. -/
inductive Tiles : Nat → List (Nat × Record) → List FreeSpan → Nat → Prop where
  | done (cursor : Nat) : Tiles cursor [] [] cursor
  | object {a stop : Nat} {r : Record} {objects : List (Nat × Record)} {gaps : List FreeSpan}
      (h : Tiles (a + r.size) objects gaps stop) : Tiles a ((a, r) :: objects) gaps stop
  | gap {cursor a stop : Nat} {r : Record} {objects : List (Nat × Record)} {gaps : List FreeSpan}
      (hlt : cursor < a) (h : Tiles (a + r.size) objects gaps stop) :
      Tiles cursor ((a, r) :: objects) (⟨cursor, a - cursor⟩ :: gaps) stop

theorem ObjectSpace.InLine.exists_tiles {cursor : Nat} {objects : List (Nat × Record)}
    (h : InLine cursor objects) : ∃ gaps stop, Tiles cursor objects gaps stop := by
  induction objects generalizing cursor with
  | nil => exact ⟨[], cursor, .done cursor⟩
  | cons x rest ih =>
    obtain ⟨hle, hrest⟩ := h
    obtain ⟨gaps, stop, htiles⟩ := ih hrest
    rcases Nat.eq_or_lt_of_le hle with rfl | hlt
    · exact ⟨gaps, stop, .object htiles⟩
    · exact ⟨_, stop, .gap hlt htiles⟩

namespace Tiles

variable {cursor stop : Nat} {objects : List (Nat × Record)} {gaps : List FreeSpan} {g : FreeSpan}
  {x : Nat × Record}

/-- Nothing is left out and nothing is counted twice. -/
theorem total (h : Tiles cursor objects gaps stop) :
    cursor + weight objects + Word.total (gaps.map (·.size)) = stop := by
  induction h with
  | done cursor => rfl
  | object h ih =>
    rw [ObjectSpace.weight_cons]
    dsimp only
    omega
  | gap hlt h ih =>
    rw [ObjectSpace.weight_cons, List.map_cons, Word.total_cons]
    dsimp only
    omega

theorem le (h : Tiles cursor objects gaps stop) : cursor ≤ stop := by
  have := h.total
  omega

theorem stop_eq (h : Tiles cursor objects gaps stop) :
    stop = objects.getLast?.elim cursor fun x => x.1 + x.2.size := by
  induction h with
  | done cursor => rfl
  | object h ih | gap hlt h ih =>
    rw [ih, List.getLast?_cons]
    cases List.getLast? _ with
    | none => rfl
    | some y => rfl

theorem object_bounds (h : Tiles cursor objects gaps stop) (hx : x ∈ objects) :
    cursor ≤ x.1 ∧ x.1 + x.2.size ≤ stop := by
  induction h with
  | done cursor => cases hx
  | object h ih =>
    rcases List.mem_cons.1 hx with rfl | hx
    · exact ⟨Nat.le_refl _, h.le⟩
    · have := ih hx
      omega
  | gap hlt h ih =>
    rcases List.mem_cons.1 hx with rfl | hx
    · exact ⟨Nat.le_of_lt hlt, h.le⟩
    · have := ih hx
      omega

theorem gap_bounds (h : Tiles cursor objects gaps stop) (hg : g ∈ gaps) :
    cursor ≤ g.start ∧ 0 < g.size ∧ ∃ x ∈ objects, g.start + g.size = x.1 := by
  induction h with
  | done cursor => cases hg
  | object h ih =>
    obtain ⟨hlo, hpos, x, hx, hstop⟩ := ih hg
    exact ⟨by omega, hpos, x, List.mem_cons_of_mem _ hx, hstop⟩
  | gap hlt h ih =>
    rcases List.mem_cons.1 hg with rfl | hg
    · exact ⟨Nat.le_refl _, by dsimp only; omega, _, List.mem_cons_self, by dsimp only; omega⟩
    · obtain ⟨hlo, hpos, x, hx, hstop⟩ := ih hg
      exact ⟨by omega, hpos, x, List.mem_cons_of_mem _ hx, hstop⟩

/-- No object reaches into a gap. -/
theorem clear (h : Tiles cursor objects gaps stop) (hg : g ∈ gaps) (hx : x ∈ objects) :
    x.1 + x.2.size ≤ g.start ∨ g.start + g.size ≤ x.1 := by
  induction h with
  | done cursor => cases hg
  | object h ih =>
    rcases List.mem_cons.1 hx with rfl | hx
    · exact .inl (h.gap_bounds hg).1
    · exact ih hg hx
  | gap hlt h ih =>
    rcases List.mem_cons.1 hg with rfl | hg
    · rcases List.mem_cons.1 hx with rfl | hx
      · exact .inr (by dsimp only; omega)
      · have := h.object_bounds hx
        exact .inr (by dsimp only; omega)
    · rcases List.mem_cons.1 hx with rfl | hx
      · exact .inl (h.gap_bounds hg).1
      · exact ih hg hx

/-- Gaps come in ascending order, with an object between any two of them. -/
theorem ascending (h : Tiles cursor objects gaps stop) (hpos : ∀ x ∈ objects, 0 < x.2.size) :
    gaps.Pairwise fun p q => p.start + p.size < q.start := by
  induction h with
  | done cursor => exact .nil
  | object h ih => exact ih (List.forall_mem_cons.1 hpos).2
  | gap hlt h ih =>
    obtain ⟨hsize, hrest⟩ := List.forall_mem_cons.1 hpos
    refine List.pairwise_cons.2 ⟨fun q hq => ?_, ih hrest⟩
    have := (h.gap_bounds hq).1
    dsimp only at hsize ⊢
    omega

/-- Bytes in front of some object that no object reaches into lie in one gap. -/
theorem exists_gap (h : Tiles cursor objects gaps stop) (hlo : cursor ≤ g.start) (hpos : 0 < g.size)
    (hclear : ∀ x ∈ objects, x.1 + x.2.size ≤ g.start ∨ g.start + g.size ≤ x.1)
    (hbefore : ∃ x ∈ objects, g.start + g.size ≤ x.1) :
    ∃ p ∈ gaps, p.start ≤ g.start ∧ g.start + g.size ≤ p.start + p.size := by
  induction h with
  | done cursor =>
    obtain ⟨x, hx, _⟩ := hbefore
    cases hx
  | @object a stop r objects gaps h ih =>
    obtain ⟨hfirst, hclear⟩ := List.forall_mem_cons.1 hclear
    obtain ⟨x, hx, hbefore⟩ := hbefore
    dsimp only at hfirst
    rcases List.mem_cons.1 hx with rfl | hx
    · dsimp only at hbefore
      omega
    · exact ih (by omega) hclear ⟨x, hx, hbefore⟩
  | @gap cursor a stop r objects gaps hlt h ih =>
    obtain ⟨hfirst, hclear⟩ := List.forall_mem_cons.1 hclear
    dsimp only at hfirst
    rcases hfirst with hbehind | hfront
    · obtain ⟨x, hx, hbefore⟩ := hbefore
      rcases List.mem_cons.1 hx with rfl | hx
      · dsimp only at hbefore
        omega
      · obtain ⟨p, hp, hin⟩ := ih hbehind hclear ⟨x, hx, hbefore⟩
        exact ⟨p, List.mem_cons_of_mem _ hp, hin⟩
    · exact ⟨_, List.mem_cons_self, hlo, by dsimp only; omega⟩

end Tiles

theorem Segment.sweepObjects_cons {cursor a : Nat} {r : Record} {rest : List (Nat × Record)}
    {plan : SweepPlan} (hle : cursor ≤ a + r.size) (hword : a + r.size < Word.count)
    (hrest : sweepObjects (a + r.size) rest = .ok plan) :
    sweepObjects cursor ((a, r) :: rest) = .ok { plan with
      freeSpans := gapBefore cursor a ++ plan.freeSpans
      liveBytes := r.size + plan.liveBytes } := by
  rw [sweepObjects, Checked.bind_eq_ok]
  refine ⟨a + r.size, Word.add_eq_ok_iff.2 ⟨hword, rfl⟩, ?_⟩
  rw [Nat.max_eq_right hle, hrest]
  rfl

/-- The sweep follows the tiles and keeps the gaps that are large enough. -/
theorem Tiles.sweepObjects_eq {cursor stop : Nat} {objects : List (Nat × Record)}
    {gaps : List FreeSpan} (h : Tiles cursor objects gaps stop) (hword : stop < Word.count) :
    Segment.sweepObjects cursor objects =
      .ok ⟨stop, gaps.filter (Object.minBytes ≤ ·.size), weight objects⟩ := by
  induction h with
  | done cursor => rfl
  | @object a stop r objects gaps h ih =>
    have hnone : Segment.gapBefore a a = [] := if_neg (by rw [Nat.sub_self]; decide)
    rw [Segment.sweepObjects_cons (Nat.le_add_right ..) (Nat.lt_of_le_of_lt h.le hword) (ih hword),
      hnone]
    rfl
  | @gap cursor a stop r objects gaps hlt h ih =>
    have hfilter : Segment.gapBefore cursor a ++ gaps.filter (Object.minBytes ≤ ·.size) =
        (⟨cursor, a - cursor⟩ :: gaps).filter (Object.minBytes ≤ ·.size) := by
      unfold Segment.gapBefore
      by_cases hroom : Object.minBytes ≤ a - cursor <;> simp [hroom]
    rw [Segment.sweepObjects_cons (by omega) (Nat.lt_of_le_of_lt h.le hword) (ih hword), hfilter]
    rfl

/-! ## Segments -/

namespace Segment

/-- Start, allocation pointer and the end of the committed part of a segment are words in order. -/
structure InOrder (s : Segment) : Prop where
  start_le : s.start ≤ s.allocated
  allocated_le : s.allocated ≤ s.start + s.committed
  committed_lt : s.start + s.committed < Word.count

/-- A block in a segment, in front of one of its objects, that no object reaches into. -/
structure Clear (s : Segment) (space : ObjectSpace) (g : FreeSpan) : Prop where
  size_pos : 0 < g.size
  start_le : s.start ≤ g.start
  before : ∃ a r, space.get? a = some r ∧ s.Covers a ∧ g.start + g.size ≤ a
  unused : FreeSpan.Unused space g.start g.size

/-- A block of this kind that is part of no other one. -/
structure Gap (s : Segment) (space : ObjectSpace) (g : FreeSpan) : Prop extends s.Clear space g where
  maximal : ∀ p, s.Clear space p → p.start ≤ g.start → g.start + g.size ≤ p.start + p.size → p = g

/-- Objects that lie in the segment or out of it: none crosses its start, and none of those that start
below its allocation pointer ends behind it. -/
structure Bounds (s : Segment) (space : ObjectSpace) : Prop where
  start : ∀ a r, space.get? a = some r → a < s.start → a + r.size ≤ s.start
  allocated : ∀ a r, space.get? a = some r → s.Covers a → a + r.size ≤ s.allocated

/-- What a sweep has to find in a segment. -/
structure SweepPlan.Exact (plan : SweepPlan) (s : Segment) (space : ObjectSpace) : Prop where
  mem_freeSpans : ∀ g, g ∈ plan.freeSpans ↔ s.Gap space g ∧ Object.minBytes ≤ g.size
  ascending : plan.freeSpans.Pairwise fun p q => p.start + p.size < q.start
  allocated_eq : plan.allocated = (space.residents s).getLast?.elim s.start fun x => x.1 + x.2.size
  stop_le : ∀ a r, space.get? a = some r → s.Covers a → a + r.size ≤ plan.allocated
  allocated_le : plan.allocated ≤ s.allocated
  liveBytes_eq : plan.liveBytes = weight (space.residents s)
  /-- with the gaps that are too small for an object, all bytes are accounted for -/
  balance : ∃ small : List FreeSpan, (small.Pairwise fun p q => p.start + p.size < q.start) ∧
    (∀ g, g ∈ small ↔ s.Gap space g ∧ g.size < Object.minBytes) ∧
    s.start + (plan.liveBytes + Word.total (plan.freeSpans.map (·.size)) +
      Word.total (small.map (·.size))) = plan.allocated

variable {s : Segment} {space : ObjectSpace} {gaps : List FreeSpan} {stop : Nat} {g p : FreeSpan}

section Tiled

variable (h : Tiles s.start (space.residents s) gaps stop)

include h

theorem Bounds.clear_of_mem (hb : s.Bounds space) (hg : g ∈ gaps) : s.Clear space g := by
  obtain ⟨hlo, hpos, ⟨a, r⟩, ha, hstop⟩ := h.gap_bounds hg
  obtain ⟨hr, hcovers⟩ := mem_residents.1 ha
  refine ⟨hpos, hlo, ⟨a, r, hr, hcovers, Nat.le_of_eq hstop⟩, fun b q hq => ?_⟩
  rcases Nat.lt_or_ge b s.start with hbelow | hbelow
  · exact .inl (Nat.le_trans (hb.start b q hq hbelow) hlo)
  · rcases Nat.lt_or_ge b s.allocated with hcb | hcb
    · exact h.clear hg (mem_residents.2 ⟨hq, hbelow, hcb⟩)
    · have := hcovers.2
      dsimp only at hstop
      exact .inr (by omega)

theorem Clear.exists_gap (hg : s.Clear space g) :
    ∃ p ∈ gaps, p.start ≤ g.start ∧ g.start + g.size ≤ p.start + p.size := by
  obtain ⟨a, r, hr, hcovers, hbefore⟩ := hg.before
  refine h.exists_gap hg.start_le hg.size_pos (fun x hx => ?_)
    ⟨(a, r), mem_residents.2 ⟨hr, hcovers⟩, hbefore⟩
  exact hg.unused x.1 x.2 (mem_residents.1 hx).1

/-- The gaps between the tiles are the maximal blocks without objects. -/
theorem Bounds.mem_gaps_iff (hb : s.Bounds space) (hspace : space.Spread) :
    g ∈ gaps ↔ s.Gap space g := by
  have hasc := h.ascending fun x hx => hspace.size_pos (mem_residents.1 hx).1
  constructor
  · intro hg
    refine ⟨hb.clear_of_mem h hg, fun p hp hlo hhi => ?_⟩
    obtain ⟨q, hq, hqlo, hqhi⟩ := hp.exists_gap h
    -- the gap around `p` meets the one inside of it, so the three are one
    have heq : q = g := by
      by_contra hne
      have hpair : gaps.Pairwise fun p q : FreeSpan =>
          p.start + p.size < q.start ∨ q.start + q.size < p.start := hasc.imp Or.inl
      have : Std.Symm fun p q : FreeSpan =>
          p.start + p.size < q.start ∨ q.start + q.size < p.start := ⟨fun _ _ => Or.symm⟩
      have hapart := hpair.forall hq hg hne
      have hpos := (h.gap_bounds hg).2.1
      omega
    subst heq
    cases p
    cases q
    simp only [FreeSpan.mk.injEq]
    dsimp only at *
    omega
  · intro hg
    obtain ⟨p, hp, hlo, hhi⟩ := hg.toClear.exists_gap h
    rw [← hg.maximal p (hb.clear_of_mem h hp) hlo hhi]
    exact hp

end Tiled

/-- The segment with pointer and spans as a plan has them. -/
def swept (s : Segment) (plan : SweepPlan) : Segment :=
  { s with allocated := plan.allocated, freeSpans := plan.freeSpans }

theorem InOrder.rebuild_eq {plan : SweepPlan} (hs : s.InOrder) (hplan : s.sweepPlan space = .ok plan)
    (hlo : s.start ≤ plan.allocated) (hhi : plan.allocated ≤ s.allocated) :
    s.rebuild space = .ok (plan, s.swept plan) := by
  have hcommitted : s.committedEnd = .ok (s.start + s.committed) :=
    Word.add_eq_ok_iff.2 ⟨hs.committed_lt, rfl⟩
  have hreset : s.reset plan.allocated plan.freeSpans = .ok (s.swept plan) := by
    have hle := hs.allocated_le
    rw [reset, if_neg (Nat.not_lt_of_le hlo), hcommitted]
    exact if_neg (by omega)
  simp only [rebuild, hplan, Checked.bind_eq_ok, Checked.pure_eq_ok]
  exact ⟨plan, rfl, s.swept plan, hreset, rfl⟩

theorem Bounds.exists_exact (hb : s.Bounds space) (hs : s.InOrder) (hspace : space.Spread) :
    ∃ plan, sweepObjects s.start (space.residents s) = .ok plan ∧ plan.Exact s space := by
  have hline : InLine s.start (space.residents s) :=
    hspace.inLine (ObjectSpace.startingIn_residents hs.start_le)
  obtain ⟨gaps, stop, h⟩ := hline.exists_tiles
  have hstop : stop ≤ s.allocated := by
    rw [h.stop_eq]
    cases hlast : (space.residents s).getLast? with
    | none => exact hs.start_le
    | some x =>
      obtain ⟨hr, hcovers⟩ := mem_residents.1 (List.mem_of_getLast? hlast)
      exact hb.allocated x.1 x.2 hr hcovers
  have hword := Nat.lt_of_le_of_lt (Nat.le_trans hstop hs.allocated_le) hs.committed_lt
  have hasc := h.ascending fun x hx => hspace.size_pos (mem_residents.1 hx).1
  refine ⟨_, h.sweepObjects_eq hword, ?_, hasc.filter _, h.stop_eq, ?_, hstop, rfl, ?_⟩
  · intro g
    rw [List.mem_filter, hb.mem_gaps_iff h hspace, decide_eq_true_eq]
  · intro a r hr hcovers
    exact (h.object_bounds (mem_residents.2 ⟨hr, hcovers⟩)).2
  · refine ⟨gaps.filter fun g => !decide (Object.minBytes ≤ g.size), hasc.filter _, fun g => ?_, ?_⟩
    · rw [List.mem_filter, hb.mem_gaps_iff h hspace, Bool.not_eq_true', decide_eq_false_iff_not,
        Nat.not_le]
    · have hparts := Word.total_perm ((List.filter_append_perm
        (fun g => decide (Object.minBytes ≤ g.size)) gaps).map (·.size))
      rw [List.map_append, Word.total_append] at hparts
      have htotal := h.total
      dsimp only
      omega

/-- The sweep draws the pointer back, but not over an object. -/
theorem SweepPlan.Exact.residents_eq {plan : SweepPlan} (h : plan.Exact s space)
    (hspace : space.Spread) : space.residents (s.swept plan) = space.residents s := by
  refine List.filter_congr fun x hx => ?_
  have hr := ObjectSpace.mem_entries.1 hx
  have hpos := hspace.size_pos hr
  have hle := h.allocated_le
  change (decide (s.start ≤ x.1) && decide (x.1 < plan.allocated)) =
    (decide (s.start ≤ x.1) && decide (x.1 < s.allocated))
  rw [Bool.eq_iff_iff]
  simp only [Bool.and_eq_true, decide_eq_true_eq]
  constructor
  · rintro ⟨hlo, hlt⟩
    exact ⟨hlo, Nat.lt_of_lt_of_le hlt hle⟩
  · intro hcovers
    have := h.stop_le x.1 x.2 hr hcovers
    exact ⟨hcovers.1, by omega⟩

/-- A sweep of a segment is exact and idempotent. In a space whose objects are of some size, share no
address and do not reach over the bounds of the segment, its free spans are the maximal blocks without
objects in front of some object in which an object has room; the allocation pointer is drawn back to the
end of the last object; and a second sweep finds the same plan and leaves the segment as it is. -/
theorem sweep_exact (hs : s.InOrder) (hspace : space.Spread) (hb : s.Bounds space) :
    ∃ plan, s.sweepPlan space = .ok plan ∧ plan.Exact s space ∧
      s.rebuild space = .ok (plan, s.swept plan) ∧
      (s.swept plan).rebuild space = .ok (plan, s.swept plan) := by
  obtain ⟨plan, hplan, hexact⟩ := hb.exists_exact hs hspace
  have hlo : s.start ≤ plan.allocated := by
    obtain ⟨_, _, _, hbalance⟩ := hexact.balance
    omega
  have hhi := hexact.allocated_le
  have hs' : (s.swept plan).InOrder := ⟨hlo, Nat.le_trans hhi hs.allocated_le, hs.committed_lt⟩
  have hfirst : s.sweepPlan space = .ok plan := by
    rw [sweepPlan, ObjectSpace.startingIn_residents hs.start_le]
    exact hplan
  have hsecond : (s.swept plan).sweepPlan space = .ok plan := by
    rw [sweepPlan, ObjectSpace.startingIn_residents hs'.start_le, hexact.residents_eq hspace]
    exact hplan
  exact ⟨plan, hfirst, hexact, hs.rebuild_eq hfirst hlo hhi,
    hs'.rebuild_eq hsecond hlo (Nat.le_refl _)⟩

/-- The segment begins with a gap that an object just fits in. Two objects share an edge; the gap behind
them is too small, the next one is not. Two more objects lie right in front of the segment and behind its
allocation pointer. -/
def gapped : Segment := ⟨0, .segment, ⟨4096, 8192⟩, 4096, 4496, .gen2, [⟨4400, 96⟩]⟩

def sixObjects : ObjectSpace where
  objects := Std.TreeMap.ofList (β := Record) ([(4000, 96), (4120, 32), (4152, 40), (4208, 24),
    (4280, 24), (4496, 64)].map fun (a, size) =>
      (a, { size, generation := .gen2, heap := 0, segment := 0, slots := [] }))
  totalBytes := 280
  touched := true

theorem sweep_exact_gapped : gapped.InOrder ∧ sixObjects.Spread ∧ gapped.Bounds sixObjects ∧
    ∃ plan : SweepPlan, plan = ⟨4304, [⟨4096, 24⟩, ⟨4232, 48⟩], 120⟩ ∧
      gapped.sweepPlan sixObjects = .ok plan ∧ plan.Exact gapped sixObjects ∧
      gapped.rebuild sixObjects = .ok (plan, gapped.swept plan) ∧
      (gapped.swept plan).rebuild sixObjects = .ok (plan, gapped.swept plan) := by
  have hobjects : ∀ x ∈ sixObjects.entries, 0 < x.2.size ∧
      (x.1 < gapped.start → x.1 + x.2.size ≤ gapped.start) ∧
      (gapped.start ≤ x.1 ∧ x.1 < gapped.allocated → x.1 + x.2.size ≤ gapped.allocated) := by
    decide +kernel
  have hapart : sixObjects.entries.Pairwise fun x y => x.1 + x.2.size ≤ y.1 := by decide +kernel
  have hmem {a : Nat} {r : Record} (hr : sixObjects.get? a = some r) :=
    hobjects (a, r) (ObjectSpace.mem_entries.2 hr)
  have hs : gapped.InOrder := ⟨by decide, by decide, by decide⟩
  have hspace : sixObjects.Spread := ⟨fun hr => (hmem hr).1, fun hr hq hlt =>
    ObjectSpace.pairwise_of_lt sixObjects.entries_pairwise hapart (ObjectSpace.mem_entries.2 hr)
      (ObjectSpace.mem_entries.2 hq) hlt⟩
  have hb : gapped.Bounds sixObjects := ⟨fun _ _ hr => (hmem hr).2.1, fun _ _ hr => (hmem hr).2.2⟩
  obtain ⟨plan, hplan, hexact, hrebuild, hagain⟩ := sweep_exact hs hspace hb
  have hfound : (gapped.sweepPlan sixObjects).toOption =
      some ⟨4304, [⟨4096, 24⟩, ⟨4232, 48⟩], 120⟩ := by
    decide +kernel
  rw [hplan] at hfound
  exact ⟨hs, hspace, hb, plan, Option.some.inj hfound, hplan, hexact, hrebuild, hagain⟩

end Segment

/-! ## Heaps -/

namespace SharedArena.Housed

variable {m : SharedArena} {home : Nat → Nat} {i id : Nat} {t : SegmentTable} {s : Segment}
  {space : ObjectSpace}

/-- No object of theirs reaches over the bounds of a segment. -/
theorem bounds (h : m.Housed home space) (ht : m.tables[i]? = some t) (hs : t.find? id = some s) :
    s.Bounds space where
  start a r hr hlt := by
    have hle := (h.sound ht hs).start_le
    have hout := h.outside ht hs hr (.inl hlt)
    omega
  allocated _ _ hr hcovers := h.stop_le ht hs hr hcovers.1 hcovers.2

end SharedArena.Housed

end GenHeap
