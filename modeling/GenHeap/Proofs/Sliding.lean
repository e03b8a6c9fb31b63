import GenHeap.Proofs.CompactionProgress
import Mathlib.Data.List.Pairwise

/-!
Sliding compaction packs. In segments that share no address, whose allocated parts hold all objects,
a plan for any of them can be made and carried out: it moves objects down inside their segments, one
behind the other and in their order, around those that may not move, and redirects every slot once.
A second plan finds nothing left to move.
-/

namespace GenHeap

open CompactionPlan (Slides Slid Beside Tight)

/-! ## Objects in segments -/

/-- The address lies in the allocated part of the segment. -/
def Segment.Covers (s : Segment) (a : Nat) : Prop := s.start ≤ a ∧ a < s.allocated

theorem CompactionPlan.Beside.not_covers {s t : Segment} {a : Nat} (h : Beside s t)
    (hs : s.Covers a) : ¬ t.Covers a := by
  unfold Segment.Covers at *
  unfold Beside at h
  omega

namespace ObjectSpace

/-- Objects of some size that share no address, in the allocated parts of segments whose ranges
share none, and a right count of their bytes. -/
structure Lodged (space : ObjectSpace) (segments : List Segment) : Prop where
  weighed : space.Weighed
  spread : space.Spread
  inside : ∀ {a r}, space.get? a = some r →
    ∃ s ∈ segments, s.start ≤ a ∧ a + r.size ≤ s.allocated
  start_le : ∀ s ∈ segments, s.start ≤ s.allocated
  allocated_le : ∀ s ∈ segments, s.allocated ≤ s.range.start + s.range.size
  stop_lt : ∀ s ∈ segments, s.range.start + s.range.size < Word.count
  ranges : segments.Pairwise fun s t => s.range.Apart t.range

/-- The objects that start in the allocated part of a segment, in ascending order. -/
def residents (space : ObjectSpace) (s : Segment) : List (Nat × Record) :=
  space.entries.filter fun (a, _) => s.start ≤ a && a < s.allocated

variable {space space' : ObjectSpace} {segments : List Segment} {s t : Segment} {a b : Nat}
  {r q : Record}

theorem mem_residents : (a, r) ∈ space.residents s ↔ space.get? a = some r ∧ s.Covers a := by
  unfold residents Segment.Covers
  rw [List.mem_filter, mem_entries, Bool.and_eq_true, decide_eq_true_eq, decide_eq_true_eq]

theorem pairwise_residents (space : ObjectSpace) (s : Segment) :
    (space.residents s).Pairwise (·.1 < ·.1) :=
  space.entries_pairwise.filter _

/-- In front of an object of a segment are those that lie before it there. -/
theorem mem_front {front back : List (Nat × Record)}
    (hsplit : space.residents s = front ++ (a, r) :: back) :
    (b, q) ∈ front ↔ space.get? b = some q ∧ s.start ≤ b ∧ b < a := by
  have hmem {c : Nat} {p : Record} : (c, p) ∈ front ++ (a, r) :: back ↔
      space.get? c = some p ∧ s.Covers c := by
    rw [← hsplit]
    exact mem_residents
  have hsorted := pairwise_residents space s
  rw [hsplit] at hsorted
  obtain ⟨_, hback, hcross⟩ := List.pairwise_append.1 hsorted
  constructor
  · intro hin
    obtain ⟨hq, hcovers⟩ := hmem.1 (List.mem_append_left _ hin)
    exact ⟨hq, hcovers.1, hcross _ hin _ List.mem_cons_self⟩
  · rintro ⟨hq, hlo, hlt⟩
    obtain ⟨_, ha⟩ := hmem.1 (List.mem_append_right front List.mem_cons_self)
    rcases List.mem_append.1 (hmem.2 ⟨hq, hlo, Nat.lt_trans hlt ha.2⟩) with hin | hin
    · exact hin
    · rcases List.mem_cons.1 hin with heq | hin
      · cases heq
        exact absurd hlt (Nat.lt_irrefl _)
      · exact absurd ((List.pairwise_cons.1 hback).1 _ hin) (Nat.lt_asymm hlt)

theorem startingIn_residents (h : s.start ≤ s.allocated) :
    space.startingIn s.start s.allocated = .ok (space.residents s) := by
  have hle : ¬ s.allocated < s.start := Nat.not_lt_of_le h
  simp [startingIn, hle, residents]

namespace Lodged

theorem ranges_apart (h : space.Lodged segments) (hs : s ∈ segments) (ht : t ∈ segments)
    (hne : s ≠ t) : s.range.Apart t.range :=
  have : Std.Symm fun s t : Segment => s.range.Apart t.range := ⟨fun _ _ hap => hap.symm⟩
  h.ranges.forall hs ht hne

theorem beside (h : space.Lodged segments) (hs : s ∈ segments) (ht : t ∈ segments) (hne : s ≠ t) :
    Beside s t := by
  have hpair := h.ranges_apart hs ht hne
  have := h.allocated_le s hs
  have := h.allocated_le t ht
  unfold AddressRange.Apart at hpair
  unfold Beside Segment.start
  omega

theorem eq_of_covers (h : space.Lodged segments) (hs : s ∈ segments) (ht : t ∈ segments)
    (hsa : s.Covers a) (hta : t.Covers a) : s = t := by
  by_cases hne : s = t
  · exact hne
  · exact absurd hta ((h.beside hs ht hne).not_covers hsa)

/-- An object that starts in a segment ends in it. -/
theorem stop_le (h : space.Lodged segments) (hs : s ∈ segments) (hr : space.get? a = some r)
    (ha : s.Covers a) : a + r.size ≤ s.allocated := by
  obtain ⟨t, ht, hlo, hhi⟩ := h.inside hr
  have := h.spread.size_pos hr
  cases h.eq_of_covers hs ht ha ⟨hlo, by omega⟩
  exact hhi

/-- No object reaches into the start of a segment. -/
theorem stop_le_start (h : space.Lodged segments) (hs : s ∈ segments) (hr : space.get? a = some r)
    (hlt : a < s.start) : a + r.size ≤ s.start := by
  obtain ⟨t, ht, hlo, hhi⟩ := h.inside hr
  have hne : t ≠ s := by
    rintro rfl
    omega
  have hbeside := h.beside ht hs hne
  have := h.start_le s hs
  unfold Beside at hbeside
  omega

theorem closed (h : space.Lodged segments) (hs : s ∈ segments) : CompactionPlan.Closed space s where
  start_le := h.start_le s hs
  allocated_le := h.allocated_le s hs
  stop_lt := h.stop_lt s hs
  inside _ _ hr hlo hhi := h.stop_le hs hr ⟨hlo, hhi⟩

theorem weight_lt (h : space.Lodged segments) : weight space.entries < Word.count := by
  have hstop (x : Nat × Record) (hx : x ∈ space.entries) : x.1 + x.2.size ≤ Word.count - 1 := by
    obtain ⟨s, hs, _, hhi⟩ := h.inside (mem_entries.1 hx)
    have := h.allocated_le s hs
    have := h.stop_lt s hs
    omega
  have hall : space.entries.filter (fun (a, _) => 0 ≤ a && a < Word.count) = space.entries := by
    refine List.filter_eq_self.2 fun x hx => ?_
    have hx := hstop x hx
    have hcount : 0 < Word.count := by decide
    simp only [Nat.zero_le, decide_true, Bool.true_and, decide_eq_true_eq]
    omega
  have hrange : space.startingIn 0 Word.count = .ok space.entries := by
    rw [startingIn, hall, if_neg]
    simp only [Nat.not_lt_zero, decide_false, Bool.and_false, Bool.false_eq_true, not_false_eq_true]
  have hle := (h.spread.inLine hrange).weight_le (Nat.zero_le _) hstop
  have hcount : 0 < Word.count := by decide
  omega

/-- Whether objects are lodged can be read off their list. -/
theorem of_entries (hweighed : space.totalBytes = weight space.entries)
    (hobjects : ∀ x ∈ space.entries, 0 < x.2.size ∧
      ∃ s ∈ segments, s.start ≤ x.1 ∧ x.1 + x.2.size ≤ s.allocated)
    (hapart : space.entries.Pairwise fun x y => x.1 + x.2.size ≤ y.1)
    (hsegments : ∀ s ∈ segments, s.start ≤ s.allocated ∧
      s.allocated ≤ s.range.start + s.range.size ∧ s.range.start + s.range.size < Word.count)
    (hranges : segments.Pairwise fun s t => s.range.start + s.range.size ≤ t.range.start) :
    space.Lodged segments where
  weighed := hweighed
  spread.size_pos hr := (hobjects _ (mem_entries.2 hr)).1
  spread.stop_le hr hq hlt :=
    pairwise_of_lt space.entries_pairwise hapart (mem_entries.2 hr) (mem_entries.2 hq) hlt
  inside hr := (hobjects _ (mem_entries.2 hr)).2
  start_le s hs := (hsegments s hs).1
  allocated_le s hs := (hsegments s hs).2.1
  stop_lt s hs := (hsegments s hs).2.2
  ranges := hranges.imp .inl

/-- The ranges of different segments hold no more bytes than there are addresses. -/
theorem total_le (h : space.Lodged segments) {planned : List Segment} (hnodup : planned.Nodup)
    (hsub : ∀ s ∈ planned, s ∈ segments) :
    Word.total (planned.map (·.range.size)) ≤ Word.count - 1 := by
  have hapart : (planned.map (·.range)).Pairwise AddressRange.Apart := by
    rw [List.pairwise_map]
    apply hnodup.pairwise_of_forall_ne
    intro s hs t ht hne
    exact h.ranges_apart (hsub s hs) (hsub t ht) hne
  have hin : ∀ x ∈ planned.map (·.range), AddressRange.Encloses ⟨0, Word.count - 1⟩ x := by
    intro x hx
    obtain ⟨s, hs, rfl⟩ := List.mem_map.1 hx
    have := h.stop_lt s (hsub s hs)
    unfold AddressRange.Encloses
    dsimp only
    omega
  have hle := AddressRange.total_size_le hapart hin
  rwa [List.map_map] at hle

end Lodged

end ObjectSpace

namespace CompactionPlan

open ObjectSpace (Lodged residents mem_residents mem_front pairwise_residents)

variable {p p' : CompactionPlan} {space space' : ObjectSpace} {segments planned : List Segment}
  {s : Segment} {a b c cursor : Nat} {r q : Record} {movable movable' : Nat → Record → Bool}
  {mv : Nat → Record → Prop} {done : Segment → Prop} {f g : Nat → Nat}
  {objects front back : List (Nat × Record)}

/-! ## Without gaps -/

theorem Tight.congr (h : Tight movable f cursor objects) (hfg : ∀ a r, (a, r) ∈ objects → g a = f a) :
    Tight movable g cursor objects := by
  induction objects generalizing cursor with
  | nil => trivial
  | cons x rest ih =>
    obtain ⟨a, r⟩ := x
    rw [Tight, hfg a r List.mem_cons_self]
    exact ⟨h.1, ih h.2 fun b q hm => hfg b q (List.mem_cons_of_mem _ hm)⟩

/-- A movable object behind others starts where the last of them ends. -/
theorem Tight.start_eq (h : Tight movable f cursor (front ++ (a, r) :: back))
    (hmovable : movable a r = true) :
    f a = (front.getLast?.map fun x => f x.1 + x.2.size).getD cursor := by
  induction front generalizing cursor with
  | nil => exact h.1 hmovable
  | cons x front ih =>
    rw [ih h.2, List.getLast?_cons]
    cases front.getLast? with
    | none => rfl
    | some y => rfl

/-- Once objects are packed, no slide moves them again. -/
theorem Tight.slide_eq (h : Tight movable p.forward cursor objects) {f : Record → Record}
    (hsize : ∀ r, (f r).size = r.size)
    (hstop : ∀ a r, (a, r) ∈ objects → p.forward a + r.size < Word.count)
    (hallowed : ∀ a r, (a, r) ∈ objects → movable' (p.forward a) (f r) = true → movable a r = true) :
    slide movable' cursor p' (objects.map fun x => (p.forward x.1, f x.2)) = .ok p' := by
  induction objects generalizing cursor with
  | nil => rfl
  | cons x rest ih =>
    obtain ⟨a, r⟩ := x
    have hadd : Word.add (p.forward a) r.size = .ok (p.forward a + r.size) :=
      Word.add_eq_ok_iff.2 ⟨hstop a r List.mem_cons_self, rfl⟩
    have hrest := ih h.2 (fun b q hm => hstop b q (List.mem_cons_of_mem _ hm))
      fun b q hm => hallowed b q (List.mem_cons_of_mem _ hm)
    rw [List.map_cons, slide]
    cases hm : movable' (p.forward a) (f r) with
    | true =>
      have heq := h.1 (hallowed a r List.mem_cons_self hm)
      rw [heq] at hadd hrest
      simp only [if_true, heq, Nat.lt_irrefl, if_false, hsize, hadd, pure_bind]
      exact hrest
    | false =>
      simp only [Bool.false_eq_true, if_false, hsize, hadd]
      exact hrest

/-! ## Planning -/

/-- The segments of a plan, one after the other, leave each without gaps. -/
theorem Slides.tight_addSegments (h : p.Slides space done mv) (hspace : space.Spread)
    (hdone : ∀ d s, done d → s ∈ segments → Beside d s) (hpair : segments.Pairwise Beside)
    (hle : ∀ s ∈ segments, s.start ≤ s.allocated)
    (hstart : ∀ s ∈ segments, ∀ a r, space.get? a = some r → a < s.start → a + r.size ≤ s.start)
    (hmv : ∀ a r, space.get? a = some r → movable a r = true → mv a r)
    (hrun : segments.foldlM (fun p s => p.addSegment s space movable) p = .ok p') :
    (∀ s ∈ segments, Tight movable p'.forward s.start (space.residents s)) ∧
      ∀ a, (∀ s ∈ segments, ¬ s.Covers a) → p'.forward a = p.forward a := by
  induction segments generalizing p done with
  | nil =>
    rw [List.foldlM_nil, Checked.pure_eq_ok] at hrun
    subst hrun
    exact ⟨nofun, fun _ _ => rfl⟩
  | cons s rest ih =>
    rw [List.foldlM_cons, Checked.bind_eq_ok] at hrun
    obtain ⟨p₁, hp₁, hrun⟩ := hrun
    rw [List.pairwise_cons] at hpair
    rw [List.forall_mem_cons] at hle hstart
    have hnext := fun d hd => hdone d s hd List.mem_cons_self
    obtain ⟨objects, hobjects, -, hslid⟩ := h.slid hspace hnext hp₁
    cases (ObjectSpace.startingIn_residents hle.1).symm.trans hobjects
    have h₁ := h.addSegment hspace hnext hstart.1 hmv hp₁
    have hbeside (d x : Segment) (hd : done d ∨ d = s) (hx : x ∈ rest) : Beside d x := by
      rcases hd with hd | rfl
      · exact hdone d x hd (List.mem_cons_of_mem _ hx)
      · exact hpair.1 x hx
    obtain ⟨htight, hothers⟩ := ih h₁ hbeside hpair.2 hle.2 hstart.2 hrun
    constructor
    · intro x hx
      rcases List.mem_cons.1 hx with rfl | hx
      · refine hslid.tight.congr fun a r hm => hothers a fun y hy => ?_
        exact (hpair.1 y hy).not_covers (mem_residents.1 hm).2
      · exact htight x hx
    · intro a ha
      rw [List.forall_mem_cons] at ha
      rw [hothers a ha.2, hslid.others a fun r hm => ha.1 (mem_residents.1 hm).2]

/-- The plan for some segments, one after the other. -/
def ofSegments (segments : List Segment) (space : ObjectSpace) (movable : Nat → Record → Bool) :
    Checked CompactionPlan :=
  segments.foldlM (fun p s => addSegment p s space movable) {}

/-- Only moves down are planned. -/
theorem lt_of_ofSegments (hrun : ofSegments segments space movable = .ok p)
    (hc : p.forwarding[a]? = some c) : c < a := by
  refine addSegments_induct (fun p => ∀ a c, p.forwarding[a]? = some c → c < a) ?_ ?_ hrun a c hc
  · intro p b size d p' hlt hp hmove a c hc
    simp only [move, Checked.bind_eq_ok, Checked.pure_eq_ok] at hmove
    obtain ⟨_, _, rfl⟩ := hmove
    simp only [Std.TreeMap.getElem?_insert, Nat.compare_eq_eq] at hc
    split at hc
    next hba =>
      cases hc
      exact hba ▸ hlt
    next => exact hp a c hc
  · intro a c hc
    rw [Std.TreeMap.getElem?_emptyc] at hc
    cases hc

/-- What is known of a plan for some of the segments. -/
structure Fits (p : CompactionPlan) (space : ObjectSpace) (planned : List Segment)
    (movable : Nat → Record → Bool) : Prop where
  slides : p.Slides space (· ∈ planned) fun a r => movable a r = true
  tight : ∀ s ∈ planned, Tight movable p.forward s.start (space.residents s)
  lt : ∀ {a c : Nat}, p.forwarding[a]? = some c → c < a

theorem exists_fits (h : space.Lodged segments) (hnodup : planned.Nodup)
    (hsub : ∀ s ∈ planned, s ∈ segments) (movable : Nat → Record → Bool) :
    ∃ p, ofSegments planned space movable = .ok p ∧ p.Fits space planned movable := by
  have hpair : planned.Pairwise Beside :=
    hnodup.pairwise_of_forall_ne fun s hs t ht hne => h.beside (hsub s hs) (hsub t ht) hne
  have hstart (s : Segment) (hs : s ∈ planned) (a : Nat) (r : Record) (hr : space.get? a = some r)
      (hlt : a < s.start) : a + r.size ≤ s.start := h.stop_le_start (hsub s hs) hr hlt
  have hroom : 0 + Word.total (planned.map (·.range.size)) ≤ Word.count - 1 := by
    rw [Nat.zero_add]
    exact h.total_le hnodup hsub
  obtain ⟨p, hp, -⟩ := moves_empty.addSegments h.spread (fun s hs => h.closed (hsub s hs)) movable
    hroom (by decide)
  have hempty : Slides {} space (fun _ => False) fun a r => movable a r = true :=
    slides_empty h.spread
  have hslides := hempty.addSegments h.spread nofun hpair hstart (fun _ _ _ hm => hm) hp
  have htight := hempty.tight_addSegments h.spread nofun hpair (fun s hs => h.start_le s (hsub s hs))
    hstart (fun _ _ _ hm => hm) hp
  refine ⟨p, hp, ⟨hslides.le, fun hne => ?_, hslides.ordered⟩, htight.1,
    lt_of_ofSegments hp⟩
  obtain ⟨r, hr, hm, s, hs, hin⟩ := hslides.moved hne
  exact ⟨r, hr, hm, s, hs.resolve_left id, hin⟩

/-! ## Carrying the plan out -/

/-- A record with the addresses that a plan gives its slots. -/
def redirect (p : CompactionPlan) (r : Record) : Record := { r with slots := r.slots.map p.forward }

section Applied

variable (h : space.Lodged segments) (hp : p.Fits space planned movable)

include h hp

theorem Fits.entries_apply (hrun : p.apply space = .ok space') :
    space'.entries = space.entries.map fun x => (p.forward x.1, p.redirect x.2) := by
  have hsorted : (space.entries.map fun x => (p.forward x.1, p.redirect x.2)).Pairwise (·.1 < ·.1) := by
    rw [List.pairwise_map]
    refine space.entries_pairwise.imp_of_mem fun {x y} hx hy hlt => ?_
    have := hp.slides.ordered (ObjectSpace.mem_entries.1 hx) (ObjectSpace.mem_entries.1 hy) hlt
    have := h.spread.size_pos (ObjectSpace.mem_entries.1 hx)
    dsimp only
    omega
  have hperm := ObjectSpace.entries_perm (s := space') (hsorted.imp fun hlt he => by
    rw [he] at hlt
    exact Nat.lt_irrefl _ hlt) fun c q => by
      rw [hp.slides.get?_apply h.spread hrun, List.mem_map]
      constructor
      · rintro ⟨⟨a, r⟩, hm, he⟩
        cases he
        exact ⟨a, r, ObjectSpace.mem_entries.1 hm, rfl, rfl⟩
      · rintro ⟨a, r, hr, rfl, rfl⟩
        exact ⟨(a, r), ObjectSpace.mem_entries.2 hr, rfl⟩
  exact hperm.eq_of_pairwise (fun x y _ _ hxy hyx => absurd hxy (Nat.lt_asymm hyx))
    space'.entries_pairwise hsorted

variable (hsub : ∀ s ∈ planned, s ∈ segments)

include hsub

/-- Objects keep their segment. -/
theorem Fits.covers_iff (hs : s ∈ segments) : s.Covers (p.forward a) ↔ s.Covers a := by
  rcases Nat.decEq (p.forward a) a with hne | heq
  · obtain ⟨r, hr, _, d, hd, hlo, hhi⟩ := hp.slides.moved hne
    have hle := hp.slides.le a
    constructor
    · intro hcovers
      cases h.eq_of_covers hs (hsub d hd) hcovers ⟨hlo, by omega⟩
      exact ⟨by have := hcovers.1; omega, hhi⟩
    · intro hcovers
      cases h.eq_of_covers hs (hsub d hd) hcovers ⟨by omega, hhi⟩
      exact ⟨hlo, by have := hcovers.2; omega⟩
  · rw [heq]

theorem Fits.residents_apply (hrun : p.apply space = .ok space') (hs : s ∈ segments) :
    space'.residents s = (space.residents s).map fun x => (p.forward x.1, p.redirect x.2) := by
  unfold residents
  rw [hp.entries_apply h hrun, List.filter_map]
  congr 1
  refine List.filter_congr fun x _ => ?_
  have hiff := hp.covers_iff h hsub (a := x.1) hs
  unfold Segment.Covers at hiff
  rw [Bool.eq_iff_iff]
  simpa using hiff

/-- The objects lie apart in the same segments as before, and are as many and of the same bytes. -/
theorem Fits.lodged (hrun : p.apply space = .ok space') : space'.Lodged segments := by
  have hget := fun c q => hp.slides.get?_apply h.spread hrun (c := c) (q := q)
  refine ⟨h.weighed.apply hrun, ⟨fun hq => ?_, fun {c d q q'} hq hq' hlt => ?_⟩, fun {c q} hq => ?_,
    h.start_le, h.allocated_le, h.stop_lt, h.ranges⟩
  · obtain ⟨a, r, hr, _, rfl⟩ := (hget _ _).1 hq
    have hpos := h.spread.size_pos hr
    exact hpos
  · obtain ⟨a, r, hr, rfl, rfl⟩ := (hget _ _).1 hq
    obtain ⟨b, r', hr', rfl, rfl⟩ := (hget _ _).1 hq'
    rcases Nat.lt_trichotomy a b with hab | rfl | hab
    · have hle := hp.slides.ordered hr hr' hab
      exact hle
    · exact absurd hlt (Nat.lt_irrefl _)
    · have := hp.slides.ordered hr' hr hab
      omega
  · obtain ⟨a, r, hr, rfl, rfl⟩ := (hget _ _).1 hq
    obtain ⟨s, hs, hlo, hhi⟩ := h.inside hr
    have hpos := h.spread.size_pos hr
    have hcovers := (hp.covers_iff h hsub hs).2 ⟨hlo, by omega⟩
    have hle := hp.slides.le a
    exact ⟨s, hs, hcovers.1, by dsimp only; omega⟩

/-- Nothing is left to move for a second plan, which may move what the first one might. -/
theorem Fits.ofSegments_apply (hrun : p.apply space = .ok space')
    (hallowed : ∀ a r, space.get? a = some r → movable' (p.forward a) (p.redirect r) = true →
      movable a r = true) : ofSegments planned space' movable' = .ok {} := by
  have hstep (s : Segment) (hs : s ∈ planned) (p' : CompactionPlan) :
      addSegment p' s space' movable' = .ok p' := by
    have hseg := hsub s hs
    rw [addSegment, ObjectSpace.startingIn_residents (h.start_le s hseg),
      hp.residents_apply h hsub hrun hseg]
    refine (hp.tight s hs).slide_eq (f := p.redirect) (fun _ => rfl) (fun a r hm => ?_) fun a r hm => ?_
    · obtain ⟨hr, hcovers⟩ := mem_residents.1 hm
      have := h.stop_le hseg hr hcovers
      have := h.allocated_le s hseg
      have := h.stop_lt s hseg
      have := hp.slides.le a
      omega
    · exact hallowed a r (mem_residents.1 hm).1
  clear hsub hp
  unfold ofSegments
  induction planned with
  | nil => rfl
  | cons s rest ih =>
    rw [List.foldlM_cons, hstep s List.mem_cons_self]
    exact ih fun t ht => hstep t (List.mem_cons_of_mem _ ht)

end Applied

/-- What a plan for some segments has done to a space. -/
structure Packs (p : CompactionPlan) (space space' : ObjectSpace) (planned : List Segment)
    (movable : Nat → Record → Bool) : Prop where
  /-- the same objects at their new addresses, every slot redirected once and nothing else changed -/
  get?_iff : ∀ c q, space'.get? c = some q ↔ ∃ a r, space.get? a = some r ∧ p.forward a = c ∧
    q = { r with slots := r.slots.map p.forward }
  others : ∀ a : Nat, p.forwarding[a]? = none → p.forward a = a
  moved : ∀ a c : Nat, p.forwarding[a]? = some c → p.forward a = c ∧ c < a ∧
    ∃ r, space.get? a = some r ∧ movable a r = true ∧
      ∃ s ∈ planned, s.start ≤ c ∧ a + r.size ≤ s.allocated
  fixed : ∀ a r, space.get? a = some r → movable a r = false → p.forward a = a
  injective : ∀ a b r q, space.get? a = some r → space.get? b = some q →
    p.forward a = p.forward b → a = b
  /-- no object passes another one or comes to lie on it -/
  ordered : ∀ a b r q, space.get? a = some r → space.get? b = some q → a < b →
    p.forward a + r.size ≤ p.forward b
  /-- a movable object starts with its segment or where the object before it ends -/
  snug : ∀ s ∈ planned, ∀ a r, space.get? a = some r → s.Covers a → movable a r = true →
    p.forward a = s.start ∧ (∀ b, s.start ≤ b → b < a → space.get? b = none) ∨
    ∃ b q, space.get? b = some q ∧ s.start ≤ b ∧ b < a ∧
      (∀ d, b < d → d < a → space.get? d = none) ∧ p.forward a = p.forward b + q.size
  count_eq : space'.count = space.count
  totalBytes_eq : space'.totalBytes = space.totalBytes

theorem Fits.snug (hp : p.Fits space planned movable) (hs : s ∈ planned)
    (hr : space.get? a = some r) (ha : s.Covers a) (hmovable : movable a r = true) :
    p.forward a = s.start ∧ (∀ b, s.start ≤ b → b < a → space.get? b = none) ∨
    ∃ b q, space.get? b = some q ∧ s.start ≤ b ∧ b < a ∧
      (∀ d, b < d → d < a → space.get? d = none) ∧ p.forward a = p.forward b + q.size := by
  obtain ⟨front, back, hsplit⟩ := List.append_of_mem (mem_residents.2 ⟨hr, ha⟩)
  have htight := hp.tight s hs
  rw [hsplit] at htight
  have hstart := htight.start_eq hmovable
  rcases List.eq_nil_or_concat' front with rfl | ⟨front, ⟨b, q⟩, rfl⟩
  · refine .inl ⟨hstart, fun d hlo hlt => ?_⟩
    rw [Option.eq_none_iff_forall_ne_some]
    exact fun q hq => List.not_mem_nil ((mem_front hsplit).2 ⟨hq, hlo, hlt⟩)
  · obtain ⟨hq, hlo, hba⟩ := (mem_front hsplit).1 (List.mem_append_right _ List.mem_cons_self)
    -- the last one in front of the object is the last one before it
    have hsorted := pairwise_residents space s
    rw [hsplit, List.append_assoc] at hsorted
    have hlast := (List.pairwise_append.1 hsorted).2.2
    refine .inr ⟨b, q, hq, hlo, hba, fun d hbd hda => ?_, ?_⟩
    · rw [Option.eq_none_iff_forall_ne_some]
      intro q' hq'
      have hin := (mem_front hsplit).2 ⟨hq', Nat.le_trans hlo (Nat.le_of_lt hbd), hda⟩
      rcases List.mem_append.1 hin with hin | hin
      · exact absurd (hlast _ hin _ List.mem_cons_self) (Nat.lt_asymm hbd)
      · cases List.mem_singleton.1 hin
        exact absurd hbd (Nat.lt_irrefl _)
    · rw [hstart, List.getLast?_append]
      rfl

theorem Fits.packs (hp : p.Fits space planned movable) (h : space.Lodged segments)
    (hsub : ∀ s ∈ planned, s ∈ segments) (hrun : p.apply space = .ok space') :
    p.Packs space space' planned movable where
  get?_iff _ _ := hp.slides.get?_apply h.spread hrun
  others _ := forward_of_getElem?_none
  moved a c hc := by
    have hforward := forward_of_getElem? hc
    have hlt := hp.lt hc
    obtain ⟨r, hr, hm, s, hs, hlo, hhi⟩ := hp.slides.moved (a := a) (by omega)
    rw [hforward] at hlo
    exact ⟨hforward, hlt, r, hr, hm, s, hs, hlo, h.stop_le (hsub s hs) hr ⟨by omega, hhi⟩⟩
  fixed a r hr hfixed := by
    by_cases heq : p.forward a = a
    · exact heq
    · obtain ⟨q, hq, hm, _⟩ := hp.slides.moved heq
      cases hr.symm.trans hq
      exact absurd (hm.symm.trans hfixed) nofun
  injective _ _ _ _ := hp.slides.injective h.spread
  ordered _ _ _ _ := hp.slides.ordered
  snug _ hs _ _ := hp.snug hs
  count_eq := by
    have hlength (s : ObjectSpace) : s.count = s.entries.length := Std.TreeMap.length_toList.symm
    rw [hlength, hlength, hp.entries_apply h hrun, List.length_map]
  totalBytes_eq := by
    rw [h.weighed.apply hrun, h.weighed, hp.entries_apply h hrun, ObjectSpace.weight,
      ObjectSpace.weight, List.map_map]
    rfl

/-- Sliding compaction packs: for objects lodged in segments, a plan for any of the segments, in any
order and with any choice of movable objects, is made and carried out without a fault and packs the
objects, which stay lodged in their segments. A second plan that may move no more is empty. -/
theorem compaction_packs (h : space.Lodged segments) (hnodup : planned.Nodup)
    (hsub : ∀ s ∈ planned, s ∈ segments) (movable : Nat → Record → Bool) :
    ∃ p space', ofSegments planned space movable = .ok p ∧ p.apply space = .ok space' ∧
      p.Packs space space' planned movable ∧ space'.Lodged segments ∧
      ∀ movable' : Nat → Record → Bool,
        (∀ a r, space.get? a = some r →
          movable' (p.forward a) { r with slots := r.slots.map p.forward } = true →
          movable a r = true) →
        ofSegments planned space' movable' = .ok {} := by
  obtain ⟨p, hplan, hp⟩ := exists_fits h hnodup hsub movable
  obtain ⟨space', hrun⟩ := runs_apply p h.weighed h.weight_lt
  exact ⟨p, space', hplan, hrun, hp.packs h hsub hrun, hp.lodged h hsub hrun,
    fun _ hallowed => hp.ofSegments_apply h hsub hrun hallowed⟩

/-- Three segments. In the first one the object at 112 moves to where the one at 88 was, the one at
160 is pinned, and the one at 216 closes up to it. -/
def threeSegments : List Segment :=
  [⟨0, .segment, ⟨64, 256⟩, 256, 240, .gen2, []⟩, ⟨1, .segment, ⟨1024, 256⟩, 256, 1088, .gen1, []⟩,
    ⟨2, .segment, ⟨4096, 256⟩, 256, 4168, .large, []⟩]

def sixObjects : ObjectSpace where
  objects := Std.TreeMap.ofList (β := Record) [
    (88, { size := 24, generation := .gen2, heap := 0, segment := 0, slots := [112] }),
    (112, { size := 24, generation := .gen2, heap := 0, segment := 0, slots := [88] }),
    (160, { size := 32, generation := .gen2, heap := 0, segment := 0, slots := [], pinned := true }),
    (216, { size := 24, generation := .gen2, heap := 0, segment := 0, slots := [1040] }),
    (1040, { size := 48, generation := .gen1, heap := 0, segment := 1, slots := [88, 88, 160, 0] }),
    (4128, { size := 40, generation := .large, heap := 0, segment := 2, slots := [216, 64, 4128] })]
  totalBytes := 192
  touched := true

theorem lodged_sixObjects : sixObjects.Lodged threeSegments :=
  .of_entries (by decide +kernel) (by decide +kernel) (by decide +kernel) (by decide +kernel)
    (by decide +kernel)

/-- The third segment is not compacted, but its slots are redirected. -/
theorem compaction_packs_sixObjects : sixObjects.Lodged threeSegments ∧
    (threeSegments.take 2).reverse.Nodup ∧
    (∀ s ∈ (threeSegments.take 2).reverse, s ∈ threeSegments) ∧
    ∃ p space', ofSegments (threeSegments.take 2).reverse sixObjects (fun _ r => !r.pinned) = .ok p ∧
      p.apply sixObjects = .ok space' ∧
      p.Packs sixObjects space' (threeSegments.take 2).reverse (fun _ r => !r.pinned) := by
  have hnodup : (threeSegments.take 2).reverse.Nodup := by decide
  have hsub : ∀ s ∈ (threeSegments.take 2).reverse, s ∈ threeSegments := by decide
  obtain ⟨p, space', hplan, hrun, hpacks, -⟩ :=
    compaction_packs lodged_sixObjects hnodup hsub fun _ r => !r.pinned
  exact ⟨lodged_sixObjects, hnodup, hsub, p, space', hplan, hrun, hpacks⟩

example : (ofSegments (threeSegments.take 2).reverse sixObjects fun _ r => !r.pinned).toOption.map
    (·.forwarding.toList) = some [(88, 64), (112, 88), (216, 192), (1040, 1024)] := by
  decide +kernel

end CompactionPlan

end GenHeap
