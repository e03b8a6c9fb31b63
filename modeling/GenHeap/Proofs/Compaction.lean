import GenHeap.Compaction
import GenHeap.Proofs.Segment

/-!
A compaction plan slides objects down inside their segments and keeps their order, so no two of them
meet. Carrying it out puts every object at its new address and redirects all slots at once.
-/

namespace GenHeap

namespace ObjectSpace

theorem InLine.mono {cursor cursor' : Nat} {objects : List (Nat × Record)}
    (h : InLine cursor objects) (hle : cursor' ≤ cursor) : InLine cursor' objects := by
  cases objects with
  | nil => trivial
  | cons x rest => exact ⟨Nat.le_trans hle h.1, h.2⟩

end ObjectSpace

namespace CompactionPlan

open ObjectSpace (InLine)

variable {p p' : CompactionPlan} {space space' : ObjectSpace} {s : Segment} {a b c size : Nat}
  {r q : Record} {movable : Nat → Record → Bool} {mv : Nat → Record → Prop}
  {done : Segment → Prop} {segments : List Segment}

theorem forward_empty : forward {} a = a := Std.TreeMap.getD_emptyc

theorem forward_move (h : p.move a size c = .ok p') :
    p'.forward b = if a = b then c else p.forward b := by
  simp only [move, Checked.bind_eq_ok, Checked.pure_eq_ok] at h
  obtain ⟨moved, _, rfl⟩ := h
  simp only [forward, Std.TreeMap.getD_insert, Nat.compare_eq_eq]

/-- Every movable object starts where the object before it ends, the first one at the cursor. -/
def Tight (movable : Nat → Record → Bool) (f : Nat → Nat) (cursor : Nat) :
    List (Nat × Record) → Prop
  | [] => True
  | (a, r) :: rest => (movable a r = true → f a = cursor) ∧ Tight movable f (f a + r.size) rest

/-- The plan `p'` after a slide of `objects`: it changes the addresses of these only, moves none of
them up or below the cursor, and packs them without overlap and, where they may move, without gaps. -/
structure Slid (movable : Nat → Record → Bool) (cursor : Nat) (p : CompactionPlan)
    (objects : List (Nat × Record)) (p' : CompactionPlan) : Prop where
  others : ∀ a, (∀ r, (a, r) ∉ objects) → p'.forward a = p.forward a
  bounds : ∀ a r, (a, r) ∈ objects → cursor ≤ p'.forward a ∧ p'.forward a ≤ a ∧
    (movable a r = false → p'.forward a = a)
  packed : objects.Pairwise fun x y => p'.forward x.1 + x.2.size ≤ p'.forward y.1
  tight : Tight movable p'.forward cursor objects

/-- An object that is put at `t`, and a slide of the rest from its end on. -/
theorem Slid.cons {cursor t : Nat} {p₁ : CompactionPlan} {rest : List (Nat × Record)}
    (h : Slid movable (t + r.size) p₁ rest p') (hrest : ∀ b q, (b, q) ∈ rest → a < b)
    (hct : cursor ≤ t) (hta : t ≤ a) (hfix : movable a r = false → t = a)
    (hgap : movable a r = true → t = cursor)
    (hp₁ : ∀ b, p₁.forward b = if a = b then t else p.forward b) :
    Slid movable cursor p ((a, r) :: rest) p' := by
  have hat : p'.forward a = t := by
    rw [h.others a fun q hm => Nat.lt_irrefl a (hrest a q hm), hp₁, if_pos rfl]
  constructor
  · intro b hb
    rw [h.others b fun q hm => hb q (List.mem_cons_of_mem _ hm), hp₁, if_neg]
    rintro rfl
    exact hb r List.mem_cons_self
  · intro b q hm
    rcases List.mem_cons.1 hm with heq | hm
    · cases heq
      rw [hat]
      exact ⟨hct, hta, hfix⟩
    · obtain ⟨hlo, hhi⟩ := h.bounds b q hm
      exact ⟨by omega, hhi⟩
  · refine List.pairwise_cons.2 ⟨fun y hm => ?_, h.packed⟩
    rw [hat]
    exact (h.bounds y.1 y.2 hm).1
  · rw [Tight, hat]
    exact ⟨hgap, h.tight⟩

theorem slide_eq_ok {cursor : Nat} {objects : List (Nat × Record)} (hline : InLine cursor objects)
    (hpos : ∀ a r, (a, r) ∈ objects → 0 < r.size)
    (hnew : ∀ a r, (a, r) ∈ objects → p.forward a = a)
    (hrun : slide movable cursor p objects = .ok p') : Slid movable cursor p objects p' := by
  induction objects generalizing cursor p with
  | nil =>
    cases hrun
    exact ⟨fun _ _ => rfl, fun _ _ hm => absurd hm List.not_mem_nil, .nil, trivial⟩
  | cons x rest ih =>
    obtain ⟨a, r⟩ := x
    obtain ⟨hca, hrest⟩ := hline
    have hself := hnew a r List.mem_cons_self
    have hsize := hpos a r List.mem_cons_self
    have hlater : ∀ b q, (b, q) ∈ rest → a < b := by
      intro b q hm
      have := hrest.le hm
      omega
    -- both branches put the object at some `t` and go on behind it
    have hcons {p₁ : CompactionPlan} {t : Nat} (hct : cursor ≤ t) (hta : t ≤ a)
        (hfix : movable a r = false → t = a) (hgap : movable a r = true → t = cursor)
        (hp₁ : ∀ b, p₁.forward b = if a = b then t else p.forward b)
        (hrun : slide movable (t + r.size) p₁ rest = .ok p') :
        Slid movable cursor p ((a, r) :: rest) p' := by
      refine Slid.cons (ih (hrest.mono (by omega)) ?_ ?_ hrun) hlater hct hta hfix hgap hp₁
      · intro b q hm
        exact hpos b q (List.mem_cons_of_mem _ hm)
      · intro b q hm
        rw [hp₁, if_neg (Nat.ne_of_lt (hlater b q hm))]
        exact hnew b q (List.mem_cons_of_mem _ hm)
    have hsame {t : Nat} (ht : t = a) (b : Nat) :
        p.forward b = if a = b then t else p.forward b := by
      split
      next hab => rw [← hab, hself, ht]
      next => rfl
    unfold slide at hrun
    cases hm : movable a r with
    | true =>
      have hfix : movable a r = false → cursor = a := fun hf => absurd (hm.symm.trans hf) nofun
      by_cases hc : cursor < a
      · simp only [hm, hc, if_true, Checked.bind_eq_ok, Word.add_eq_ok_iff] at hrun
        obtain ⟨p₁, hp₁, _, ⟨_, rfl⟩, hrun⟩ := hrun
        exact hcons (Nat.le_refl cursor) hca hfix (fun _ => rfl) (fun _ => forward_move hp₁) hrun
      · simp only [hm, hc, if_true, if_false, pure_bind, Checked.bind_eq_ok,
          Word.add_eq_ok_iff] at hrun
        obtain ⟨_, ⟨_, rfl⟩, hrun⟩ := hrun
        exact hcons (Nat.le_refl cursor) hca hfix (fun _ => rfl) (hsame (by omega)) hrun
    | false =>
      simp only [hm, Bool.false_eq_true, if_false, Checked.bind_eq_ok, Word.add_eq_ok_iff] at hrun
      obtain ⟨_, ⟨_, rfl⟩, hrun⟩ := hrun
      have hgap : movable a r = true → a = cursor := fun ht => absurd (hm.symm.trans ht) nofun
      exact hcons hca (Nat.le_refl a) (fun _ => rfl) hgap (hsame rfl) hrun

/-- A plan that moves objects allowed by `mv` down in the segments planned so far, and keeps the
order of all objects. -/
structure Slides (p : CompactionPlan) (space : ObjectSpace) (done : Segment → Prop)
    (mv : Nat → Record → Prop) : Prop where
  le : ∀ a, p.forward a ≤ a
  moved : ∀ {a}, p.forward a ≠ a → ∃ r, space.get? a = some r ∧ mv a r ∧
    ∃ s, done s ∧ s.start ≤ p.forward a ∧ a < s.allocated
  ordered : ∀ {a b r q}, space.get? a = some r → space.get? b = some q → a < b →
    p.forward a + r.size ≤ p.forward b

/-- What every single move downwards keeps, a slide keeps. -/
theorem slide_induct (I : CompactionPlan → Prop)
    (hmove : ∀ p a size c p', c < a → I p → p.move a size c = .ok p' → I p') {cursor : Nat}
    {objects : List (Nat × Record)} (hp : I p) (h : p.slide movable cursor objects = .ok p') : I p' := by
  induction objects generalizing cursor p with
  | nil =>
    cases h
    exact hp
  | cons x objects ih =>
    obtain ⟨a, r⟩ := x
    unfold slide at h
    cases hm : movable a r with
    | true =>
      by_cases hc : cursor < a
      · simp only [hm, hc, if_true, Checked.bind_eq_ok] at h
        obtain ⟨p₁, hp₁, _, _, h⟩ := h
        exact ih (hmove p a r.size cursor p₁ hc hp hp₁) h
      · simp only [hm, hc, if_true, if_false, pure_bind, Checked.bind_eq_ok] at h
        obtain ⟨_, _, h⟩ := h
        exact ih hp h
    | false =>
      simp only [hm, Bool.false_eq_true, if_false, Checked.bind_eq_ok] at h
      obtain ⟨_, _, h⟩ := h
      exact ih hp h

theorem addSegments_induct (I : CompactionPlan → Prop)
    (hmove : ∀ p a size c p', c < a → I p → p.move a size c = .ok p' → I p') (hp : I p)
    (h : segments.foldlM (fun p s => p.addSegment s space movable) p = .ok p') : I p' := by
  refine Checked.foldlM_induct I (fun q s q' _ hq hstep => ?_) hp h
  simp only [addSegment, Checked.bind_eq_ok] at hstep
  obtain ⟨_, _, hslide⟩ := hstep
  exact slide_induct I hmove hq hslide

/-- A plan only grows. -/
theorem movedObjects_le_addSegments
    (h : segments.foldlM (fun p s => p.addSegment s space movable) p = .ok p') :
    p.movedObjects ≤ p'.movedObjects := by
  refine addSegments_induct (fun q => p.movedObjects ≤ q.movedObjects) ?_ (Nat.le_refl _) h
  intro q a size c q' _ hq hmove
  simp only [move, Checked.bind_eq_ok, Checked.pure_eq_ok] at hmove
  obtain ⟨_, _, rfl⟩ := hmove
  exact Nat.le_trans hq Std.TreeMap.size_le_size_insert

theorem slides_empty (h : space.Spread) : Slides {} space done mv where
  le _ := Nat.le_of_eq forward_empty
  moved hne := absurd forward_empty hne
  ordered hr hq hlt := by
    rw [forward_empty, forward_empty]
    exact h.stop_le hr hq hlt

theorem Slides.injective (h : p.Slides space done mv) (hspace : space.Spread)
    (hr : space.get? a = some r) (hq : space.get? b = some q) (he : p.forward a = p.forward b) :
    a = b := by
  have := hspace.size_pos hr
  have := hspace.size_pos hq
  rcases Nat.lt_trichotomy a b with hlt | heq | hgt
  · have := h.ordered hr hq hlt
    omega
  · exact heq
  · have := h.ordered hq hr hgt
    omega

/-- Allocated parts of segments that share no address. -/
def Beside (s s' : Segment) : Prop := s.allocated ≤ s'.start ∨ s'.allocated ≤ s.start

/-- The objects of a segment that is not done are where they were. -/
theorem Slides.forward_of_beside (h : p.Slides space done mv) (hdone : ∀ d, done d → Beside d s)
    (hlo : s.start ≤ a) (hhi : a < s.allocated) : p.forward a = a := by
  rcases Nat.decEq (p.forward a) a with hne | heq
  · obtain ⟨_, _, _, d, hd, hdlo, hdhi⟩ := h.moved hne
    have hle := h.le a
    have hbeside := hdone d hd
    unfold Beside at hbeside
    omega
  · exact heq

/-- The objects of a segment that is not done are slid from its start on. -/
theorem Slides.slid (h : p.Slides space done mv) (hspace : space.Spread)
    (hdone : ∀ d, done d → Beside d s) (hrun : p.addSegment s space movable = .ok p') :
    ∃ objects, space.startingIn s.start s.allocated = .ok objects ∧
      (∀ a r, (a, r) ∈ objects → p.forward a = a) ∧ Slid movable s.start p objects p' := by
  simp only [CompactionPlan.addSegment, Checked.bind_eq_ok] at hrun
  obtain ⟨objects, hobjects, hrun⟩ := hrun
  have hmem := fun a r => ObjectSpace.mem_startingIn (a := a) (r := r) hobjects
  have hnew : ∀ a r, (a, r) ∈ objects → p.forward a = a := by
    intro a r hm
    obtain ⟨_, hlo, hhi⟩ := (hmem a r).1 hm
    exact h.forward_of_beside hdone hlo hhi
  exact ⟨objects, hobjects, hnew, slide_eq_ok (hspace.inLine hobjects)
    (fun a r hm => hspace.size_pos ((hmem a r).1 hm).1) hnew hrun⟩

/-- One more segment, into whose start no object reaches. -/
theorem Slides.addSegment (h : p.Slides space done mv) (hspace : space.Spread)
    (hdone : ∀ d, done d → Beside d s)
    (hstart : ∀ a r, space.get? a = some r → a < s.start → a + r.size ≤ s.start)
    (hmv : ∀ a r, space.get? a = some r → movable a r = true → mv a r)
    (hrun : p.addSegment s space movable = .ok p') :
    p'.Slides space (fun d => done d ∨ d = s) mv := by
  obtain ⟨objects, hobjects, hnew, hslid⟩ := h.slid hspace hdone hrun
  have hmem := fun a r => ObjectSpace.mem_startingIn (a := a) (r := r) hobjects
  have hcase (a : Nat) : (∃ r, (a, r) ∈ objects) ∨ p'.forward a = p.forward a := by
    by_cases hm : ∃ r, (a, r) ∈ objects
    · exact .inl hm
    · exact .inr (hslid.others a fun r hr => hm ⟨r, hr⟩)
  constructor
  · intro a
    rcases hcase a with ⟨r, hm⟩ | heq
    · exact (hslid.bounds a r hm).2.1
    · rw [heq]
      exact h.le a
  · intro a hne
    rcases hcase a with ⟨r, hm⟩ | heq
    · obtain ⟨hr, _, hhi⟩ := (hmem a r).1 hm
      obtain ⟨hlo, _, hfix⟩ := hslid.bounds a r hm
      refine ⟨r, hr, hmv a r hr ?_, s, .inr rfl, hlo, hhi⟩
      cases hmov : movable a r with
      | true => rfl
      | false => exact absurd (hfix hmov) hne
    · rw [heq] at hne
      obtain ⟨r, hr, hmr, d, hd, hlo, hhi⟩ := h.moved hne
      exact ⟨r, hr, hmr, d, .inl hd, heq ▸ hlo, hhi⟩
  · intro a b r q hr hq hlt
    have hold := h.ordered hr hq hlt
    -- an object of the space lies in the segment or keeps its new address
    have hin {a : Nat} {r : Record} (hr : space.get? a = some r) :
        (a, r) ∈ objects ∨ ((a < s.start ∨ s.allocated ≤ a) ∧ p'.forward a = p.forward a) := by
      by_cases ha : s.start ≤ a ∧ a < s.allocated
      · exact .inl ((hmem a r).2 ⟨hr, ha.1, ha.2⟩)
      · refine .inr ⟨by omega, hslid.others a fun q hm => ha ?_⟩
        exact ((hmem a q).1 hm).2
    rcases hin hr with ha | ⟨ha, hfa⟩ <;> rcases hin hq with hb | ⟨hb, hfb⟩
    · have hsorted := ObjectSpace.startingIn_eq_ok hobjects ▸
        (ObjectSpace.entries_pairwise space).filter _
      exact ObjectSpace.pairwise_of_lt hsorted hslid.packed ha hb hlt
    · have := (hslid.bounds a r ha).2.1
      rw [hnew a r ha] at hold
      rw [hfb]
      omega
    · have := (hslid.bounds b q hb).1
      have := ((hmem b q).1 hb).2
      have := hstart a r hr (by omega)
      have := h.le a
      rw [hfa]
      omega
    · rw [hfa, hfb]
      exact hold

/-- The segments of one table, one after the other. -/
theorem Slides.addSegments (h : p.Slides space done mv) (hspace : space.Spread)
    (hdone : ∀ d s, done d → s ∈ segments → Beside d s)
    (hpair : segments.Pairwise Beside)
    (hstart : ∀ s ∈ segments, ∀ a r, space.get? a = some r → a < s.start → a + r.size ≤ s.start)
    (hmv : ∀ a r, space.get? a = some r → movable a r = true → mv a r)
    (hrun : segments.foldlM (fun p s => p.addSegment s space movable) p = .ok p') :
    p'.Slides space (fun d => done d ∨ d ∈ segments) mv := by
  induction segments generalizing p done with
  | nil =>
    rw [List.foldlM_nil, Checked.pure_eq_ok] at hrun
    subst hrun
    refine ⟨h.le, fun hne => ?_, h.ordered⟩
    obtain ⟨r, hr, hmv, d, hd, hin⟩ := h.moved hne
    exact ⟨r, hr, hmv, d, .inl hd, hin⟩
  | cons s rest ih =>
    rw [List.foldlM_cons, Checked.bind_eq_ok] at hrun
    obtain ⟨p₁, hp₁, hrun⟩ := hrun
    rw [List.pairwise_cons] at hpair
    have h₁ := h.addSegment hspace (fun d hd => hdone d s hd List.mem_cons_self)
      (hstart s List.mem_cons_self) hmv hp₁
    have hrest := ih h₁ (fun d x hd hx => ?_) hpair.2
      (fun x hx => hstart x (List.mem_cons_of_mem _ hx)) hrun
    · refine ⟨hrest.le, fun hne => ?_, hrest.ordered⟩
      obtain ⟨r, hr, hmv, d, hd, hin⟩ := hrest.moved hne
      refine ⟨r, hr, hmv, d, ?_, hin⟩
      rw [List.mem_cons]
      rcases hd with (hd | hd) | hd
      · exact .inl hd
      · exact .inr (.inl hd)
      · exact .inr (.inr hd)
    · rcases hd with hd | rfl
      · exact hdone d x hd (List.mem_cons_of_mem _ hx)
      · exact hpair.1 x hx

/-! ## Carrying a plan out -/

theorem get?_foldl_erase {moves : List (Nat × Nat × Record)} :
    (moves.foldl (fun s x => s.erase x.1) space).get? b =
      if ∃ x ∈ moves, x.1 = b then none else space.get? b := by
  induction moves generalizing space with
  | nil => simp
  | cons x moves ih =>
    simp only [List.foldl_cons, ih, ObjectSpace.get?_erase, List.mem_cons, exists_eq_or_imp]
    by_cases hx : x.1 = b
    · simp only [hx, if_true, true_or, ite_self]
    · simp only [hx, if_false, false_or]

/-- Insertions at different addresses do not get in each other's way. -/
theorem get?_foldlM_insert {moves : List (Nat × Nat × Record)}
    (hne : moves.Pairwise fun x y => x.2.1 ≠ y.2.1)
    (hrun : moves.foldlM (fun s x => s.insert x.2.1 x.2.2) space = .ok space') :
    (∀ x ∈ moves, space'.get? x.2.1 = some x.2.2) ∧
      ∀ c, (∀ x ∈ moves, x.2.1 ≠ c) → space'.get? c = space.get? c := by
  induction moves generalizing space with
  | nil =>
    rw [List.foldlM_nil, Checked.pure_eq_ok] at hrun
    subst hrun
    exact ⟨fun _ hx => absurd hx List.not_mem_nil, fun _ _ => rfl⟩
  | cons x moves ih =>
    rw [List.foldlM_cons, Checked.bind_eq_ok] at hrun
    obtain ⟨mid, hmid, hrun⟩ := hrun
    rw [List.pairwise_cons] at hne
    obtain ⟨hput, hkeep⟩ := ih hne.2 hrun
    constructor
    · intro y hy
      rcases List.mem_cons.1 hy with rfl | hy'
      · rw [hkeep y.2.1 fun z hz => (hne.1 z hz).symm, ObjectSpace.get?_insert hmid, if_pos rfl]
      · exact hput y hy'
    · intro c hc
      rw [hkeep c fun y hy => hc y (List.mem_cons_of_mem _ hy), ObjectSpace.get?_insert hmid,
        if_neg (hc x List.mem_cons_self)]

theorem forward_of_isEmpty (h : p.isEmpty = true) : p.forward a = a :=
  Std.TreeMap.getD_of_isEmpty h

theorem forward_of_getElem? (h : p.forwarding[a]? = some c) : p.forward a = c := by
  rw [forward, Std.TreeMap.getD_eq_getD_getElem?, h, Option.getD_some]

theorem forward_of_getElem?_none (h : p.forwarding[a]? = none) : p.forward a = a := by
  rw [forward, Std.TreeMap.getD_eq_getD_getElem?, h, Option.getD_none]

/-- The objects that move, with their new addresses. -/
def moves (p : CompactionPlan) (space : ObjectSpace) : List (Nat × Nat × Record) :=
  p.forwarding.toList.filterMap fun x => (space.get? x.1).map fun r => (x.1, x.2, r)

/-- Applying a plan, with the objects that move as a list. -/
theorem apply_eq (p : CompactionPlan) (space : ObjectSpace) : p.apply space =
    if p.isEmpty then pure space else do
      let moved ← (p.moves space).foldlM (fun s x => s.insert x.2.1 x.2.2)
        ((p.moves space).foldl (fun s x => s.erase x.1) space)
      return moved.mapRecords fun _ r => { r with slots := r.slots.map p.forward } :=
  rfl

theorem mem_moves : (a, c, r) ∈ p.moves space ↔
    p.forwarding[a]? = some c ∧ space.get? a = some r := by
  simp only [moves, List.mem_filterMap, Prod.exists, Std.TreeMap.mem_toList_iff_getElem?_eq_some,
    Option.map_eq_some_iff, Prod.mk.injEq]
  constructor
  · rintro ⟨_, _, ht, _, hr, rfl, rfl, rfl⟩
    exact ⟨ht, hr⟩
  · rintro ⟨ht, hr⟩
    exact ⟨a, c, ht, r, hr, rfl, rfl, rfl⟩

theorem Slides.moves_ne (h : p.Slides space done mv) (hspace : space.Spread) :
    (p.moves space).Pairwise fun x y => x.2.1 ≠ y.2.1 := by
  have hkeys := (Std.TreeMap.ordered_keys_toList (t := p.forwarding)).imp Nat.compare_eq_lt.1
  unfold moves
  rw [List.pairwise_filterMap]
  refine (List.Pairwise.and_mem.1 hkeys).imp fun {x y} ⟨hx, hy, hlt⟩ b hb b' hb' => ?_
  obtain ⟨r, hr, rfl⟩ := Option.map_eq_some_iff.1 hb
  obtain ⟨r', hr', rfl⟩ := Option.map_eq_some_iff.1 hb'
  intro (he : x.2 = y.2)
  rw [← forward_of_getElem? (Std.TreeMap.mem_toList_iff_getElem?_eq_some.1 hx),
    ← forward_of_getElem? (Std.TreeMap.mem_toList_iff_getElem?_eq_some.1 hy)] at he
  exact absurd (h.injective hspace hr hr' he) (Nat.ne_of_lt hlt)

/-- All objects that move leave before the first one arrives. -/
theorem Slides.get?_moved (h : p.Slides space done mv) (hspace : space.Spread)
    (hrun : (p.moves space).foldlM (fun s x => s.insert x.2.1 x.2.2)
      ((p.moves space).foldl (fun s x => s.erase x.1) space) = .ok space') :
    space'.get? c = some q ↔ ∃ a, space.get? a = some q ∧ p.forward a = c := by
  obtain ⟨hput, hkeep⟩ := get?_foldlM_insert (h.moves_ne hspace) hrun
  constructor
  · intro hq
    by_cases hc : ∃ x ∈ p.moves space, x.2.1 = c
    · obtain ⟨⟨a, t, r⟩, hx, rfl⟩ := hc
      rw [hput _ hx] at hq
      cases hq
      obtain ⟨ht, hr⟩ := mem_moves.1 hx
      exact ⟨a, hr, forward_of_getElem? ht⟩
    · rw [hkeep c fun x hx he => hc ⟨x, hx, he⟩, get?_foldl_erase] at hq
      split at hq
      · cases hq
      next hnot =>
        refine ⟨c, hq, ?_⟩
        cases ht : p.forwarding[c]? with
        | none => exact forward_of_getElem?_none ht
        | some t => exact absurd ⟨_, mem_moves.2 ⟨ht, hq⟩, rfl⟩ hnot
  · rintro ⟨a, hr, rfl⟩
    cases ht : p.forwarding[a]? with
    | some t =>
      rw [forward_of_getElem? ht]
      exact hput _ (mem_moves.2 ⟨ht, hr⟩)
    | none =>
      have hself := forward_of_getElem?_none ht
      rw [hself, hkeep a, get?_foldl_erase, if_neg, hr]
      · rintro ⟨⟨_, t, r⟩, hx, rfl⟩
        rw [(mem_moves.1 hx).1] at ht
        cases ht
      · rintro ⟨b, t, r⟩ hx (rfl : t = a)
        obtain ⟨htb, hrb⟩ := mem_moves.1 hx
        have he := h.injective hspace hrb hr ((forward_of_getElem? htb).trans hself.symm)
        rw [he, ht] at htb
        cases htb

/-- After a plan is carried out the objects are at their new addresses, and nothing else is. -/
theorem Slides.get?_apply (h : p.Slides space done mv) (hspace : space.Spread)
    (hrun : p.apply space = .ok space') : space'.get? c = some q ↔
      ∃ a r, space.get? a = some r ∧ p.forward a = c ∧
        q = { r with slots := r.slots.map p.forward } := by
  unfold CompactionPlan.apply at hrun
  by_cases hempty : p.isEmpty = true
  · rw [if_pos hempty, Checked.pure_eq_ok] at hrun
    subst hrun
    have hid : p.forward = id := funext fun a => forward_of_isEmpty hempty
    simp only [hid, List.map_id, id_eq]
    constructor
    · intro hq
      exact ⟨c, q, hq, rfl, rfl⟩
    · rintro ⟨a, r, hr, rfl, rfl⟩
      exact hr
  · simp only [hempty, Bool.false_eq_true, if_false, Checked.bind_eq_ok, Checked.pure_eq_ok] at hrun
    obtain ⟨moved, hmoved, rfl⟩ := hrun
    have hplace (r : Record) := h.get?_moved (c := c) (q := r) hspace hmoved
    rw [ObjectSpace.get?_mapRecords, Option.map_eq_some_iff]
    constructor
    · rintro ⟨r, hr, rfl⟩
      obtain ⟨a, ha, hc⟩ := (hplace r).1 hr
      exact ⟨a, r, ha, hc, rfl⟩
    · rintro ⟨a, r, hr, hc, rfl⟩
      exact ⟨r, (hplace r).2 ⟨a, hr, hc⟩, rfl⟩

end CompactionPlan

end GenHeap
