import GenHeap.Proofs.Compaction
import GenHeap.Proofs.Housing

/-!
Compacting segments with one plan: each object keeps its segment and its order among the others,
and only movable objects change their place.
-/

namespace GenHeap

open CompactionPlan (Slides Beside)

theorem CompactionPlan.Slides.mono {p : CompactionPlan} {space : ObjectSpace}
    {done done' : Segment → Prop} {mv : Nat → Record → Prop} (h : p.Slides space done mv)
    (hle : ∀ s, done s → done' s) : p.Slides space done' mv where
  le := h.le
  moved hne := by
    obtain ⟨r, hr, hmv, s, hs, hin⟩ := h.moved hne
    exact ⟨r, hr, hmv, s, hle s hs, hin⟩
  ordered := h.ordered

/-- The objects of `s` at the addresses that `f` gives them, with redirected slots. -/
structure ObjectSpace.Moved (f : Nat → Nat) (mv : Nat → Record → Prop) (s s' : ObjectSpace) :
    Prop where
  get?_iff : ∀ {c q}, s'.get? c = some q ↔
    ∃ a r, s.get? a = some r ∧ f a = c ∧ q = { r with slots := r.slots.map f }
  injective : ∀ {a b r q}, s.get? a = some r → s.get? b = some q → f a = f b → a = b
  moved : ∀ {a}, f a ≠ a → ∃ r, s.get? a = some r ∧ mv a r

theorem ObjectSpace.moved_id {mv : Nat → Record → Prop} (s : ObjectSpace) :
    Moved id mv s s where
  get?_iff {c q} := by
    simp only [id_eq, List.map_id]
    constructor
    · intro hq
      exact ⟨c, q, hq, rfl, rfl⟩
    · rintro ⟨a, r, hr, rfl, rfl⟩
      exact hr
  injective _ _ he := he
  moved hne := absurd rfl hne

theorem ObjectSpace.SlotsFit.moved {f : Nat → Nat} {mv : Nat → Record → Prop}
    {s s' : ObjectSpace} (h : s.SlotsFit) (hs : s.Moved f mv s') : s'.SlotsFit := by
  intro c q hq
  obtain ⟨a, r, hr, _, rfl⟩ := hs.get?_iff.1 hq
  simpa only [List.length_map] using h a r hr

/-- Carrying a plan out moves the objects. -/
theorem CompactionPlan.Slides.moved_apply {p : CompactionPlan} {space space' : ObjectSpace}
    {done : Segment → Prop} {mv : Nat → Record → Prop} (h : p.Slides space done mv)
    (hspace : space.Apart) (hrun : p.apply space = .ok space') :
    space.Moved p.forward mv space' where
  get?_iff := h.get?_apply hspace.spread hrun
  injective := h.injective hspace.spread
  moved hne := by
    obtain ⟨r, hr, hmv, _⟩ := h.moved hne
    exact ⟨r, hr, hmv⟩

namespace SharedArena

variable {m : SharedArena} {home : Nat → Nat} {p : CompactionPlan} {space space' : ObjectSpace}
  {mv : Nat → Record → Prop}

/-- The segments of the first `k` tables. -/
def SegmentBelow (m : SharedArena) (k : Nat) (s : Segment) : Prop :=
  ∃ j x t, j < k ∧ m.tables[j]? = some t ∧ t.find? x = some s

theorem Housed.beside (h : m.Housed home space) {i j x y : Nat} {t t' : SegmentTable}
    {s s' : Segment}
    (ht : m.tables[i]? = some t) (hs : t.find? x = some s) (ht' : m.tables[j]? = some t')
    (hs' : t'.find? y = some s') (hne : i = j → x ≠ y) : Beside s s' := by
  have := h.segments_apart ht hs ht' hs' hne
  have := (h.sound ht hs).allocated_le_stop
  have := (h.sound ht' hs').allocated_le_stop
  unfold AddressRange.Apart at *
  unfold Beside Segment.start
  omega

/-- A plan for the first `k` tables, with the segments of the next one added. -/
theorem Housed.slides_succ (h : m.Housed home space) {k : Nat} {t : SegmentTable}
    (ht : m.tables[k]? = some t)
    (hp : p.Slides space (m.SegmentBelow k) mv) {keep : Segment → Bool}
    {movable : Nat → Record → Bool}
    (hmv : ∀ a r, space.get? a = some r → movable a r = true → mv a r) {p' : CompactionPlan}
    (hrun : (t.segments.filter keep).foldlM (fun p s => p.addSegment s space movable) p = .ok p') :
    p'.Slides space (m.SegmentBelow (k + 1)) mv := by
  have hmem : ∀ s ∈ t.segments.filter keep, ∃ x, t.find? x = some s :=
    fun s hs => SegmentTable.mem_segments.1 (List.mem_filter.1 hs).1
  have hown : (t.segments.filter keep).Pairwise Beside := by
    refine List.Pairwise.filter _ ?_
    rw [SegmentTable.segments, List.pairwise_filterMap, List.pairwise_iff_getElem]
    intro i j hi hj hlt s hs s' hs'
    refine h.beside ht ?_ ht ?_ fun _ => Nat.ne_of_lt hlt
    · rw [SegmentTable.find?_eq_some, List.getElem?_eq_getElem hi]
      exact congrArg some hs
    · rw [SegmentTable.find?_eq_some, List.getElem?_eq_getElem hj]
      exact congrArg some hs'
  refine (hp.addSegments h.apart.spread ?_ hown ?_ hmv hrun).mono fun s hs => ?_
  · rintro d s ⟨j, x, t', hj, ht', hd⟩ hs
    obtain ⟨y, hy⟩ := hmem s hs
    exact h.beside ht' hd ht hy fun he => absurd hj (he ▸ Nat.lt_irrefl _)
  · intro s hs a r hr hlt
    obtain ⟨x, hx⟩ := hmem s hs
    have := h.outside ht hx hr (.inl hlt)
    have := (h.sound ht hx).start_le
    omega
  · rcases hs with ⟨j, x, t', hj, hin⟩ | hs
    · exact ⟨j, x, t', Nat.lt_succ_of_lt hj, hin⟩
    · obtain ⟨x, hx⟩ := hmem s hs
      exact ⟨k, x, t, Nat.lt_succ_self k, ht, hx⟩

/-- Sliding keeps every object in its segment and apart from the others. -/
theorem Housed.moved (h : m.Housed home space) {k : Nat}
    (hp : p.Slides space (m.SegmentBelow k) mv) (hs : space.Moved p.forward mv space') :
    m.Housed home space' where
  serves := h.serves
  wellFormed := h.wellFormed
  apart := by
    constructor
    · intro c q hq
      obtain ⟨a, r, hr, _, rfl⟩ := hs.get?_iff.1 hq
      have hmin := h.apart.minBytes_le hr
      exact hmin
    · intro c c' q q' hq hq' hlt
      obtain ⟨a, r, hr, rfl, rfl⟩ := hs.get?_iff.1 hq
      obtain ⟨b, r', hr', rfl, rfl⟩ := hs.get?_iff.1 hq'
      rcases Nat.lt_trichotomy a b with hab | rfl | hab
      · have hle := hp.ordered hr hr' hab
        exact hle
      · exact absurd hlt (Nat.lt_irrefl _)
      · have := hp.ordered hr' hr hab
        omega
  held := by
    intro c q hq
    obtain ⟨a, r, hr, rfl, rfl⟩ := hs.get?_iff.1 hq
    obtain ⟨t, s, ht, hseg, hstart, hstop⟩ := h.held hr
    refine ⟨t, s, ht, hseg, ?_, ?_⟩
    · rcases Nat.decEq (p.forward a) a with hne | heq
      · obtain ⟨_, _, _, d, ⟨j, x, t', _, ht', hd⟩, hlo, hhi⟩ := hp.moved hne
        have hle := hp.le a
        have hend := (h.sound ht' hd).allocated_le_stop
        obtain ⟨rfl, rfl⟩ := h.owner ht' hd hr (by omega) (by omega)
        cases ht.symm.trans ht'
        cases hseg.symm.trans hd
        exact hlo
      · exact heq.symm ▸ hstart
    · exact Nat.le_trans (Nat.add_le_add_right (hp.le a) _) hstop

end SharedArena

end GenHeap
