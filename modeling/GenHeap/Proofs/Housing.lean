import GenHeap.Proofs.Marking
import GenHeap.Proofs.SharedArena

/-!
Where objects lie: each in the allocated part of its own segment, apart from all others, and no free
span holds a part of one. What heaps do with their segments keeps it, and hands out blocks that
nothing else lies in.
-/

namespace GenHeap

/-- Records of objects of the same shape at the same place. -/
structure Record.SameShape (r q : Record) : Prop where
  size : q.size = r.size
  heap : q.heap = r.heap
  segment : q.segment = r.segment
  slots : q.slots.length = r.slots.length

theorem Record.SameShape.refl (r : Record) : r.SameShape r := ⟨rfl, rfl, rfl, rfl⟩

theorem Record.SameShape.trans {r q x : Record} (h : r.SameShape q) (h' : q.SameShape x) :
    r.SameShape x :=
  ⟨h'.size.trans h.size, h'.heap.trans h.heap, h'.segment.trans h.segment, h'.slots.trans h.slots⟩

namespace ObjectSpace

/-- Every object of `s'` is one of `s` and has kept its shape. -/
def Within (s s' : ObjectSpace) : Prop :=
  ∀ {a q}, s'.get? a = some q → ∃ r, s.get? a = some r ∧ r.SameShape q

variable {s s' : ObjectSpace}

theorem SameButMarks.within (h : SameButMarks s s') : Within s s' := by
  intro a q hq
  obtain ⟨m, hr⟩ := h.symm.get? hq
  exact ⟨_, hr, rfl, rfl, rfl, rfl⟩

theorem Apart.within (h : s.Apart) (hw : Within s s') : s'.Apart where
  minBytes_le hq := by
    obtain ⟨r, hr, hs⟩ := hw hq
    exact hs.size ▸ h.minBytes_le hr
  stop_le hq hq' hlt := by
    obtain ⟨r, hr, hs⟩ := hw hq
    obtain ⟨r', hr', _⟩ := hw hq'
    exact hs.size ▸ h.stop_le hr hr' hlt

theorem SlotsFit.within (h : s.SlotsFit) (hw : Within s s') : s'.SlotsFit := by
  intro a q hq
  obtain ⟨r, hr, hs⟩ := hw hq
  exact hs.size ▸ hs.slots ▸ h a r hr

end ObjectSpace

theorem FreeSpan.Unused.within {s s' : ObjectSpace} {a size : Nat} (h : Unused s a size)
    (hw : ObjectSpace.Within s s') : Unused s' a size := by
  intro b q hq
  obtain ⟨r, hr, hs⟩ := hw hq
  exact hs.size ▸ h b r hr

/-- Entries at different places of a list are related if any two entries are. -/
theorem pairwise_getElem?_ne {α : Type} {R : α → α → Prop} (hsymm : ∀ {x y}, R x y → R y x)
    {l : List α} (h : l.Pairwise R) {i j : Nat} {x y : α} (hi : l[i]? = some x)
    (hj : l[j]? = some y) (hne : i ≠ j) : R x y := by
  rw [List.pairwise_iff_getElem] at h
  obtain ⟨hi', rfl⟩ := List.getElem?_eq_some_iff.1 hi
  obtain ⟨hj', rfl⟩ := List.getElem?_eq_some_iff.1 hj
  rcases Nat.lt_or_gt_of_ne hne with hlt | hlt
  · exact h i j hi' hj' hlt
  · exact hsymm (h j i hj' hi' hlt)

namespace SharedArena

/-- Objects of logical heap `n` lie in segments of the table `home n`, apart from each other. -/
structure Housed (m : SharedArena) (home : Nat → Nat) (space : ObjectSpace) : Prop where
  serves : m.provider.Serves (m.tables.flatMap SegmentTable.holdings)
  wellFormed : ∀ {i : Nat} {t : SegmentTable}, m.tables[i]? = some t → t.WellFormed
  apart : space.Apart
  held : ∀ {a r}, space.get? a = some r → ∃ t s, m.tables[home r.heap]? = some t ∧
    t.find? r.segment = some s ∧ s.start ≤ a ∧ a + r.size ≤ s.allocated

/-- No object reaches into a free span. -/
def SpansUnused (m : SharedArena) (space : ObjectSpace) : Prop :=
  ∀ {i x : Nat} {t : SegmentTable} {s : Segment}, m.tables[i]? = some t → t.find? x = some s →
    s.SpansUnused space

theorem housed_ofConfigs (range : AddressRange) (configs : List Config) (home : Nat → Nat) :
    (ofConfigs range configs).Housed home {} := by
  have hnone {a : Nat} {r : Record} : ({} : ObjectSpace).get? a ≠ some r := by
    rw [ObjectSpace.get?_empty]
    exact nofun
  have hs : (ofConfigs range configs).Sound range := (Reachable.start configs).sound
  exact ⟨hs.serves, fun ht => hs.wellFormed _ (List.mem_of_getElem? ht),
    ⟨fun hr => absurd hr hnone, fun hr => absurd hr hnone⟩, fun hr => absurd hr hnone⟩

theorem spansUnused_ofConfigs (range : AddressRange) (configs : List Config) (space : ObjectSpace) :
    (ofConfigs range configs).SpansUnused space := by
  intro i x t s ht hs
  obtain ⟨c, _, rfl⟩ := List.mem_map.1 (List.mem_of_getElem? ht)
  rw [SegmentTable.find?_ofConfig] at hs
  cases hs

variable {m : SharedArena} {home : Nat → Nat} {i j x y a b size : Nat} {t t' : SegmentTable}
  {s s' : Segment} {r : Record} {space space' : ObjectSpace} {arena : SegmentArena}

/-- Segments share no address. -/
theorem Housed.segments_apart (h : m.Housed home space) (ht : m.tables[i]? = some t)
    (hs : t.find? x = some s)
    (ht' : m.tables[j]? = some t') (hs' : t'.find? y = some s') (hne : i = j → x ≠ y) :
    s.range.Apart s'.range := by
  have hall := h.serves.exclusive.apart_taken
  rw [List.pairwise_flatMap] at hall
  by_cases hij : i = j
  · subst hij
    rw [ht] at ht'
    cases ht'
    have hown := (List.pairwise_append.1 (hall.1 t (List.mem_of_getElem? ht))).1
    rw [List.pairwise_map, SegmentTable.segments, List.pairwise_filterMap] at hown
    refine pairwise_getElem?_ne (fun hR b hb b' hb' => (hR b' hb' b hb).symm) hown
      (SegmentTable.find?_eq_some.1 hs) (SegmentTable.find?_eq_some.1 hs') (hne rfl) s rfl s' rfl
  · exact pairwise_getElem?_ne (fun hR b hb b' hb' => (hR b' hb' b hb).symm) hall.2 ht ht' hij _
      (SegmentTable.range_mem_holdings hs) _ (SegmentTable.range_mem_holdings hs')

theorem Housed.sound (h : m.Housed home space) (ht : m.tables[i]? = some t)
    (hs : t.find? x = some s) : s.Sound :=
  (h.wellFormed ht).sound hs

/-- An object that starts in a segment is an object of that segment. -/
theorem Housed.owner (h : m.Housed home space) (ht : m.tables[i]? = some t)
    (hs : t.find? x = some s)
    (hr : space.get? a = some r) (hlo : s.start ≤ a) (hhi : a < s.range.start + s.range.size) :
    home r.heap = i ∧ r.segment = x := by
  obtain ⟨t', s', ht', hs', hstart, hstop⟩ := h.held hr
  have hpos := h.apart.size_pos hr
  have hend := (h.sound ht' hs').allocated_le_stop
  have hnot : ¬ s'.range.Apart s.range := by
    unfold AddressRange.Apart Segment.start at *
    omega
  rcases Classical.em (home r.heap = i ∧ r.segment = x) with hsame | hdiff
  · exact hsame
  · exact absurd (h.segments_apart ht' hs' ht hs fun hi hx => hdiff ⟨hi, hx⟩) hnot

/-- An object that starts in the allocated part of a segment ends there. -/
theorem Housed.stop_le (h : m.Housed home space) (ht : m.tables[i]? = some t)
    (hs : t.find? x = some s)
    (hr : space.get? a = some r) (hlo : s.start ≤ a) (hhi : a < s.allocated) :
    a + r.size ≤ s.allocated := by
  have hend := (h.sound ht hs).allocated_le_stop
  obtain ⟨rfl, rfl⟩ := h.owner ht hs hr hlo (by omega)
  obtain ⟨t', s', ht', hs', _, hstop⟩ := h.held hr
  cases ht.symm.trans ht'
  cases hs.symm.trans hs'
  exact hstop

/-- An object that starts outside a segment does not reach into it. -/
theorem Housed.outside (h : m.Housed home space) (ht : m.tables[i]? = some t)
    (hs : t.find? x = some s) (hr : space.get? a = some r) (hout : a < s.start ∨ s.allocated ≤ a) :
    a + r.size ≤ s.start ∨ s.allocated ≤ a := by
  obtain ⟨t', s', ht', hs', hstart, hstop⟩ := h.held hr
  have hpos := h.apart.size_pos hr
  have hend := (h.sound ht' hs').allocated_le_stop
  have hend' := (h.sound ht hs).allocated_le_stop
  by_cases hsame : home r.heap = i → r.segment ≠ x
  · have := h.segments_apart ht' hs' ht hs hsame
    unfold AddressRange.Apart Segment.start at *
    omega
  · obtain ⟨rfl, rfl⟩ : home r.heap = i ∧ r.segment = x := by
      rcases Classical.em (home r.heap = i ∧ r.segment = x) with hb | hb
      · exact hb
      · exact absurd (fun hi hx => hb ⟨hi, hx⟩) hsame
    cases ht.symm.trans ht'
    cases hs.symm.trans hs'
    omega

/-- Objects lie in the provider's range. -/
theorem Housed.inside (h : m.Housed home space) (hr : space.get? a = some r) :
    m.provider.space.range.start ≤ a ∧
      a + r.size ≤ m.provider.space.range.start + m.provider.space.range.size ∧
      a + r.size < Word.count := by
  obtain ⟨t, s, ht, hs, hstart, hstop⟩ := h.held hr
  have hmem : s.range ∈ m.tables.flatMap SegmentTable.holdings :=
    List.mem_flatMap.2 ⟨t, List.mem_of_getElem? ht, SegmentTable.range_mem_holdings hs⟩
  have hin := h.serves.exclusive.inside_taken hmem
  have hend := (h.sound ht hs).allocated_le_stop
  have := hin.start_le
  have := hin.stop_le
  have := hin.stop_lt
  unfold Segment.start at hstart
  omega

/-! ## Changes of the space -/

theorem Housed.within (h : m.Housed home space) (hw : space.Within space') :
    m.Housed home space' where
  serves := h.serves
  wellFormed := h.wellFormed
  apart := h.apart.within hw
  held := by
    intro a q hq
    obtain ⟨r, hr, hs⟩ := hw hq
    obtain ⟨t, s, hheld⟩ := h.held hr
    exact ⟨t, s, by rw [hs.heap, hs.segment, hs.size]; exact hheld⟩

theorem SpansUnused.within (h : m.SpansUnused space) (hw : space.Within space') :
    m.SpansUnused space' :=
  fun ht hs span hspan => (h ht hs span hspan).within hw

/-- A block of a segment for a new object. -/
structure Fresh (m : SharedArena) (space : ObjectSpace) (i x a size : Nat) : Prop where
  held : ∃ t s, m.tables[i]? = some t ∧ t.find? x = some s ∧ s.start ≤ a ∧ a + size ≤ s.allocated
  unused : FreeSpan.Unused space a size
  spans : ∀ {j y : Nat} {t : SegmentTable} {s : Segment} {span : FreeSpan}, m.tables[j]? = some t →
    t.find? y = some s → span ∈ s.freeSpans → a + size ≤ span.start ∨ span.start + span.size ≤ a

theorem Fresh.get?_eq_none (h : m.Fresh space i x a size) (hm : m.Housed home space)
    (hsize : 0 < size) : space.get? a = none := by
  cases hr : space.get? a with
  | none => rfl
  | some r =>
    have := h.unused a r hr
    have := hm.apart.size_pos hr
    omega

theorem Housed.insert (h : m.Housed home space)
    (hf : m.Fresh space (home r.heap) r.segment a r.size) (hmin : Object.minBytes ≤ r.size)
    (hget : ∀ b, space'.get? b = if a = b then some r else space.get? b) :
    m.Housed home space' where
  serves := h.serves
  wellFormed := h.wellFormed
  apart := by
    constructor
    · intro b q hq
      rw [hget] at hq
      split at hq
      · cases hq
        exact hmin
      · exact h.apart.minBytes_le hq
    · intro b c q q' hq hq' hlt
      rw [hget] at hq hq'
      split at hq
      next hab =>
        subst hab
        cases hq
        split at hq'
        · omega
        · have := hf.unused c q' hq'
          have := h.apart.size_pos hq'
          omega
      next hab =>
        split at hq'
        next hac =>
          subst hac
          cases hq'
          have := hf.unused b q hq
          omega
        next => exact h.apart.stop_le hq hq' hlt
  held := by
    intro b q hq
    rw [hget] at hq
    split at hq
    next hab =>
      subst hab
      cases hq
      exact hf.held
    next => exact h.held hq

theorem SpansUnused.insert (h : m.SpansUnused space) (hf : m.Fresh space i x a r.size)
    (hget : ∀ b, space'.get? b = if a = b then some r else space.get? b) :
    m.SpansUnused space' := by
  intro j t y s ht hs span hspan b q hq
  rw [hget] at hq
  split at hq
  next hab =>
    subst hab
    cases hq
    exact hf.spans ht hs hspan
  next => exact h ht hs span hspan b q hq

/-! ## Changes of one table -/

theorem getElem?_withArena (ht : m.tables[i]? = some t) :
    (m.withArena i arena).tables[j]? = if j = i then some arena.table else m.tables[j]? := by
  have hlt := (List.getElem?_eq_some_iff.1 ht).1
  show (m.tables.set i arena.table)[j]? = _
  rw [List.getElem?_set]
  simp only [hlt, if_true, eq_comm (a := i)]

theorem Housed.arena_sound (h : m.Housed home space) (ht : m.tables[i]? = some t) :
    SegmentArena.Sound { table := t, provider := m.provider } m.provider.space.range
      (m.others i) :=
  ⟨h.wellFormed ht, h.serves.perm (perm_holdings ht), rfl⟩

/-- A table may change as long as its objects stay in the allocated parts of their segments. -/
theorem Housed.withArena (h : m.Housed home space) (ht : m.tables[i]? = some t)
    (ha : arena.Sound m.provider.space.range (m.others i))
    (hheld : ∀ {a r}, space.get? a = some r → home r.heap = i → ∃ s,
      arena.table.find? r.segment = some s ∧ s.start ≤ a ∧ a + r.size ≤ s.allocated) :
    (m.withArena i arena).Housed home space where
  serves := ha.serves.perm (perm_holdings_withArena ht).symm
  wellFormed := by
    intro j t' ht'
    rw [getElem?_withArena ht] at ht'
    split at ht'
    · cases ht'
      exact ha.wellFormed
    · exact h.wellFormed ht'
  apart := h.apart
  held := by
    intro a r hr
    obtain ⟨t', s, ht', hs, hstart, hstop⟩ := h.held hr
    rw [getElem?_withArena ht]
    split
    next hi =>
      obtain ⟨s', hs', hin⟩ := hheld hr hi
      exact ⟨_, s', rfl, hs', hin⟩
    next => exact ⟨t', s, ht', hs, hstart, hstop⟩

theorem SpansUnused.withArena (h : m.SpansUnused space) (ht : m.tables[i]? = some t)
    (hnew : ∀ {x s}, arena.table.find? x = some s → s.SpansUnused space) :
    (m.withArena i arena).SpansUnused space := by
  intro j x t' s ht' hs
  rw [getElem?_withArena ht] at ht'
  split at ht'
  · cases ht'
    exact hnew hs
  · exact h ht' hs

/-- The object of the table that changes, in its segment. -/
theorem Housed.held_in (h : m.Housed home space) (ht : m.tables[i]? = some t)
    (hr : space.get? a = some r) (hi : home r.heap = i) :
    ∃ s, t.find? r.segment = some s ∧ s.start ≤ a ∧ a + r.size ≤ s.allocated := by
  obtain ⟨t', s, ht', hs, hin⟩ := h.held hr
  rw [hi, ht] at ht'
  cases ht'
  exact ⟨s, hs, hin⟩

/-- A table whose segments are still there, with new ones beside them. -/
theorem Housed.extend (h : m.Housed home space) (hu : m.SpansUnused space)
    (ht : m.tables[i]? = some t) (ha : arena.Sound m.provider.space.range (m.others i))
    (hx : SegmentArena.Extends t arena.table) :
    (m.withArena i arena).Housed home space ∧ (m.withArena i arena).SpansUnused space := by
  constructor
  · refine h.withArena ht ha fun hr hi => ?_
    obtain ⟨s, hs, hin⟩ := h.held_in ht hr hi
    obtain ⟨g, hs'⟩ := hx.keeps hs
    exact ⟨_, hs', hin⟩
  · refine hu.withArena ht fun {y s} hs => ?_
    rcases hx.back hs with ⟨_, hnil⟩ | ⟨s₀, g, hs₀, rfl⟩
    · intro span hspan
      rw [hnil] at hspan
      cases hspan
    · have hspans := hu ht hs₀
      exact hspans

/-- A block of a segment is fresh if it keeps apart from the objects and spans of that segment. -/
theorem Housed.fresh (h : m.Housed home space) (ht : m.tables[i]? = some t)
    (hs : t.find? x = some s) (hlo : s.start ≤ a) (hhi : a + size ≤ s.allocated)
    (hobjects : ∀ b r, space.get? b = some r → home r.heap = i → r.segment = x →
      b + r.size ≤ a ∨ a + size ≤ b)
    (hspans : ∀ span ∈ s.freeSpans, a + size ≤ span.start ∨ span.start + span.size ≤ a) :
    m.Fresh space i x a size := by
  have hend := (h.sound ht hs).allocated_le_stop
  refine ⟨⟨t, s, ht, hs, hlo, hhi⟩, ?_, ?_⟩
  · intro b r hr
    by_cases hown : home r.heap = i ∧ r.segment = x
    · exact hobjects b r hr hown.1 hown.2
    · obtain ⟨t', s', ht', hs', hstart, hstop⟩ := h.held hr
      have happ := h.segments_apart ht' hs' ht hs fun hi hx => hown ⟨hi, hx⟩
      have := (h.sound ht' hs').allocated_le_stop
      unfold AddressRange.Apart Segment.start at *
      omega
  · intro j y t' s' span ht' hs' hspan
    by_cases hown : j = i ∧ y = x
    · obtain ⟨rfl, rfl⟩ := hown
      cases ht.symm.trans ht'
      cases hs.symm.trans hs'
      exact hspans span hspan
    · have happ := h.segments_apart ht' hs' ht hs fun hj hy => hown ⟨hj, hy⟩
      have hbounds := (h.sound ht' hs').chain.bounds hspan
      have := (h.sound ht' hs').allocated_le_stop
      unfold AddressRange.Apart Segment.start at *
      omega

/-- Replacing a segment by one on the same range that holds its objects. -/
theorem Housed.putSegment (h : m.Housed home space) (ht : m.tables[i]? = some t)
    (hs : t.find? x = some s)
    (ha : arena.Sound m.provider.space.range (m.others i)) (htable : arena.table = t.put s')
    (hid : s'.id = s.id) (hrange : s'.range = s.range) (hle : s.allocated ≤ s'.allocated) :
    (m.withArena i arena).Housed home space ∧ (m.withArena i arena).tables[i]? = some arena.table ∧
      ∀ y, arena.table.find? y = if y = x then some s' else t.find? y := by
  have hx : s'.id = x := hid.trans ((h.wellFormed ht).ids hs)
  have hfind (y : Nat) : arena.table.find? y = if y = x then some s' else t.find? y := by
    rw [htable, SegmentTable.find?_put (hx ▸ hs), hx]
  refine ⟨h.withArena ht ha fun {b r} hr hi => ?_, ?_, hfind⟩
  · obtain ⟨s₀, hs₀, hstart, hstop⟩ := h.held_in ht hr hi
    rw [hfind]
    split
    next hy =>
      rw [hy, hs] at hs₀
      cases hs₀
      refine ⟨s', rfl, ?_, Nat.le_trans hstop hle⟩
      rw [Segment.start, hrange]
      exact hstart
    next => exact ⟨s₀, hs₀, hstart, hstop⟩
  · rw [getElem?_withArena ht, if_pos rfl]

/-- A block behind the allocation pointer is fresh. -/
theorem Housed.bump (h : m.Housed home space) (hu : m.SpansUnused space)
    (ht : m.tables[i]? = some t) {q : Except HeapError (Option Nat)}
    (hrun : SegmentArena.bump x size { table := t, provider := m.provider } = .ok (q, arena)) :
    ((m.withArena i arena).Housed home space ∧ (m.withArena i arena).SpansUnused space) ∧
      ∀ a, q = .ok (some a) → (m.withArena i arena).Fresh space i x a size := by
  obtain ⟨ha, hcases⟩ := (h.arena_sound ht).bump hrun
  rcases hcases with ⟨s, committed, hs, rfl, htable⟩ | hnone
  · have hs : t.find? x = some s := hs
    have hsound := h.sound ht hs
    obtain ⟨hl, hself, hfind⟩ :=
      h.putSegment ht hs ha htable rfl rfl (Nat.le_add_right s.allocated size)
    have hspans : (m.withArena i arena).SpansUnused space := by
      refine hu.withArena ht fun {y s'} hs' => ?_
      rw [hfind] at hs'
      split at hs'
      · cases hs'
        have hspans := hu ht hs
        exact hspans
      · exact hu ht hs'
    refine ⟨⟨hl, hspans⟩, ?_⟩
    · rintro _ ⟨rfl⟩
      refine hl.fresh hself ((hfind x).trans (if_pos rfl)) hsound.start_le (Nat.le_refl _) ?_ ?_
      · rintro b r hr rfl rfl
        obtain ⟨s₀, hs₀, _, hstop⟩ := h.held_in ht hr rfl
        cases hs.symm.trans hs₀
        exact .inl hstop
      · intro span hspan
        exact .inr (hsound.chain.bounds hspan).2
  · obtain ⟨hq, htable⟩ : (∀ a, q ≠ .ok (some a)) ∧ arena.table = t := by
      rcases hnone with ⟨rfl, htable, _⟩ | ⟨e, rfl, htable⟩
      · exact ⟨nofun, htable⟩
      · exact ⟨nofun, htable⟩
    have hsame : SegmentArena.Extends t arena.table := by
      rw [htable]
      exact .refl t
    exact ⟨h.extend hu ht ha hsame, fun a he => absurd he (hq a)⟩

/-- A block of a free span is fresh. -/
theorem Housed.takeFree (h : m.Housed home space) (hu : m.SpansUnused space)
    (ht : m.tables[i]? = some t) (hrun : t.takeFree x size = .ok (some a, t')) :
    ((m.withArena i ⟨t', m.provider⟩).Housed home space ∧
        (m.withArena i ⟨t', m.provider⟩).SpansUnused space) ∧
      (m.withArena i ⟨t', m.provider⟩).Fresh space i x a size := by
  obtain ⟨s, spans, hs, hfirst, rfl⟩ := SegmentTable.takeFree_eq_some hrun
  have hsound := h.sound ht hs
  have hid := (h.wellFormed ht).ids hs
  obtain ⟨hchain, ⟨span, hspan, rfl, hsize⟩, hrest⟩ :=
    FreeSpan.takeFirst?_eq_some hsound.chain hfirst
  have hunused := hu ht hs span hspan
  have hbounds := hsound.chain.bounds hspan
  have hholdings : (t.put { s with freeSpans := spans }).holdings = t.holdings :=
    SegmentTable.holdings_put hs hid rfl
  have hserves := (h.arena_sound ht).serves
  have hwf : (t.put { s with freeSpans := spans }).WellFormed :=
    (h.wellFormed ht).put hs hid rfl ⟨hsound.allocated_le, hsound.committed_le, hchain⟩
  have ha : SegmentArena.Sound ⟨t.put { s with freeSpans := spans }, m.provider⟩
      m.provider.space.range (m.others i) := ⟨hwf, hholdings ▸ hserves, rfl⟩
  obtain ⟨hl, hself, hfind⟩ := h.putSegment ht hs ha rfl rfl rfl (Nat.le_refl _)
  have hspans : (m.withArena i ⟨t.put { s with freeSpans := spans }, m.provider⟩).SpansUnused
      space := by
    refine hu.withArena ht fun {y s'} hs' => ?_
    rw [hfind] at hs'
    split at hs'
    · cases hs'
      intro q hq b r hr
      obtain ⟨_, p, hp, hlo, hhi⟩ := hrest q hq
      have := hu ht hs p hp b r hr
      omega
    · exact hu ht hs'
  refine ⟨⟨hl, hspans⟩, ?_⟩
  · refine hl.fresh hself ((hfind x).trans (if_pos rfl)) hbounds.1 ?_ ?_ ?_
    · show span.start + size ≤ s.allocated
      omega
    · intro b r hr _ _
      have := hunused b r hr
      omega
    · intro q hq
      have := (hrest q hq).1
      omega

/-- A segment given back held no object. -/
theorem Housed.decommit (h : m.Housed home space) (hu : m.SpansUnused space)
    (ht : m.tables[i]? = some t) (hs : t.find? x = some s) {q : Except HeapError Bool}
    (hrun : SegmentArena.decommitIfEmpty x space { table := t, provider := m.provider } =
      .ok (q, arena)) : (∃ b, q = .ok b) ∧ arena.Sound m.provider.space.range (m.others i) ∧
      ((m.withArena i arena).Housed home space ∧ (m.withArena i arena).SpansUnused space) ∧
      ∀ g, ∀ y ∈ t.owned.get g, y ≠ x → y ∈ arena.table.owned.get g := by
  obtain ⟨hq, ha, hcases⟩ := (h.arena_sound ht).decommitIfEmpty hs hrun
  refine ⟨hq, ha, ?_⟩
  rcases hcases with ⟨htable, _⟩ | ⟨hempty, hv⟩
  · have hsame : SegmentArena.Extends t arena.table := by
      rw [htable]
      exact .refl t
    refine ⟨h.extend hu ht ha hsame, fun g y hy _ => ?_⟩
    rw [htable]
    exact hy
  · refine ⟨⟨h.withArena ht ha fun {b r} hr hi => ?_, hu.withArena ht fun {y s'} hs' => ?_⟩, ?_⟩
    · obtain ⟨s₀, hs₀, hstart, hstop⟩ := h.held_in ht hr hi
      rw [hv.find?, if_neg]
      · exact ⟨s₀, hs₀, hstart, hstop⟩
      · intro hx
        have hs₁ : t.find? x = some s := hs
        rw [hx, hs₁] at hs₀
        cases hs₀
        have := Segment.outside_of_not_occupied hempty hr
        have := (h.sound ht hs₁).allocated_le_stop
        have := h.apart.size_pos hr
        omega
    · rw [hv.find?] at hs'
      split at hs'
      · cases hs'
      · exact hu ht hs'
    · intro g y hy hne
      rw [hv.owned]
      exact SegmentTable.mem_owned_delist.2 ⟨hy, fun _ => hne⟩

/-! ## Sweeping -/

/-- A sweep of all segments finds the free spans anew, whatever they were. -/
theorem Housed.rebuild (h : m.Housed home space) {tables : List SegmentTable}
    (hrun : m.tables.mapM (·.rebuild space) = .ok tables) :
    Housed { m with tables } home space ∧ SpansUnused { m with tables } space := by
  have hone {i : Nat} {t' : SegmentTable} (ht' : tables[i]? = some t') :
      ∃ t, m.tables[i]? = some t ∧ t.rebuild space = .ok t' := by
    rcases Checked.mapM_getElem? hrun i with ⟨_, hn⟩ | ⟨t, y, ht, hy, hreb⟩
    · rw [hn] at ht'
      cases ht'
    · rw [hy] at ht'
      cases ht'
      exact ⟨t, ht, hreb⟩
  have hreb {i : Nat} {t t' : SegmentTable} (ht : m.tables[i]? = some t)
      (hrun : t.rebuild space = .ok t') :=
    (h.wellFormed ht).rebuild h.apart
      (fun x s hs a r hr hlo hhi => h.stop_le ht hs hr hlo hhi) hrun
  have hholdings : tables.map SegmentTable.holdings = m.tables.map SegmentTable.holdings := by
    apply List.ext_getElem?
    intro i
    rw [List.getElem?_map, List.getElem?_map]
    rcases Checked.mapM_getElem? hrun i with ⟨ht, ht'⟩ | ⟨t, t', ht, ht', hrun'⟩
    · rw [ht, ht']
    · rw [ht, ht', Option.map_some, Option.map_some, (hreb ht hrun').2.1]
  refine ⟨⟨?_, ?_, h.apart, ?_⟩, ?_⟩
  · show m.provider.Serves (tables.flatMap _)
    rw [List.flatMap_def, hholdings, ← List.flatMap_def]
    exact h.serves
  · intro i t' ht'
    obtain ⟨t, ht, hrun'⟩ := hone ht'
    exact (hreb ht hrun').1
  · intro a r hr
    obtain ⟨t, s, ht, hs, hstart, hstop⟩ := h.held hr
    rcases Checked.mapM_getElem? hrun (home r.heap) with ⟨hn, _⟩ | ⟨_, t', ht₁, ht', hrun'⟩
    · rw [ht] at hn
      cases hn
    · cases ht.symm.trans ht₁
      obtain ⟨s', hs', hswept⟩ := (hreb ht hrun').2.2.1 hs
      have hpos := h.apart.size_pos hr
      refine ⟨t', s', ht', hs', ?_, hswept.stop_le hr hstart (by omega)⟩
      rw [hswept.same]
      exact hstart
  · intro i x t' s' ht' hs' span hspan b r hr
    obtain ⟨t, ht, hrun'⟩ := hone ht'
    obtain ⟨s, hs, hswept⟩ := (hreb ht hrun').2.2.2 hs'
    have hbounds := hswept.sound.chain.bounds hspan
    have hstart : s'.start = s.start := by
      rw [hswept.same]
      rfl
    have hle := hswept.allocated_le
    by_cases hb : s.start ≤ b ∧ b < s.allocated
    · exact hswept.unused hr hb.1 hb.2 hspan
    · have := h.outside ht hs hr (by omega)
      omega

end SharedArena

end GenHeap
