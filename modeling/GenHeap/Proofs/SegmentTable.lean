import GenHeap.SegmentTable
import GenHeap.Proofs.Provider
import GenHeap.Proofs.Segment

/-!
The table of a heap's segments: owners list live segments of their own, and the table holds the
ranges of its segments and of its pool. Sweeping and changing owners keep both.
-/

namespace GenHeap.SegmentTable

theorem filterMap_perm_cons_set {α : Type} {xs : List (Option α)} {x : α} {i : Nat}
    (h : xs[i]? = some (some x)) :
    (xs.filterMap id).Perm (x :: (xs.set i none).filterMap id) := by
  induction xs generalizing i with
  | nil => cases h
  | cons y xs ih =>
    cases i with
    | zero =>
      cases h
      exact .refl _
    | succ i =>
      rw [List.set_cons_succ]
      cases y with
      | none => exact ih h
      | some y => exact ((ih h).cons y).trans (List.Perm.swap ..)

variable {t t' : SegmentTable} {s s' : Segment} {i id size a b : Nat} {g owner : Generation}
  {space : ObjectSpace}

/-! ## Segments by identifier -/

theorem find?_eq_some : t.find? i = some s ↔ t.slots[i]? = some (some s) := by
  unfold find?
  cases t.slots[i]? with
  | none => simp
  | some x => simp

theorem find?_lt (h : t.find? i = some s) : i < t.slots.length :=
  (List.getElem?_eq_some_iff.1 (find?_eq_some.1 h)).1

theorem mem_segments : s ∈ t.segments ↔ ∃ i, t.find? i = some s := by
  unfold segments
  rw [List.mem_filterMap]
  constructor
  · rintro ⟨x, hx, rfl⟩
    obtain ⟨i, hi⟩ := List.mem_iff_getElem?.1 hx
    exact ⟨i, find?_eq_some.2 hi⟩
  · rintro ⟨i, hi⟩
    exact ⟨some s, List.mem_of_getElem? (find?_eq_some.1 hi), rfl⟩

theorem find?_put (h : t.find? s.id = some s') :
    (t.put s).find? i = if i = s.id then some s else t.find? i := by
  unfold put find?
  simp only [List.getElem?_set, find?_lt h, if_true, eq_comm (a := s.id)]
  split <;> rfl

theorem find?_append {range : AddressRange} {kind : SegmentKind} :
    (t.append owner range kind).find? i =
      if i = t.slots.length then
        some ⟨i, kind, range, 0, range.start, owner, []⟩
      else t.find? i := by
  unfold append find?
  by_cases hi : i < t.slots.length
  · rw [if_neg (by omega), List.getElem?_append_left hi]
  · rw [List.getElem?_append_right (by omega)]
    split
    next he =>
      subst he
      simp
    next he =>
      rw [List.getElem?_eq_none (by simp only [List.length_singleton]; omega),
        List.getElem?_eq_none (by omega)]

@[simp] theorem find?_enlist : (t.enlist id owner).find? i = t.find? i := rfl

theorem find?_forget : (t.forget id owner).find? i = if i = id then none else t.find? i := by
  unfold forget delist find?
  simp only [List.getElem?_set, eq_comm (a := id)]
  split
  next he =>
    subst he
    split <;> rfl
  next => rfl

theorem mem_owned_enlist : i ∈ (t.enlist id owner).owned.get g ↔
    i ∈ t.owned.get g ∨ (g = owner ∧ i = id) := by
  unfold enlist
  by_cases hg : g = owner
  · subst hg
    simp only [PerGeneration.get_modify_self, List.mem_append, List.mem_singleton, true_and]
  · simp only [PerGeneration.get_modify_of_ne _ _ hg, hg, false_and, or_false]

theorem mem_owned_delist : i ∈ (t.delist id owner).owned.get g ↔
    i ∈ t.owned.get g ∧ (g = owner → i ≠ id) := by
  unfold delist
  by_cases hg : g = owner
  · subst hg
    simp only [PerGeneration.get_modify_self, List.mem_filter, bne_iff_ne, forall_const]
  · simp only [PerGeneration.get_modify_of_ne _ _ hg, hg, false_implies, and_true]

theorem getLast?_filter_ne {l : List Nat} (h : l.getLast? ≠ some id) :
    (l.filter (· != id)).getLast? = l.getLast? := by
  rcases List.eq_nil_or_concat l with rfl | ⟨xs, x, rfl⟩
  · rfl
  · rw [List.concat_eq_append, List.getLast?_concat] at h ⊢
    have hne : (x != id) = true := bne_iff_ne.2 fun he => h (he ▸ rfl)
    have hlast : [x].filter (· != id) = [x] := List.filter_cons_of_pos hne
    rw [List.filter_append, hlast, List.getLast?_concat]

theorem layout_of_usesEphemeral (h : t.usesEphemeral g = true) :
    t.layout = .segments ∧ g.ephemeral = true := by
  obtain ⟨hlayout, hyoung⟩ := Bool.and_eq_true_iff.1 h
  exact ⟨eq_of_beq hlayout, hyoung⟩

theorem usesEphemeral_congr (h : t'.layout = t.layout) :
    t'.usesEphemeral g = t.usesEphemeral g := by
  unfold usesEphemeral
  rw [h]

/-- A generation allocates in the ephemeral segment, or in the newest of its own. -/
theorem allocSegment?_eq_some_iff : t.allocSegment? g = some i ↔
    t.usesEphemeral g = true ∧ t.ephemeral = some i ∨
      t.usesEphemeral g = false ∧ (t.owned.get g).getLast? = some i := by
  unfold allocSegment?
  cases t.usesEphemeral g with
  | true => simp only [if_true, true_and, Bool.true_eq_false, false_and, or_false]
  | false => simp only [Bool.false_eq_true, if_false, false_and, true_and, false_or]

/-- The owner of a new segment for a generation. -/
def newOwner (t : SegmentTable) (g : Generation) : Generation :=
  if t.usesEphemeral g then .gen0 else g

theorem usesEphemeral_newOwner (t : SegmentTable) (g : Generation) :
    t.usesEphemeral (t.newOwner g) = t.usesEphemeral g := by
  unfold newOwner
  split
  next huses =>
    rw [huses]
    unfold usesEphemeral
    rw [(layout_of_usesEphemeral huses).1]
    rfl
  · rfl

/-- A segment may go, if a generation does not allocate in it. -/
theorem allocSegment?_delist (h : t.allocSegment? g ≠ some id) :
    (t.delist id owner).allocSegment? g = t.allocSegment? g := by
  unfold allocSegment? at h ⊢
  have hsame : (t.delist id owner).usesEphemeral g = t.usesEphemeral g := rfl
  rw [hsame]
  split
  · rfl
  next huses =>
    rw [if_neg huses] at h
    unfold delist
    by_cases hg : g = owner
    · subst hg
      rw [PerGeneration.get_modify_self]
      exact getLast?_filter_ne h
    · rw [PerGeneration.get_modify_of_ne _ _ hg]

theorem nodup_delist (h : ∀ g, (t.owned.get g).Nodup) :
    ((t.delist id owner).owned.get g).Nodup := by
  unfold delist
  by_cases hg : g = owner
  · subst hg
    rw [PerGeneration.get_modify_self]
    exact (h g).filter _
  · rw [PerGeneration.get_modify_of_ne _ _ hg]
    exact h g

/-! ## Well-formed tables -/

structure WellFormed (t : SegmentTable) : Prop where
  ids : ∀ {i s}, t.find? i = some s → s.id = i
  sound : ∀ {i s}, t.find? i = some s → s.Sound
  listed : ∀ {g i}, i ∈ t.owned.get g → ∃ s, t.find? i = some s ∧ s.owner = g
  nodup : ∀ g, (t.owned.get g).Nodup
  ephemeral_live : ∀ {i}, t.ephemeral = some i → ∃ s, t.find? i = some s
  pooled : ∀ r ∈ t.freeRegions, r.size = t.regionSize

theorem find?_ofConfig (c : Config) (i : Nat) : (ofConfig c).find? i = none := by
  simp [find?, ofConfig]

theorem wellFormed_ofConfig (c : Config) : (ofConfig c).WellFormed := by
  have hfind {i : Nat} {s : Segment} : (ofConfig c).find? i ≠ some s := by
    rw [find?_ofConfig]
    exact nofun
  have howned (g : Generation) : (ofConfig c).owned.get g = [] := by cases g <;> rfl
  refine ⟨fun h => absurd h hfind, fun h => absurd h hfind, ?_, ?_, nofun,
    fun _ hr => absurd hr List.not_mem_nil⟩
  · intro g i h
    rw [howned] at h
    cases h
  · intro g
    rw [howned]
    exact .nil

/-- A generation allocates in a live segment. -/
theorem WellFormed.allocSegment?_live (h : t.WellFormed) {g : Generation} {i : Nat}
    (hi : t.allocSegment? g = some i) : ∃ s, t.find? i = some s := by
  obtain ⟨-, heph⟩ | ⟨-, hlast⟩ := allocSegment?_eq_some_iff.1 hi
  · exact h.ephemeral_live heph
  · exact (h.listed (List.mem_of_getLast? hlast)).imp fun _ hs => hs.1

/-- Replacing a segment by one with the same owner. -/
theorem WellFormed.put (h : t.WellFormed) (hs : t.find? i = some s) (hid : s'.id = i)
    (howner : s'.owner = s.owner) (hsound : s'.Sound) : (t.put s').WellFormed := by
  have hfind (j : Nat) := find?_put (i := j) (t := t) (s := s') (hid ▸ hs)
  constructor
  · intro j x hx
    rw [hfind] at hx
    split at hx
    · cases hx
      exact Eq.symm ‹_›
    · exact h.ids hx
  · intro j x hx
    rw [hfind] at hx
    split at hx
    · cases hx
      exact hsound
    · exact h.sound hx
  · intro g j hj
    obtain ⟨x, hx, hg⟩ := h.listed hj
    rw [hfind]
    split
    next he =>
      rw [he, hid, hs] at hx
      cases hx
      exact ⟨s', rfl, howner.trans hg⟩
    next => exact ⟨x, hx, hg⟩
  · exact h.nodup
  · intro j hj
    obtain ⟨x, hx⟩ := h.ephemeral_live hj
    rw [hfind]
    split
    · exact ⟨s', rfl⟩
    · exact ⟨x, hx⟩
  · exact h.pooled

theorem WellFormed.append (h : t.WellFormed) (owner : Generation) (range : AddressRange)
    (kind : SegmentKind) : (t.append owner range kind).WellFormed := by
  have hlive {j : Nat} {x : Segment} (hx : t.find? j = some x) :
      (t.append owner range kind).find? j = some x := by
    rw [find?_append, if_neg (Nat.ne_of_lt (find?_lt hx)), hx]
  constructor
  · intro j x hx
    rw [find?_append] at hx
    split at hx
    · cases hx
      rfl
    · exact h.ids hx
  · intro j x hx
    rw [find?_append] at hx
    split at hx
    · cases hx
      exact ⟨Nat.le_refl _, Nat.zero_le _, Nat.le_refl _⟩
    · exact h.sound hx
  · intro g j hj
    obtain ⟨x, hx, hg⟩ := h.listed hj
    exact ⟨x, hlive hx, hg⟩
  · exact h.nodup
  · intro j hj
    obtain ⟨x, hx⟩ := h.ephemeral_live hj
    exact ⟨x, hlive hx⟩
  · exact h.pooled

theorem WellFormed.withEphemeral (h : t.WellFormed) (hs : t.find? id = some s) :
    ({ t with ephemeral := some id } : SegmentTable).WellFormed := by
  refine ⟨h.ids, h.sound, h.listed, h.nodup, ?_, h.pooled⟩
  intro i hi
  cases hi
  exact ⟨s, hs⟩

theorem WellFormed.enlist (h : t.WellFormed) (hs : t.find? id = some s) (howner : s.owner = owner)
    (hnew : id ∉ t.owned.get owner) : (t.enlist id owner).WellFormed := by
  refine ⟨h.ids, h.sound, ?_, ?_, h.ephemeral_live, h.pooled⟩
  · intro g j hj
    rcases mem_owned_enlist.1 hj with hj | ⟨rfl, rfl⟩
    · exact h.listed hj
    · exact ⟨s, hs, howner⟩
  · intro g
    unfold SegmentTable.enlist
    by_cases hg : g = owner
    · subst hg
      rw [PerGeneration.get_modify_self, List.nodup_append]
      refine ⟨h.nodup g, List.pairwise_singleton .., ?_⟩
      intro a ha b hb he
      rw [List.mem_singleton.1 hb] at he
      exact hnew (he ▸ ha)
    · rw [PerGeneration.get_modify_of_ne _ _ hg]
      exact h.nodup g

theorem WellFormed.forget (h : t.WellFormed) (hs : t.find? id = some s)
    (heph : t.ephemeral ≠ some id) : (t.forget id s.owner).WellFormed := by
  constructor
  · intro j x hx
    rw [find?_forget] at hx
    split at hx
    · cases hx
    · exact h.ids hx
  · intro j x hx
    rw [find?_forget] at hx
    split at hx
    · cases hx
    · exact h.sound hx
  · intro g j hj
    obtain ⟨hj, hne⟩ := mem_owned_delist.1 hj
    obtain ⟨x, hx, hg⟩ := h.listed hj
    refine ⟨x, ?_, hg⟩
    rw [find?_forget, if_neg, hx]
    rintro rfl
    rw [hs] at hx
    cases hx
    exact hne hg.symm rfl
  · exact fun _ => nodup_delist h.nodup
  · intro j hj
    obtain ⟨x, hx⟩ := h.ephemeral_live hj
    refine ⟨x, ?_⟩
    rw [find?_forget, if_neg, hx]
    rintro rfl
    exact heph hj
  · exact h.pooled

/-! ## The ranges of a table -/

/-- The ranges of the segments and of the pool. -/
def holdings (t : SegmentTable) : List AddressRange := t.segments.map (·.range) ++ t.freeRegions

theorem map_range_segments : t.segments.map (·.range) =
    (t.slots.map (·.map (·.range))).filterMap fun x => x := by
  unfold segments
  rw [List.map_filterMap, List.filterMap_map]
  rfl

theorem map_range_put (hs : t.find? i = some s) (hid : s'.id = i) (hrange : s'.range = s.range) :
    (t.put s').segments.map (·.range) = t.segments.map (·.range) := by
  have hget : (t.slots.map (·.map (·.range)))[i]? = some (some s.range) := by
    rw [List.getElem?_map, find?_eq_some.1 hs]
    rfl
  obtain ⟨hlt, hi⟩ := List.getElem?_eq_some_iff.1 hget
  rw [map_range_segments, map_range_segments]
  unfold put
  rw [hid, List.map_set, Option.map_some, hrange, ← hi, List.set_getElem_self]

theorem holdings_put (hs : t.find? i = some s) (hid : s'.id = i) (hrange : s'.range = s.range) :
    (t.put s').holdings = t.holdings := by
  show (t.put s').segments.map (·.range) ++ t.freeRegions = _
  rw [map_range_put hs hid hrange]
  rfl

theorem holdings_append {range : AddressRange} {kind : SegmentKind} :
    (t.append owner range kind).holdings.Perm (range :: t.holdings) := by
  unfold holdings append segments
  simp only [List.filterMap_append, List.filterMap_cons, List.filterMap_nil, id_eq,
    List.map_append, List.map_cons, List.map_nil, List.append_assoc]
  exact List.perm_middle

theorem perm_holdings_forget (hs : t.find? id = some s) :
    t.holdings.Perm (s.range :: (t.forget id owner).holdings) :=
  ((filterMap_perm_cons_set (find?_eq_some.1 hs)).map Segment.range).append_right t.freeRegions

theorem range_mem_holdings (hs : t.find? i = some s) : s.range ∈ t.holdings :=
  List.mem_append_left _ (List.mem_map_of_mem (mem_segments.2 ⟨i, hs⟩))

/-! ## Owners -/

/-- The owner of segment `i`, if there is such a segment, lists it. -/
def Lists (t : SegmentTable) (i : Nat) : Prop :=
  ∀ s, t.find? i = some s → i ∈ t.owned.get s.owner

/-- The same segments on the same ranges, of which some may have another owner that lists them. -/
structure SameButOwners (t t' : SegmentTable) : Prop where
  find? : ∀ i, ∃ g, t'.find? i = (t.find? i).map ({ · with owner := g })
  holdings : t'.holdings = t.holdings
  ephemeral : t'.ephemeral = t.ephemeral
  lists : ∀ i, t.Lists i → t'.Lists i
  freeRegions : t'.freeRegions = t.freeRegions
  regionSize : t'.regionSize = t.regionSize
  length_slots : t'.slots.length = t.slots.length

theorem SameButOwners.refl (t : SegmentTable) : SameButOwners t t := by
  refine ⟨fun i => ?_, rfl, rfl, fun _ h => h, rfl, rfl, rfl⟩
  cases hs : t.find? i with
  | none => exact ⟨.gen0, rfl⟩
  | some s => exact ⟨s.owner, rfl⟩

theorem SameButOwners.trans {t'' : SegmentTable} (h : SameButOwners t t')
    (h' : SameButOwners t' t'') : SameButOwners t t'' := by
  refine ⟨fun i => ?_, h'.holdings.trans h.holdings, h'.ephemeral.trans h.ephemeral,
    fun i hi => h'.lists i (h.lists i hi), h'.freeRegions.trans h.freeRegions,
    h'.regionSize.trans h.regionSize, h'.length_slots.trans h.length_slots⟩
  obtain ⟨_, hi⟩ := h.find? i
  obtain ⟨g, hi'⟩ := h'.find? i
  exact ⟨g, by rw [hi', hi, Option.map_map]; rfl⟩

theorem SameButOwners.live (h : SameButOwners t t') (hs : t.find? i = some s) :
    ∃ g, t'.find? i = some { s with owner := g } := by
  obtain ⟨g, hi⟩ := h.find? i
  exact ⟨g, by rw [hi, hs]; rfl⟩

theorem SameButOwners.back (h : SameButOwners t t') (hs' : t'.find? i = some s') :
    ∃ s g, t.find? i = some s ∧ s' = { s with owner := g } := by
  obtain ⟨g, hi⟩ := h.find? i
  cases hs : t.find? i with
  | none =>
    rw [hi, hs] at hs'
    cases hs'
  | some s =>
    rw [hi, hs] at hs'
    cases hs'
    exact ⟨s, g, rfl, rfl⟩

/-- Until its new owner lists it, a segment that changes owners is on no list. -/
theorem WellFormed.disown (h : t.WellFormed) (hs : t.find? id = some s) :
    ((t.put { s with owner }).delist id s.owner).WellFormed := by
  cases h.ids hs
  have hput : t.find? ({ s with owner } : Segment).id = some s := hs
  have hfind (j : Nat) : ((t.put { s with owner }).delist s.id s.owner).find? j =
      if j = s.id then some { s with owner } else t.find? j := find?_put hput
  constructor
  · intro j x hx
    rw [hfind] at hx
    split at hx
    next he =>
      cases hx
      exact he.symm
    next => exact h.ids hx
  · intro j x hx
    rw [hfind] at hx
    split at hx
    · cases hx
      exact ⟨(h.sound hs).allocated_le, (h.sound hs).committed_le, (h.sound hs).chain⟩
    · exact h.sound hx
  · intro g j hj
    obtain ⟨hj, hne⟩ := mem_owned_delist.1 hj
    obtain ⟨x, hx, hg⟩ := h.listed hj
    refine ⟨x, ?_, hg⟩
    rw [hfind, if_neg, hx]
    rintro rfl
    rw [hs] at hx
    cases hx
    exact hne hg.symm rfl
  · exact fun _ => nodup_delist h.nodup
  · intro j hj
    obtain ⟨x, hx⟩ := h.ephemeral_live hj
    rw [hfind]
    split
    · exact ⟨_, rfl⟩
    · exact ⟨x, hx⟩
  · exact h.pooled

/-- Only a segment of another owner is given away. -/
theorem retag_eq_ok (hs : t.find? id = some s) {r : Except HeapError Unit}
    (hrun : SegmentTable.retag id owner t = .ok (r, t')) : r = .ok ⟨⟩ ∧
      (s.owner = owner ∧ t' = t ∨
        s.owner ≠ owner ∧ t' = ((t.put { s with owner }).delist id s.owner).enlist id owner) := by
  simp only [SegmentTable.retag, Effect.get_bind, fetch, hs, Transition.ofExcept_bind] at hrun
  split at hrun
  next howner =>
    cases hrun
    exact ⟨rfl, .inl ⟨howner, rfl⟩⟩
  next hne =>
    cases hrun
    exact ⟨rfl, .inr ⟨hne, rfl⟩⟩

theorem WellFormed.find?_retag (h : t.WellFormed) (hs : t.find? id = some s)
    {r : Except HeapError Unit} (hrun : SegmentTable.retag id owner t = .ok (r, t')) (i : Nat) :
    t'.find? i = if i = id then some { s with owner } else t.find? i := by
  cases h.ids hs
  obtain ⟨_, ⟨rfl, rfl⟩ | ⟨_, rfl⟩⟩ := retag_eq_ok hs hrun
  · split
    next hi =>
      rw [hi]
      exact hs
    next => rfl
  · have hput : t.find? ({ s with owner } : Segment).id = some s := hs
    exact find?_put hput

/-- A live segment can always be given away. -/
theorem WellFormed.retag (h : t.WellFormed) (hs : t.find? id = some s)
    {r : Except HeapError Unit} (hrun : SegmentTable.retag id owner t = .ok (r, t')) :
    r = .ok ⟨⟩ ∧ t'.WellFormed ∧ SameButOwners t t' ∧
      ∀ j, j ≠ id → t'.find? j = t.find? j ∧ ∀ g, j ∈ t'.owned.get g → j ∈ t.owned.get g := by
  have hfind := h.find?_retag hs hrun
  obtain ⟨rfl, ⟨_, rfl⟩ | ⟨ho, rfl⟩⟩ := retag_eq_ok hs hrun
  · exact ⟨rfl, h, .refl _, fun _ _ => ⟨rfl, fun _ hj => hj⟩⟩
  · have hid : s.id = id := h.ids hs
    have hself : ((t.put { s with owner }).delist id s.owner).find? id =
        some { s with owner } := (hfind id).trans (if_pos rfl)
    refine ⟨rfl, (h.disown hs).enlist hself rfl ?_,
      ⟨?_, holdings_put hs hid rfl, rfl, ?_, rfl, rfl, List.length_set ..⟩, ?_⟩
    · intro hmem
      obtain ⟨x, hx, hg⟩ := h.listed (mem_owned_delist.1 hmem).1
      rw [hs] at hx
      cases hx
      exact ho hg
    · intro j
      rw [hfind]
      split
      next he =>
        rw [he, hs]
        exact ⟨owner, rfl⟩
      next => exact (SameButOwners.refl t).find? j
    · intro j hj x hx
      rw [hfind] at hx
      refine mem_owned_enlist.2 ?_
      split at hx
      next he =>
        cases hx
        exact .inr ⟨rfl, he⟩
      next hne => exact .inl (mem_owned_delist.2 ⟨hj x hx, fun _ => hne⟩)
    · intro j hne
      refine ⟨(hfind j).trans (if_neg hne), fun g hj => ?_⟩
      rcases mem_owned_enlist.1 hj with hj | ⟨_, rfl⟩
      · exact (mem_owned_delist.1 hj).1
      · exact absurd rfl hne

theorem retag_of_find?_eq_none (hs : t.find? id = none) {r : Except HeapError Unit}
    (hrun : SegmentTable.retag id owner t = .ok (r, t')) : t' = t := by
  simp only [SegmentTable.retag, Effect.get_bind, fetch, hs, Transition.ofExcept_bind] at hrun
  cases hrun
  rfl

theorem WellFormed.retag_all (h : t.WellFormed) {ids : List Nat}
    (hids : ∀ i ∈ ids, ∃ s, t.find? i = some s) {r : Except HeapError Unit}
    (hrun : (ids.forM fun id => SegmentTable.retag id owner) t = .ok (r, t')) :
    r = .ok ⟨⟩ ∧ t'.WellFormed ∧ SameButOwners t t' := by
  have hround := Effect.forM_induct (fun x => x.WellFormed ∧ SameButOwners t x)
    (fun id x r x' hid hx hrun => by
      obtain ⟨s, hs⟩ := hids id hid
      obtain ⟨g, hlive⟩ := hx.2.live hs
      obtain ⟨hr, hwf, hsame, _⟩ := hx.1.retag hlive hrun
      exact ⟨⟨_, hr⟩, hwf, hx.2.trans hsame⟩) ⟨h, .refl t⟩ hrun
  obtain ⟨⟨_, hr⟩, hwf, hsame⟩ := hround
  exact ⟨hr, hwf, hsame⟩

/-- How promoting the regions goes: not at all, for the youngest only, or for both of the young
generations, unless a region cannot be handed over. -/
inductive Promotes (condemned : Generation) (t : SegmentTable) :
    Except HeapError Unit → SegmentTable → Prop where
  | fixed (hlayout : t.layout ≠ .regions) : Promotes condemned t (.ok ⟨⟩) t
  | youngest {r t'} (hlayout : t.layout = .regions) (hc : ¬1 ≤ condemned.condemnTier.tier)
      (hyoung : (t.owned.get .gen0).forM (fun id => SegmentTable.retag id .gen1) t = .ok (r, t')) :
      Promotes condemned t r t'
  | stuck {e t'} (hlayout : t.layout = .regions) (hc : 1 ≤ condemned.condemnTier.tier)
      (hmiddle : (t.owned.get .gen1).forM (fun id => SegmentTable.retag id .gen2) t =
        .ok (.error e, t')) : Promotes condemned t (.error e) t'
  | both {t₁ r t'} (hlayout : t.layout = .regions) (hc : 1 ≤ condemned.condemnTier.tier)
      (hmiddle : (t.owned.get .gen1).forM (fun id => SegmentTable.retag id .gen2) t =
        .ok (.ok ⟨⟩, t₁))
      (hyoung : (t₁.owned.get .gen0).forM (fun id => SegmentTable.retag id .gen1) t₁ =
        .ok (r, t')) : Promotes condemned t r t'

theorem promoteRegions_cases {condemned : Generation} {r : Except HeapError Unit}
    (hrun : SegmentTable.promoteRegions condemned t = .ok (r, t')) : Promotes condemned t r t' := by
  unfold SegmentTable.promoteRegions at hrun
  rw [Effect.get_bind] at hrun
  split at hrun
  next hlayout =>
    split at hrun
    next hc =>
      rw [Effect.bind_eq_ok] at hrun
      rcases hrun with ⟨_, t₁, hmiddle, hrun⟩ | ⟨e, hmiddle, rfl⟩
      · exact .both hlayout hc hmiddle hrun
      · exact .stuck hlayout hc hmiddle
    next hc => exact .youngest hlayout hc hrun
  next hlayout =>
    cases hrun
    exact .fixed hlayout

theorem WellFormed.promoteRegions (h : t.WellFormed) {condemned : Generation}
    {r : Except HeapError Unit}
    (hrun : SegmentTable.promoteRegions condemned t = .ok (r, t')) :
    r = .ok ⟨⟩ ∧ t'.WellFormed ∧ SameButOwners t t' := by
  have hlive {x : SegmentTable} (hx : x.WellFormed) (g : Generation) :
      ∀ i ∈ x.owned.get g, ∃ s, x.find? i = some s := fun i hi =>
    (hx.listed hi).imp fun _ hs => hs.1
  have hyoung {x : SegmentTable} (hx : x.WellFormed) (hsame : SameButOwners t x)
      (hrun : (x.owned.get .gen0).forM (fun id => SegmentTable.retag id .gen1) x = .ok (r, t')) :
      r = .ok ⟨⟩ ∧ t'.WellFormed ∧ SameButOwners t t' := by
    obtain ⟨hr, hwf, hs⟩ := hx.retag_all (hlive hx .gen0) hrun
    exact ⟨hr, hwf, hsame.trans hs⟩
  cases promoteRegions_cases hrun with
  | fixed => exact ⟨rfl, h, .refl t⟩
  | youngest _ _ hlast => exact hyoung h (.refl t) hlast
  | stuck _ _ hmiddle => cases (h.retag_all (hlive h .gen1) hmiddle).1
  | both _ _ hmiddle hlast =>
    obtain ⟨_, hwf, hs⟩ := h.retag_all (hlive h .gen1) hmiddle
    exact hyoung hwf hs hlast

/-! ## Sweeping and placing -/

/-- A segment after a sweep, next to what it was. -/
structure Swept (space : ObjectSpace) (s s' : Segment) : Prop where
  same : s' = { s with allocated := s'.allocated, freeSpans := s'.freeSpans }
  sound : s'.Sound
  allocated_le : s'.allocated ≤ s.allocated
  stop_le : ∀ {a r}, space.get? a = some r → s.start ≤ a → a < s.allocated →
    a + r.size ≤ s'.allocated
  unused : ∀ {a r span}, space.get? a = some r → s.start ≤ a → a < s.allocated →
    span ∈ s'.freeSpans → a + r.size ≤ span.start ∨ span.start + span.size ≤ a

/-- A slot of the table, and what a sweep makes of it. -/
theorem WellFormed.find?_rebuild (h : t.WellFormed) (hspace : space.Apart)
    (hin : ∀ i s, t.find? i = some s → ∀ a r, space.get? a = some r → s.start ≤ a →
      a < s.allocated → a + r.size ≤ s.allocated)
    (hrun : t.rebuild space = .ok t') (i : Nat) : (t.find? i = none ∧ t'.find? i = none) ∨
      ∃ s s', t.find? i = some s ∧ t'.find? i = some s' ∧ Swept space s s' := by
  simp only [SegmentTable.rebuild, Checked.bind_eq_ok, Checked.pure_eq_ok] at hrun
  obtain ⟨slots, hslots, rfl⟩ := hrun
  rcases Checked.mapM_getElem? hslots i with ⟨hx, hy⟩ | ⟨x, y, hx, hy, hrun⟩
  · exact .inl ⟨by rw [find?, hx]; rfl, by rw [find?, hy]; rfl⟩
  · cases x with
    | none =>
      cases hrun
      exact .inl ⟨by rw [find?, hx]; rfl, by rw [find?, hy]; rfl⟩
    | some s =>
      simp only [Checked.bind_eq_ok, Checked.pure_eq_ok, Prod.exists] at hrun
      obtain ⟨plan, s', hs', rfl⟩ := hrun
      have hs : t.find? i = some s := find?_eq_some.2 hx
      obtain ⟨allocated, spans, rfl, hsound, hle, hobjects⟩ :=
        (h.sound hs).rebuild hspace (hin i s hs) hs'
      refine .inr ⟨s, _, hs, find?_eq_some.2 hy, rfl, hsound, hle, ?_, ?_⟩
      · intro a r hr hstart hlt
        exact (hobjects a r hr hstart hlt).1
      · intro a r span hr hstart hlt
        exact (hobjects a r hr hstart hlt).2 span

theorem holdings_rebuild (hrun : t.rebuild space = .ok t') : t'.holdings = t.holdings := by
  simp only [SegmentTable.rebuild, Checked.bind_eq_ok, Checked.pure_eq_ok] at hrun
  obtain ⟨slots, hslots, rfl⟩ := hrun
  have hmap : slots.map (·.map (·.range)) = t.slots.map (·.map (·.range)) := by
    refine Checked.map_of_mapM hslots fun x y hxy => ?_
    cases x with
    | none =>
      cases hxy
      rfl
    | some s =>
      simp only [Checked.bind_eq_ok, Checked.pure_eq_ok, Prod.exists] at hxy
      obtain ⟨plan, s', hs', rfl⟩ := hxy
      rw [Option.map_some, Option.map_some, Segment.range_rebuild hs']
  unfold holdings
  rw [map_range_segments, map_range_segments, hmap]

theorem owned_rebuild (hrun : t.rebuild space = .ok t') : t'.owned = t.owned := by
  simp only [SegmentTable.rebuild, Checked.bind_eq_ok, Checked.pure_eq_ok] at hrun
  obtain ⟨slots, _, rfl⟩ := hrun
  rfl

/-- A sweep keeps identifiers, ranges and owners; in every segment objects must end below the
pointer. -/
theorem WellFormed.rebuild (h : t.WellFormed) (hspace : space.Apart)
    (hin : ∀ i s, t.find? i = some s → ∀ a r, space.get? a = some r → s.start ≤ a →
      a < s.allocated → a + r.size ≤ s.allocated)
    (hrun : t.rebuild space = .ok t') :
    t'.WellFormed ∧ t'.holdings = t.holdings ∧
      (∀ {i s}, t.find? i = some s → ∃ s', t'.find? i = some s' ∧ Swept space s s') ∧
      ∀ {i s'}, t'.find? i = some s' → ∃ s, t.find? i = some s ∧ Swept space s s' := by
  have hone := h.find?_rebuild hspace hin hrun
  have hforth {i : Nat} {s : Segment} (hs : t.find? i = some s) :
      ∃ s', t'.find? i = some s' ∧ Swept space s s' := by
    rcases hone i with ⟨hn, _⟩ | ⟨x, s', hx, hs', hswept⟩
    · rw [hn] at hs
      cases hs
    · rw [hs] at hx
      cases hx
      exact ⟨s', hs', hswept⟩
  have hback {i : Nat} {s' : Segment} (hs' : t'.find? i = some s') :
      ∃ s, t.find? i = some s ∧ Swept space s s' := by
    rcases hone i with ⟨_, hn⟩ | ⟨s, x, hs, hx, hswept⟩
    · rw [hn] at hs'
      cases hs'
    · rw [hs'] at hx
      cases hx
      exact ⟨s, hs, hswept⟩
  obtain ⟨howned, heph, hfree, hsize⟩ : t'.owned = t.owned ∧ t'.ephemeral = t.ephemeral ∧
      t'.freeRegions = t.freeRegions ∧ t'.regionSize = t.regionSize := by
    simp only [SegmentTable.rebuild, Checked.bind_eq_ok, Checked.pure_eq_ok] at hrun
    obtain ⟨slots, _, rfl⟩ := hrun
    exact ⟨rfl, rfl, rfl, rfl⟩
  refine ⟨⟨?_, ?_, ?_, howned ▸ h.nodup, ?_, ?_⟩, holdings_rebuild hrun, hforth, hback⟩
  · intro i s' hs'
    obtain ⟨s, hs, hswept⟩ := hback hs'
    have hid := h.ids hs
    rw [hswept.same]
    exact hid
  · intro i s' hs'
    obtain ⟨s, _, hswept⟩ := hback hs'
    exact hswept.sound
  · intro g i hi
    obtain ⟨s, hs, hg⟩ := h.listed (howned ▸ hi)
    obtain ⟨s', hs', hswept⟩ := hforth hs
    exact ⟨s', hs', by rw [hswept.same]; exact hg⟩
  · intro i hi
    obtain ⟨s, hs⟩ := h.ephemeral_live (heph ▸ hi)
    obtain ⟨s', hs', _⟩ := hforth hs
    exact ⟨s', hs'⟩
  · rw [hfree, hsize]
    exact h.pooled

theorem takeFree_eq_none (hrun : t.takeFree id size = .ok (none, t')) : t' = t := by
  unfold takeFree at hrun
  cases hs : t.find? id with
  | none =>
    rw [hs] at hrun
    cases hrun
    rfl
  | some s =>
    simp only [hs, Checked.bind_eq_ok] at hrun
    obtain ⟨found, _, hrun⟩ := hrun
    cases found with
    | none =>
      cases hrun
      rfl
    | some p => cases hrun

theorem takeFree_eq_some {a : Nat} (hrun : t.takeFree id size = .ok (some a, t')) :
    ∃ s spans, t.find? id = some s ∧ FreeSpan.takeFirst? size s.freeSpans = .ok (some (a, spans)) ∧
      t' = t.put { s with freeSpans := spans } := by
  unfold takeFree at hrun
  cases hs : t.find? id with
  | none =>
    rw [hs] at hrun
    cases hrun
  | some s =>
    simp only [hs, Checked.bind_eq_ok] at hrun
    obtain ⟨found, hfound, hrun⟩ := hrun
    cases found with
    | none => cases hrun
    | some p =>
      cases hrun
      exact ⟨s, p.2, rfl, hfound, rfl⟩

/-! ## Bounds -/

theorem mem_ranges : (a, b) ∈ t.ranges ↔ ∃ i s, t.find? i = some s ∧ s.start = a ∧
    s.allocated = b := by
  unfold ranges
  simp only [List.mem_map, mem_segments, Prod.mk.injEq]
  constructor
  · rintro ⟨s, ⟨i, hi⟩, ha, hb⟩
    exact ⟨i, s, hi, ha, hb⟩
  · rintro ⟨i, s, hi, ha, hb⟩
    exact ⟨s, ⟨i, hi⟩, ha, hb⟩

theorem foldl_min_le (f : Segment → Nat) (l : List Segment) (n : Nat) :
    l.foldl (fun low x => min low (f x)) n ≤ n ∧
      ∀ s ∈ l, l.foldl (fun low x => min low (f x)) n ≤ f s := by
  induction l generalizing n with
  | nil => exact ⟨Nat.le_refl _, fun _ h => absurd h List.not_mem_nil⟩
  | cons x l ih =>
    obtain ⟨hn, hl⟩ := ih (min n (f x))
    refine ⟨Nat.le_trans hn (Nat.min_le_left ..), fun s hs => ?_⟩
    rcases List.mem_cons.1 hs with rfl | hs
    · exact Nat.le_trans hn (Nat.min_le_right ..)
    · exact hl s hs

theorem le_foldl_max (f : Segment → Nat) (l : List Segment) (n : Nat) :
    n ≤ l.foldl (fun high x => max high (f x)) n ∧
      ∀ s ∈ l, f s ≤ l.foldl (fun high x => max high (f x)) n := by
  induction l generalizing n with
  | nil => exact ⟨Nat.le_refl _, fun _ h => absurd h List.not_mem_nil⟩
  | cons x l ih =>
    obtain ⟨hn, hl⟩ := ih (max n (f x))
    refine ⟨Nat.le_trans (Nat.le_max_left ..) hn, fun s hs => ?_⟩
    rcases List.mem_cons.1 hs with rfl | hs
    · exact Nat.le_trans (Nat.le_max_right ..) hn
    · exact hl s hs

/-- The bounds of a table enclose the allocated parts of its segments. -/
theorem bounds?_encloses (hs : t.find? i = some s) :
    ∃ lo hi, t.bounds? = some (lo, hi) ∧ lo ≤ s.start ∧ s.allocated ≤ hi := by
  have hmem := mem_segments.2 ⟨i, hs⟩
  unfold bounds?
  cases hl : t.segments with
  | nil =>
    rw [hl] at hmem
    cases hmem
  | cons x rest =>
    rw [hl] at hmem
    have hlow := foldl_min_le Segment.start rest x.start
    have hhigh := le_foldl_max Segment.allocated rest x.allocated
    refine ⟨_, _, rfl, ?_⟩
    rcases List.mem_cons.1 hmem with rfl | hmem
    · exact ⟨hlow.1, hhigh.1⟩
    · exact ⟨hlow.2 s hmem, hhigh.2 s hmem⟩

end GenHeap.SegmentTable
