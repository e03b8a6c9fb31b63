import GenHeap.Proofs.Books
import GenHeap.Proofs.Owners

/-!
Spare segments: those without objects in which their owners do not allocate. A table that gives some
of them back keeps all other segments, and allocates where it did.
-/

namespace GenHeap

instance Segment.decidableOccupied (s : Segment) (space : ObjectSpace) :
    Decidable (s.Occupied space) :=
  decidable_of_iff (∃ x ∈ space.entries, s.start ≤ x.1 ∧ x.1 < s.range.start + s.range.size) ⟨
    fun ⟨⟨a, r⟩, hx, hin⟩ => ⟨a, r, ObjectSpace.mem_entries.1 hx, hin⟩,
    fun ⟨a, r, hr, hin⟩ => ⟨(a, r), ObjectSpace.mem_entries.2 hr, hin⟩⟩

/-- Striking off what is dropped from a list takes from a part of it what the list drops. -/
theorem filter_not_mem_drop {α : Type} (f : α → Nat) {before xs behind : List α} {n : Nat}
    (h : ((before ++ (xs ++ behind)).map f).Nodup) :
    (xs.filter fun x => f x ∉ ((before ++ (xs ++ behind)).drop n).map f) =
      xs.take (n - before.length) := by
  have hapart := List.disjoint_take_drop h (Nat.le_refl n)
  rw [← List.map_take, ← List.map_drop] at hapart
  have hstay : ∀ x ∈ xs.take (n - before.length),
      f x ∉ ((before ++ (xs ++ behind)).drop n).map f := by
    intro x hx
    refine hapart (List.mem_map_of_mem ?_)
    rw [List.take_append, List.take_append]
    exact List.mem_append_right _ (List.mem_append_left _ hx)
  have hgo : ∀ x ∈ xs.drop (n - before.length),
      f x ∈ ((before ++ (xs ++ behind)).drop n).map f := by
    intro x hx
    refine List.mem_map_of_mem ?_
    rw [List.drop_append, List.drop_append]
    exact List.mem_append_right _ (List.mem_append_left _ hx)
  have hparts := List.take_append_drop (n - before.length) xs
  generalize ((before ++ (xs ++ behind)).drop n).map f = dropped at hstay hgo
  conv_lhs => rw [← hparts]
  rw [List.filter_append, List.filter_eq_self.2 fun x hx => decide_eq_true (hstay x hx),
    List.filter_eq_nil_iff.2 fun x hx => by simp [hgo x hx], List.append_nil]

namespace SegmentTable

/-- A segment without objects that is not the one in which a generation allocates. -/
def Spare (t : SegmentTable) (space : ObjectSpace) (g : Generation) (s : Segment) : Prop :=
  t.allocSegment? g ≠ some s.id ∧ ¬ s.Occupied space

instance (t : SegmentTable) (space : ObjectSpace) (g : Generation) :
    DecidablePred (t.Spare space g) := fun _ => instDecidableAnd

/-- The spare segments among some of a generation. -/
def sparesAmong (t : SegmentTable) (space : ObjectSpace) (g : Generation) (ids : List Nat) :
    List Segment := (ids.filterMap t.find?).filter fun s => t.Spare space g s

/-- The spare segments of a generation, oldest first. -/
def sparesOf (t : SegmentTable) (space : ObjectSpace) (g : Generation) : List Segment :=
  t.sparesAmong space g (t.owned.get g)

/-- The spare segments of one generation after the other. -/
def spares (t : SegmentTable) (space : ObjectSpace) : List Segment :=
  Generation.all.flatMap (t.sparesOf space)

/-- Whether the range of a segment can be used again as a region. -/
def pools (t : SegmentTable) (s : Segment) : Bool :=
  s.kind == .region && s.range.size == t.regionSize

/-- The ranges of segments that go to the pool, in their order. -/
def pooled (t : SegmentTable) (gone : List Segment) : List AddressRange :=
  (gone.filter t.pools).map (·.range)

/-- The ranges of segments that go back to the provider, in their order. -/
def released (t : SegmentTable) (gone : List Segment) : List AddressRange :=
  (gone.filter fun s => !t.pools s).map (·.range)

/-- The table without some segments. No generation allocates in another one than before. -/
structure Sheds (gone : List Segment) (t t' : SegmentTable) : Prop where
  constants : t'.constants = t.constants
  ephemeral : t'.ephemeral = t.ephemeral
  found : ∀ s ∈ gone, t.find? s.id = some s
  find? : ∀ i, t'.find? i = if i ∈ gone.map (·.id) then none else t.find? i
  owned : ∀ g, t'.owned.get g = (t.owned.get g).filter fun i => i ∉ gone.map (·.id)
  allocSegment? : ∀ g, t'.allocSegment? g = t.allocSegment? g
  freeRegions : t'.freeRegions = (t.pooled gone).reverse ++ t.freeRegions

/-- The number of spare segments of the generations that come before one. -/
def sparesBefore (t : SegmentTable) (space : ObjectSpace) (g : Generation) : Nat :=
  ((Generation.all.takeWhile (· != g)).flatMap (t.sparesOf space)).length

/-- All generations together keep their first `kept` spare segments: each of them keeps the oldest
of its own, as many as those before it leave over. All other spare segments go. -/
structure KeepsSpare (kept : Nat) (space : ObjectSpace) (t t' : SegmentTable) : Prop where
  sheds : Sheds ((t.spares space).drop kept) t t'
  share : ∀ g, t'.sparesOf space g = (t.sparesOf space g).take (kept - t.sparesBefore space g)

/-- A generation allocates in the ephemeral segment, if it owns it. -/
def Anchored (t : SegmentTable) : Prop :=
  ∀ i s, t.find? i = some s → t.ephemeral = some i → t.allocSegment? s.owner = some i

variable {t t' t'' : SegmentTable} {s : Segment} {i kept : Nat} {g : Generation}
  {gone gone' : List Segment} {space : ObjectSpace}

theorem Tiered.anchored (h : t.Tiered) (hwf : t.WellFormed)
    (hregions : t.layout = .regions → t.ephemeral = none) : t.Anchored := by
  intro i s hs heph
  cases hlayout : t.layout with
  | regions =>
    rw [hregions hlayout] at heph
    cases heph
  | segments =>
    obtain ⟨x, hx, howner⟩ := h.owner_of_ephemeral hwf hlayout heph
    cases hs.symm.trans hx
    refine SegmentTable.allocSegment?_eq_some_iff.2 (.inl ⟨?_, heph⟩)
    rw [howner, usesEphemeral, hlayout]
    rfl

/-- No generation allocates in a segment that its owner does not allocate in. -/
theorem Anchored.allocSegment?_ne (h : t.Anchored) (hwf : t.WellFormed) (hs : t.find? i = some s)
    (hne : t.allocSegment? s.owner ≠ some i) : t.allocSegment? g ≠ some i := by
  intro halloc
  obtain ⟨-, heph⟩ | ⟨huses, hlast⟩ := SegmentTable.allocSegment?_eq_some_iff.1 halloc
  · exact hne (h i s hs heph)
  · obtain ⟨x, hx, rfl⟩ := hwf.listed (List.mem_of_getLast? hlast)
    cases hs.symm.trans hx
    exact hne (SegmentTable.allocSegment?_eq_some_iff.2 (.inr ⟨huses, hlast⟩))

/-! ## Spare segments -/

theorem mem_sparesAmong {ids : List Nat} : s ∈ t.sparesAmong space g ids ↔
    (∃ i ∈ ids, t.find? i = some s) ∧ t.Spare space g s := by
  unfold sparesAmong
  rw [List.mem_filter, List.mem_filterMap, decide_eq_true_iff]

theorem sparesAmong_append (ids ids' : List Nat) : t.sparesAmong space g (ids ++ ids') =
    t.sparesAmong space g ids ++ t.sparesAmong space g ids' := by
  unfold sparesAmong
  rw [List.filterMap_append, List.filter_append]

theorem sparesAmong_singleton (hs : t.find? i = some s) :
    t.sparesAmong space g [i] = if t.Spare space g s then [s] else [] := by
  unfold sparesAmong
  rw [List.filterMap_cons_some hs, List.filterMap_nil, List.filter_singleton]
  simp only [decide_eq_true_eq, Bool.cond_eq_ite]

theorem WellFormed.owner_of_mem_sparesOf (h : t.WellFormed) (hs : s ∈ t.sparesOf space g) :
    t.find? s.id = some s ∧ s.owner = g := by
  obtain ⟨⟨i, hi, hs⟩, _⟩ := mem_sparesAmong.1 hs
  obtain ⟨x, hx, howner⟩ := h.listed hi
  cases hs.symm.trans hx
  cases h.ids hs
  exact ⟨hs, howner⟩

theorem WellFormed.nodup_sparesOf (h : t.WellFormed) :
    ((t.sparesOf space g).map (·.id)).Nodup := by
  have hids : ((t.owned.get g).filterMap t.find?).map (·.id) = t.owned.get g := by
    rw [List.map_filterMap]
    refine (List.filterMap_congr fun i hi => ?_).trans List.filterMap_some
    obtain ⟨s, hs, _⟩ := h.listed hi
    rw [hs, Option.map_some, h.ids hs]
  refine List.Nodup.sublist ((List.filter_sublist).map _) ?_
  rw [hids]
  exact h.nodup g

/-- No segment is spare twice. -/
theorem WellFormed.nodup_spares (h : t.WellFormed) : ((t.spares space).map (·.id)).Nodup := by
  unfold spares
  rw [List.map_flatMap, List.nodup_flatMap]
  refine ⟨fun g _ => h.nodup_sparesOf, ?_⟩
  refine List.Pairwise.imp ?_ (show Generation.all.Nodup by decide)
  intro g g' hne i hi hi'
  obtain ⟨s, hs, rfl⟩ := List.mem_map.1 hi
  obtain ⟨s', hs', hid⟩ := List.mem_map.1 hi'
  obtain ⟨hfind, howner⟩ := h.owner_of_mem_sparesOf hs
  obtain ⟨hfind', howner'⟩ := h.owner_of_mem_sparesOf hs'
  rw [hid] at hfind'
  cases hfind.symm.trans hfind'
  exact hne (howner.symm.trans howner')

/-! ## Tables without some segments -/

namespace Sheds

theorem regionSize (h : Sheds gone t t') : t'.regionSize = t.regionSize := by
  show t'.constants.regionSize = t.constants.regionSize
  rw [h.constants]

theorem pools (h : Sheds gone t t') : t'.pools = t.pools := by
  funext s
  unfold SegmentTable.pools
  rw [h.regionSize]

theorem refl (t : SegmentTable) : Sheds [] t t where
  constants := rfl
  ephemeral := rfl
  found := nofun
  find? _ := rfl
  owned _ := (List.filter_eq_self.2 fun _ _ => rfl).symm
  allocSegment? _ := rfl
  freeRegions := rfl

theorem of_find? (h : Sheds gone t t') (hs : t'.find? i = some s) :
    t.find? i = some s ∧ i ∉ gone.map (·.id) := by
  rw [h.find?] at hs
  split at hs
  · cases hs
  next hnot => exact ⟨hs, hnot⟩

theorem trans (h : Sheds gone t t') (h' : Sheds gone' t' t'') : Sheds (gone ++ gone') t t'' where
  constants := h'.constants.trans h.constants
  ephemeral := h'.ephemeral.trans h.ephemeral
  found s hs := by
    rcases List.mem_append.1 hs with hs | hs
    · exact h.found s hs
    · exact (h.of_find? (h'.found s hs)).1
  find? i := by
    rw [h'.find?, h.find?, List.map_append]
    simp only [List.mem_append]
    by_cases hi' : i ∈ gone'.map (·.id)
    · rw [if_pos hi', if_pos (.inr hi')]
    · simp only [hi', if_false, or_false]
  owned g := by
    rw [h'.owned, h.owned, List.filter_filter, List.map_append]
    refine List.filter_congr fun i _ => ?_
    simp only [List.mem_append, not_or, Bool.decide_and, Bool.and_comm]
  allocSegment? g := (h'.allocSegment? g).trans (h.allocSegment? g)
  freeRegions := by
    rw [h'.freeRegions, h.freeRegions]
    unfold pooled
    rw [h.pools, List.filter_append, List.map_append, List.reverse_append, List.append_assoc]

/-- A segment that a generation does not allocate in goes. -/
theorem forget (hwf : t.WellFormed) (hanchored : t.Anchored) (hs : t.find? s.id = some s)
    (halloc : t.allocSegment? s.owner ≠ some s.id) :
    Sheds [s] t (SegmentTable.forget
      { t with freeRegions := t.pooled [s] ++ t.freeRegions } s.id s.owner) where
  constants := rfl
  ephemeral := rfl
  found x hx := by
    cases List.mem_singleton.1 hx
    exact hs
  find? i := by
    rw [find?_forget, List.map_singleton]
    simp only [List.mem_singleton]
    rfl
  owned g := by
    show ((t.delist s.id s.owner).owned).get g = _
    unfold delist
    simp only [List.map_singleton, List.mem_singleton]
    by_cases hg : g = s.owner
    · subst hg
      rw [PerGeneration.get_modify_self]
      refine List.filter_congr fun i _ => ?_
      rw [Bool.eq_iff_iff, bne_iff_ne, decide_eq_true_iff]
    · rw [PerGeneration.get_modify_of_ne _ _ hg, eq_comm, List.filter_eq_self]
      intro i hi
      obtain ⟨x, hx, howner⟩ := hwf.listed hi
      refine decide_eq_true fun he => ?_
      cases (he ▸ hs).symm.trans hx
      exact hg howner.symm
  allocSegment? _ := allocSegment?_delist (hanchored.allocSegment?_ne hwf hs halloc)
  freeRegions := by
    unfold pooled
    rw [List.filter_singleton]
    cases t.pools s <;> rfl

theorem anchored (h : Sheds gone t t') (ht : t.Anchored) : t'.Anchored := by
  intro i s hs heph
  rw [h.allocSegment?]
  exact ht i s (h.of_find? hs).1 (h.ephemeral.symm.trans heph)

theorem spare_eq (h : Sheds gone t t') : t'.Spare space g = t.Spare space g := by
  funext s
  unfold Spare
  rw [h.allocSegment?]

/-- Among segments that all stay the same ones are spare. -/
theorem sparesAmong_eq (h : Sheds gone t t') {ids : List Nat}
    (hids : ∀ i ∈ ids, i ∉ gone.map (·.id)) :
    t'.sparesAmong space g ids = t.sparesAmong space g ids := by
  unfold sparesAmong
  simp only [h.spare_eq]
  refine congrArg _ (List.filterMap_congr fun i hi => ?_)
  rw [h.find?, if_neg (hids i hi)]

/-- The spare segments that are still there are spare, and no others. -/
theorem sparesOf_eq (h : Sheds gone t t') (hwf : t.WellFormed) : t'.sparesOf space g =
    (t.sparesOf space g).filter fun s => s.id ∉ gone.map (·.id) := by
  have hstay : ∀ i ∈ t'.owned.get g, i ∉ gone.map (·.id) := by
    intro i hi
    rw [h.owned, List.mem_filter, decide_eq_true_iff] at hi
    exact hi.2
  unfold sparesOf
  rw [h.sparesAmong_eq hstay, h.owned]
  unfold sparesAmong
  rw [List.filterMap_filter, List.filter_comm]
  refine congrArg (List.filter _) ?_
  rw [List.filter_filterMap]
  refine List.filterMap_congr fun i _ => ?_
  cases hs : t.find? i with
  | none => rw [ite_self, Option.filter_none]
  | some s => rw [Option.filter_some, hwf.ids hs]

theorem sparesOf_of_owner_ne (h : Sheds gone t t') (hwf : t.WellFormed)
    (hne : ∀ s ∈ gone, s.owner ≠ g) : t'.sparesOf space g = t.sparesOf space g := by
  rw [h.sparesOf_eq hwf, List.filter_eq_self]
  intro s hs
  obtain ⟨hfind, howner⟩ := hwf.owner_of_mem_sparesOf hs
  refine decide_eq_true fun hin => ?_
  obtain ⟨x, hx, hid⟩ := List.mem_map.1 hin
  have hfound := h.found x hx
  rw [hid] at hfound
  cases hfind.symm.trans hfound
  exact hne s hx howner

theorem keepsSpare (h : Sheds ((t.spares space).drop kept) t t') (hwf : t.WellFormed) :
    KeepsSpare kept space t t' where
  sheds := h
  share g := by
    obtain ⟨behind, hall⟩ : ∃ behind,
        Generation.all = Generation.all.takeWhile (· != g) ++ g :: behind := by
      cases g <;> exact ⟨_, rfl⟩
    have hspares : t.spares space =
        (Generation.all.takeWhile (· != g)).flatMap (t.sparesOf space) ++
          (t.sparesOf space g ++ behind.flatMap (t.sparesOf space)) := by
      unfold spares
      conv_lhs => rw [hall]
      rw [List.flatMap_append, List.flatMap_cons]
    have hnodup : ((t.spares space).map (·.id)).Nodup := hwf.nodup_spares
    rw [h.sparesOf_eq hwf]
    rw [hspares] at hnodup ⊢
    exact filter_not_mem_drop _ hnodup

end Sheds

end SegmentTable

/-! ## What the provider gets back -/

/-- The provider takes some ranges back, and so many bytes off the charge. -/
structure Provider.TakesBack (ranges : List AddressRange) (bytes : Nat) (p p' : Provider) :
    Prop where
  holes : p'.space.holes = p.space.holes ++ ranges
  committed : p'.space.committed = p.space.committed - bytes

namespace Provider.TakesBack

variable {p p' p'' : Provider} {ranges ranges' : List AddressRange} {bytes bytes' : Nat}

theorem refl (p : Provider) : TakesBack [] 0 p p := ⟨(List.append_nil _).symm, rfl⟩

theorem trans (h : TakesBack ranges bytes p p') (h' : TakesBack ranges' bytes' p' p'') :
    TakesBack (ranges ++ ranges') (bytes + bytes') p p'' where
  holes := by rw [h'.holes, h.holes, List.append_assoc]
  committed := by rw [h'.committed, h.committed, Nat.sub_sub]

end Provider.TakesBack

namespace SegmentArena

open Provider (TakesBack)

/-- The arena without some segments. -/
structure Sheds (gone : List Segment) (a a' : SegmentArena) : Prop where
  table : a.table.Sheds gone a'.table
  provider : TakesBack (a.table.released gone) (Word.total (gone.map (·.committed))) a.provider
    a'.provider

variable {a a' a'' : SegmentArena} {range : AddressRange} {rest : List AddressRange}
  {id : Nat} {s : Segment} {space : ObjectSpace} {gone gone' : List Segment}

theorem Sheds.refl (a : SegmentArena) : Sheds [] a a := ⟨.refl _, .refl _⟩

theorem Sheds.trans (h : Sheds gone a a') (h' : Sheds gone' a' a'') :
    Sheds (gone ++ gone') a a'' where
  table := h.table.trans h'.table
  provider := by
    have hprovider := h.provider.trans h'.provider
    unfold SegmentTable.released at hprovider ⊢
    rwa [h.table.pools, ← List.map_append, ← List.filter_append, ← Word.total_append,
      ← List.map_append] at hprovider

/-- Of some spare segments the first are kept until there are `retained` of them, with the `kept` ones
from before; the others go. In the end `n` are kept. -/
structure Rationed (retained kept : Nat) (spare : List Segment) (n : Nat) (a a' : SegmentArena) :
    Prop where
  count : n = min retained (kept + spare.length)
  sheds : Sheds (spare.drop (retained - kept)) a a'

theorem Rationed.nil {retained kept : Nat} (hkept : kept ≤ retained) (a : SegmentArena) :
    Rationed retained kept [] kept a a where
  count := (Nat.min_eq_right hkept).symm
  sheds := by
    rw [List.drop_nil]
    exact .refl a

theorem Rationed.append {retained kept m n : Nat} {xs ys : List Segment}
    (h : Rationed retained kept xs m a a') (h' : Rationed retained m ys n a' a'') :
    Rationed retained kept (xs ++ ys) n a a'' where
  count := by
    rw [h'.count, h.count, List.length_append]
    omega
  sheds := by
    have hleft : retained - kept - xs.length = retained - m := by
      rw [h.count]
      omega
    rw [List.drop_append, hleft]
    exact h.sheds.trans h'.sheds

theorem decommitPart_takesBack {r : Except HeapError PUnit}
    (hrun : decommitPart s a = .ok (r, a')) (hp : a.provider.refusals.decommit = 0) :
    r = .ok ⟨⟩ ∧ a'.table = a.table ∧ a'.provider.refusals = a.provider.refusals ∧
      TakesBack [] s.committed a.provider a'.provider := by
  obtain ⟨hzero, rfl, rfl⟩ | ⟨provider, hdecommit, rfl⟩ := decommitPart_cases hrun
  · exact ⟨rfl, rfl, rfl, hzero ▸ .refl _⟩
  · rw [Provider.decommit_of_zero hp] at hdecommit
    cases hdecommit
    exact ⟨rfl, rfl, rfl, (List.append_nil _).symm, rfl⟩

theorem returnRange_takesBack {r : Except HeapError PUnit}
    (hrun : returnRange s a = .ok (r, a')) (hp : a.provider.refusals.release = 0) :
    r = .ok ⟨⟩ ∧
      a'.table = { a.table with freeRegions := a.table.pooled [s] ++ a.table.freeRegions } ∧
      TakesBack (a.table.released [s]) 0 a.provider a'.provider := by
  have hpools : a.table.pools s = true ↔ s.kind = .region ∧ s.range.size = a.table.regionSize := by
    unfold SegmentTable.pools
    rw [Bool.and_eq_true_iff, beq_iff_eq, beq_iff_eq]
  unfold SegmentTable.pooled SegmentTable.released
  rw [List.filter_singleton, List.filter_singleton]
  obtain ⟨hsize, rfl, rfl⟩ | ⟨hsize, provider, hrelease, rfl⟩ := returnRange_cases hrun
  · rw [hpools.2 hsize]
    exact ⟨rfl, rfl, .refl _⟩
  · rw [Provider.release_of_zero hp] at hrelease
    cases hrelease
    rw [Bool.eq_false_iff.2 fun h => hsize (hpools.1 h)]
    exact ⟨rfl, rfl, rfl, rfl⟩

/-- A segment without objects is given back, if its owner does not allocate in it. -/
theorem Sound.sheds_decommitIfEmpty (h : a.Sound range rest) (hanchored : a.table.Anchored)
    (hs : a.table.find? id = some s) (hspare : a.table.Spare space s.owner s)
    {r : Except HeapError Bool} (hrun : SegmentArena.decommitIfEmpty id space a = .ok (r, a')) :
    r = .ok true ∧ Sheds [s] a a' := by
  cases h.wellFormed.ids hs
  obtain ⟨halloc, hempty⟩ := hspare
  have heph : a.table.ephemeral ≠ some s.id := fun heph => halloc (hanchored s.id s hs heph)
  cases decommitIfEmpty_cases hs hrun with
  | kept hused =>
    obtain hactive | hholds := hused
    · exact absurd hactive heph
    · exact absurd ((holdsObject_eq_ok hholds).1 rfl) hempty
  | charged _ _ hpart => cases (decommitPart_takesBack hpart h.serves.decommits).1
  | reserved _ _ hpart hreturn =>
    obtain ⟨_, _, hrefusals, _⟩ := decommitPart_takesBack hpart h.serves.decommits
    cases (returnRange_takesBack hreturn (hrefusals ▸ h.serves.releases)).1
  | @gone a₁ a₂ _ _ hpart hreturn =>
    obtain ⟨_, htable, hrefusals, hback⟩ := decommitPart_takesBack hpart h.serves.decommits
    obtain ⟨_, htable₂, hback₂⟩ :=
      returnRange_takesBack hreturn (hrefusals ▸ h.serves.releases)
    rw [htable] at htable₂ hback₂
    refine ⟨rfl, ?_, hback.trans hback₂⟩
    show SegmentTable.Sheds [s] a.table (a₂.table.forget s.id s.owner)
    rw [htable₂]
    exact .forget h.wellFormed hanchored hs halloc

end SegmentArena

end GenHeap
