import GenHeap.Proofs.Constants
import GenHeap.Proofs.FinalizationOrder

/-!
Zones: the generations that share segments. In the region layout each generation is a zone of its
own; in the segment layout ordinary objects of all ages are in one. A segment keeps its zone for as
long as it lives, unless a collection makes the young regions older.
-/

namespace GenHeap

/-- The oldest of the generations that share segments with this one. -/
def Layout.zone : Layout → Generation → Generation
  | .regions, g => g
  | .segments, g => if g.ephemeral then .gen2 else g

theorem Generation.aged_eq (condemned g : Generation) : condemned.aged g =
    if g = .gen0 then .gen1
    else if g = .gen1 ∧ 1 ≤ condemned.condemnTier.tier then .gen2 else g := by
  cases g <;> cases condemned <;> rfl

/-- The zone in which a collection leaves the survivors of a zone. -/
def Layout.aged : Layout → Generation → Generation → Generation
  | .regions, condemned, g => condemned.aged g
  | .segments, _, g => g

/-- What ages stays in its zone, or goes to the zone that it should. -/
theorem Layout.zone_aged (layout : Layout) (condemned g : Generation) :
    layout.zone (condemned.aged g) = layout.aged condemned (layout.zone g) := by
  cases layout with
  | regions => rfl
  | segments =>
    unfold Generation.aged
    split
    next hold =>
      cases g with
      | gen0 | gen1 => rfl
      | _ => cases hold
    next => rfl

theorem Layout.zone_eq_large {g : Generation} : segments.zone g = .large ↔ g = .large := by
  cases g <;> decide

theorem Layout.zone_eq_pinned {g : Generation} : segments.zone g = .pinned ↔ g = .pinned := by
  cases g <;> decide

theorem Layout.zone_eq_gen2 {g : Generation} :
    segments.zone g = .gen2 ↔ g ∈ [.gen0, .gen1, .gen2] := by
  cases g <;> decide

namespace SegmentTable

/-- The zone of a live segment. -/
def zone? (t : SegmentTable) (i : Nat) : Option Generation :=
  (t.find? i).map fun s => t.layout.zone s.owner

/-- In the segment layout the youngest generation owns the ephemeral segment only, and the next one
owns none. -/
def Tiered (t : SegmentTable) : Prop :=
  t.layout = .segments → t.owned.get .gen0 = t.ephemeral.toList ∧ t.owned.get .gen1 = []

/-- The zones of segments change by `f`. Segments may go, but no identifier comes back. -/
structure Zones (f : Generation → Generation) (t t' : SegmentTable) : Prop where
  layout : t'.layout = t.layout
  length_le : t.slots.length ≤ t'.slots.length
  tiered : t.Tiered → t'.Tiered
  zone? : t.Tiered → ∀ {i}, i < t.slots.length → t'.zone? i = none ∨ t'.zone? i = (t.zone? i).map f

variable {t t' t'' : SegmentTable} {s s' : Segment} {i j size : Nat} {g owner : Generation}
  {f f' : Generation → Generation} {space : ObjectSpace}

theorem zone?_of_find? (hs : t.find? i = some s) : t.zone? i = some (t.layout.zone s.owner) := by
  rw [SegmentTable.zone?, hs]
  rfl

theorem zone?_lt (h : t.zone? i = some g) : i < t.slots.length := by
  obtain ⟨s, hs, _⟩ := Option.map_eq_some_iff.1 h
  exact find?_lt hs

theorem zone?_congr (hlayout : t'.layout = t.layout)
    (hfind : (t'.find? i).map (·.owner) = (t.find? i).map (·.owner)) : t'.zone? i = t.zone? i := by
  have hread (t : SegmentTable) :
      t.zone? i = ((t.find? i).map (·.owner)).map t.layout.zone := by
    unfold SegmentTable.zone?
    rw [Option.map_map]
    rfl
  rw [hread t', hread t, hfind, hlayout]

theorem Tiered.congr (h : t.Tiered) (hlayout : t'.layout = t.layout)
    (howned : t'.owned = t.owned) (heph : t'.ephemeral = t.ephemeral) : t'.Tiered := by
  unfold Tiered
  rw [hlayout, howned, heph]
  exact h

namespace Zones

theorem of_same (hlayout : t'.layout = t.layout) (hlength : t'.slots.length = t.slots.length)
    (howned : t'.owned = t.owned) (heph : t'.ephemeral = t.ephemeral)
    (hfind : ∀ i, (t'.find? i).map (·.owner) = (t.find? i).map (·.owner)) : Zones id t t' where
  layout := hlayout
  length_le := Nat.le_of_eq hlength.symm
  tiered ht := ht.congr hlayout howned heph
  zone? _ {i} _ := .inr (by rw [zone?_congr hlayout (hfind i), Option.map_id_fun]; rfl)

theorem refl (t : SegmentTable) : Zones id t t := .of_same rfl rfl rfl rfl fun _ => rfl

theorem trans (h : Zones f t t') (h' : Zones f' t' t'') : Zones (f' ∘ f) t t'' where
  layout := h'.layout.trans h.layout
  length_le := Nat.le_trans h.length_le h'.length_le
  tiered ht := h'.tiered (h.tiered ht)
  zone? ht i hi := by
    have hlast := h'.zone? (h.tiered ht) (Nat.lt_of_lt_of_le hi h.length_le)
    rcases h.zone? ht hi with hnone | hsome
    · rw [hnone] at hlast
      exact .inl (hlast.elim (fun hn => hn) fun hn => hn)
    · rw [hsome, Option.map_map] at hlast
      exact hlast

/-- A segment that is still there has the zone that it should. -/
theorem zone?_eq (h : Zones f t t') (ht : t.Tiered) (hz : t.zone? i = some g)
    (hlive : ∃ s, t'.find? i = some s) : t'.zone? i = some (f g) := by
  obtain ⟨s, hs⟩ := hlive
  rcases h.zone? ht (zone?_lt hz) with hnone | hsome
  · cases hnone.symm.trans (zone?_of_find? hs)
  · rw [hsome, hz]
    rfl

end Zones

/-! ## Where a generation allocates -/

theorem Tiered.owner_of_ephemeral (h : t.Tiered) (hwf : t.WellFormed)
    (hlayout : t.layout = .segments) (hi : t.ephemeral = some i) :
    ∃ s, t.find? i = some s ∧ s.owner = .gen0 := by
  apply hwf.listed
  rw [(h hlayout).1, hi]
  exact List.mem_singleton.2 rfl

/-- The segments that a generation may use are of its zone. -/
theorem zone?_of_candidate (h : t.Tiered) (hwf : t.WellFormed) (hi : i ∈ t.candidates g) :
    t.zone? i = some (t.layout.zone g) := by
  unfold candidates at hi
  split at hi
  next huses =>
    obtain ⟨hlayout, hyoung⟩ := layout_of_usesEphemeral huses
    obtain ⟨s, hs, howner⟩ := h.owner_of_ephemeral hwf hlayout (Option.mem_toList.1 hi)
    rw [zone?_of_find? hs, howner, hlayout, Layout.zone, Layout.zone, hyoung]
    rfl
  next =>
    obtain ⟨s, hs, rfl⟩ := hwf.listed hi
    exact zone?_of_find? hs

theorem candidate_of_allocSegment? (hi : t.allocSegment? g = some i) : i ∈ t.candidates g := by
  unfold candidates
  obtain ⟨huses, heph⟩ | ⟨huses, hlast⟩ := allocSegment?_eq_some_iff.1 hi
  · rw [if_pos huses]
    exact Option.mem_toList.2 heph
  · rw [if_neg (Bool.eq_false_iff.1 huses)]
    exact List.mem_of_getLast? hlast

theorem zone_newOwner (t : SegmentTable) (g : Generation) :
    t.layout.zone (t.newOwner g) = t.layout.zone g := by
  unfold newOwner
  split
  next huses =>
    obtain ⟨hlayout, hyoung⟩ := layout_of_usesEphemeral huses
    rw [hlayout, Layout.zone, Layout.zone, hyoung]
    rfl
  next => rfl

theorem newOwner_of_usesEphemeral (hlayout : t'.layout = t.layout)
    (huses : t'.usesEphemeral (t.newOwner g) = true) : t.newOwner g = .gen0 := by
  have hsame : t.usesEphemeral g = true := by
    rw [← usesEphemeral_newOwner, ← huses, usesEphemeral_congr hlayout]
  exact if_pos hsame

/-! ## Changes of one segment -/

theorem zones_put (hs : t.find? i = some s) (hid : s'.id = i) (howner : s'.owner = s.owner) :
    Zones id t (t.put s') := by
  refine .of_same rfl (List.length_set ..) rfl rfl fun j => ?_
  rw [find?_put (hid ▸ hs)]
  split
  next hj =>
    rw [hj, hid, hs, Option.map_some, Option.map_some, howner]
  next => rfl

theorem WellFormed.zones_takeFree {a : Nat} (h : t.WellFormed)
    (hrun : t.takeFree i size = .ok (some a, t')) : Zones id t t' := by
  obtain ⟨s, spans, hs, _, rfl⟩ := takeFree_eq_some hrun
  have hid : s.id = i := h.ids hs
  exact zones_put hs hid rfl

theorem zones_of_vacates (h : SegmentArena.Vacates t t' i owner) : Zones id t t' where
  layout := h.layout
  length_le := Nat.le_of_eq h.length_slots.symm
  tiered ht hlayout := by
    obtain ⟨hyoung, hmiddle⟩ := ht (h.layout.symm.trans hlayout)
    have hget {g : Generation} (hi : i ∉ t.owned.get g) :
        t'.owned.get g = t.owned.get g := by
      rw [h.owned, delist]
      by_cases hg : g = owner
      · subst hg
        rw [PerGeneration.get_modify_self, List.filter_eq_self]
        intro j hj
        exact bne_iff_ne.2 fun he => hi (he ▸ hj)
      · exact PerGeneration.get_modify_of_ne _ _ hg
    rw [h.ephemeral, hget (g := .gen0), hget (g := .gen1)]
    · exact ⟨hyoung, hmiddle⟩
    · rw [hmiddle]
      exact List.not_mem_nil
    · rw [hyoung, Option.mem_toList]
      exact h.spared
  zone? _ {j} _ := by
    by_cases hj : j = i
    · refine .inl ?_
      rw [SegmentTable.zone?, h.find?, if_pos hj]
      rfl
    · refine .inr ?_
      rw [zone?_congr h.layout (by rw [h.find?, if_neg hj]), Option.map_id_fun]
      rfl

/-- A sweep changes no owner. -/
theorem zones_rebuild (hrun : t.rebuild space = .ok t') : Zones id t t' := by
  simp only [SegmentTable.rebuild, Checked.bind_eq_ok, Checked.pure_eq_ok] at hrun
  obtain ⟨slots, hslots, rfl⟩ := hrun
  refine .of_same rfl (Checked.mapM_length hslots) rfl rfl fun i => ?_
  have hread (t : SegmentTable) :
      (t.find? i).map (·.owner) = ((t.slots.map (·.map (·.owner)))[i]?).join := by
    rw [find?, List.getElem?_map]
    cases t.slots[i]? with
    | none => rfl
    | some x => cases x <;> rfl
  rw [hread, hread]
  refine congrArg (fun owners : List (Option Generation) => (owners[i]?).join) ?_
  refine Checked.map_of_mapM hslots fun x y hxy => ?_
  cases x with
  | none =>
    cases hxy
    rfl
  | some s =>
    simp only [Checked.bind_eq_ok, Checked.pure_eq_ok, Prod.exists] at hxy
    obtain ⟨plan, s', hs', rfl⟩ := hxy
    simp only [Segment.rebuild, Checked.bind_eq_ok, Checked.pure_eq_ok, Prod.mk.injEq] at hs'
    obtain ⟨_, _, _, hreset, _, rfl⟩ := hs'
    obtain ⟨rfl, _⟩ := Segment.reset_eq_ok hreset
    rfl

/-! ## Promoted regions -/

/-- The owner of a live segment. -/
def owner? (t : SegmentTable) (i : Nat) : Option Generation := (t.find? i).map (·.owner)

theorem zone?_eq_owner? (i : Nat) : t.zone? i = (t.owner? i).map t.layout.zone := by
  rw [owner?, Option.map_map]
  rfl

theorem WellFormed.mem_owned (h : t.WellFormed) (hlists : ∀ i, t.Lists i) :
    i ∈ t.owned.get g ↔ t.owner? i = some g := by
  constructor
  · intro hi
    obtain ⟨s, hs, rfl⟩ := h.listed hi
    rw [owner?, hs]
    rfl
  · intro ho
    obtain ⟨s, hs, rfl⟩ := Option.map_eq_some_iff.1 ho
    exact hlists i s hs

theorem WellFormed.owner?_retag_all (h : t.WellFormed) {ids : List Nat}
    (hids : ∀ i ∈ ids, ∃ s, t.find? i = some s) {r : Except HeapError Unit}
    (hrun : (ids.forM fun i => SegmentTable.retag i owner) t = .ok (r, t')) (j : Nat) :
    t'.owner? j = (t.owner? j).map fun g => if j ∈ ids then owner else g := by
  induction ids generalizing t with
  | nil =>
    cases hrun
    simp
  | cons i ids ih =>
    obtain ⟨s, hs⟩ := hids i List.mem_cons_self
    change (SegmentTable.retag i owner >>= fun _ => ids.forM _) t = _ at hrun
    rw [Effect.bind_eq_ok] at hrun
    rcases hrun with ⟨_, t₁, hfirst, hrun⟩ | ⟨e, hfirst, _⟩
    · obtain ⟨_, hwf, hsame, _⟩ := h.retag hs hfirst
      have hstill : ∀ k ∈ ids, ∃ x, t₁.find? k = some x := by
        intro k hk
        obtain ⟨x, hx⟩ := hids k (List.mem_cons_of_mem _ hk)
        obtain ⟨_, hlive⟩ := hsame.live hx
        exact ⟨_, hlive⟩
      rw [ih hwf hstill hrun, owner?, h.find?_retag hs hfirst]
      by_cases hj : j = i
      · rw [hj, owner?, hs]
        simp
      · rw [if_neg hj, owner?]
        simp only [List.mem_cons, hj, false_or]
    · cases (h.retag hs hfirst).1

/-- All that a generation owns goes to another one. -/
theorem WellFormed.hand_over (h : t.WellFormed) (hlists : ∀ i, t.Lists i)
    {r : Except HeapError Unit}
    (hrun : ((t.owned.get g).forM fun i => SegmentTable.retag i owner) t = .ok (r, t')) :
    t'.WellFormed ∧ (∀ i, t'.Lists i) ∧
      ∀ i, t'.owner? i = (t.owner? i).map fun o => if o = g then owner else o := by
  have hlive : ∀ i ∈ t.owned.get g, ∃ s, t.find? i = some s := fun i hi =>
    (h.listed hi).imp fun _ hs => hs.1
  obtain ⟨_, hwf, hsame⟩ := h.retag_all hlive hrun
  refine ⟨hwf, fun i => hsame.lists i (hlists i), fun i => ?_⟩
  rw [h.owner?_retag_all hlive hrun]
  cases ho : t.owner? i with
  | none => rfl
  | some o => simp only [h.mem_owned hlists, ho, Option.some.injEq, Option.map_some]

/-- Promoting the regions makes all owners older that a collection makes older. -/
theorem WellFormed.owner?_promoteRegions (h : t.WellFormed) (hlists : ∀ i, t.Lists i)
    (hlayout : t.layout = .regions) {condemned : Generation} {r : Except HeapError Unit}
    (hrun : SegmentTable.promoteRegions condemned t = .ok (r, t')) (i : Nat) :
    t'.owner? i = (t.owner? i).map condemned.aged := by
  cases promoteRegions_cases hrun with
  | fixed hsegments => exact absurd hlayout hsegments
  | youngest _ hc hyoung =>
    obtain ⟨_, _, howner⟩ := h.hand_over hlists hyoung
    rw [howner]
    congr 1
    funext o
    rw [Generation.aged_eq]
    cases o <;> simp [hc]
  | stuck _ _ hmiddle =>
    have hlive : ∀ i ∈ t.owned.get .gen1, ∃ s, t.find? i = some s := fun i hi =>
      (h.listed hi).imp fun _ hs => hs.1
    cases (h.retag_all hlive hmiddle).1
  | both _ hc hmiddle hyoung =>
    obtain ⟨hwf, hlists₁, howner₁⟩ := h.hand_over hlists hmiddle
    obtain ⟨_, _, howner⟩ := hwf.hand_over hlists₁ hyoung
    rw [howner, howner₁, Option.map_map]
    congr 1
    funext o
    rw [Function.comp_apply, Generation.aged_eq]
    cases o <;> simp [hc]

theorem WellFormed.zones_promoteRegions (h : t.WellFormed) (hlists : ∀ i, t.Lists i)
    {condemned : Generation} {r : Except HeapError Unit}
    (hrun : SegmentTable.promoteRegions condemned t = .ok (r, t')) :
    Zones (t.layout.aged condemned) t t' := by
  cases hlayout : t.layout with
  | segments =>
    have hnot : t.layout ≠ .regions := by
      rw [hlayout]
      exact nofun
    cases promoteRegions_cases hrun with
    | fixed => exact .refl t
    | youngest hregions => exact absurd hregions hnot
    | stuck hregions => exact absurd hregions hnot
    | both hregions => exact absurd hregions hnot
  | regions =>
    obtain ⟨_, _, hsame⟩ := h.promoteRegions hrun
    obtain ⟨hlayout', _⟩ := regions_of_constants (constants_promoteRegions hrun) hlayout
    constructor
    · exact hlayout'.trans hlayout.symm
    · exact Nat.le_of_eq hsame.length_slots.symm
    · intro _ hsegments
      cases hlayout'.symm.trans hsegments
    · intro _ i _
      have hzone {t : SegmentTable} (ht : t.layout = .regions) : t.zone? i = t.owner? i := by
        rw [zone?_eq_owner?, ht]
        exact Option.map_id' ..
      rw [hzone hlayout', hzone hlayout]
      exact .inr (h.owner?_promoteRegions hlists hlayout hrun i)

/-! ## New segments -/

theorem zone?_append {x : AddressRange} {kind : SegmentKind} :
    (t.append owner x kind).zone? i =
      if i = t.slots.length then some (t.layout.zone owner) else t.zone? i := by
  rw [SegmentTable.zone?, find?_append]
  split <;> rfl

theorem length_append {x : AddressRange} {kind : SegmentKind} :
    (t.append owner x kind).slots.length = t.slots.length + 1 := by
  rw [append, List.length_append]
  rfl

/-- A new segment beside the ephemeral one. -/
theorem zones_beside {x : AddressRange} {kind : SegmentKind}
    (hold : t.usesEphemeral owner = false) :
    Zones id t ((t.append owner x kind).enlist t.slots.length owner) where
  layout := rfl
  length_le := Nat.le_of_lt (Nat.lt_of_lt_of_eq (Nat.lt_succ_self _) length_append.symm)
  tiered ht hlayout := by
    have hne {g : Generation} (hg : g.ephemeral = true) : g ≠ owner := by
      rintro rfl
      have huses : t.usesEphemeral g = true := Bool.and_eq_true_iff.2 ⟨beq_iff_eq.2 hlayout, hg⟩
      cases huses.symm.trans hold
    obtain ⟨hyoung, hmiddle⟩ := ht hlayout
    constructor
    · exact (PerGeneration.get_modify_of_ne _ _ (hne rfl)).trans hyoung
    · exact (PerGeneration.get_modify_of_ne _ _ (hne rfl)).trans hmiddle
  zone? _ {i} hi := by
    refine .inr (Eq.trans (b := (t.append owner x kind).zone? i) rfl ?_)
    rw [zone?_append, if_neg (Nat.ne_of_lt hi), Option.map_id_fun]
    rfl

end SegmentTable

namespace SegmentArena

open SegmentTable (Zones Tiered)

variable {a a' : SegmentArena} {range : AddressRange} {rest : List AddressRange} {s : Segment}
  {i size minimum : Nat} {g : Generation} {space : ObjectSpace}

/-- The segment that was the ephemeral one goes to the oldest generation, in whose zone it has been. -/
theorem Sound.tiers_replaceEphemeral (h : a.Sound range rest) (ht : a.table.Tiered)
    (hlayout : a.table.layout = .segments) (hs : a.table.find? i = some s)
    (hrun : SegmentArena.replaceEphemeral i a = .ok (.ok ⟨⟩, a')) :
    a'.table.owned.get .gen0 = [] ∧ a'.table.owned.get .gen1 = [] ∧
      ∀ j, a'.table.zone? j = a.table.zone? j := by
  obtain ⟨hyoung, hmiddle⟩ := ht hlayout
  obtain ⟨hp, -, rfl⟩ | ⟨previous, hp, hrun⟩ := replaceEphemeral_cases hrun
  · rw [hp] at hyoung
    exact ⟨hyoung, hmiddle, fun _ => rfl⟩
  · obtain ⟨table, hretag, rfl⟩ := onTable_eq_ok.1 hrun
    obtain ⟨x, hx, howner⟩ := ht.owner_of_ephemeral h.wellFormed hlayout hp
    have hfind := (h.wellFormed.withEphemeral hs).find?_retag (by exact hx) hretag
    have hconstants := congrArg SegmentTable.layout (SegmentTable.constants_retag hretag)
    have hlayout₂ : table.layout = a.table.layout := hconstants
    rcases (SegmentTable.retag_eq_ok (by exact hx) hretag).2 with ⟨he, _⟩ | ⟨_, rfl⟩
    · cases howner.symm.trans he
    rw [hp] at hyoung
    refine ⟨?_, ?_, fun j => ?_⟩
    · show ((a.table.owned.modify x.owner _).modify .gen2 _).get .gen0 = []
      rw [PerGeneration.get_modify_of_ne _ _ (by decide), howner, PerGeneration.get_modify_self,
        hyoung]
      simp
    · show ((a.table.owned.modify x.owner _).modify .gen2 _).get .gen1 = []
      rw [PerGeneration.get_modify_of_ne _ _ (by decide), howner,
        PerGeneration.get_modify_of_ne _ _ (by decide), hmiddle]
    · rw [SegmentTable.zone?, hfind, hlayout₂]
      split
      next hj =>
        rw [hj, SegmentTable.zone?_of_find? hx, howner, hlayout]
        rfl
      next => rfl

/-- A new ephemeral segment. -/
theorem Sound.zones_replacing {x : AddressRange} {kind : SegmentKind}
    (h : Sound { a with table := a.table.append .gen0 x kind } range rest)
    (hlayout : a.table.layout = .segments)
    (hrun : SegmentArena.replaceEphemeral a.table.slots.length
      { a with table := a.table.append .gen0 x kind } = .ok (.ok ⟨⟩, a')) :
    Zones id a.table (a'.table.enlist a.table.slots.length .gen0) ∧
      (a.table.Tiered → a'.table.zone? a.table.slots.length = some (a.table.layout.zone .gen0)) := by
  have hlive := find?_append_self a.table .gen0 x kind
  obtain ⟨_, _, hsame, _⟩ := h.replaceEphemeral hlive hrun
  obtain ⟨hconstants, _⟩ := conforms_replaceEphemeral (by exact hlayout) hrun
  have htiers (ht : a.table.Tiered) :=
    h.tiers_replaceEphemeral (by exact ht) (by exact hlayout) hlive hrun
  refine ⟨⟨?_, ?_, ?_, ?_⟩, fun ht => ?_⟩
  · have hsegments := congrArg SegmentTable.layout hconstants
    exact hsegments
  · show a.table.slots.length ≤ a'.table.slots.length
    rw [hsame.length_slots]
    exact Nat.le_of_lt (Nat.lt_of_lt_of_eq (Nat.lt_succ_self _) SegmentTable.length_append.symm)
  · intro ht _
    obtain ⟨hyoung, hmiddle, _⟩ := htiers ht
    constructor
    · show (a'.table.owned.modify .gen0 _).get .gen0 = a'.table.ephemeral.toList
      rw [PerGeneration.get_modify_self, hyoung, hsame.ephemeral]
      rfl
    · show (a'.table.owned.modify .gen0 _).get .gen1 = []
      rw [PerGeneration.get_modify_of_ne _ _ (by decide), hmiddle]
  · intro ht i hi
    obtain ⟨_, _, hzones⟩ := htiers ht
    refine .inr (Eq.trans (b := a'.table.zone? i) rfl ?_)
    rw [hzones, SegmentTable.zone?_append, if_neg (Nat.ne_of_lt hi), Option.map_id_fun]
    rfl
  · obtain ⟨_, _, hzones⟩ := htiers ht
    rw [hzones, SegmentTable.zone?_append, if_pos rfl]

/-- Growing leaves the zones of all segments; the new one is of the zone that it was made for. -/
theorem Sound.zones_grow (h : a.Sound range rest) {r : Except HeapError Growth}
    (hrun : SegmentArena.grow g minimum a = .ok (r, a')) : Zones id a.table a'.table ∧
      ∀ growth, r = .ok growth → a.table.Tiered →
        a'.table.zone? growth.segment = some (a.table.layout.zone g) := by
  have hacquired {size : Nat} {x : AddressRange} {kind : SegmentKind} {reused : Bool}
      {a₁ : SegmentArena} (hacquire : SegmentArena.acquire size a = .ok (.ok (x, kind, reused), a₁)) :
      Acquired a a₁ range x rest size ∧ Zones id a.table a₁.table ∧
        a₁.table.layout = a.table.layout := by
    rcases h.acquire hacquire with ⟨_, _, _, he, hx⟩ | ⟨_, he, _⟩
    · cases he
      obtain ⟨pool, htable⟩ := hx.table
      rw [htable]
      exact ⟨hx, .of_same rfl rfl rfl rfl fun _ => rfl, rfl⟩
    · cases he
  have hzone := a.table.zone_newOwner g
  cases grow_cases hrun with
  | without _ hacquire =>
    rcases h.acquire hacquire with ⟨_, _, _, he, _⟩ | ⟨_, _, _, htable⟩
    · cases he
    · rw [htable]
      exact ⟨.refl a.table, nofun⟩
  | beside _ hacquire hold =>
    obtain ⟨_, hz, hlayout⟩ := hacquired hacquire
    refine ⟨hz.trans (SegmentTable.zones_beside hold), ?_⟩
    rintro _ ⟨rfl⟩ _
    refine Eq.trans SegmentTable.zone?_append ?_
    rw [if_pos rfl, hlayout, hzone]
  | replacing _ hacquire hyoung hreplace =>
    obtain ⟨hx, hz, hlayout⟩ := hacquired hacquire
    obtain ⟨hsegments, _⟩ := SegmentTable.layout_of_usesEphemeral hyoung
    rw [SegmentTable.newOwner_of_usesEphemeral hlayout hyoung] at hreplace hzone ⊢
    obtain ⟨hz', hnew⟩ := (hx.append _ _).zones_replacing hsegments hreplace
    refine ⟨hz.trans hz', ?_⟩
    rintro _ ⟨rfl⟩ ht
    refine Eq.trans (hnew (hz.tiered ht)) ?_
    rw [hlayout, hzone]
  | stuck _ hacquire _ hreplace =>
    obtain ⟨hx, _⟩ := hacquired hacquire
    cases ((hx.append _ _).replaceEphemeral (find?_append_self ..) hreplace).1

end SegmentArena

end GenHeap
