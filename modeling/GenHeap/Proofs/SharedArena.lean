import GenHeap.Proofs.SegmentArena

/-!
Several heaps that take the memory of their segments from one provider. Whatever they do in turn,
each range is in one place: with a live segment, in the pool of a heap, in a hole of the provider or
in the part of its address space that was never reserved.
-/

namespace GenHeap

open AddressRange (Apart Encloses)

/-- What a heap does with its segments. -/
inductive ArenaOperation where
  | grow (g : Generation) (minimum : Nat)
  | bump (id size : Nat)
  | retag (id : Nat) (owner : Generation)
  | promoteRegions (condemned : Generation)
  | decommitIfEmpty (id : Nat) (space : ObjectSpace)
  | releaseAll

namespace ArenaOperation

def apply (a : SegmentArena) : ArenaOperation → Checked SegmentArena
  | grow g minimum => (SegmentArena.grow g minimum).after a
  | bump id size => (SegmentArena.bump id size).after a
  | retag id owner => (SegmentArena.onTable (SegmentTable.retag id owner)).after a
  | promoteRegions condemned =>
    (SegmentArena.onTable (SegmentTable.promoteRegions condemned)).after a
  | decommitIfEmpty id space => (SegmentArena.decommitIfEmpty id space).after a
  | releaseAll => SegmentArena.releaseAll.after a

/-- Whether an operation moves the allocation pointer of a segment. -/
def Bumps (op : ArenaOperation) (id : Nat) : Prop := ∃ size, op = bump id size

end ArenaOperation

namespace SegmentTable

/-- Two tables between which no segment changes but for its owner, except those that are bumped.
Segments may go, but no identifier comes back. -/
structure Carries (bumped : Nat → Prop) (t t' : SegmentTable) : Prop where
  lists : (∀ i, t.Lists i) → ∀ i, t'.Lists i
  length_le : t.slots.length ≤ t'.slots.length
  back : ∀ {i s'}, ¬ bumped i → t'.find? i = some s' →
    t.slots.length ≤ i ∨ ∃ s g, t.find? i = some s ∧ s' = { s with owner := g }

/-- While segment `id` lives, it has `size` bytes behind its allocation pointer. -/
structure Roomy (t : SegmentTable) (id size : Nat) : Prop where
  made : id < t.slots.length
  room : ∀ {s}, t.find? id = some s → s.allocated + size ≤ s.range.start + s.range.size

variable {bumped : Nat → Prop} {t t' : SegmentTable} {s s' : Segment} {id size : Nat}

theorem Carries.of_extends (h : SegmentArena.Extends t t') : Carries bumped t t' where
  lists := h.lists
  length_le := h.length_le
  back _ hs' := (h.back hs').imp And.left fun h => h

theorem Carries.refl (t : SegmentTable) : Carries bumped t t := .of_extends (.refl t)

theorem Carries.roomy (h : Carries bumped t t') (hr : t.Roomy id size) (hb : ¬ bumped id) :
    t'.Roomy id size where
  made := Nat.lt_of_lt_of_le hr.made h.length_le
  room hs' := by
    rcases h.back hb hs' with hle | ⟨s, g, hs, rfl⟩
    · exact absurd hr.made (Nat.not_lt_of_le hle)
    · have hroom := hr.room hs
      exact hroom

theorem WellFormed.lists_put (h : t.WellFormed) (hs : t.find? id = some s) (hid : s'.id = s.id)
    (howner : s'.owner = s.owner) (hlists : ∀ i, t.Lists i) (i : Nat) : (t.put s').Lists i := by
  cases h.ids hs
  intro q hq
  rw [find?_put (hid ▸ hs)] at hq
  split at hq
  next hi =>
    cases hq
    rw [hi, hid, howner]
    exact hlists s.id s hs
  next => exact hlists i q hq

theorem WellFormed.carries_put (h : t.WellFormed) (hs : t.find? id = some s) (hb : bumped id)
    (committed allocated : Nat) : Carries bumped t (t.put { s with committed, allocated }) := by
  refine ⟨h.lists_put hs rfl rfl, Nat.le_of_eq (List.length_set ..).symm, fun {j s'} hne hs' => ?_⟩
  cases h.ids hs
  have hput : t.find? ({ s with committed, allocated } : Segment).id = some s := hs
  rw [find?_put hput] at hs'
  split at hs'
  next hj =>
    cases hj
    exact absurd hb hne
  next => exact .inr ⟨s', s'.owner, hs', rfl⟩

end SegmentTable

namespace ArenaOperation

open SegmentTable (Carries)

variable {op : ArenaOperation} {a a' : SegmentArena} {range : AddressRange}
  {rest : List AddressRange}

/-- Every operation keeps the books and carries the segments on. -/
theorem apply_eq_ok (h : a.Sound range rest) (hrun : op.apply a = .ok a') :
    a'.Sound range rest ∧ Carries op.Bumps a.table a'.table := by
  cases op with
  | grow g minimum =>
    obtain ⟨r, hrun⟩ := Transition.after_eq_ok.1 hrun
    obtain ⟨hsound, hext, _⟩ := h.grow hrun
    exact ⟨hsound, .of_extends hext⟩
  | bump id size =>
    obtain ⟨r, hrun⟩ := Transition.after_eq_ok.1 hrun
    obtain ⟨hsound, ⟨s, committed, hs, _, htable⟩ | ⟨_, htable, _⟩ | ⟨_, _, htable⟩⟩ := h.bump hrun
    · rw [htable]
      exact ⟨hsound, h.wellFormed.carries_put hs ⟨size, rfl⟩ ..⟩
    · rw [htable]
      exact ⟨hsound, .refl a.table⟩
    · rw [htable]
      exact ⟨hsound, .refl a.table⟩
  | retag id owner =>
    obtain ⟨r, hrun⟩ := Transition.after_eq_ok.1 hrun
    obtain ⟨table, hretag, rfl⟩ := SegmentArena.onTable_eq_ok.1 hrun
    cases hs : a.table.find? id with
    | none =>
      cases SegmentTable.retag_of_find?_eq_none hs hretag
      exact ⟨h, .refl a.table⟩
    | some s =>
      obtain ⟨_, hwf, hsame, _⟩ := h.wellFormed.retag hs hretag
      exact ⟨h.of_sameButOwners hwf hsame, .of_extends (.of_sameButOwners hsame)⟩
  | promoteRegions condemned =>
    obtain ⟨r, hrun⟩ := Transition.after_eq_ok.1 hrun
    obtain ⟨table, hpromote, rfl⟩ := SegmentArena.onTable_eq_ok.1 hrun
    obtain ⟨_, hwf, hsame⟩ := h.wellFormed.promoteRegions hpromote
    exact ⟨h.of_sameButOwners hwf hsame, .of_extends (.of_sameButOwners hsame)⟩
  | decommitIfEmpty id space =>
    obtain ⟨r, hrun⟩ := Transition.after_eq_ok.1 hrun
    cases hs : a.table.find? id with
    | none =>
      cases SegmentArena.decommitIfEmpty_of_find?_eq_none hs hrun
      exact ⟨h, .refl a.table⟩
    | some s =>
      obtain ⟨_, hsound, ⟨htable, _⟩ | ⟨_, hv⟩⟩ := h.decommitIfEmpty hs hrun
      · rw [htable]
        exact ⟨hsound, .refl a.table⟩
      · refine ⟨hsound, fun hlists i q hq => ?_, Nat.le_of_eq hv.length_slots.symm,
          fun _ hs' => ?_⟩
        · rw [hv.find?] at hq
          split at hq
          · cases hq
          next hne =>
            rw [hv.owned]
            exact SegmentTable.mem_owned_delist.2 ⟨hlists i q hq, fun _ => hne⟩
        · rw [hv.find?] at hs'
          split at hs'
          · cases hs'
          · exact .inr ⟨_, _, hs', rfl⟩
  | releaseAll =>
    obtain ⟨r, hrun⟩ := Transition.after_eq_ok.1 hrun
    obtain ⟨_, hsound, hnone, hlength⟩ := h.releaseAll hrun
    refine ⟨hsound, fun _ i q hq => ?_, Nat.le_of_eq hlength.symm, fun _ hs' => ?_⟩
    · exact absurd ((hnone i).symm.trans hq) nofun
    · exact absurd ((hnone _).symm.trans hs') nofun

theorem lists (op : ArenaOperation) (h : a.Sound range rest) (hrun : op.apply a = .ok a') :
    (∀ i, a.table.Lists i) → ∀ i, a'.table.Lists i :=
  (apply_eq_ok h hrun).2.lists

end ArenaOperation

theorem perm_set_cons_eraseIdx {α : Type} {l : List α} {i : Nat} (h : i < l.length) (x : α) :
    (l.set i x).Perm (x :: l.eraseIdx i) := by
  induction l generalizing i with
  | nil => cases h
  | cons y l ih =>
    cases i with
    | zero => exact .refl _
    | succ i => exact ((ih (Nat.lt_of_succ_lt_succ h)).cons y).trans (List.Perm.swap ..)

/-- The range from the untouched end of an address space on. -/
def AddressSpace.untouched (s : AddressSpace) : AddressRange :=
  ⟨s.next, s.range.start + s.range.size - s.next⟩

/-- With the untouched end, the ranges that are taken and the holes still share no address. -/
theorem AddressSpace.Exclusive.untouched {s : AddressSpace} {taken : List AddressRange}
    (h : s.Exclusive taken) :
    (taken ++ s.holes ++ [s.untouched]).Pairwise Apart ∧
      ∀ r ∈ taken ++ s.holes ++ [s.untouched], s.range.Encloses r := by
  have hnext := h.next_le
  have hstart := h.start_le_next
  constructor
  · rw [List.pairwise_append]
    refine ⟨h.apart, List.pairwise_singleton .., fun r hr q hq => ?_⟩
    cases List.mem_singleton.1 hq
    exact .inl (h.inside r hr).stop_le_next
  · intro r hr
    rcases List.mem_append.1 hr with hr | hr
    · exact (h.inside r hr).encloses
    · cases List.mem_singleton.1 hr
      refine ⟨hstart, ?_⟩
      show s.next + (s.range.start + s.range.size - s.next) ≤ _
      omega

/-- The segments of several heaps over one provider. -/
structure SharedArena where
  provider : Provider
  /-- the segments of each heap -/
  tables : List SegmentTable

/-- One heap does something, or the provider starts or stops refusing. -/
inductive SharedOperation where
  | on (heap : Nat) (op : ArenaOperation)
  | limitCommits (limit : Option Nat)
  | failNext (reserves commits : Nat)

/-- Whether an operation moves the allocation pointer of a segment of a heap. -/
def SharedOperation.Bumps (op : SharedOperation) (heap id : Nat) : Prop :=
  ∃ size, op = .on heap (.bump id size)

namespace SharedArena

def ofConfigs (range : AddressRange) (configs : List Config) : SharedArena where
  provider := .ofRange range
  tables := configs.map SegmentTable.ofConfig

/-- The arena of a heap, with the provider of all. -/
def arena? (s : SharedArena) (i : Nat) : Option SegmentArena :=
  s.tables[i]?.map ({ table := ·, provider := s.provider })

def withArena (s : SharedArena) (i : Nat) (a : SegmentArena) : SharedArena where
  provider := a.provider
  tables := s.tables.set i a.table

def onSpace (s : SharedArena) (f : AddressSpace → AddressSpace) : SharedArena :=
  { s with provider := { s.provider with space := f s.provider.space } }

def apply (s : SharedArena) : SharedOperation → Checked SharedArena
  | .on i op =>
    match s.arena? i with
    | none => .ok s
    | some a => do return s.withArena i (← op.apply a)
  | .limitCommits limit => .ok (s.onSpace fun space => { space with commitLimit := limit })
  | .failNext reserves commits => .ok (s.onSpace fun space =>
      { space with failingReserves := reserves, failingCommits := commits })

def run (s : SharedArena) (ops : List SharedOperation) : Checked SharedArena := ops.foldlM apply s

/-- The states to which heaps on a provider for `range` can come. -/
inductive Reachable (range : AddressRange) : SharedArena → Prop where
  | start (configs : List Config) : Reachable range (ofConfigs range configs)
  | step {s s' : SharedArena} (op : SharedOperation) (hr : Reachable range s)
    (hrun : s.apply op = .ok s') : Reachable range s'

/-- The ranges of all segments and pools, the holes and the untouched end. -/
def ranges (s : SharedArena) : List AddressRange :=
  s.tables.flatMap SegmentTable.holdings ++ s.provider.space.holes ++ [s.provider.space.untouched]

structure Sound (s : SharedArena) (range : AddressRange) : Prop where
  serves : s.provider.Serves (s.tables.flatMap SegmentTable.holdings)
  range_eq : s.provider.space.range = range
  wellFormed : ∀ t ∈ s.tables, t.WellFormed
  lists : ∀ t ∈ s.tables, ∀ i, t.Lists i

variable {s s' : SharedArena} {a a' : SegmentArena} {t t' : SegmentTable} {range : AddressRange}
  {i : Nat}

theorem arena?_eq_some :
    s.arena? i = some a ↔ s.tables[i]? = some a.table ∧ a.provider = s.provider := by
  unfold arena?
  rw [Option.map_eq_some_iff]
  constructor
  · rintro ⟨t, ht, rfl⟩
    exact ⟨ht, rfl⟩
  · rintro ⟨ht, hp⟩
    exact ⟨a.table, ht, hp ▸ rfl⟩

/-- The ranges of the other heaps. -/
def others (s : SharedArena) (i : Nat) : List AddressRange :=
  (s.tables.eraseIdx i).flatMap SegmentTable.holdings

theorem perm_holdings (ht : s.tables[i]? = some t) :
    (s.tables.flatMap SegmentTable.holdings).Perm (t.holdings ++ s.others i) := by
  obtain ⟨hlt, rfl⟩ := List.getElem?_eq_some_iff.1 ht
  have hperm := perm_set_cons_eraseIdx hlt s.tables[i]
  rw [List.set_getElem_self] at hperm
  exact hperm.flatMap_right _

theorem perm_holdings_withArena (ht : s.tables[i]? = some t) :
    ((s.withArena i a).tables.flatMap SegmentTable.holdings).Perm
      (a.table.holdings ++ s.others i) :=
  (perm_set_cons_eraseIdx (List.getElem?_eq_some_iff.1 ht).1 a.table).flatMap_right _

theorem Sound.arena (h : s.Sound range) (ha : s.arena? i = some a) :
    a.Sound range (s.others i) := by
  obtain ⟨ht, hp⟩ := arena?_eq_some.1 ha
  exact ⟨h.wellFormed _ (List.mem_of_getElem? ht), hp ▸ h.serves.perm (perm_holdings ht),
    hp ▸ h.range_eq⟩

theorem Sound.withArena (h : s.Sound range) (ha : s.arena? i = some a)
    (ha' : a'.Sound range (s.others i)) (hlists : ∀ x, a'.table.Lists x) :
    (s.withArena i a').Sound range where
  serves := ha'.serves.perm (perm_holdings_withArena (arena?_eq_some.1 ha).1).symm
  range_eq := ha'.range_eq
  wellFormed t ht := (List.mem_or_eq_of_mem_set ht).elim (h.wellFormed t) (· ▸ ha'.wellFormed)
  lists t ht := (List.mem_or_eq_of_mem_set ht).elim (h.lists t) (· ▸ hlists)

theorem Sound.onSpace (h : s.Sound range) {f : AddressSpace → AddressSpace}
    (hrange : (f s.provider.space).range = s.provider.space.range)
    (hnext : (f s.provider.space).next = s.provider.space.next)
    (hholes : (f s.provider.space).holes = s.provider.space.holes) : (s.onSpace f).Sound range :=
  ⟨⟨h.serves.exclusive.of_same hrange hnext hholes, h.serves.decommits, h.serves.releases⟩,
    hrange.trans h.range_eq, h.wellFormed, h.lists⟩

/-- One operation on the heaps, and what it does to each of their tables. -/
theorem Sound.apply_eq_ok (h : s.Sound range) {op : SharedOperation} (hrun : s.apply op = .ok s') :
    s'.Sound range ∧ ∀ {i t'}, s'.tables[i]? = some t' → ∃ t, s.tables[i]? = some t ∧
      SegmentTable.Carries (op.Bumps i) t t' := by
  have hsame (f : AddressSpace → AddressSpace) {i : Nat} {t' : SegmentTable}
      (ht' : (s.onSpace f).tables[i]? = some t') : ∃ t, s.tables[i]? = some t ∧
        SegmentTable.Carries (op.Bumps i) t t' := ⟨t', ht', .refl t'⟩
  cases op with
  | on j op =>
    simp only [SharedArena.apply] at hrun
    cases ha : s.arena? j with
    | none =>
      simp only [ha] at hrun
      cases hrun
      exact ⟨h, fun {_ t'} ht' => ⟨t', ht', .refl t'⟩⟩
    | some a =>
      simp only [ha, Checked.bind_eq_ok, Checked.pure_eq_ok] at hrun
      obtain ⟨a', hrun, rfl⟩ := hrun
      obtain ⟨ha', hcarries⟩ := ArenaOperation.apply_eq_ok (h.arena ha) hrun
      obtain ⟨ht, _⟩ := arena?_eq_some.1 ha
      refine ⟨h.withArena ha ha' (hcarries.lists (h.lists _ (List.mem_of_getElem? ht))), ?_⟩
      intro i t' ht'
      have hset : (s.tables.set j a'.table)[i]? = some t' := ht'
      rw [List.getElem?_set, if_pos (List.getElem?_eq_some_iff.1 ht).1] at hset
      split at hset
      next hij =>
        cases hij
        cases hset
        refine ⟨a.table, ht, hcarries.lists, hcarries.length_le, fun hb => hcarries.back ?_⟩
        rintro ⟨size, rfl⟩
        exact hb ⟨size, rfl⟩
      next => exact ⟨t', hset, .refl t'⟩
  | limitCommits limit =>
    cases hrun
    exact ⟨h.onSpace rfl rfl rfl, hsame _⟩
  | failNext reserves commits =>
    cases hrun
    exact ⟨h.onSpace rfl rfl rfl, hsame _⟩

theorem Reachable.sound (hs : Reachable range s) : s.Sound range := by
  induction hs with
  | start configs =>
    have hempty : ∀ t ∈ configs.map SegmentTable.ofConfig, ∃ c, t = .ofConfig c := by
      intro t ht
      obtain ⟨c, _, rfl⟩ := List.mem_map.1 ht
      exact ⟨c, rfl⟩
    refine ⟨?_, rfl, ?_, ?_⟩
    · have hnil : (configs.map SegmentTable.ofConfig).flatMap SegmentTable.holdings = [] := by
        rw [List.flatMap_eq_nil_iff]
        intro t ht
        obtain ⟨c, rfl⟩ := hempty t ht
        rfl
      exact hnil.symm ▸ Provider.serves_ofRange range
    · intro t ht
      obtain ⟨c, rfl⟩ := hempty t ht
      exact SegmentTable.wellFormed_ofConfig c
    · intro t ht i q hq
      obtain ⟨c, rfl⟩ := hempty t ht
      rw [SegmentTable.find?_ofConfig] at hq
      cases hq
  | step op _ hrun ih => exact (ih.apply_eq_ok hrun).1

theorem Reachable.run {ops : List SharedOperation} (hs : Reachable range s)
    (hrun : s.run ops = .ok s') : Reachable range s' :=
  Checked.foldlM_induct (Reachable range) (fun _ op _ _ hx hstep => .step op hx hstep) hs hrun

/-- Room for a block stays until the segment is bumped. -/
theorem Sound.roomy_run (h : s.Sound range) {id size : Nat} {ops : List SharedOperation}
    (hroom : ∀ {t}, s.tables[i]? = some t → t.Roomy id size)
    (hbump : ∀ op ∈ ops, ¬ op.Bumps i id) (hrun : s.run ops = .ok s') :
    s'.Sound range ∧ ∀ {t'}, s'.tables[i]? = some t' → t'.Roomy id size := by
  have hstep (x : SharedArena) (op : SharedOperation) (x' : SharedArena) (hop : op ∈ ops)
      (hx : x.Sound range ∧ ∀ {t}, x.tables[i]? = some t → t.Roomy id size)
      (hrun : x.apply op = .ok x') :
      x'.Sound range ∧ ∀ {t'}, x'.tables[i]? = some t' → t'.Roomy id size := by
    obtain ⟨hx', hcarries⟩ := hx.1.apply_eq_ok hrun
    refine ⟨hx', fun ht' => ?_⟩
    obtain ⟨t, ht, hc⟩ := hcarries ht'
    exact hc.roomy (hx.2 ht) (hbump op hop)
  exact Checked.foldlM_induct
    (fun x => x.Sound range ∧ ∀ {t}, x.tables[i]? = some t → t.Roomy id size)
    hstep ⟨h, hroom⟩ hrun

/-- The first block of a new segment fits, if it is no larger than what was asked for. -/
theorem Sound.bump_grown (h : s.Sound range) (ha : s.arena? i = some a) {g : Generation}
    {minimum : Nat} {growth : Growth} (hgrow : SegmentArena.grow g minimum a = .ok (.ok growth, a'))
    {ops : List SharedOperation} (hbump : ∀ op ∈ ops, ¬ op.Bumps i growth.segment)
    (hrun : (s.withArena i a').run ops = .ok s') {b b' : SegmentArena} (hb : s'.arena? i = some b) :
    SegmentArena.bump growth.segment minimum b ≠ .ok (.ok none, b') := by
  obtain ⟨ha', hext, hnew⟩ := (h.arena ha).grow hgrow
  rcases hnew with ⟨_, hr, _, q, hq, hempty, hroom⟩ | ⟨e, he, _⟩
  · cases hr
    obtain ⟨ht, _⟩ := arena?_eq_some.1 ha
    have hlists := hext.lists (h.lists _ (List.mem_of_getElem? ht))
    have hroomy {t : SegmentTable} (ht' : (s.withArena i a').tables[i]? = some t) :
        t.Roomy growth.segment minimum := by
      have hset : (s.tables.set i a'.table)[i]? = some t := ht'
      rw [List.getElem?_set_self (List.getElem?_eq_some_iff.1 ht).1] at hset
      cases hset
      refine ⟨SegmentTable.find?_lt hq, fun hq' => ?_⟩
      cases hq.symm.trans hq'
      rw [hempty]
      exact Nat.add_le_add_left hroom _
    obtain ⟨h', hroomy'⟩ := (h.withArena ha ha' hlists).roomy_run hroomy hbump hrun
    intro hnone
    rcases ((h'.arena hb).bump hnone).2 with ⟨_, _, _, he, _⟩ | ⟨_, _, q', hq', hfull⟩ | ⟨_, he, _⟩
    · cases he
    · have := (hroomy' (arena?_eq_some.1 hb).1).room hq'
      omega
    · cases he
  · cases he

/-- Every range is in one place. Lists of owners are exact. A new segment has room for what was asked
for until it is bumped, and without a new segment the heap is as before. -/
theorem ownership_exclusive (hs : Reachable range s) :
    s.ranges.Pairwise Apart ∧ (∀ r ∈ s.ranges, range.Encloses r) ∧
    (∀ t ∈ s.tables, ∀ g, (t.owned.get g).Nodup ∧
      ∀ id, id ∈ t.owned.get g ↔ ∃ q, t.find? id = some q ∧ q.owner = g) ∧
    ∀ i a g minimum r a', s.arena? i = some a →
      SegmentArena.grow g minimum a = .ok (r, a') → match r with
        | .error _ => a'.table = a.table
        | .ok growth => a.table.find? growth.segment = none ∧
          (∃ q, a'.table.find? growth.segment = some q ∧ minimum ≤ q.range.size) ∧
          ∀ ops s' b b', (∀ op ∈ ops, ¬ op.Bumps i growth.segment) →
            (s.withArena i a').run ops = .ok s' → s'.arena? i = some b →
            SegmentArena.bump growth.segment minimum b ≠ .ok (.ok none, b') := by
  have h := hs.sound
  have hrange := h.range_eq
  obtain ⟨hapart, hinside⟩ := h.serves.exclusive.untouched
  refine ⟨hapart, hrange ▸ hinside, fun t ht g => ⟨(h.wellFormed t ht).nodup g, fun id => ?_⟩, ?_⟩
  · constructor
    · exact (h.wellFormed t ht).listed
    · rintro ⟨q, hq, rfl⟩
      exact h.lists t ht id q hq
  · intro i a g minimum r a' ha hgrow
    obtain ⟨ha', hext, hnew⟩ := (h.arena ha).grow hgrow
    rcases hnew with ⟨growth, rfl, hfresh, q, hq, hempty, hroom⟩ | ⟨e, rfl, htable⟩
    · exact ⟨hfresh, ⟨q, hq, hroom⟩, fun ops s' b b' hbump hrun hb =>
        h.bump_grown ha hgrow hbump hrun hb⟩
    · exact htable

/-- A region waits in the pool of the first heap, and a larger range of it became a hole; the second
heap has replaced its ephemeral segment. -/
theorem ownership_exclusive_pooled : ∃ s, Reachable ⟨4096, 65536⟩ s ∧
    s.ranges = [⟨4096, 4096⟩, ⟨24576, 4096⟩, ⟨8192, 8192⟩, ⟨28672, 8192⟩, ⟨16384, 8192⟩,
      ⟨36864, 32768⟩] ∧ s.ranges.Pairwise Apart ∧ (∀ r ∈ s.ranges, Encloses ⟨4096, 65536⟩ r) ∧
    ∀ t ∈ s.tables, ∀ g, (t.owned.get g).Nodup ∧
      ∀ id, id ∈ t.owned.get g ↔ ∃ q, t.find? id = some q ∧ q.owner = g := by
  have hleads : ((ofConfigs ⟨4096, 65536⟩ [
        { layout := .regions, regionSize := 4096, commitGranularity := 4096 },
        { initialSegmentSize := 8192, maxSegmentSize := 8192, commitGranularity := 4096 }]).run [
      .on 0 (.grow .gen0 24), .on 1 (.grow .gen0 100), .on 0 (.grow .large 8000),
      .on 0 (.grow .gen1 24), .on 0 (.bump 1 24), .on 1 (.grow .gen1 4096),
      .on 0 (.decommitIfEmpty 1 {}), .on 0 (.promoteRegions .gen2),
      .on 0 (.decommitIfEmpty 2 {})]).toOption.any (fun s => s.ranges = [⟨4096, 4096⟩,
      ⟨24576, 4096⟩, ⟨8192, 8192⟩, ⟨28672, 8192⟩, ⟨16384, 8192⟩, ⟨36864, 32768⟩]) = true := by
    decide +kernel
  obtain ⟨s, hrun, hranges⟩ := Checked.of_any hleads
  have hs := (Reachable.start _).run hrun
  obtain ⟨hapart, hinside, hlists, _⟩ := ownership_exclusive hs
  exact ⟨s, hs, of_decide_eq_true hranges, hapart, hinside, hlists⟩

end SharedArena

end GenHeap
