import GenHeap.Proofs.HousedCompaction

/-!
One heap's segments with the objects in them, under allocation from free spans and behind the
pointer, sweeping, compaction and changes of owners. No address is handed out while it is in use.
-/

namespace GenHeap

structure SegmentedSpace where
  arena : SegmentArena
  space : ObjectSpace := {}
  sweeper : Sweeper := {}

/-- Where the block of a new object is taken from. -/
inductive BlockSource where
  | freeSpans
  | pointer
  deriving DecidableEq, Repr

/-- Steps of an allocator. `place` puts an object into the block it gets from a segment, if it gets
one; `compact` plans for the segments to keep compact. -/
inductive SegmentedOperation where
  | grow (g : Generation) (minimum : Nat)
  | place (source : BlockSource) (id : Nat) (r : Record)
  | sweep (dead : Nat → Record → Bool)
  | compact (planned : Segment → Bool) (movable : Nat → Record → Bool)
  | retag (id : Nat) (owner : Generation)
  | promoteRegions (condemned : Generation)
  | decommitIfEmpty (id : Nat)
  | limitCommits (limit : Option Nat)
  | failNext (reserves commits : Nat)

/-- Objects are placed in blocks of their size, which is no smaller than the least one. -/
def SegmentedOperation.Sized : SegmentedOperation → Prop
  | .place _ _ r => Object.minBytes ≤ r.size
  | _ => True

namespace SegmentArena

/-- A block of a segment, if it has one. -/
def block? (a : SegmentArena) (id size : Nat) : BlockSource → Checked (Option Nat × SegmentArena)
  | .freeSpans => do
    let (found, table) ← a.table.takeFree id size
    return (found, { a with table })
  | .pointer => do
    let (r, a) ← (bump id size).apply a
    return (r.toOption.join, a)

end SegmentArena

namespace SegmentedSpace

def ofConfig (range : AddressRange) (c : Config) : SegmentedSpace where
  arena := { table := .ofConfig c, provider := .ofRange range }

def onArena {α : Type} (t : Transition SegmentArena α) (s : SegmentedSpace) :
    Checked SegmentedSpace := do
  return { s with arena := ← t.after s.arena }

def onSpace (s : SegmentedSpace) (f : AddressSpace → AddressSpace) : SegmentedSpace :=
  { s with arena.provider.space := f s.arena.provider.space }

def rebuild (s : SegmentedSpace) : Checked SegmentedSpace := do
  return { s with arena.table := ← s.arena.table.rebuild s.space }

def place (s : SegmentedSpace) (source : BlockSource) (id : Nat) (r : Record) :
    Checked SegmentedSpace := do
  let (found, arena) ← s.arena.block? id r.size source
  match found with
  | none => return { s with arena }
  | some a => return { s with arena, space := ← s.space.insert a { r with segment := id } }

def sweep (s : SegmentedSpace) (dead : Nat → Record → Bool) : Checked SegmentedSpace :=
  let (_, sweeper, space) := s.sweeper.sweep s.space dead
  rebuild { s with sweeper, space }

def compact (s : SegmentedSpace) (planned : Segment → Bool) (movable : Nat → Record → Bool) :
    Checked SegmentedSpace := do
  let plan ← (s.arena.table.segments.filter planned).foldlM
    (fun p x => CompactionPlan.addSegment p x s.space movable) {}
  rebuild { s with space := ← plan.apply s.space }

def apply (s : SegmentedSpace) : SegmentedOperation → Checked SegmentedSpace
  | .grow g minimum => s.onArena (SegmentArena.grow g minimum)
  | .place source id r => s.place source id r
  | .sweep dead => s.sweep dead
  | .compact planned movable => s.compact planned movable
  | .retag id owner => s.onArena (SegmentArena.onTable (SegmentTable.retag id owner))
  | .promoteRegions condemned =>
    s.onArena (SegmentArena.onTable (SegmentTable.promoteRegions condemned))
  | .decommitIfEmpty id => s.onArena (SegmentArena.decommitIfEmpty id s.space)
  | .limitCommits limit => .ok (s.onSpace fun space => { space with commitLimit := limit })
  | .failNext reserves commits => .ok (s.onSpace fun space =>
      { space with failingReserves := reserves, failingCommits := commits })

def run (s : SegmentedSpace) (ops : List SegmentedOperation) : Checked SegmentedSpace :=
  ops.foldlM apply s

inductive Reachable : SegmentedSpace → Prop where
  | start (range : AddressRange) (c : Config) : Reachable (ofConfig range c)
  | step {s s' : SegmentedSpace} (op : SegmentedOperation) (hr : Reachable s) (hop : op.Sized)
    (hrun : s.apply op = .ok s') : Reachable s'

/-- The one table with its provider. -/
def shared (s : SegmentedSpace) : SharedArena where
  provider := s.arena.provider
  tables := [s.arena.table]

structure Sound (s : SegmentedSpace) : Prop where
  housed : s.shared.Housed (fun _ => 0) s.space
  spans : s.shared.SpansUnused s.space

variable {s s' : SegmentedSpace} {arena : SegmentArena} {space : ObjectSpace} {id size a : Nat}

theorem getElem?_shared : s.shared.tables[0]? = some s.arena.table := rfl

theorem Sound.arena_sound (h : s.Sound) :
    s.arena.Sound s.arena.provider.space.range (s.shared.others 0) :=
  h.housed.arena_sound getElem?_shared

theorem Sound.extend (h : s.Sound)
    (ha : arena.Sound s.arena.provider.space.range (s.shared.others 0))
    (hx : SegmentArena.Extends s.arena.table arena.table) : Sound { s with arena } := by
  obtain ⟨hhoused, hspans⟩ := h.housed.extend h.spans getElem?_shared ha hx
  exact ⟨hhoused, hspans⟩

theorem Sound.sameButOwners (h : s.Sound) {t : SegmentTable} (ht : t.WellFormed)
    (hsame : SegmentTable.SameButOwners s.arena.table t) : Sound { s with arena.table := t } :=
  h.extend (h.arena_sound.of_sameButOwners ht hsame) (.of_sameButOwners hsame)

/-- A block of either source is fresh. -/
theorem Sound.block? (h : s.Sound) {source : BlockSource} {found : Option Nat}
    (hrun : s.arena.block? id size source = .ok (found, arena)) : Sound { s with arena } ∧
      ∀ a, found = some a → ({ s with arena } : SegmentedSpace).shared.Fresh s.space 0 id a size := by
  cases source with
  | freeSpans =>
    simp only [SegmentArena.block?, Checked.bind_eq_ok, Checked.pure_eq_ok, Prod.exists,
      Prod.mk.injEq] at hrun
    obtain ⟨taken, table, htake, rfl, rfl⟩ := hrun
    cases taken with
    | none =>
      cases SegmentTable.takeFree_eq_none htake
      exact ⟨h, nofun⟩
    | some a =>
      obtain ⟨⟨hhoused, hspans⟩, hfresh⟩ := h.housed.takeFree h.spans getElem?_shared htake
      refine ⟨⟨hhoused, hspans⟩, fun b hb => ?_⟩
      cases hb
      exact hfresh
  | pointer =>
    simp only [SegmentArena.block?, Transition.apply, Checked.bind_eq_ok, Checked.pure_eq_ok,
      Prod.exists, Prod.mk.injEq] at hrun
    obtain ⟨r, a, hbump, rfl, rfl⟩ := hrun
    obtain ⟨⟨hhoused, hspans⟩, hfresh⟩ := h.housed.bump h.spans getElem?_shared hbump
    refine ⟨⟨hhoused, hspans⟩, fun b hb => ?_⟩
    cases r with
    | error e => cases hb
    | ok found =>
      cases hb
      exact hfresh b rfl

theorem Sound.place (h : s.Sound) {source : BlockSource} {r : Record}
    (hmin : Object.minBytes ≤ r.size) (hrun : s.place source id r = .ok s') : s'.Sound := by
  simp only [SegmentedSpace.place, Checked.bind_eq_ok, Prod.exists] at hrun
  obtain ⟨found, arena, hblock, hrun⟩ := hrun
  obtain ⟨hsound, hfresh⟩ := h.block? hblock
  cases found with
  | none =>
    cases hrun
    exact hsound
  | some a =>
    simp only [Checked.bind_eq_ok, Checked.pure_eq_ok] at hrun
    obtain ⟨space, hinsert, rfl⟩ := hrun
    have hget := fun b => ObjectSpace.get?_insert (b := b) hinsert
    exact ⟨hsound.housed.insert (r := { r with segment := id }) (hfresh a rfl) hmin hget,
      SharedArena.SpansUnused.insert hsound.spans (r := { r with segment := id }) (hfresh a rfl)
        hget⟩

theorem sound_rebuild (hrun : s.rebuild = .ok s') (h : s.shared.Housed (fun _ => 0) s.space) :
    s'.Sound := by
  simp only [SegmentedSpace.rebuild, Checked.bind_eq_ok, Checked.pure_eq_ok] at hrun
  obtain ⟨table, htable, rfl⟩ := hrun
  have htables : s.shared.tables.mapM (·.rebuild s.space) = .ok [table] := by
    simp only [shared, List.mapM_cons, List.mapM_nil, htable]
    rfl
  obtain ⟨hhoused, hspans⟩ := h.rebuild htables
  exact ⟨hhoused, hspans⟩

theorem Sound.sweep (h : s.Sound) {dead : Nat → Record → Bool} (hrun : s.sweep dead = .ok s') :
    s'.Sound := by
  have hleft : s.space.Within (s.space.removeWhere dead).2 := by
    intro a q hq
    rw [ObjectSpace.get?_removeWhere, Option.filter_eq_some_iff] at hq
    exact ⟨q, hq.1, rfl, rfl, rfl, rfl⟩
  exact sound_rebuild hrun (h.housed.within hleft)

theorem Sound.compact (h : s.Sound) {planned : Segment → Bool} {movable : Nat → Record → Bool}
    (hrun : s.compact planned movable = .ok s') : s'.Sound := by
  simp only [SegmentedSpace.compact, Checked.bind_eq_ok] at hrun
  obtain ⟨plan, hplan, space, happly, hrun⟩ := hrun
  have hslides : plan.Slides s.space (s.shared.SegmentBelow 1) fun _ _ => True :=
    h.housed.slides_succ (k := 0) rfl (CompactionPlan.slides_empty h.housed.apart.spread)
      (fun _ _ _ _ => trivial) hplan
  have hmoved := hslides.moved_apply h.housed.apart happly
  exact sound_rebuild hrun (h.housed.moved hslides hmoved)

theorem Sound.onSpace (h : s.Sound) {f : AddressSpace → AddressSpace}
    (hrange : (f s.arena.provider.space).range = s.arena.provider.space.range)
    (hnext : (f s.arena.provider.space).next = s.arena.provider.space.next)
    (hholes : (f s.arena.provider.space).holes = s.arena.provider.space.holes) :
    (s.onSpace f).Sound :=
  ⟨⟨⟨h.housed.serves.exclusive.of_same hrange hnext hholes, h.housed.serves.decommits,
    h.housed.serves.releases⟩, h.housed.wellFormed, h.housed.apart, h.housed.held⟩, h.spans⟩

/-- Every step keeps objects and spans apart. -/
theorem Sound.apply (h : s.Sound) {op : SegmentedOperation} (hop : op.Sized)
    (hrun : s.apply op = .ok s') : s'.Sound := by
  cases op with
  | grow g minimum =>
    simp only [SegmentedSpace.apply, onArena, Checked.bind_eq_ok, Checked.pure_eq_ok,
      Transition.after_eq_ok] at hrun
    obtain ⟨arena, ⟨r, hgrow⟩, rfl⟩ := hrun
    obtain ⟨ha, hext, _⟩ := h.arena_sound.grow hgrow
    exact h.extend ha hext
  | place source id r => exact h.place hop hrun
  | sweep dead => exact h.sweep hrun
  | compact planned movable => exact h.compact hrun
  | retag id owner =>
    simp only [SegmentedSpace.apply, onArena, Checked.bind_eq_ok, Checked.pure_eq_ok,
      Transition.after_eq_ok] at hrun
    obtain ⟨_, ⟨r, hon⟩, rfl⟩ := hrun
    obtain ⟨table, hretag, rfl⟩ := SegmentArena.onTable_eq_ok.1 hon
    cases hs : s.arena.table.find? id with
    | none =>
      cases SegmentTable.retag_of_find?_eq_none hs hretag
      exact h
    | some x =>
      obtain ⟨_, hwf, hsame, _⟩ := h.arena_sound.wellFormed.retag hs hretag
      exact h.sameButOwners hwf hsame
  | promoteRegions condemned =>
    simp only [SegmentedSpace.apply, onArena, Checked.bind_eq_ok, Checked.pure_eq_ok,
      Transition.after_eq_ok] at hrun
    obtain ⟨_, ⟨r, hon⟩, rfl⟩ := hrun
    obtain ⟨table, hpromote, rfl⟩ := SegmentArena.onTable_eq_ok.1 hon
    obtain ⟨_, hwf, hsame⟩ := h.arena_sound.wellFormed.promoteRegions hpromote
    exact h.sameButOwners hwf hsame
  | decommitIfEmpty id =>
    simp only [SegmentedSpace.apply, onArena, Checked.bind_eq_ok, Checked.pure_eq_ok,
      Transition.after_eq_ok] at hrun
    obtain ⟨arena, ⟨r, hdecommit⟩, rfl⟩ := hrun
    cases hs : s.arena.table.find? id with
    | none =>
      cases SegmentArena.decommitIfEmpty_of_find?_eq_none hs hdecommit
      exact h
    | some x =>
      obtain ⟨_, _, ⟨hhoused, hspans⟩, _⟩ := h.housed.decommit h.spans getElem?_shared hs hdecommit
      exact ⟨hhoused, hspans⟩
  | limitCommits limit =>
    cases hrun
    exact h.onSpace rfl rfl rfl
  | failNext reserves commits =>
    cases hrun
    exact h.onSpace rfl rfl rfl

theorem Reachable.sound (hs : s.Reachable) : s.Sound := by
  induction hs with
  | start range c =>
    exact ⟨SharedArena.housed_ofConfigs range [c] _, SharedArena.spansUnused_ofConfigs range [c] {}⟩
  | step op _ hop hrun ih => exact ih.apply hop hrun

theorem Reachable.run {ops : List SegmentedOperation} (hs : s.Reachable)
    (hops : ∀ op ∈ ops, op.Sized) (hrun : s.run ops = .ok s') : s'.Reachable :=
  Checked.foldlM_induct Reachable (fun _ op _ hop hx hstep => .step op hx (hops op hop) hstep) hs hrun

/-- A segment in order: its objects lie below the allocation pointer and the pointer in the committed
part, and no object reaches into its free spans, which ascend. -/
structure Orderly (space : ObjectSpace) (x : Segment) : Prop where
  order : ∃ committedEnd reservedEnd, x.committedEnd = .ok committedEnd ∧
    x.reservedEnd = .ok reservedEnd ∧ x.start ≤ x.allocated ∧ x.allocated ≤ committedEnd ∧
    committedEnd ≤ reservedEnd
  objects : ∀ a r, space.get? a = some r → r.segment = x.id →
    x.start ≤ a ∧ a + r.size ≤ x.allocated
  owner : ∀ a r, space.get? a = some r → x.start ≤ a → a < x.start + x.range.size →
    r.segment = x.id
  ascending : x.freeSpans.Pairwise fun p q => p.start + p.size ≤ q.start
  spans : ∀ p ∈ x.freeSpans, Object.minBytes ≤ p.size ∧ x.start ≤ p.start ∧
    p.start + p.size ≤ x.allocated ∧ FreeSpan.Unused space p.start p.size

theorem Sound.orderly (h : s.Sound) {x : Segment} (hx : s.arena.table.find? id = some x) :
    Orderly s.space x := by
  have hsound := h.arena_sound.wellFormed.sound hx
  cases h.arena_sound.wellFormed.ids hx
  have hword := (h.arena_sound.serves.exclusive.inside_taken
    (List.mem_append_left _ (SegmentTable.range_mem_holdings hx))).stop_lt
  have hcommitted := hsound.committed_le
  constructor
  · refine ⟨x.start + x.committed, x.start + x.range.size, ?_, ?_, hsound.start_le,
      hsound.allocated_le, Nat.add_le_add_left hcommitted _⟩
    · exact Word.add_eq_ok_iff.2 ⟨by omega, rfl⟩
    · exact Word.add_eq_ok_iff.2 ⟨hword, rfl⟩
  · intro a r hr hid
    obtain ⟨t, x', ht, hx', hin⟩ := h.housed.held hr
    cases getElem?_shared.symm.trans ht
    rw [hid, hx] at hx'
    cases hx'
    exact hin
  · intro a r hr hlo hhi
    exact (h.housed.owner getElem?_shared hx hr hlo hhi).2
  · exact hsound.chain.ascending
  · intro p hp
    have hbounds := hsound.chain.bounds hp
    exact ⟨hsound.chain.minBytes_le hp, hbounds.1, hbounds.2, h.spans getElem?_shared hx p hp⟩

/-- No address is handed out while it is in use: segments are in order, objects keep apart, and the
next block keeps apart from all objects and from the free spans that are left. -/
theorem blocks_exclusive (hs : s.Reachable) :
    (∀ id x, s.arena.table.find? id = some x → Orderly s.space x) ∧
    (∀ a b r q, s.space.get? a = some r → s.space.get? b = some q → a ≠ b →
      AddressRange.Apart ⟨a, r.size⟩ ⟨b, q.size⟩) ∧
    ∀ source id size b arena, s.arena.block? id size source = .ok (some b, arena) →
      (∀ a r, s.space.get? a = some r → AddressRange.Apart ⟨a, r.size⟩ ⟨b, size⟩) ∧
      ∀ x y p, arena.table.find? x = some y → p ∈ y.freeSpans →
        AddressRange.Apart ⟨b, size⟩ ⟨p.start, p.size⟩ := by
  have h := hs.sound
  refine ⟨fun id x hx => h.orderly hx, ?_, ?_⟩
  · intro a b r q hr hq hne
    rcases Nat.lt_or_gt_of_ne hne with hlt | hlt
    · exact .inl (h.housed.apart.stop_le hr hq hlt)
    · exact .inr (h.housed.apart.stop_le hq hr hlt)
  · intro source id size b arena hblock
    have hfresh := (h.block? hblock).2 b rfl
    exact ⟨hfresh.unused, fun x y p hy hp => hfresh.spans getElem?_shared hy hp⟩

/-- An object without slots. -/
def sized (size : Nat) : Record := ⟨size, .gen0, 0, 0, [], false, false, false⟩

/-- An object is compacted into the rest of a free span in which another one was placed, and the
segment has become an older one. -/
def compactedRun : List SegmentedOperation :=
  [.grow .gen0 24, .place .pointer 0 (sized 32), .place .pointer 0 (sized 48),
    .place .pointer 0 (sized 40), .place .pointer 0 (sized 24),
    .sweep fun a _ => a == 4096 || a == 4176, .place .freeSpans 0 (sized 24), .retag 0 .gen2,
    .grow .gen0 64, .compact (fun x => x.id == 0) fun a _ => a == 4128,
    .place .pointer 1 (sized 64), .decommitIfEmpty 1]

def twoPages : Config :=
  { initialSegmentSize := 8192, maxSegmentSize := 8192, commitGranularity := 4096 }

/-- The next free block is what is left between two objects. -/
theorem blocks_exclusive_compacted : ∃ s arena, Reachable s ∧ s.space.count = 4 ∧
    s.arena.block? 0 24 .freeSpans = .ok (some 4168, arena) ∧
    (∀ id x, s.arena.table.find? id = some x → Orderly s.space x) ∧
    (∀ a b r q, s.space.get? a = some r → s.space.get? b = some q → a ≠ b →
      AddressRange.Apart ⟨a, r.size⟩ ⟨b, q.size⟩) ∧
    (∀ a r, s.space.get? a = some r → AddressRange.Apart ⟨a, r.size⟩ ⟨4168, 24⟩) ∧
    ∀ x y p, arena.table.find? x = some y → p ∈ y.freeSpans →
      AddressRange.Apart ⟨4168, 24⟩ ⟨p.start, p.size⟩ := by
  have hleads : ((ofConfig ⟨4096, 65536⟩ twoPages).run compactedRun).toOption.any (fun s =>
      s.space.count == 4 &&
        (s.arena.block? 0 24 .freeSpans).toOption.any (·.1 == some 4168)) = true := by
    decide +kernel
  have hops : ∀ op ∈ compactedRun, op.Sized := by
    simp [compactedRun, sized, SegmentedOperation.Sized, Object.minBytes]
  obtain ⟨s, hrun, hp⟩ := Checked.of_any hleads
  rw [Bool.and_eq_true, beq_iff_eq] at hp
  obtain ⟨⟨found, arena⟩, hblock, hfound⟩ := Checked.of_any hp.2
  cases beq_iff_eq.1 hfound
  have hs := (Reachable.start _ _).run hops hrun
  obtain ⟨horder, hapart, hnext⟩ := blocks_exclusive hs
  obtain ⟨hobjects, hspans⟩ := hnext _ _ _ _ _ hblock
  exact ⟨s, arena, hs, hp.1, hblock, horder, hapart, hobjects, hspans⟩

end SegmentedSpace

end GenHeap
