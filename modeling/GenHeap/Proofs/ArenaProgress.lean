import GenHeap.Proofs.Balance
import GenHeap.Proofs.Config
import GenHeap.Proofs.Constants
import GenHeap.Proofs.Housing
import GenHeap.Proofs.Packing
import GenHeap.Proofs.Progress
import GenHeap.Proofs.RangeQuery

/-!
Segments and their provider do not fault where the configuration leaves room for rounding. Every
alignment is then a power of two, and every sum on the way from a request to its address stays a
word: segments lie in the range of the provider, free spans and committed bytes in their segments,
and all that is charged for together takes no more than the range has.
-/

namespace GenHeap

open Checked (Runs)

namespace Config

/-- What the segments of a heap are aligned to. -/
def alignment (c : Config) : Nat := (SegmentTable.ofConfig c).alignment

/-- A configuration with room for rounding: regions can be aligned to, and the words go on behind
the address range for one alignment and for one more request. -/
structure Ample (c : Config) : Prop where
  regions : c.layout = .regions → Word.isPowerOfTwo c.regionSize = true
  segments : c.layout = .segments → c.maxSegmentSize + c.commitGranularity < Word.count
  room : c.addressSpaceBase + c.addressSpaceSize + max c.addressSpaceSize c.alignment < Word.count

instance (c : Config) : Decidable c.Ample :=
  decidable_of_iff ((c.layout = .regions → Word.isPowerOfTwo c.regionSize = true) ∧
    (c.layout = .segments → c.maxSegmentSize + c.commitGranularity < Word.count) ∧
    c.addressSpaceBase + c.addressSpaceSize + max c.addressSpaceSize c.alignment < Word.count)
    ⟨fun h => ⟨h.1, h.2.1, h.2.2⟩, fun h => ⟨h.regions, h.segments, h.room⟩⟩

variable {c : Config}

theorem isPowerOfTwo_commitGranularity (hvalid : c.validate = .ok ()) :
    Word.isPowerOfTwo c.commitGranularity = true := by
  have hmem : (.commitGranularity, !Word.isPowerOfTwo c.commitGranularity) ∈ c.checks := by
    simp [checks]
  simpa using check_of_validate hvalid hmem

theorem commitGranularity_le_regionSize (hvalid : c.validate = .ok ()) :
    c.commitGranularity ≤ c.regionSize := by
  have hmem : (.regionSize, c.regionSize == 0 || c.regionSize % c.commitGranularity != 0) ∈
      c.checks := by simp [checks]
  obtain ⟨hpos, hdvd⟩ := Bool.or_eq_false_iff.1 (check_of_validate hvalid hmem)
  exact Nat.le_of_dvd (Nat.pos_of_ne_zero (beq_eq_false_iff_ne.1 hpos))
    (Nat.dvd_of_mod_eq_zero (bne_eq_false_iff_eq.1 hdvd))

theorem commitGranularity_le_alignment (hvalid : c.validate = .ok ()) :
    c.commitGranularity ≤ c.alignment := by
  unfold alignment SegmentTable.alignment
  split
  · exact Nat.le_refl _
  · exact commitGranularity_le_regionSize hvalid

theorem Ample.isPowerOfTwo_alignment (h : c.Ample) (hvalid : c.validate = .ok ()) :
    Word.isPowerOfTwo c.alignment = true := by
  unfold alignment SegmentTable.alignment
  split
  · exact isPowerOfTwo_commitGranularity hvalid
  next hlayout => exact h.regions hlayout

end Config

/-! ## The provider -/

namespace AddressSpace

variable {s : AddressSpace} {taken : List AddressRange} {size alignment : Nat}

theorem runs_fit? {hole : AddressRange} (halign : Word.isPowerOfTwo alignment = true)
    (hstop : hole.start + hole.size < Word.count) : Runs (fit? size alignment hole) := by
  unfold fit?
  rw [Checked.runs_bind]
  constructor
  · exact Word.runs_alignUp?.2 halign
  · intro start _
    cases start with
    | none => simp
    | some start =>
      dsimp only
      split
      · simp [hstop]
      · simp

theorem runs_firstFit? (halign : Word.isPowerOfTwo alignment = true) {holes : List AddressRange}
    (hstop : ∀ hole ∈ holes, hole.start + hole.size < Word.count) (i : Nat) :
    Runs (firstFit? size alignment holes i) := by
  induction holes generalizing i with
  | nil => simp [firstFit?]
  | cons hole holes ih =>
    rw [List.forall_mem_cons] at hstop
    rw [firstFit?, Checked.runs_bind]
    constructor
    · exact runs_fit? halign hstop.1
    · intro place _
      cases place with
      | none => exact ih hstop.2 (i + 1)
      | some p => simp

/-- A reservation runs if the untouched end can be rounded up where it comes to that, and the books can
take up a range that nobody has. -/
theorem Exclusive.reserve_runs (h : s.Exclusive taken) (halign : Word.isPowerOfTwo alignment = true)
    (hstop : s.range.start + s.range.size < Word.count)
    (hroom : s.failingReserves = 0 → firstFit? size alignment s.holes 0 = .ok none →
      s.next + alignment < Word.count)
    (hsum : ∀ x, x.size = size → s.range.Encloses x → (x :: taken).Pairwise AddressRange.Apart →
      s.reserved + size < Word.count) :
    Runs (AddressSpace.reserve size alignment s) := by
  have hnext := h.next_le
  have hstart := h.start_le_next
  have hholes : ∀ hole ∈ s.holes, s.Inside hole :=
    fun hole hh => h.inside hole (List.mem_append_right taken hh)
  unfold AddressSpace.reserve
  rw [Effect.get_bind]
  by_cases hpos : 0 < s.failingReserves
  · simp [hpos, Effect.set_bind]
  · simp only [hpos, if_false]
    rw [Effect.runs_lift_bind]
    constructor
    · exact runs_firstFit? halign (fun hole hh => (hholes hole hh).stop_lt) 0
    · intro place hfit
      cases place with
      | some p =>
        obtain ⟨i, hole, start, stop⟩ := p
        obtain ⟨_, hhole, hin, rfl⟩ := firstFit?_eq_some hfit
        have hfilled : Exclusive { s with
            holes := swapErase s.holes i ++ leftover hole start (start + size) }
            (⟨start, size⟩ :: taken) :=
          h.fill hhole hin.encloses.1 rfl hin.encloses.2
        have hx := hfilled.inside_taken List.mem_cons_self
        have hfits := hsum ⟨start, size⟩ rfl hx.encloses hfilled.apart_taken
        simp [hfits]
      | none =>
        simp only [Effect.runs_lift_bind]
        constructor
        · exact Word.runs_alignUp.2 ⟨halign, hroom (Nat.eq_zero_of_not_pos hpos) hfit⟩
        · intro start hup
          have hle := Word.le_of_alignUp hup
          cases hadd : Word.add? start size with
          | none => simp
          | some stop =>
            obtain ⟨hword, rfl⟩ := Word.add?_eq_some_iff.1 hadd
            simp only [Effect.runs_lift_bind, AddressRange.runs_stop]
            constructor
            · exact hstop
            · intro last hlast
              obtain ⟨_, rfl⟩ := Word.add_eq_ok_iff.1 hlast
              rw [Effect.runs_ite]
              constructor
              · intro _
                simp
              · intro hover
                have hend := Nat.le_of_not_lt hover
                have hextended : Exclusive { s with next := start + size } (⟨start, size⟩ :: taken) :=
                  h.extend hle hend hword
                have hfits := hsum ⟨start, size⟩ rfl ⟨Nat.le_trans hstart hle, hend⟩
                  hextended.apart_taken
                simp [hfits]

theorem runs_commit {x : AddressRange} (hsum : s.committed + x.size < Word.count) :
    Runs (AddressSpace.commit x s) := by
  simp [AddressSpace.commit, Effect.get_bind, hsum]

end AddressSpace

namespace Provider

variable {p : Provider} {x : AddressRange} {taken : List AddressRange} {size alignment : Nat}

theorem runs_enter {call : ProviderCall} : Runs (enter call x p) := by
  simp [enter]

theorem Serves.reserve_runs (h : p.Serves taken) (halign : Word.isPowerOfTwo alignment = true)
    (hroom : p.space.range.start + p.space.range.size + alignment < Word.count)
    (hsum : p.space.reserved + p.space.range.size < Word.count) :
    Runs (Provider.reserve size alignment p) := by
  unfold Provider.reserve
  rw [Effect.runs_bind]
  constructor
  · exact runs_enter
  · intro u p' hrun
    obtain ⟨e, he, _⟩ | ⟨_, rfl⟩ := enter_eq_ok hrun
    · cases he
    · have hnext := h.exclusive.next_le
      refine Transition.runs_onPart.2 (h.exclusive.reserve_runs halign (by omega)
        (fun _ _ => by omega) ?_)
      intro x hsize hencloses _
      have hlow := hencloses.1
      have hhigh := hencloses.2
      omega

theorem runs_commit (hsum : p.space.committed + x.size < Word.count) :
    Runs (Provider.commit x p) := by
  unfold Provider.commit
  rw [Effect.runs_bind]
  constructor
  · exact runs_enter
  · intro u p' hrun
    obtain ⟨e, he, _⟩ | ⟨_, rfl⟩ := enter_eq_ok hrun
    · cases he
    · exact Transition.runs_onPart.2 (AddressSpace.runs_commit hsum)

@[simp] theorem runs_decommit : Runs (Provider.decommit x p) := by
  simp [Provider.decommit, runs_enter]

@[simp] theorem runs_release : Runs (Provider.release x p) := by
  simp [Provider.release, runs_enter]

end Provider

/-! ## Segments -/

namespace SegmentTable

variable {t : SegmentTable} {id : Nat} {owner condemned : Generation}

@[simp] theorem runs_retag : Runs (retag id owner t) := by
  simp [retag]

@[simp] theorem runs_promoteRegions : Runs (promoteRegions condemned t) := by
  have hall (owner : Generation) (ids : List Nat) (s : SegmentTable) :
      Runs ((ids.forM fun id => retag id owner) s) :=
    (Effect.runs_forM (fun _ => True) (fun _ _ _ _ => ⟨runs_retag, fun _ _ _ => trivial⟩)
      trivial).1
  simp only [promoteRegions, List.forM_eq_forM] at hall ⊢
  simp [hall]

end SegmentTable

namespace SegmentArena

variable {c : Config} {a : SegmentArena} {s : Segment} {id size minimum : Nat} {g : Generation}
  {space : ObjectSpace} {α : Type}

@[simp] theorem runs_onProvider {t : Transition Provider α} :
    Runs (onProvider t a) ↔ Runs (t a.provider) :=
  Transition.runs_onPart

@[simp] theorem runs_onTable {t : Transition SegmentTable α} :
    Runs (onTable t a) ↔ Runs (t a.table) :=
  Transition.runs_onPart

/-- The arena of a heap of some configuration, which has not given out more than there is. -/
structure Provided (c : Config) (a : SegmentArena) : Prop where
  constants : a.table.constants = .ofConfig c
  wellFormed : a.table.WellFormed
  serves : ∃ rest, a.provider.Serves (a.table.holdings ++ rest)
  range_eq : a.provider.space.range = c.addressRange
  reserved_le : a.provider.space.reserved ≤ c.addressSpaceSize
  committed_le : a.provider.space.committed ≤ c.addressSpaceSize

namespace Provided

theorem alignment_eq (h : a.Provided c) : a.table.alignment = c.alignment := by
  have halign := congrArg SegmentTable.alignment h.constants
  exact halign

theorem commitGranularity_eq (h : a.Provided c) :
    a.table.commitGranularity = c.commitGranularity := by
  have hgranularity := congrArg SegmentTable.commitGranularity h.constants
  exact hgranularity

/-- Where a segment of a heap lies. -/
theorem inside (h : a.Provided c) (hs : a.table.find? id = some s) :
    c.addressSpaceBase ≤ s.range.start ∧
      s.range.start + s.range.size ≤ c.addressSpaceBase + c.addressSpaceSize ∧
      s.range.start + s.range.size < Word.count := by
  obtain ⟨rest, hserves⟩ := h.serves
  have hin := hserves.exclusive.inside_taken
    (List.mem_append_left rest (SegmentTable.range_mem_holdings hs))
  have hstart := hin.start_le
  have hstop := hin.stop_le
  rw [h.range_eq] at hstart hstop
  exact ⟨hstart, hstop, hin.stop_lt⟩

theorem nextSize_runs (h : a.Provided c) (hvalid : c.validate = .ok ()) (hample : c.Ample)
    (hmin : minimum ≤ c.addressSpaceSize) : Runs (a.table.nextSize g minimum) := by
  have hroom := hample.room
  have hlayout : a.table.layout = c.layout := congrArg (·.layout) h.constants
  have hmax : a.table.maxSegmentSize = c.maxSegmentSize := congrArg (·.maxSegmentSize) h.constants
  have hregion : a.table.regionSize = c.regionSize := congrArg (·.regionSize) h.constants
  have hgranularity := h.commitGranularity_eq
  have hle := Config.commitGranularity_le_alignment hvalid
  have halign := hample.isPowerOfTwo_alignment hvalid
  unfold SegmentTable.nextSize
  cases hl : c.layout with
  | segments =>
    have hsegments := hample.segments hl
    simp only [hlayout, hl, hmax, hgranularity]
    apply Word.runs_alignUp.2
    exact ⟨Config.isPowerOfTwo_commitGranularity hvalid, by omega⟩
  | regions =>
    have heq : c.alignment = c.regionSize := by
      simp [Config.alignment, SegmentTable.alignment, SegmentTable.ofConfig, hl]
    rw [heq] at halign hroom
    simp only [hlayout, hl, hregion]
    split
    · exact Checked.runs_ok _
    · exact Word.runs_alignUp.2 ⟨halign, by omega⟩

theorem reserve_runs (h : a.Provided c) (hvalid : c.validate = .ok ()) (hample : c.Ample)
    (size : Nat) : Runs (Provider.reserve size a.table.alignment a.provider) := by
  obtain ⟨rest, hserves⟩ := h.serves
  have hroom := hample.room
  have hreserved := h.reserved_le
  apply hserves.reserve_runs
  · rw [h.alignment_eq]
    exact hample.isPowerOfTwo_alignment hvalid
  · rw [h.range_eq, h.alignment_eq]
    change c.addressSpaceBase + c.addressSpaceSize + c.alignment < Word.count
    omega
  · rw [h.range_eq]
    change _ + c.addressSpaceSize < Word.count
    omega

theorem acquire_runs (h : a.Provided c) (hvalid : c.validate = .ok ()) (hample : c.Ample) :
    Runs (acquire size a) := by
  have hreserve := h.reserve_runs hvalid hample size
  unfold SegmentTable.alignment at hreserve
  rw [acquire, Effect.get_bind]
  cases hlayout : a.table.layout with
  | segments =>
    rw [hlayout] at hreserve
    simpa using hreserve
  | regions =>
    rw [hlayout] at hreserve
    have hreserve : Runs (Provider.reserve size a.table.regionSize a.provider) := hreserve
    cases a.table.freeRegions <;> simp [hreserve]

end Provided

theorem runs_replaceEphemeral : Runs (replaceEphemeral id a) := by
  rw [replaceEphemeral, Effect.get_bind, Effect.modify_bind]
  cases a.table.ephemeral <;> simp

theorem Provided.grow_runs (h : a.Provided c) (hvalid : c.validate = .ok ()) (hample : c.Ample)
    (hmin : minimum ≤ c.addressSpaceSize) : Runs (grow g minimum a) := by
  rw [grow, Effect.get_bind]
  dsimp only
  rw [Effect.runs_lift_bind]
  constructor
  · exact h.nextSize_runs hvalid hample hmin
  · intro size _
    rw [Effect.runs_bind]
    constructor
    · exact h.acquire_runs hvalid hample
    · intro x a₁ _
      obtain ⟨range, kind, reused⟩ := x
      simp [Effect.get_bind, Effect.modify_bind, runs_replaceEphemeral]

theorem Provided.commitUpTo_runs (h : a.Provided c) (hvalid : c.validate = .ok ())
    (hample : c.Ample) (hs : a.table.find? id = some s) {stop : Nat}
    (hstop : stop ≤ s.range.start + s.range.size) : Runs (commitUpTo s stop a) := by
  obtain ⟨hbase, hlimit, hword⟩ := h.inside hs
  have hcommitted := (h.wellFormed.sound hs).committed_le
  have hcharged := h.committed_le
  have hroom := hample.room
  have hle := Config.commitGranularity_le_alignment hvalid
  rw [commitUpTo, Effect.runs_lift_bind]
  constructor
  · exact Word.runs_add.2 (by omega)
  · intro committedEnd hend
    obtain ⟨_, rfl⟩ := Word.add_eq_ok_iff.1 hend
    rw [Effect.runs_ite]
    constructor
    · intro _
      exact Effect.runs_pure _
    · intro hover
      rw [Effect.get_bind, h.commitGranularity_eq, Effect.runs_lift_bind]
      constructor
      · exact Word.runs_alignUp.2 ⟨Config.isPowerOfTwo_commitGranularity hvalid, by omega⟩
      · intro target hup
        have hup := Word.le_of_alignUp hup
        rw [Effect.runs_lift_bind]
        constructor
        · exact AddressRange.runs_stop.2 hword
        · intro last hlast
          obtain ⟨_, rfl⟩ := Word.add_eq_ok_iff.1 hlast
          rw [Effect.runs_lift_bind]
          constructor
          · exact Word.runs_sub.2 (by omega)
          · intro grown hgrown
            obtain ⟨_, rfl⟩ := Word.sub_eq_ok_iff.1 hgrown
            rw [Effect.runs_bind]
            constructor
            · exact runs_onProvider.2 (Provider.runs_commit (by dsimp only; omega))
            · intro _ _ _
              exact Effect.runs_pure _

theorem Provided.bump_runs (h : a.Provided c) (hvalid : c.validate = .ok ()) (hample : c.Ample)
    (hsize : size ≤ c.addressSpaceSize) : Runs (bump id size a) := by
  rw [bump, Effect.get_bind]
  cases hs : a.table.find? id with
  | none => simp [SegmentTable.fetch, hs, Transition.ofExcept_bind]
  | some s =>
    obtain ⟨hbase, hlimit, hword⟩ := h.inside hs
    have hle := (h.wellFormed.sound hs).allocated_le_stop
    have hroom := hample.room
    simp only [SegmentTable.fetch, hs, Transition.ofExcept_bind]
    rw [Effect.runs_lift_bind]
    constructor
    · exact Word.runs_add.2 (by omega)
    · intro stop hstop
      obtain ⟨_, rfl⟩ := Word.add_eq_ok_iff.1 hstop
      rw [Effect.runs_lift_bind]
      constructor
      · exact AddressRange.runs_stop.2 hword
      · intro last hlast
        obtain ⟨_, rfl⟩ := Word.add_eq_ok_iff.1 hlast
        rw [Effect.runs_ite]
        constructor
        · intro _
          exact Effect.runs_pure _
        · intro hover
          rw [Effect.runs_bind]
          constructor
          · exact h.commitUpTo_runs hvalid hample hs (Nat.le_of_not_lt hover)
          · intro _ _ _
            simp

end SegmentArena

/-! ## Free spans and sweeping -/

theorem FreeSpan.Chain.takeFirst?_runs {lo hi size : Nat} {spans : List FreeSpan}
    (h : Chain lo hi spans) (hhi : hi < Word.count) : Runs (takeFirst? size spans) := by
  induction spans generalizing lo with
  | nil => simp [takeFirst?]
  | cons span spans ih =>
    have hle := h.2.2.le
    rw [takeFirst?, Checked.runs_ite]
    constructor
    · intro hsize
      have hword : span.start + size < Word.count := by omega
      simp [hword]
    · intro _
      simpa using ih h.2.2

namespace Segment

variable {s : Segment} {space : ObjectSpace}

theorem Sound.freeBytes_eq_ok (h : s.Sound) (hstop : s.range.start + s.range.size < Word.count) :
    ∃ n, s.freeBytes = .ok n ∧ n ≤ s.range.size := by
  have hfree := h.free_le
  have hle := h.allocated_le_stop
  have hlow : s.range.start = s.start := rfl
  exact ⟨_, Word.fit_eq_ok_iff.2 ⟨by omega, rfl⟩, by omega⟩

theorem Sound.usedBytes_eq_ok (h : s.Sound) : ∃ n, s.usedBytes = .ok n ∧ n ≤ s.range.size := by
  have hstart := h.start_le
  have hle := h.allocated_le_stop
  have hlow : s.range.start = s.start := rfl
  exact ⟨_, Word.sub_eq_ok_iff.2 ⟨hstart, rfl⟩, by omega⟩

theorem runs_sweepObjects {cursor : Nat} {objects : List (Nat × Record)}
    (h : ∀ x ∈ objects, x.1 + x.2.size < Word.count) : Runs (sweepObjects cursor objects) := by
  induction objects generalizing cursor with
  | nil => simp [sweepObjects]
  | cons x objects ih =>
    rw [List.forall_mem_cons] at h
    simp [sweepObjects, h.1, ih h.2]

theorem runs_reset {allocated : Nat} {spans : List FreeSpan} (hlow : s.start ≤ allocated)
    (hhigh : allocated ≤ s.start + s.committed) (hword : s.start + s.committed < Word.count) :
    Runs (s.reset allocated spans) := by
  have hstart : ¬ allocated < s.start := Nat.not_lt_of_le hlow
  have hend : s.committedEnd = .ok (s.start + s.committed) :=
    Word.add_eq_ok_iff.2 ⟨hword, rfl⟩
  simp [reset, hstart, hend, hhigh]

theorem Sound.rebuild_runs (h : s.Sound) (hstop : s.range.start + s.range.size < Word.count)
    (hspace : space.Apart)
    (hin : ∀ a r, space.get? a = some r → s.start ≤ a → a < s.allocated →
      a + r.size ≤ s.allocated) : Runs (s.rebuild space) := by
  have hstart := h.start_le
  have hallocated := h.allocated_le_stop
  rw [Segment.rebuild, Checked.runs_bind, sweepPlan, Checked.runs_bind]
  constructor
  · constructor
    · exact ObjectSpace.runs_startingIn _ hstart
    · intro objects hobjects
      apply runs_sweepObjects
      intro x hx
      obtain ⟨hr, hlo, hhi⟩ := (ObjectSpace.mem_startingIn hobjects).1 hx
      have := hin x.1 x.2 hr hlo hhi
      omega
  · intro plan hplan
    obtain ⟨objects, hobjects, hrun⟩ := Checked.bind_eq_ok.1 hplan
    obtain ⟨hle, hchain, _⟩ := sweepObjects_eq_ok (hspace.spread.inLine hobjects) hstart (fun a r hx => by
      obtain ⟨hr, hlo, hhi⟩ := (ObjectSpace.mem_startingIn hobjects).1 hx
      exact hin a r hr hlo hhi) hrun
    have hcommitted := h.allocated_le
    have hfit := h.committed_le
    rw [Checked.runs_bind]
    constructor
    · apply runs_reset hchain.le
      · omega
      · unfold start
        omega
    · intro _ _
      exact Checked.runs_pure _

end Segment

namespace SegmentTable

variable {t : SegmentTable} {id size : Nat} {space : ObjectSpace}

/-- All segments of the table end within the words. -/
def Bounded (t : SegmentTable) : Prop :=
  ∀ {i s}, t.find? i = some s → s.range.start + s.range.size < Word.count

theorem WellFormed.rebuild_runs (h : t.WellFormed) (hbounded : t.Bounded) (hspace : space.Apart)
    (hin : ∀ i s, t.find? i = some s → ∀ a r, space.get? a = some r → s.start ≤ a →
      a < s.allocated → a + r.size ≤ s.allocated) : Runs (t.rebuild space) := by
  rw [SegmentTable.rebuild, Checked.runs_bind]
  constructor
  · apply Checked.runs_mapM
    intro slot hslot
    cases slot with
    | none => exact Checked.runs_pure _
    | some s =>
      obtain ⟨i, hi⟩ := List.getElem?_of_mem hslot
      have hs := find?_eq_some.2 hi
      simpa using (h.sound hs).rebuild_runs (hbounded hs) hspace (hin i s hs)
  · intro _ _
    exact Checked.runs_pure _

theorem WellFormed.takeFree_runs (h : t.WellFormed) (hbounded : t.Bounded) :
    Runs (t.takeFree id size) := by
  unfold takeFree
  cases hs : t.find? id with
  | none => exact Checked.runs_ok _
  | some s =>
    have hsound := h.sound hs
    have hstop := hbounded hs
    have hle := hsound.allocated_le_stop
    dsimp only
    rw [Checked.runs_bind]
    constructor
    · exact hsound.chain.takeFirst?_runs (by omega)
    · intro found _
      cases found <;> exact Checked.runs_pure _

end SegmentTable

namespace SegmentArena

variable {a a' : SegmentArena} {s : Segment} {id : Nat} {space : ObjectSpace}

theorem runs_holdsObject (hstop : s.range.start + s.range.size < Word.count) :
    Runs (holdsObject s space) := by
  rw [holdsObject, Checked.runs_bind]
  constructor
  · exact AddressRange.runs_stop.2 hstop
  · intro stop hrun
    obtain ⟨_, rfl⟩ := Word.add_eq_ok_iff.1 hrun
    simp only [Checked.runs_bind, Checked.runs_pure, implies_true, and_true]
    exact ObjectSpace.runs_startingIn _ (Nat.le_add_right _ _)

theorem runs_decommitIfEmpty (hbounded : a.table.Bounded) :
    Runs (decommitIfEmpty id space a) := by
  rw [decommitIfEmpty, Effect.get_bind, Effect.runs_ite]
  constructor
  · intro _
    exact Effect.runs_pure _
  · intro _
    cases hs : a.table.find? id with
    | none => simp [SegmentTable.fetch, hs, Transition.ofExcept_bind]
    | some s =>
      simp only [SegmentTable.fetch, hs, Transition.ofExcept_bind]
      rw [Effect.runs_lift_bind]
      constructor
      · exact runs_holdsObject (hbounded hs)
      · intro holds _
        cases holds <;> simp [decommitPart, returnRange, Effect.get_bind]

end SegmentArena

end GenHeap
