import GenHeap.Proofs.Heap.CollectProgress

/-!
Allocations do not fault. On a heap of a valid configuration with ample address space and default
tuning, in which only allocations were made, each of them ends with an address or an error, as long
as the running totals have room.
-/

namespace GenHeap

open Checked (Runs)
open Memory (Rearranged)

/-- What happens to a heap that only allocates: besides, its tracer works and time passes. -/
def Operation.allocates : Operation → Bool
  | allocate .. | traceStep | setClock _ => true
  | _ => false

/-! ## Bytes of an arena -/

namespace Memory

variable {m : Memory} {i : Nat} {t : SegmentTable}

theorem Laid.reserved_le (h : m.Laid) :
    m.provider.space.reserved ≤ m.provider.space.range.size := by
  have hle := h.serves.exclusive.total_le
  rw [Word.total_map_flatMap] at hle
  exact h.balanced.reserved_eq ▸ hle

theorem Laid.committed_le (h : m.Laid) :
    m.provider.space.committed ≤ m.provider.space.range.size := by
  refine h.balanced.committed_eq ▸ Nat.le_trans (Word.total_map_le fun t ht => ?_) h.extents_le
  obtain ⟨i, hi⟩ := List.getElem?_of_mem ht
  apply Word.total_map_le
  intro s hs
  obtain ⟨x, hx⟩ := SegmentTable.mem_segments.1 hs
  exact ((h.wellFormed hi).sound hx).committed_le

/-- Different segments of a table take no more bytes than there are. -/
theorem Laid.sizes_le (h : m.Laid) (ht : m.tables[i]? = some t) {ids : List Nat}
    (hids : ids.Nodup) :
    Word.total ((ids.filterMap t.find?).map (·.range.size)) ≤ m.provider.space.range.size := by
  have hmap : (ids.filterMap t.find?).map (·.range.size) =
      ((ids.filterMap t.find?).map (·.range)).map (·.size) := List.map_map.symm
  rw [hmap]
  apply AddressRange.total_size_le
  · rw [List.pairwise_map, List.pairwise_filterMap]
    apply hids.imp
    intro x y hne s hs s' hs'
    exact h.housed.segments_apart ht hs ht hs' fun _ => hne
  · intro range hrange
    obtain ⟨s, hs, rfl⟩ := List.mem_map.1 hrange
    obtain ⟨x, _, hx⟩ := List.mem_filterMap.1 hs
    have hin := h.serves.exclusive.inside_taken
      (List.mem_flatMap.2 ⟨t, List.mem_of_getElem? ht, SegmentTable.range_mem_holdings hx⟩)
    exact hin.encloses

theorem Laid.freeBytesFor_runs (h : m.Laid) (ht : m.tables[i]? = some t)
    (hroom : m.provider.space.range.size < Word.count) (g : Generation) :
    Runs (t.freeBytesFor g) := by
  have hwf := h.wellFormed ht
  have hbounded : t.Bounded := h.bounded ht
  have hids : (t.candidates g).Nodup := by
    unfold SegmentTable.candidates
    split
    · cases t.ephemeral <;> simp
    · exact hwf.nodup g
  rw [SegmentTable.freeBytesFor, Checked.runs_bind]
  constructor
  · apply Checked.runs_mapM
    intro s hs
    obtain ⟨x, _, hx⟩ := List.mem_filterMap.1 hs
    obtain ⟨n, hn, _⟩ := (hwf.sound hx).freeBytes_eq_ok (hbounded hx)
    exact ⟨n, hn⟩
  · intro sizes hsizes
    have hfree : sizes.map id = ((t.candidates g).filterMap t.find?).map fun s =>
        Word.total (s.freeSpans.map (·.size)) :=
      Checked.map_of_mapM hsizes fun s n hn => (Word.fit_eq_ok_iff.1 hn).2.symm
    rw [List.map_id] at hfree
    have hle : Word.total sizes ≤ m.provider.space.range.size := by
      rw [hfree]
      refine Nat.le_trans (Word.total_map_le fun s hs => ?_) (h.sizes_le ht hids)
      obtain ⟨x, _, hx⟩ := List.mem_filterMap.1 hs
      have hbelow := (hwf.sound hx).free_le
      have hstop := (hwf.sound hx).allocated_le_stop
      have hlow : s.range.start = s.start := rfl
      omega
    exact Word.runs_fit.2 (by omega)

end Memory

namespace Heap

variable {c : Config} {h h' : Heap} {i n size : Nat} {l : LogicalHeap} {target : Generation}
  {request : AllocRequest}

/-! ## Searches -/

/-- A heap of configuration `c` whose segments are laid out soundly. -/
structure Stocked (c : Config) (h : Heap) : Prop where
  laid : h.memory.Laid
  spans : h.memory.SpansUnused
  standing : h.standing.Shaped
  config : h.config = c
  range : h.provider.space.range = c.addressRange

theorem Stocked.rearranged (hs : h.Stocked c) (hr : Rearranged h.memory h'.memory)
    (hrefits : h.Refits h') : h'.Stocked c where
  laid := hr.laid
  spans := hr.spans
  standing := hrefits.stands.standing ▸ hs.standing
  config := hrefits.stands.config.trans hs.config
  range := hr.range.trans hs.range

theorem Stocked.countExpansion (hs : h.Stocked c) (x : Expansion) :
    (h.countExpansion i x).Stocked c := by
  apply hs.rearranged _ (refits_countExpansion x)
  rw [memory_countExpansion]
  exact .refl hs.laid hs.spans

/-- The segments of a logical heap are its provider's to serve. -/
theorem Stocked.provided (hs : h.Stocked c) (hi : h.heaps[i]? = some l) :
    SegmentArena.Provided c (h.arena l) := by
  have ht := getElem?_tables hi
  have hconstants : l.segments.constants = .ofConfig h.config :=
    hs.standing.constants l.standing (List.mem_map_of_mem (List.mem_of_getElem? hi))
  have hsize : h.provider.space.range.size = c.addressSpaceSize :=
    congrArg AddressRange.size hs.range
  exact ⟨hs.config ▸ hconstants, hs.laid.wellFormed ht, ⟨_, (hs.laid.housed.arena_sound ht).serves⟩,
    hs.range, hsize ▸ hs.laid.reserved_le, hsize ▸ hs.laid.committed_le⟩

theorem runs_tryArena_bind {α β : Type} {t : Transition SegmentArena α}
    {f : Except HeapError α → ExceptT OutOfMemory.Reason (StateT Heap Checked) β}
    (ht : Runs (onArena i t h))
    (hf : ∀ q h₁, onArena i t h = .ok (q, h₁) → Runs (f q h₁)) : Runs ((tryArena i t >>= f) h) := by
  obtain ⟨⟨q, h₁⟩, hq⟩ := ht
  have harena : tryArena i t h = .ok (.ok q, h₁) := by
    unfold tryArena
    exact Checked.bind_eq_ok.2 ⟨_, hq, rfl⟩
  rw [Effect.runs_bind]
  constructor
  · exact ⟨_, harena⟩
  · intro a s' hrun
    cases harena.symm.trans hrun
    exact hf q h₁ hq

theorem runs_takeFree {t : SegmentTable} (ht : t.WellFormed) (hbounded : t.Bounded)
    (ids : List Nat) : Runs (takeFree size t ids) := by
  induction ids with
  | nil => exact Checked.runs_ok _
  | cons id ids ih =>
    rw [takeFree, Checked.runs_bind]
    constructor
    · exact ht.takeFree_runs hbounded
    · rintro ⟨found, t'⟩ hone
      cases found with
      | some a => exact Checked.runs_pure _
      | none =>
        rw [SegmentTable.takeFree_eq_none hone]
        exact ih

section Search

variable (hvalid : c.validate = .ok ()) (hample : c.Ample) (hsize : size ≤ c.addressSpaceSize)

include hvalid hample hsize

theorem Stocked.grow_runs (hs : h.Stocked c) : Runs (onArena i (SegmentArena.grow target size) h) :=
  runs_onArena fun _ hl => (hs.provided hl).grow_runs hvalid hample hsize

theorem Stocked.bump_runs (hs : h.Stocked c) (id : Nat) :
    Runs (onArena i (SegmentArena.bump id size) h) :=
  runs_onArena fun _ hl => (hs.provided hl).bump_runs hvalid hample hsize

theorem Stocked.placeInNew_runs (hs : h.Stocked c) (hi : i < h.heaps.length)
    (hfree : Runs (l.segments.freeBytesFor target)) : Runs (placeInNew i target size l h) := by
  unfold placeInNew
  rw [Effect.runs_lift_bind]
  constructor
  · exact hfree
  · intro free _
    apply runs_tryArena_bind (hs.grow_runs hvalid hample hsize)
    intro q h₁ hgrow
    have h₁' := hs.rearranged (rearranged_grow hs.laid hs.spans hi hgrow)
      (refits_onArena SegmentArena.conforms_grow hgrow)
    cases q with
    | error e =>
      simp only [Effect.modify_bind]
      exact Effect.runs_throw _
    | ok growth =>
      simp only [Effect.modify_bind]
      apply runs_tryArena_bind ((h₁'.countExpansion _).bump_runs hvalid hample hsize _)
      intro q h₂ _
      rcases q with e | _ | a
      · exact Effect.runs_throw _
      · exact Effect.runs_throw _
      · exact Effect.runs_pure _

theorem Stocked.place_runs (hs : h.Stocked c) (i : Nat) (target : Generation) :
    Runs (place i target size h) := by
  have hroom := hample.room
  have hrange : h.provider.space.range.size = c.addressSpaceSize :=
    congrArg AddressRange.size hs.range
  unfold place
  rw [Effect.get_bind]
  split
  · exact Effect.runs_throw _
  · cases hi : h.heaps[i]? with
    | none => exact Effect.runs_throw _
    | some l =>
      have ht := getElem?_tables hi
      have hlt := (List.getElem?_eq_some_iff.1 hi).1
      have hfree := hs.laid.freeBytesFor_runs ht (by
        show h.provider.space.range.size < _
        omega) target
      simp only
      rw [Effect.runs_lift_bind]
      constructor
      · exact runs_takeFree (hs.laid.wellFormed ht) (hs.laid.bounded ht) _
      · rintro (_ | ⟨a, id, segments⟩) _
        · cases hseg : l.segments.allocSegment? target with
          | none => exact hs.placeInNew_runs hvalid hample hsize hlt hfree
          | some id =>
            apply runs_tryArena_bind (hs.bump_runs hvalid hample hsize id)
            intro q h₁ hbump
            have h₁' := hs.rearranged (rearranged_bump hs.laid hs.spans hlt hbump).1
              (refits_onArena SegmentArena.conforms_bump hbump)
            rcases q with e | _ | a
            · exact Effect.runs_throw _
            · have hlt₁ : i < h₁.heaps.length := by
                rw [(refits_onArena SegmentArena.conforms_bump hbump).stands.length]
                exact hlt
              exact h₁'.placeInNew_runs hvalid hample hsize hlt₁ hfree
            · exact Effect.runs_pure _
        · simp only [Effect.set_bind]
          exact Effect.runs_pure _

end Search

/-! ## Room in the budget -/

section Budget

variable (htuning : c.tuning = {})

include htuning

theorem calm_collectFor (hc : h.Calm c n) (hroom : n + 5 * c.addressSpaceSize < Word.count)
    (i : Nat) (target : Generation) (size : Nat) (condemned : Generation) :
    ∃ h', collectFor i target size condemned h = .ok (.ok ⟨⟩, h') ∧
      h'.Calm c (n + 5 * c.addressSpaceSize) := by
  have hcollect {k : Heap} (hk : k.Calm c n) :
      ∃ h', (collect condemned .allocationBudget >>= fun _ => pure ⟨⟩ : Transition Heap Unit) k =
        .ok (.ok ⟨⟩, h') ∧ h'.Calm c (n + 5 * c.addressSpaceSize) := by
    obtain ⟨summary, h', hrun, hc'⟩ := calm_collect hk htuning hroom condemned .allocationBudget
    exact ⟨h', Effect.bind_eq_ok.2 (.inl ⟨summary, h', hrun, rfl⟩), hc'⟩
  unfold collectFor
  rw [Effect.get_bind]
  split
  · split
    · exact ⟨h, rfl, hc.mono (Nat.le_add_right n _)⟩
    · exact hcollect hc
  · split
    · obtain ⟨started, h₁, hstart, hc₁⟩ := calm_startBackground hc
      cases started with
      | true =>
        exact ⟨h₁, Effect.bind_eq_ok.2 (.inl ⟨true, h₁, hstart, rfl⟩),
          hc₁.mono (Nat.le_add_right n _)⟩
      | false =>
        obtain ⟨h', hrun, hc'⟩ := hcollect hc₁
        exact ⟨h', Effect.bind_eq_ok.2 (.inl ⟨false, h₁, hstart, hrun⟩), hc'⟩
    · exact hcollect hc

theorem calm_requireBudget (hc : h.Calm c n) (hroom : n + 10 * c.addressSpaceSize < Word.count)
    (i : Nat) (target : Generation) (size : Nat) :
    ∃ h', requireBudget i target size h = .ok (.ok ⟨⟩, h') ∧
      h'.Calm c (n + 10 * c.addressSpaceSize) := by
  unfold requireBudget
  rw [Effect.get_bind]
  cases h.condemned? i target size with
  | none => exact ⟨h, rfl, hc.mono (Nat.le_add_right n _)⟩
  | some condemned =>
    dsimp only
    split
    · obtain ⟨summary, h₁, hcomplete, hc₁⟩ := calm_completeBackground hc htuning (by omega)
      cases hstill : h₁.condemned? i target size with
      | none =>
        refine ⟨h₁, Effect.bind_eq_ok.2 (.inl ⟨summary, h₁, hcomplete, ?_⟩), hc₁.mono (by omega)⟩
        rw [Effect.get_bind]
        simp only [hstill]
        rfl
      | some condemned =>
        obtain ⟨h', hrun, hc'⟩ := calm_collectFor htuning hc₁ (by omega) i target size
          condemned
        refine ⟨h', Effect.bind_eq_ok.2 (.inl ⟨summary, h₁, hcomplete, ?_⟩), hc'.mono (by omega)⟩
        rw [Effect.get_bind]
        simp only [hstill]
        exact hrun
    · obtain ⟨h', hrun, hc'⟩ := calm_collectFor htuning hc (by omega) i target size
        condemned
      exact ⟨h', hrun, hc'.mono (by omega)⟩

end Budget

/-! ## Placement -/

theorem Calm.stocked (hc : h.Calm c n) : h.Stocked c :=
  ⟨hc.sound.laid, hc.sound.spans, hc.shaped.standing, hc.config, hc.range⟩

theorem Calm.rearranged (hc : h.Calm c n) (hr : Rearranged h.memory h'.memory)
    (hrefits : h.Refits h') : h'.Calm c n := by
  have hspace : h'.memory.space = h.memory.space := by rw [hr.rest]
  have hcards : h'.memory.cards = h.memory.cards := by rw [hr.rest]
  have hwatch : h'.memory.writeWatch = h.memory.writeWatch := by rw [hr.rest]
  exact ⟨hc.sound.rearranged hr, hc.shaped.stands hrefits.stands,
    hrefits.stands.config.trans hc.config, hr.range.trans hc.range,
    ⟨hspace ▸ hc.unwritten.slots, hcards ▸ hc.unwritten.cards, hwatch ▸ hc.unwritten.watch⟩,
    hc.tallied.same hrefits.sameTallies⟩

/-- A failure is on record, and nothing else has changed. -/
theorem calm_fail {α : Type} (hc : h.Calm c n) (i : Nat) (reason : OutOfMemory.Reason)
    (size : Nat) (target : Generation) :
    ∃ e h', (fail i reason size target : Transition Heap α) h = .ok (.error e, h') ∧ h'.Calm c n := by
  obtain ⟨h', hrun⟩ : ∃ h', (fail i reason size target : Transition Heap α) h =
      .ok (.error (.outOfMemory reason size target), h') := ⟨_, fail_apply⟩
  have hm := (memory_fail hrun).2
  have hstanding := (standing_fail hrun).2
  have hprovider : h'.provider = h.provider := congrArg Memory.provider hm
  refine ⟨_, h', hrun, hm ▸ hc.sound, hc.shaped.fail hrun, ?_, hprovider ▸ hc.range,
    hm ▸ hc.unwritten, ?_⟩
  · exact (congrArg Standing.config hstanding).trans hc.config
  · cases fail_apply.symm.trans hrun
    have hrecorded (event : OutOfMemory.Event) :
        (h.modifyHeap i fun l => { l with failures := l.failures.record event }).Tallied n :=
      hc.tallied.same (sameTallies_modifyHeap (fun _ => rfl) fun _ => rfl)
    have hs := hc.tallied.statistics
    apply Tallied.same _ (sameTallies_publish _)
    exact ⟨⟨hs.allocated, hs.freed, hs.promoted, hs.relocated⟩, (hrecorded _).heaps⟩

section Place

variable (hvalid : c.validate = .ok ()) (hample : c.Ample) (hsize : size ≤ c.addressSpaceSize)

include hvalid hample hsize

theorem calm_tryPlace (hc : h.Calm c n) (i : Nat) (target : Generation) :
    ∃ q h', tryPlace i target size h = .ok (.ok q, h') ∧ h'.Calm c n := by
  obtain ⟨⟨q, h'⟩, hplace⟩ := hc.stocked.place_runs hvalid hample hsize i target
  have hrun : tryPlace i target size h = .ok (.ok q, h') := tryPlace_stages.2 ⟨q, hplace, rfl⟩
  obtain ⟨_, _, hr, _⟩ := tryPlace_eq_ok hc.sound hrun
  exact ⟨q, h', hrun, hc.rearranged hr (refits_tryPlace hrun)⟩

theorem calm_placeOrCollect (hc : h.Calm c n) (htuning : c.tuning = {})
    (hroom : n + 5 * c.addressSpaceSize < Word.count) (i : Nat) (target : Generation) :
    ∃ y h', placeOrCollect i target size h = .ok (y, h') ∧
      h'.Calm c (n + 5 * c.addressSpaceSize) := by
  obtain ⟨q, h₁, hfirst, hc₁⟩ := calm_tryPlace hvalid hample hsize hc i target
  unfold placeOrCollect
  cases q with
  | ok p =>
    exact ⟨.ok p, h₁, Effect.bind_eq_ok.2 (.inl ⟨_, h₁, hfirst, rfl⟩),
      hc₁.mono (Nat.le_add_right n _)⟩
  | error first =>
    obtain ⟨summary, h₂, hcollect, hc₂⟩ := calm_collect hc₁ htuning hroom .gen2
      .lastBeforeOutOfMemory
    obtain ⟨q, h₃, hsecond, hc₃⟩ := calm_tryPlace hvalid hample hsize hc₂ i target
    cases q with
    | ok p =>
      exact ⟨.ok p, h₃, Effect.bind_eq_ok.2 (.inl ⟨_, h₁, hfirst, Effect.bind_eq_ok.2
        (.inl ⟨summary, h₂, hcollect, Effect.bind_eq_ok.2 (.inl ⟨_, h₃, hsecond, rfl⟩)⟩)⟩), hc₃⟩
    | error reason =>
      obtain ⟨e, h', hfail, hc'⟩ := calm_fail (α := Nat × Nat) hc₃ i reason size target
      exact ⟨.error e, h', Effect.bind_eq_ok.2 (.inl ⟨_, h₁, hfirst, Effect.bind_eq_ok.2
        (.inl ⟨summary, h₂, hcollect, Effect.bind_eq_ok.2 (.inl ⟨_, h₃, hsecond, hfail⟩)⟩)⟩), hc'⟩

end Place

/-! ## A new object -/

theorem unwritten_install {a x : Nat} (hw : h.memory.Unwritten)
    (hrun : install i request target size a x h = .ok h') : h'.memory.Unwritten := by
  obtain ⟨space, hinsert, hm⟩ := install_eq_ok hrun
  rw [hm]
  constructor
  · intro b r hr
    have hr : space.get? b = some r := hr
    rw [ObjectSpace.get?_insert hinsert] at hr
    split at hr
    · cases hr
      exact references_newRecord
    · exact hw.slots b r hr
  · exact hw.cards
  · exact hw.watch

theorem tallied_install (hl : h.memory.Laid) (hw : h.space.Weighed) (ht : h.Tallied n)
    (hspace : h.provider.space.range.size + size < Word.count) (hroom : n + size < Word.count)
    (i : Nat) (request : AllocRequest) (target : Generation) (a x : Nat) :
    ∃ h', install i request target size a x h = .ok h' ∧ h'.Tallied (n + size) := by
  have htotal : h.space.totalBytes + size < Word.count := by
    have hweighed : h.space.totalBytes = ObjectSpace.weight h.space.entries := hw
    have hle : ObjectSpace.weight h.space.entries ≤ h.provider.space.range.size := hl.weight_le
    omega
  have hs := ht.statistics
  have hallocated := hs.allocated
  have hinsert : Runs (h.space.insert a (newRecord i request target size x)) := by
    simp [ObjectSpace.insert, newRecord, htotal]
  obtain ⟨space, hinsert⟩ := hinsert
  have hadd : Word.add h.statistics.totalAllocated size =
      .ok (h.statistics.totalAllocated + size) := Word.add_eq_ok_iff.2 ⟨by omega, rfl⟩
  let statistics := { h.statistics with totalAllocated := h.statistics.totalAllocated + size }
  let background := h.background.map (BackgroundMark.allocateBlack · a)
  let h₁ : Heap := { h with space, statistics, background }
  have hstatistics : h₁.statistics.Tallied (n + size) :=
    ⟨Nat.add_le_add_right hallocated size, Nat.le_add_right_of_le hs.freed,
      Nat.le_add_right_of_le hs.promoted, Nat.le_add_right_of_le hs.relocated⟩
  obtain ⟨h', hupdate, ht'⟩ := tallied_updateHeap (h := h₁) (i := i) (f := fun l => do
      let budgets ← l.budgets.charge target size
      let finalization :=
        if request.finalizable then l.finalization.register a target else l.finalization
      return { l with budgets, finalization }.publishAllocation) hstatistics ht.heaps
    (Nat.le_add_right n size) (by
      intro l hl
      obtain ⟨budgets, hbudgets, htallied⟩ := hl.budgets.charge target hroom
      exact ⟨_, Checked.bind_eq_ok.2 ⟨budgets, hbudgets, rfl⟩, htallied,
        (hl.mono (Nat.le_add_right n size)).counters⟩)
  refine ⟨h', ?_, ht'⟩
  simp only [install, Statistics.recordAllocation, hinsert, hadd]
  exact hupdate

theorem calm_install {a x : Nat} (hc : h.Calm c n) (heff : request.effectiveSize? = some size)
    (hle : size ≤ c.addressSpaceSize) (hf : h.memory.Fresh i x a size)
    (hspace : c.addressSpaceSize + c.addressSpaceSize < Word.count)
    (hroom : n + c.addressSpaceSize < Word.count) (target : Generation) :
    ∃ h', install i request target size a x h = .ok h' ∧ h'.Calm c (n + c.addressSpaceSize) := by
  have hsize := hc.size_eq
  obtain ⟨h', hrun, ht'⟩ := tallied_install hc.sound.laid hc.shaped.weighed hc.tallied
    (by omega : h.provider.space.range.size + size < Word.count) (by omega) i request target a x
  obtain ⟨total, hstanding⟩ := standing_install hrun
  obtain ⟨_, _, hm⟩ := install_eq_ok hrun
  have hprovider : h'.provider = h.provider := congrArg Memory.provider hm
  have hconfig : h'.config = h.config := congrArg Standing.config hstanding
  exact ⟨h', hrun,
    (leads_install hc.sound hf (AllocRequest.le_of_effectiveSize? heff) hrun).sound,
    hc.shaped.install hrun, hconfig.trans hc.config, hprovider ▸ hc.range,
    unwritten_install hc.unwritten hrun, ht'.mono (Nat.add_le_add_left hle n)⟩

/-! ## Allocations -/

theorem Calm.setClock (hc : h.Calm c n) (time : Int) : Calm c n { h with clock := time } where
  sound := hc.sound
  shaped :=
    have hs := hc.shaped.standing
    ⟨⟨hs.length, hs.constants, hs.counted, hs.capacities⟩, hc.shaped.weighed⟩
  config := hc.config
  range := hc.range
  unwritten := ⟨hc.unwritten.slots, hc.unwritten.cards, hc.unwritten.watch⟩
  tallied := ⟨hc.tallied.statistics, hc.tallied.heaps⟩

/-- Some running total is within sixteen address ranges of the end of the words. -/
def Brimming (h : Heap) : Prop :=
  ∀ n, h.Tallied n → Word.count ≤ n + 16 * h.config.addressSpaceSize

theorem Calm.exists_room (hc : h.Calm c n) (hb : ¬ h.Brimming) :
    ∃ k, h.Calm c k ∧ k + 16 * c.addressSpaceSize < Word.count ∧ k ≤ n := by
  obtain ⟨k, hk, hroom⟩ : ∃ k, h.Tallied k ∧ k + 16 * c.addressSpaceSize < Word.count := by
    by_contra hnone
    apply hb
    intro k hk
    rw [hc.config]
    by_contra hlt
    exact hnone ⟨k, hk, Nat.lt_of_not_le hlt⟩
  by_cases hle : k ≤ n
  · exact ⟨k, { hc with tallied := hk }, hroom, hle⟩
  · exact ⟨n, hc, by omega, Nat.le_refl n⟩

section Allocate

variable (htuning : c.tuning = {}) (hvalid : c.validate = .ok ()) (hample : c.Ample)

include htuning hvalid hample

theorem calm_allocate (hc : h.Calm c n) (hroom : n + 16 * c.addressSpaceSize < Word.count)
    (i : Nat) (request : AllocRequest) :
    ∃ y h', allocate i request h = .ok (y, h') ∧ h'.Calm c (n + 16 * c.addressSpaceSize) := by
  have hspace := hample.room
  unfold allocate
  rw [Effect.get_bind]
  split
  next hi =>
    cases hsize : h.sizeOf? request with
    | none =>
      obtain ⟨e, h', hfail, hc'⟩ := calm_fail (α := Nat) hc i .addressSpaceExhausted
        request.size (targetOf h.config request.generation Word.largest)
      exact ⟨.error e, h', hfail, hc'.mono (Nat.le_add_right n _)⟩
    | some size =>
      obtain ⟨heff, hfits⟩ := Option.filter_eq_some_iff.1 hsize
      have hle : size ≤ c.addressSpaceSize := hc.size_eq ▸ of_decide_eq_true hfits
      obtain ⟨h₁, hbudget, hc₁⟩ := calm_requireBudget htuning hc (by omega) i
        (targetOf h.config request.generation size) size
      obtain ⟨y, h₂, hplace, hc₂⟩ := calm_placeOrCollect hvalid hample hle hc₁ htuning
        (by omega) i (targetOf h.config request.generation size)
      dsimp only
      cases y with
      | error e =>
        exact ⟨.error e, h₂, Effect.bind_eq_ok.2 (.inl ⟨_, h₁, hbudget,
          Effect.bind_eq_ok.2 (.inr ⟨e, hplace, rfl⟩)⟩), hc₂.mono (by omega)⟩
      | ok p =>
        obtain ⟨a, x⟩ := p
        obtain ⟨-, -, hfresh⟩ := leads_placeOrCollect hc₁.sound hplace
        obtain ⟨h', hinstall, hc'⟩ := calm_install hc₂ heff hle (hfresh a x rfl)
          (by omega) (by omega) (targetOf h.config request.generation size)
        refine ⟨.ok a, h', Effect.bind_eq_ok.2 (.inl ⟨_, h₁, hbudget,
          Effect.bind_eq_ok.2 (.inl ⟨_, h₂, hplace, ?_⟩)⟩), hc'.mono (by omega)⟩
        simp only [Effect.get_bind, Effect.lift_bind, Effect.set_bind, hinstall]
        rfl
  next hi => exact ⟨_, h, rfl, hc.mono (Nat.le_add_right n _)⟩

theorem calm_apply (hc : h.Calm c n) (hroom : n + 16 * c.addressSpaceSize < Word.count)
    {op : Operation} (hop : op.allocates = true) :
    ∃ h', op.apply h = .ok h' ∧ h'.Calm c (n + 16 * c.addressSpaceSize) := by
  cases op with
  | allocate i request =>
    obtain ⟨y, h', hrun, hc'⟩ := calm_allocate htuning hvalid hample hc hroom i request
    exact ⟨h', after_eq_ok.2 ⟨y, hrun⟩, hc'⟩
  | traceStep => exact ⟨_, rfl, hc.traceStep.mono (Nat.le_add_right n _)⟩
  | setClock time => exact ⟨_, rfl, (hc.setClock time).mono (Nat.le_add_right n _)⟩
  | _ => cases hop

/-- Allocations go on to the end, or to a heap with a brimming total. -/
theorem calm_run (hc : h.Calm c n) {ops : List Operation}
    (hops : ∀ op ∈ ops, op.allocates = true) :
    ∃ done rest h' m, ops = done ++ rest ∧ h.run done = .ok h' ∧ h'.Calm c m ∧
      m ≤ n + done.length * (16 * c.addressSpaceSize) ∧ (rest = [] ∨ h'.Brimming) := by
  induction ops generalizing h n with
  | nil => exact ⟨[], [], h, n, rfl, rfl, hc, Nat.le_add_right n _, .inl rfl⟩
  | cons op ops ih =>
    by_cases hb : h.Brimming
    · exact ⟨[], op :: ops, h, n, rfl, rfl, hc, Nat.le_add_right n _, .inr hb⟩
    · obtain ⟨k, hk, hroom, hle⟩ := hc.exists_room hb
      rw [List.forall_mem_cons] at hops
      obtain ⟨h₁, hstep, hc₁⟩ := calm_apply htuning hvalid hample hk hroom hops.1
      obtain ⟨done, rest, h', m, rfl, hrun, hc', hm, hrest⟩ := ih hc₁ hops.2
      refine ⟨op :: done, rest, h', m, rfl, ?_, hc', ?_, hrest⟩
      · exact run_append (run_singleton.2 hstep) hrun
      · rw [List.length_cons, Nat.succ_mul]
        omega

end Allocate

theorem calm_ofConfig (hstart : Heap.ofConfig c = .ok (.ok h)) : h.Calm c 0 := by
  have hpos := Config.addressSpaceBase_pos (validate_of_onRange hstart)
  obtain ⟨hshaped, hspace⟩ := standing_onRange hstart
  obtain ⟨cards, k, hcards, hm⟩ := memory_onRange hstart
  have hclean := CardTable.dirtyCards_ofRange hcards
  have hprovider : h.provider = .ofRange c.addressRange := congrArg Memory.provider hm
  refine ⟨sound_onRange hpos hstart, ⟨hshaped, hspace ▸ ObjectSpace.weighed_empty⟩, ?_,
    hprovider ▸ rfl, ⟨?_, ?_, ?_⟩, ?_⟩
  · obtain ⟨_, _, _, _, _, rfl⟩ := onRange_eq_ok hstart
    exact rests_publish.config
  · intro a r hr
    rw [hm, ObjectSpace.get?_empty] at hr
    cases hr
  · exact hm ▸ hclean
  · exact hm ▸ hclean
  · obtain ⟨_, heaps, _, _, hnew, rfl⟩ := onRange_eq_ok hstart
    apply Tallied.same _ (sameTallies_publish _)
    refine ⟨⟨Nat.le_refl 0, Nat.le_refl 0, Nat.le_refl 0, Nat.le_refl 0⟩, fun l hl => ?_⟩
    obtain ⟨hbudgets, _, _, hcounters, _⟩ := logicalHeap_ofConfig (hnew l hl)
    refine ⟨⟨fun g => ?_, fun g => ?_⟩, ?_⟩
    · rw [hbudgets, BudgetTable.ofConfig, PerGeneration.get_map]
    · rw [hbudgets, BudgetTable.ofConfig, PerGeneration.get_map]
    · rw [hcounters]
      intro m hm
      exact Nat.le_of_eq (List.eq_of_mem_replicate hm)

/-- On a heap with ample address space and default tuning every allocation ends with an address or
an error, unless a running total has come close to the end of the words. That takes a number of
allocations in proportion to the words per address range. -/
theorem allocations_answered (htuning : c.tuning = {}) (hample : c.Ample)
    (hstart : Heap.ofConfig c = .ok (.ok h)) {ops : List Operation}
    (hops : ∀ op ∈ ops, op.allocates = true) :
    (∃ h', h.run ops = .ok h') ∨ ∃ done rest h', ops = done ++ rest ∧ h.run done = .ok h' ∧
      h'.Brimming ∧ Word.count ≤ (done.length + 1) * (16 * c.addressSpaceSize) := by
  obtain ⟨done, rest, h', n, rfl, hrun, hc, hn, hrest⟩ :=
    calm_run htuning (validate_of_onRange hstart) hample (calm_ofConfig hstart) hops
  obtain rfl | hb := hrest
  · left
    exact ⟨h', by rwa [List.append_nil]⟩
  · right
    have hcount := hb n hc.tallied
    rw [hc.config] at hcount
    refine ⟨done, rest, h', rfl, hrun, hb, ?_⟩
    rw [Nat.succ_mul]
    omega

/-- Allocations in a heap of sixteen pages, one of them too large and one in an unknown heap. -/
theorem allocations_answered_pages : ∃ h h' : Heap, Heap.ofConfig pageConfig = .ok (.ok h) ∧
    h.run [.allocate 0 { size := 48 }, .traceStep, .allocate 1 { size := 48 },
      .allocate 0 { size := 100000, slots := 2 }] = .ok h' := by
  have hstarts : leadsTo pageConfig [] (fun _ => true) = true := by decide +kernel
  obtain ⟨h, _, hstart, _, _⟩ := run_of_leadsTo hstarts
  have hops : ∀ op ∈ ([.allocate 0 { size := 48 }, .traceStep, .allocate 1 { size := 48 },
      .allocate 0 { size := 100000, slots := 2 }] : List Operation), op.allocates = true := by
    decide
  have hanswered := allocations_answered rfl (by decide) hstart hops
  obtain ⟨h', hrun⟩ | ⟨done, rest, _, happend, _, _, hcount⟩ := hanswered
  · exact ⟨h, h', hstart, hrun⟩
  · have hlength := congrArg List.length happend
    rw [List.length_append] at hlength
    have hsize : pageConfig.addressSpaceSize = 65536 := rfl
    have hwords : Word.count = 2 ^ 64 := rfl
    simp only [List.length_cons, List.length_nil] at hlength
    rw [hsize] at hcount
    omega

/-- Regions of three pages each, which the rounding of addresses cannot deal with. -/
def threePageRegions : Config :=
  { pageConfig with layout := .regions, addressSpaceBase := 12288, regionSize := 12288 }

theorem allocation_faults_on_threePageRegions : ∃ h : Heap,
    Heap.ofConfig threePageRegions = .ok (.ok h) ∧
      h.run [.allocate 0 { size := 48 }] = .error .alignment := by
  have hfaults : leadsTo threePageRegions []
      (fun h => h.run [.allocate 0 { size := 48 }] matches .error .alignment) = true := by
    decide +kernel
  obtain ⟨h₀, h, hstart, hrun, hp⟩ := run_of_leadsTo hfaults
  cases hrun
  refine ⟨h₀, hstart, ?_⟩
  split at hp
  next he => exact he
  next => cases hp

end Heap

end GenHeap
