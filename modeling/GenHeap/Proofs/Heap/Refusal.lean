import GenHeap.Proofs.Heap.Advances
import GenHeap.Proofs.Heap.Shape

/-!
A request that is refused for want of memory. It leaves no trace but the record of its failure and
what its collections did: no object, no registration, no bytes charged.
-/

namespace GenHeap

namespace Heap

/-- How often each logical heap saw a last collection before a failure. -/
def lastResorts (h : Heap) : List Nat :=
  h.heaps.map (·.counters.mechanism .lastBeforeOutOfMemory)

def histories (h : Heap) : List OutOfMemory.History := h.heaps.map (·.failures)

/-- Objects and registrations of `h` that are moved by `f`: none is new, and what the roots reach is
there, with its references. -/
structure Unscathed (f : Nat → Nat) (h h' : Heap) : Prop where
  sources : ∀ {b}, h'.space.contains b = true → ∃ a, h.space.contains a = true ∧ f a = b
  inUse : ∀ {a}, h.InUse a → h'.InUse (f a)
  records : ∀ {a}, h.InUse a → ∃ r q, h.space.get? a = some r ∧ h'.space.get? (f a) = some q ∧
    r.SameShape q ∧ q.slots = r.slots.map f
  injective : ∀ {a b}, h.InUse a → h.InUse b → f a = f b → a = b
  registrations : ∀ {y : Registration}, h'.memory.Lists y →
    ∃ x : Registration, h.memory.Lists x ∧ x.heap = y.heap ∧ f x.object = y.object

variable {h h' h₁ h₂ h₃ : Heap} {i size : Nat} {target : Generation} {request : AllocRequest}
  {reason : OutOfMemory.Reason}

theorem unscathed_of_revives {f : Nat → Nat} {g : Nat → Stage → Stage}
    (hr : Memory.Revives f g h.memory h'.memory) : Unscathed f h h' where
  sources := hr.sources
  inUse ha := inUse_iff.2 (hr.carries.inUse (inUse_iff.1 ha))
  records ha := hr.carries.records (inUse_iff.1 ha).needed
  injective ha hb := hr.carries.injective (inUse_iff.1 ha).needed (inUse_iff.1 hb).needed
  registrations hy := by
    obtain ⟨x, hx, rfl⟩ := (hr.evolves.lists hy.outstanding).1 hy
    exact ⟨x, hx, rfl, rfl⟩

/-! ## Why a search fails -/

theorem bumped_ne {id : Nat} (q : Except HeapError (Option Nat)) :
    bumped id q ≠ .error .budgetExceeded := by
  rcases q with e | _ | b <;> exact nofun

theorem growthFailure_ne (fragmented : Bool) (e : HeapError) :
    growthFailure fragmented e ≠ .budgetExceeded := by
  unfold growthFailure
  split
  · exact nofun
  · split <;> exact nofun

theorem reason_in_new {y : Except OutOfMemory.Reason (Nat × Nat)}
    (hp : PlacesInNew i target size h y h') : y ≠ .error .budgetExceeded := by
  cases hp with
  | without fragmented hgrow => exact fun he => growthFailure_ne fragmented _ (Except.error.inj he)
  | grown x hgrow hbump => exact bumped_ne _

/-- A search gives the budget as its reason if and only if there is a hard limit and the new object
would go over it. -/
theorem reason_place {y : Except OutOfMemory.Reason (Nat × Nat)}
    (hrun : place i target size h = .ok (y, h')) : y = .error .budgetExceeded ↔
      h.config.hardLimit.any (· < Word.addSat h.space.totalBytes size) = true := by
  rcases place_cases hrun with ⟨hover, hy, _⟩ | ⟨hunder, hp⟩
  · exact ⟨fun _ => hover, fun _ => hy⟩
  · refine ⟨fun he => absurd he ?_, fun hover => absurd hover hunder⟩
    cases hp with
    | nowhere => exact nofun
    | span => exact nofun
    | behind => exact bumped_ne _
    | ahead _ _ _ hnew => exact reason_in_new hnew

theorem reason_tryPlace (hrun : tryPlace i target size h = .ok (.ok (.error reason), h')) :
    reason = .budgetExceeded ↔
      ∃ limit, h.config.hardLimit = some limit ∧ limit < min (h.space.totalBytes + size) Word.largest := by
  obtain ⟨q, hplace, hq⟩ := tryPlace_stages.1 hrun
  cases hq
  rw [← Except.error.injEq (α := Nat × Nat), reason_place hplace, Option.any_eq_true]
  constructor
  · rintro ⟨limit, hlimit, hover⟩
    exact ⟨limit, hlimit, of_decide_eq_true hover⟩
  · rintro ⟨limit, hlimit, hover⟩
    exact ⟨limit, hlimit, decide_eq_true hover⟩

/-! ## How a request is refused -/

/-- The way of a request that is refused although the address space could hold it: past the budget,
and twice in vain for a block, with a collection between the attempts. -/
structure Denied (i : Nat) (reason : OutOfMemory.Reason) (size : Nat) (target : Generation)
    (h h₁ h₂ h₃ h' : Heap) : Prop where
  budget : ∃ h₀ first, requireBudget i target size h = .ok (.ok ⟨⟩, h₀) ∧
    tryPlace i target size h₀ = .ok (.ok (.error first), h₁)
  collected : ∃ summary, collect .gen2 .lastBeforeOutOfMemory h₁ = .ok (.ok summary, h₂)
  again : tryPlace i target size h₂ = .ok (.ok (.error reason), h₃)
  failed : fail i reason size target h₃ =
    .ok ((.error (.outOfMemory reason size target) : Except HeapError (Nat × Nat)), h')

theorem denied_of_allocate (hm : h.memory.Sound)
    (hrun : allocate i request h = .ok (.error (.outOfMemory reason size target), h')) :
    i < h.config.heapCount ∧
      (h.sizeOf? request = none ∧ fail i reason size target h =
          .ok ((.error (.outOfMemory reason size target) : Except HeapError Nat), h') ∨
        h.sizeOf? request = some size ∧ target = targetOf h.config request.generation size ∧
          ∃ h₁ h₂ h₃, Denied i reason size target h h₁ h₂ h₃ h') := by
  cases allocate_cases hrun with
  | oversized hi hsize hfail =>
    obtain ⟨he, _⟩ := standing_fail hfail
    cases he
    exact ⟨hi, .inl ⟨hsize, hfail⟩⟩
  | uncollected _ _ hbudget =>
    obtain ⟨⟨_, he⟩, _⟩ := leads_requireBudget hm hbudget
    cases he
  | unplaced hi hsize hbudget hplace =>
    obtain ⟨_, _, hl⟩ := leads_requireBudget hm hbudget
    rcases placeOrCollect_cases hplace with ⟨p, he, _⟩ | ⟨first, h₁, hfirst, hrest⟩
    · cases he
    · obtain ⟨_, _, hr, _⟩ := tryPlace_eq_ok hl.sound hfirst
      have hs := hl.sound.stays_rearranged hr
      rcases hrest with ⟨e, _, hcollect⟩ | ⟨summary, h₂, hcollect, ⟨p, he, _⟩ | hrest⟩
      · obtain ⟨⟨_, he⟩, _⟩ := leads_collect hs.sound hcollect
        cases he
      · cases he
      · obtain ⟨reason', h₃, hsecond, hfail⟩ := hrest
        obtain ⟨he, _⟩ := standing_fail hfail
        cases he
        exact ⟨hi, .inr ⟨hsize, rfl, h₁, h₂, h₃, ⟨_, first, hbudget, hfirst⟩, ⟨summary, hcollect⟩,
          hsecond, hfail⟩⟩

/-! ## What a refused request leaves -/

theorem budgets_fail {α : Type} {y : Except HeapError α}
    (hrun : fail i reason size target h = .ok (y, h')) : h'.budgets = h.budgets := by
  cases fail_apply.symm.trans hrun
  have hmap (event : OutOfMemory.Event) := map_modify (g := LogicalHeap.budgets) (k := id)
    (f := fun l : LogicalHeap => { l with failures := l.failures.record event }) h.heaps i
    fun _ => rfl
  unfold budgets publish modifyHeaps
  rw [List.map_map]
  refine (List.map_congr_left fun _ _ => rfl).trans ((hmap _).trans ?_)
  rw [List.modify_id]

/-- A refused request: nothing of it remains but one event. -/
structure Refused (i : Nat) (request : AllocRequest) (reason : OutOfMemory.Reason) (size : Nat)
    (target : Generation) (h h' : Heap) : Prop where
  objects : ∃ f, Unscathed f h h'
  allocated : h'.statistics.totalAllocated = h.statistics.totalAllocated
  failures : h'.statistics.allocationFailures = h.statistics.allocationFailures + 1
  histories : i < h.histories.length ∧ h'.histories = h.histories.modify i
    (·.record { time := h.clock, reason, size, generation := target, collection := h'.collections })
  /-- Without a size that the address space can hold, nothing else happens. -/
  unsized : h.sizeOf? request = none →
    h'.memory = h.memory ∧ h'.budgets = h.budgets ∧ h'.lastResorts = h.lastResorts
  /-- Else there is one last resort. What is charged is what the budget's collections left, and then
  that one; it also leaves the objects and the registrations. -/
  sized : ∀ n, h.sizeOf? request = some n → n = size ∧
    h'.lastResorts = h.lastResorts.map (· + 1) ∧
    (∃ h₀ h₁ h₂ summary, requireBudget i target size h = .ok (.ok ⟨⟩, h₀) ∧ h.Prepares h₁ ∧
      h₁.budgets = h₀.budgets ∧
      collect .gen2 .lastBeforeOutOfMemory h₁ = .ok (.ok summary, h₂) ∧
      h'.budgets = h₂.budgets ∧ h'.space = h₂.space ∧ h'.memory.queues = h₂.memory.queues) ∧
    (reason = .budgetExceeded ↔ ∃ limit, h.config.hardLimit = some limit ∧
      limit < min (ObjectSpace.weight h'.space.entries + size) Word.largest)

theorem lastResorts_eq (h : Heap) : h.lastResorts = h.standing.heaps.map (·.lastResorts) := by
  show _ = (h.heaps.map (·.standing)).map _
  rw [List.map_map]
  rfl

theorem histories_eq (h : Heap) : h.histories = h.standing.heaps.map (·.failures) := by
  show _ = (h.heaps.map (·.standing)).map _
  rw [List.map_map]
  rfl

/-- What a failure adds to what stands. -/
theorem recorded_of_standing {k : Heap} {event : OutOfMemory.Event}
    (hk : k.standing.allocationFailures = h.standing.allocationFailures)
    (hhistories : k.histories = h.histories)
    (hs : h'.standing = k.standing.recordFailure i event) :
    h'.statistics.allocationFailures = h.statistics.allocationFailures + 1 ∧
      h'.statistics.totalAllocated = k.statistics.totalAllocated ∧
      h'.histories = h.histories.modify i (·.record event) ∧ h'.lastResorts = k.lastResorts := by
  have hmap {β : Type} {g : LogicalHeap.Standing → β} {f : β → β}
      (hg : ∀ l : LogicalHeap.Standing,
        g { l with failures := l.failures.record event } = f (g l)) :
      h'.standing.heaps.map g = (k.standing.heaps.map g).modify i f := by
    rw [hs]
    exact map_modify _ _ hg
  refine ⟨?_, congrArg Standing.totalAllocated hs, ?_, ?_⟩
  · have hcount := congrArg Standing.allocationFailures hs
    exact hcount.trans (congrArg (· + 1) hk)
  · rw [histories_eq, hmap (f := (·.record event)) fun _ => rfl, ← histories_eq, hhistories]
  · rw [lastResorts_eq, hmap (f := id) fun _ => rfl, List.modify_id, ← lastResorts_eq]

theorem refused_unsized (hr : h.Reachable) (hi : i < h.config.heapCount)
    (hsize : h.sizeOf? request = none)
    (hrun : fail i reason size target h =
      .ok ((.error (.outOfMemory reason size target) : Except HeapError Nat), h')) :
    Refused i request reason size target h h' := by
  obtain ⟨_, hsame⟩ := memory_fail hrun
  obtain ⟨hfailures, hallocated, hhistories, hlast⟩ :=
    recorded_of_standing rfl rfl (standing_fail hrun).2
  have hcollections : h'.collections = h.collections := congrArg Memory.collections hsame
  refine ⟨⟨id, unscathed_of_revives (g := fun _ s => s) ?_⟩, hallocated, hfailures, ⟨?_, ?_⟩,
    fun _ => ⟨hsame, budgets_fail hrun, hlast⟩, fun n hn => ?_⟩
  · rw [hsame]
    exact .of_same rfl rfl rfl rfl
  · rw [histories_eq, List.length_map, hr.shaped.standing.length]
    exact hi
  · rw [hcollections]
    exact hhistories
  · rw [hsize] at hn
    cases hn

theorem refused_sized (hr : h.Reachable) (hi : i < h.config.heapCount)
    (hsize : h.sizeOf? request = some size) (hd : Denied i reason size target h h₁ h₂ h₃ h') :
    Refused i request reason size target h h' := by
  obtain ⟨h₀, first, hbudget, hfirst⟩ := hd.budget
  obtain ⟨summary, hcollect⟩ := hd.collected
  -- what stands on the way
  have hstands := (steady_requireBudget hbudget).trans (refits_tryPlace hfirst).stands
  have hcounted : h₁.standing.Counted := hstands.standing.symm ▸ hr.shaped.standing.counted
  have hlast := resorts_collect hcounted hcollect
  have hrefits := refits_tryPlace hd.again
  have h₃' : h₃.standing = h.standing.lastResort := by
    rw [hrefits.stands.standing, hlast.standing, hstands.standing]
  have hresorted : h₃.lastResorts = h.lastResorts.map (· + 1) := by
    rw [lastResorts_eq, h₃', lastResorts_eq, List.map_map]
    exact (List.map_map ..).trans rfl
  have hhistories₃ : h₃.histories = h.histories := by
    rw [histories_eq, h₃', histories_eq]
    exact (List.map_map ..).trans rfl
  have hcount : h₃.standing.allocationFailures = h.standing.allocationFailures := by
    rw [h₃']
    rfl
  have hclock : h₃.clock = h.clock := congrArg Standing.clock h₃'
  have hconfig : h₂.config = h.config :=
    (congrArg Standing.config hlast.standing).trans hstands.config
  obtain ⟨hfailures, hallocated, hhistories, hresorts⟩ := recorded_of_standing
    hcount hhistories₃ (standing_fail hd.failed).2
  -- what the memory is
  have hbudgeted := prepares_requireBudget hbudget
  have hp₁ : h.Prepares h₁ :=
    hbudgeted.trans (prepares_of_run (.findBlock i target size) rfl rfl hfirst)
  have hp₃ : h.Prepares h₃ :=
    (hp₁.trans (prepares_of_run (.collect .gen2 .lastBeforeOutOfMemory) rfl rfl hcollect)).trans
      (prepares_of_run (.findBlock i target size) rfl rfl hd.again)
  obtain ⟨_, _, f, g, hrevives⟩ := revives_prepares hr.sound hr.registered hp₃
  obtain ⟨_, hsame⟩ := memory_fail hd.failed
  have hcollections : h'.collections = h₃.collections := congrArg Memory.collections hsame
  have hspace₃ : h₃.space = h₂.space := by
    rw [hrefits.rest]
  have hspace : h'.space = h₂.space := (congrArg Memory.space hsame).trans hspace₃
  have hqueues : h₃.memory.queues = h₂.memory.queues := hrefits.map fun _ => rfl
  refine ⟨⟨f, unscathed_of_revives (hsame.symm ▸ hrevives)⟩,
    hallocated.trans (congrArg Standing.totalAllocated h₃'), hfailures, ⟨?_, ?_⟩, ?_, ?_⟩
  · rw [histories_eq, List.length_map, hr.shaped.standing.length]
    exact hi
  · rw [hcollections, ← hclock]
    exact hhistories
  · intro hnone
    rw [hsize] at hnone
    cases hnone
  · rintro n hn
    cases hsize.symm.trans hn
    refine ⟨rfl, hresorts.trans hresorted, ⟨h₀, h₁, h₂, summary, hbudget, hp₁, ?_, hcollect, ?_,
      hspace, ?_⟩, ?_⟩
    · exact (refits_tryPlace hfirst).map fun _ => rfl
    · exact (budgets_fail hd.failed).trans (hrefits.map fun _ => rfl)
    · rw [hsame]
      exact hqueues
    · have hweighed : h₂.space.Weighed :=
        hlast.weighed (hstands.weighed hr.shaped.weighed)
      rw [reason_tryPlace hd.again, hconfig, hspace, ← hweighed]

end Heap

end GenHeap
