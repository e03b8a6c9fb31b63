import GenHeap.Proofs.Heap.Exhaustion
import GenHeap.Proofs.Heap.Integrity
import GenHeap.Proofs.Heap.Readiness

/-!
Faults of the provider and the requests that they refuse. What is ready for a request outlasts the
last collection of a call and the refusals themselves, where no collection gives the regions of its
generation away: without further faults, the same request is satisfied then.
-/

namespace GenHeap

namespace Memory

variable {m : Memory} {a : SegmentArena} {i size : Nat} {g : Generation}

theorem Retains.ready (hr : m.Retains a i g) (ha : a.Ready g size) : m.Ready i g size := by
  obtain ⟨t, ht, hret⟩ := hr
  exact ⟨t, ht, ha.retained hret⟩

theorem Retains.range (hr : m.Retains a i g) : m.provider.space.range = a.provider.space.range := by
  obtain ⟨t, _, hret⟩ := hr
  exact hret.provider.range

end Memory

namespace Heap

variable {h h' h₁ h₂ h₃ : Heap} {i size : Nat} {l : LogicalHeap} {g target : Generation}
  {request : AllocRequest} {reason first : OutOfMemory.Reason}

theorem Reachable.healed (hr : h.Reachable) : h.healed.Reachable :=
  hr.run (show h.run [.limitCommits none, .failNext 0 0, .refuseNext 0 0] = .ok h.healed from rfl)

/-- Whether no collection gives the regions of a generation to another one. -/
def Settled (h : Heap) (g : Generation) : Prop :=
  h.config.layout = .segments ∨ g = .large ∨ g = .pinned

theorem Settled.unpromoted (hg : h.Settled g) (hs : h.standing.Shaped)
    (hheap : h.heaps[i]? = some l) : l.segments.Unpromoted g := by
  have hconstants : l.segments.constants = .ofConfig h.config :=
    hs.constants l.standing (List.mem_map_of_mem (List.mem_of_getElem? hheap))
  exact hg.imp_left (congrArg SegmentTable.layout hconstants).trans

theorem Settled.congr (hg : h.Settled g) (hconfig : h'.config = h.config) : h'.Settled g :=
  hg.imp_left fun hlayout => hconfig ▸ hlayout

theorem sizeOf?_congr (hrange : h'.provider.space.range = h.provider.space.range) :
    h'.sizeOf? request = h.sizeOf? request := by
  unfold sizeOf?
  rw [hrange]

/-! ## What is ready stays ready -/

/-- No collection takes away what is ready. -/
theorem ready_of_collect (hr : h.Reachable) (hi : i < h.config.heapCount) (hg : h.Settled g)
    {generation : Generation} {reason : CollectionReason} {summary : CollectionSummary}
    (hrun : collect generation reason h = .ok (.ok summary, h')) :
    h'.provider.space.range = h.provider.space.range ∧
      ∀ n, h.memory.Ready i g n → h'.memory.Ready i g n := by
  obtain ⟨l, hheap⟩ := hr.shaped.standing.exists_heap hi
  have hkept : h'.memory.Retains (h.arena l) i g := retains_collect hr.sound
    (hg.unpromoted hr.shaped.standing hheap) ⟨_, getElem?_tables hheap, .refl g _⟩ hrun
  exact ⟨hkept.range, fun _ hready => hkept.ready ((ready_iff hheap).1 hready)⟩

theorem ready_of_requireBudget (hr : h.Reachable) (hi : i < h.config.heapCount) (hg : h.Settled g)
    {j : Nat} {x : Except HeapError Unit} (hrun : requireBudget j target size h = .ok (x, h')) :
    h'.provider.space.range = h.provider.space.range ∧
      ∀ n, h.memory.Ready i g n → h'.memory.Ready i g n := by
  obtain ⟨l, hheap⟩ := hr.shaped.standing.exists_heap hi
  have hkept : h'.memory.Retains (h.arena l) i g := retains_requireBudget hr.sound
    (hg.unpromoted hr.shaped.standing hheap) ⟨_, getElem?_tables hheap, .refl g _⟩ hrun
  exact ⟨hkept.range, fun _ hready => hkept.ready ((ready_iff hheap).1 hready)⟩

/-! ## Requests -/

/-- A request for which a block is ready is satisfied, if the provider refuses nothing of itself. -/
theorem allocate_of_ready (hr : h.Reachable) (hi : i < h.config.heapCount)
    (hlimit : h.config.hardLimit = none) (hw : h.provider.Willing)
    (hsize : h.sizeOf? request = some size)
    (hg : h.Settled (targetOf h.config request.generation size))
    (hready : h.memory.Ready i (targetOf h.config request.generation size) size)
    {y : Except HeapError Nat} (hrun : allocate i request h = .ok (y, h')) : ∃ b, y = .ok b := by
  cases allocate_cases hrun with
  | unknown hno => exact absurd hi hno
  | oversized _ hnone _ => cases hnone.symm.trans hsize
  | uncollected _ _ hbudget =>
    obtain ⟨⟨_, he⟩, _⟩ := leads_requireBudget hr.sound hbudget
    cases he
  | unplaced _ hsize' hbudget hplace =>
    cases hsize.symm.trans hsize'
    have hr₁ := hr.prepares (prepares_requireBudget hbudget)
    have hstands := steady_requireBudget hbudget
    have hready₁ := (ready_of_requireBudget hr hi hg hbudget).2 _ hready
    rcases placeOrCollect_cases hplace with ⟨_, he, _⟩ | ⟨first, h₂, hfirst, _⟩
    · cases he
    · obtain ⟨_, he⟩ := tryPlace_finds hr₁.sound.laid (hstands.config ▸ hlimit) (hstands.willing hw)
        hready₁ hfirst
      cases he
  | installed => exact ⟨_, rfl⟩

/-- A search that fails twice, where it does not with a provider that refuses nothing of itself: a
block is ready in the end. -/
theorem ready_of_denied (hr : h.Reachable) (hi : i < h.config.heapCount)
    (hlimit : h.config.hardLimit = none) (hg : h.Settled g)
    (hfirst : tryPlace i g size h = .ok (.ok (.error first), h₁)) {summary : CollectionSummary}
    (hcollect : collect .gen2 .lastBeforeOutOfMemory h₁ = .ok (.ok summary, h₂))
    (hagain : tryPlace i g size h₂ = .ok (.ok (.error reason), h₃)) {p : Nat × Nat} {k : Heap}
    (hhealthy : placeOrCollect i g size h.healed = .ok (.ok p, k)) :
    h₃.config = h.config ∧ h₃.provider.space.range = h.provider.space.range ∧
      h₃.memory.Ready i g size := by
  have hreach {k k' : Heap} {q : Except HeapError (Except OutOfMemory.Reason (Nat × Nat))}
      (hk : k.Reachable) (hrun : tryPlace i g size k = .ok (q, k')) : k'.Reachable :=
    hk.prepares (prepares_of_run (.findBlock i g size) rfl rfl hrun)
  have hreach' {k k' : Heap} {q : Except HeapError CollectionSummary} (hk : k.Reachable)
      (hrun : collect .gen2 .lastBeforeOutOfMemory k = .ok (q, k')) : k'.Reachable :=
    hk.prepares (prepares_of_run (.collect .gen2 .lastBeforeOutOfMemory) rfl rfl hrun)
  have hr₁ := hreach hr hfirst
  have hr₂ := hreach' hr₁ hcollect
  have hconfig₁ : h₁.config = h.config := (refits_tryPlace hfirst).stands.config
  have hconfig₂ : h₂.config = h.config :=
    (congrArg Standing.config (resorts_collect hr₁.shaped.standing.counted hcollect).standing).trans
      hconfig₁
  obtain ⟨l, hheap⟩ := hr.shaped.standing.exists_heap hi
  obtain ⟨l₂, hheap₂⟩ := hr₂.shaped.standing.exists_heap (hconfig₂.symm ▸ hi)
  have hlimit₂ : h₂.config.hardLimit = none := hconfig₂.symm ▸ hlimit
  obtain ⟨hrange₂, hkept⟩ := ready_of_collect hr₁ (hconfig₁.symm ▸ hi) (hg.congr hconfig₁) hcollect
  obtain ⟨_, _, hre₁, _⟩ := tryPlace_eq_ok hr.sound hfirst
  obtain ⟨_, _, hre₃, _⟩ := tryPlace_eq_ok hr₂.sound hagain
  refine ⟨(refits_tryPlace hagain).stands.config.trans hconfig₂,
    hre₃.range.trans (hrange₂.trans hre₁.range), ?_⟩
  rcases placeOrCollect_cases hhealthy with ⟨_, he, hfound⟩ | ⟨first', k₁, hfirst', hrest⟩
  · -- the first search would have found a block, which is kept for the second one
    have hready₂ : h₂.memory.Ready i g size := hkept size
      (ready_of_found hr.sound.laid hr.healed.sound.laid hheap hlimit rfl hfirst hfound)
    cases (tryPlace_denied hr₂.sound.laid hheap₂ hlimit₂ hagain).2 with
    | exhausted hnot _ => exact absurd hready₂ hnot
    | refused _ _ hready₃ => exact hready₃
  · -- else both collections begin alike, and so do the second searches
    have hsame₁ := healed_of_denied hr.sound.laid hr.healed.sound.laid hheap hlimit rfl
      h.provider.willing_healed hfirst hfirst'
    obtain ⟨_, hcollected, rfl⟩ := heals_collect rfl hcollect
    rcases hrest with ⟨e, he, _⟩ | ⟨summary', k₂, hcollect', hrest⟩
    · cases he
    · obtain ⟨_, hcollected', rfl⟩ := heals_collect rfl hcollect'
      rw [hsame₁, hcollected] at hcollected'
      obtain ⟨_, hsame₂⟩ := Prod.mk.inj (Except.ok.inj hcollected')
      rcases hrest with ⟨_, he, hfound⟩ | ⟨_, k₃, _, hfail⟩
      · exact ready_of_found hr₂.sound.laid (hreach' (hreach hr.healed hfirst') hcollect').sound.laid
          hheap₂ hlimit₂ hsame₂.symm hagain hfound
      · obtain ⟨⟨_, he⟩, _⟩ := memory_fail hfail
        cases he

/-- A request that is refused, and that a provider without faults would have let through, is refused
for the faults of the provider only: when they are over, the same request is satisfied, unless the
run ends before. -/
theorem refusal_transient (hr : h.Reachable) (hlimit : h.config.hardLimit = none)
    (hg : h.config.layout = .segments ∨ target = .large ∨ target = .pinned) {a : Nat} {k : Heap}
    (hhealthy : allocate i request h.healed = .ok (.ok a, k))
    (hrun : allocate i request h = .ok (.error (.outOfMemory reason size target), h')) :
    (∃ b h'', allocate i request h'.healed = .ok (.ok b, h'')) ∨
      ∃ fault, allocate i request h'.healed = .error fault ∧ fault ≠ .corruptHeap := by
  have hg : h.Settled target := hg
  obtain ⟨hi, ⟨hnone, _⟩ | ⟨hsome, rfl, h₁, h₂, h₃, hd⟩⟩ := denied_of_allocate hr.sound hrun
  · cases allocate_cases hhealthy with
    | installed _ hsize _ _ _ => cases hnone.symm.trans hsize
  · obtain ⟨h₀, first, hbudget, hfirst⟩ := hd.budget
    obtain ⟨summary, hcollect⟩ := hd.collected
    have hstands := steady_requireBudget hbudget
    obtain ⟨hrange₀, _⟩ := ready_of_requireBudget hr hi hg hbudget
    cases allocate_cases hhealthy with
    | installed _ hsize hbudget' hplace _ =>
      cases hsome.symm.trans hsize
      obtain ⟨_, hhealed, rfl⟩ := heals_requireBudget rfl hbudget
      cases hhealed.symm.trans hbudget'
      obtain ⟨hconfig₃, hrange₃, hready₃⟩ := ready_of_denied
        (hr.prepares (prepares_requireBudget hbudget)) (hstands.config.symm ▸ hi)
        (hstands.config.symm ▸ hlimit) (hg.congr hstands.config) hfirst hcollect hd.again hplace
      -- the retry begins where the refused call ended
      have hr' : h'.Reachable := .step (.allocate i request) hr (after_eq_ok.2 ⟨_, hrun⟩)
      have hlast : h'.memory = h₃.memory := (memory_fail hd.failed).2
      have hconfig : h'.healed.config = h.config :=
        (congrArg Standing.config (standing_fail hd.failed).2).trans
          (hconfig₃.trans hstands.config)
      have hrange : h'.healed.provider.space.range = h.provider.space.range :=
        (congrArg (·.provider.space.range) hlast).trans (hrange₃.trans hrange₀)
      have hready : h'.healed.memory.Ready i (targetOf h.config request.generation size) size :=
        ready_healed.2 (hlast ▸ hready₃)
      cases hretry : allocate i request h'.healed with
      | error fault =>
        refine .inr ⟨fault, rfl, ?_⟩
        rintro rfl
        exact intact_allocate hr'.healed.sound request hretry
      | ok answer =>
        obtain ⟨y, h''⟩ := answer
        obtain ⟨b, rfl⟩ := allocate_of_ready hr'.healed (hconfig.symm ▸ hi) (hconfig.symm ▸ hlimit)
          h'.provider.willing_healed ((sizeOf?_congr hrange).trans hsome)
          (hconfig.symm ▸ hg.congr hconfig) (hconfig.symm ▸ hready) hretry
        exact .inl ⟨b, h'', rfl⟩

/-- The first attempt gets no range, and the second one a range but no commit: the segment is left
behind for the retry. -/
theorem refusal_transient_page : ∃ h h' k k' : Heap, h.Reachable ∧ h.config.hardLimit = none ∧
    (h.config.layout = .segments ∨ Generation.gen0 = .large ∨ Generation.gen0 = .pinned) ∧
    allocate 0 { size := 48 } h.healed = .ok (.ok 4096, k) ∧
    allocate 0 { size := 48 } h = .ok (.error (.outOfMemory .commitFailed 48 .gen0), h') ∧
    allocate 0 { size := 48 } h'.healed = .ok (.ok 4096, k') ∧
    ((∃ b h'', allocate 0 { size := 48 } h'.healed = .ok (.ok b, h'')) ∨
      ∃ fault, allocate 0 { size := 48 } h'.healed = .error fault ∧ fault ≠ .corruptHeap) := by
  have hpage : leadsTo pageConfig [.failNext 1 1]
      (fun h => h.config.hardLimit == none && h.config.layout == .segments &&
        (((allocate 0 { size := 48 }).apply h.healed).toOption.any fun x =>
          decide (x.1 = .ok 4096)) &&
        ((allocate 0 { size := 48 }).apply h).toOption.any fun x =>
          decide (x.1 = .error (.outOfMemory .commitFailed 48 .gen0)) &&
            ((allocate 0 { size := 48 }).apply x.2.healed).toOption.any fun y =>
              decide (y.1 = .ok 4096)) = true := by
    decide +kernel
  obtain ⟨h, hr, hp⟩ := exists_of_leadsTo hpage
  simp only [Bool.and_eq_true, beq_iff_eq] at hp
  obtain ⟨⟨⟨hlimit, hlayout⟩, hhealthy⟩, hp⟩ := hp
  obtain ⟨⟨x, k⟩, hhealthy, hx⟩ := Checked.of_any hhealthy
  obtain ⟨⟨y, h'⟩, hrun, hp⟩ := Checked.of_any hp
  simp only [Bool.and_eq_true, decide_eq_true_eq] at hp
  obtain ⟨rfl, hp⟩ := hp
  obtain ⟨⟨z, k'⟩, hretry, hz⟩ := Checked.of_any hp
  cases of_decide_eq_true hx
  cases of_decide_eq_true hz
  exact ⟨h, h', k, k', hr, hlimit, .inl hlayout, hhealthy, hrun, hretry,
    refusal_transient hr hlimit (.inl hlayout) hhealthy hrun⟩

/-- One commit fails. The region that was meant for the object is left behind empty, and the last
collection gives it to the next generation, which keeps it: the provider has nothing left to refuse,
and the same request is refused again. -/
theorem fault_outlasts_call : ∃ h₀ h₁ h₂ h₃ : Heap,
    Heap.ofConfig (regionConfig 1) = .ok (.ok h₀) ∧ h₀.provider.Willing ∧
    (∃ k, allocate 0 { size := 48 } h₀ = .ok (.ok 4096, k)) ∧
    h₀.run [.failNext 0 1] = .ok h₁ ∧
    allocate 0 { size := 48 } h₁ =
      .ok (.error (.outOfMemory .addressSpaceExhausted 48 .gen0), h₂) ∧ h₂.provider.Willing ∧
    allocate 0 { size := 48 } h₂ =
      .ok (.error (.outOfMemory .addressSpaceExhausted 48 .gen0), h₃) := by
  have hlost : leadsTo (regionConfig 1) [] (fun h₀ => decide h₀.provider.Willing &&
      (((allocate 0 { size := 48 }).apply h₀).toOption.any fun x => decide (x.1 = .ok 4096)) &&
      (h₀.run [.failNext 0 1]).toOption.any fun h₁ =>
        ((allocate 0 { size := 48 }).apply h₁).toOption.any fun x =>
          decide (x.1 = .error (.outOfMemory .addressSpaceExhausted 48 .gen0)) &&
          decide x.2.provider.Willing &&
          ((allocate 0 { size := 48 }).apply x.2).toOption.any fun y =>
            decide (y.1 = .error (.outOfMemory .addressSpaceExhausted 48 .gen0))) = true := by
    decide +kernel
  obtain ⟨h₀, h, hstart, hrun, hp⟩ := run_of_leadsTo hlost
  cases hrun
  simp only [Bool.and_eq_true, decide_eq_true_eq] at hp
  obtain ⟨⟨hw₀, hhealthy⟩, hp⟩ := hp
  obtain ⟨⟨a, k⟩, hrun₀, ha⟩ := Checked.of_any hhealthy
  obtain ⟨h₁, hfault, hp⟩ := Checked.of_any hp
  obtain ⟨⟨y, h₂⟩, hrun₁, hp⟩ := Checked.of_any hp
  simp only [Bool.and_eq_true, decide_eq_true_eq] at hp
  obtain ⟨⟨rfl, hw₂⟩, hp⟩ := hp
  obtain ⟨⟨z, h₃⟩, hrun₂, hz⟩ := Checked.of_any hp
  cases of_decide_eq_true ha
  cases of_decide_eq_true hz
  exact ⟨h₀, h₁, h₂, h₃, hstart, hw₀, ⟨k, hrun₀⟩, hfault, hrun₁, hw₂, hrun₂⟩

end Heap

end GenHeap
