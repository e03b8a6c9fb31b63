import GenHeap.Proofs.Heap.Faults
import GenHeap.Proofs.Heap.Reachable
import GenHeap.Proofs.HeapCheck

/-!
A heap is never corrupt. Where objects lie and what their slots hold is enough to pass the heap check,
and both are part of the invariant; so the check after a collection never ends a run.
-/

namespace GenHeap

open Checked (Intact)

theorem Memory.Laid.passes {m : Memory} (hl : m.Laid) (hs : m.space.NoDangling) :
    HeapCheck.Passes m.space m.tables where
  apart := hl.apart.stop_le
  placed hr := by
    obtain ⟨_, _, _, hword⟩ := hl.inside hr
    refine ⟨hword, hl.held hr, fun t ht => ?_⟩
    obtain ⟨hslot, hne⟩ := List.mem_filter.1 ht
    exact hs _ _ t hr hslot (by simpa using hne)

namespace Heap

variable {h : Heap} {i size : Nat} {target condemned : Generation}

/-! ## Collections -/

theorem requireSound_eq_ok (hl : h.memory.Laid) (hs : h.space.NoDangling) :
    h.requireSound = .ok ⟨⟩ := by
  have hverify : HeapCheck.verify h.space h.tables = .ok (.ok ⟨⟩) :=
    HeapCheck.verify_eq_ok.2 (hl.passes hs)
  rw [requireSound, hverify]
  rfl

/-- Reclaiming that keeps all that is named leaves nothing to find. -/
theorem intact_reclaim {live : Nat → Record → Bool} (hl : h.memory.Laid)
    (hpos : 0 < h.cards.cardSize) (hk : h.memory.Keeps live) (compacts : Bool)
    (consumed : Option (List Nat)) (summary : CollectionSummary) :
    Intact (reclaim condemned live compacts consumed summary h) := by
  rw [reclaim, Effect.intact_bind]
  refine ⟨intact_reclaimUnchecked live compacts consumed summary, fun summary₁ h₁ hrun => ?_⟩
  obtain ⟨_, f, _, hr, _⟩ := reclaimUnchecked_eq_ok hl hpos hrun
  have hsound : h₁.requireSound = .ok ⟨⟩ := requireSound_eq_ok hr.laid (hr.closed hl hk).slots
  simp [checkReclaimed, Effect.get_bind, hsound]

theorem intact_collect (hm : h.memory.Sound) (generation : Generation) (reason : CollectionReason) :
    Intact (collect generation reason h) := by
  rw [collect, Effect.get_bind, Effect.lift_bind, Checked.intact_bind]
  refine ⟨intact_markCondemned _, fun marked hmark => ?_⟩
  obtain ⟨scan, summary, h₁⟩ := marked
  obtain ⟨space, live, hmarked⟩ := marked_of_markCondemned hm hmark
  obtain ⟨hlaid, hpos, hkeeps⟩ := hmarked.keeps hm
  dsimp only
  rw [Effect.set_bind, Effect.intact_bind]
  refine ⟨intact_reclaim hlaid hpos hkeeps _ _ _, fun summary₁ h₂ _ => ?_⟩
  simp

theorem intact_completeBackground (hm : h.memory.Sound) : Intact (completeBackground h) := by
  rw [completeBackground, Effect.get_bind]
  cases hb : h.trace.background with
  | none => simp
  | some b =>
    dsimp only
    rw [Effect.lift_bind, Checked.intact_bind]
    refine ⟨intact_finishMarking b, fun finished hfinish => ?_⟩
    obtain ⟨summary, b', h₁⟩ := finished
    obtain ⟨found, hpaused⟩ := paused_of_finishMarking hm hb hfinish
    obtain ⟨hlaid, hpos, hkeeps⟩ := hpaused.keeps hm
    dsimp only
    rw [Effect.set_bind, Effect.intact_bind]
    refine ⟨intact_reclaim hlaid hpos hkeeps _ _ _, fun summary₁ h₂ _ => ?_⟩
    simp

/-! ## Allocation -/

theorem intact_collectFor (hm : h.memory.Sound) :
    Intact (collectFor i target size condemned h) := by
  have hcollect {k : Heap} (hk : k.memory.Sound) :
      Intact ((collect condemned .allocationBudget >>= fun _ => pure ()) k) := by
    rw [Effect.intact_bind]
    exact ⟨intact_collect hk _ _, fun _ _ _ => Effect.intact_pure _⟩
  rw [collectFor, Effect.get_bind, Effect.intact_ite]
  refine ⟨fun _ => ?_, fun _ => ?_⟩
  · rw [Effect.intact_ite]
    exact ⟨fun _ => Effect.intact_pure _, fun _ => hcollect hm⟩
  · rw [Effect.intact_ite]
    refine ⟨fun _ => ?_, fun _ => hcollect hm⟩
    rw [Effect.intact_bind]
    refine ⟨intact_startBackground, fun started h₁ hrun => ?_⟩
    obtain ⟨_, _, hl⟩ := leads_startBackground hm hrun
    cases started with
    | true => exact Effect.intact_pure _
    | false => exact hcollect hl.sound

theorem intact_requireBudget (hm : h.memory.Sound) : Intact (requireBudget i target size h) := by
  rw [requireBudget, Effect.get_bind]
  cases h.condemned? i target size with
  | none => simp
  | some condemned =>
    dsimp only
    rw [Effect.intact_ite]
    refine ⟨fun _ => ?_, fun _ => intact_collectFor hm⟩
    rw [Effect.intact_bind]
    refine ⟨intact_completeBackground hm, fun summary h₁ hrun => ?_⟩
    obtain ⟨_, _, _, hl⟩ := leads_completeBackground hm hrun
    rw [Effect.get_bind]
    cases h₁.condemned? i target size with
    | none => simp
    | some condemned => exact intact_collectFor hl.sound

theorem intact_placeOrCollect (hm : h.memory.Sound) : Intact (placeOrCollect i target size h) := by
  rw [placeOrCollect, Effect.intact_bind]
  refine ⟨intact_tryPlace target size, fun place h₁ hrun => ?_⟩
  obtain ⟨_, he, hr, _⟩ := tryPlace_eq_ok hm hrun
  cases place with
  | ok p => simp
  | error reason =>
    dsimp only
    rw [Effect.intact_bind]
    refine ⟨intact_collect (hm.stays_rearranged hr).sound _ _, fun summary h₂ _ => ?_⟩
    rw [Effect.intact_bind]
    refine ⟨intact_tryPlace target size, fun place h₃ _ => ?_⟩
    cases place <;> simp

theorem intact_allocate (hm : h.memory.Sound) (request : AllocRequest) :
    Intact (allocate i request h) := by
  rw [allocate, Effect.get_bind, Effect.intact_ite]
  refine ⟨fun _ => ?_, fun _ => Effect.intact_throw _⟩
  cases h.sizeOf? request with
  | none => exact intact_fail _ _ _
  | some size =>
    dsimp only
    rw [Effect.intact_bind]
    refine ⟨intact_requireBudget hm, fun _ h₁ hbudget => ?_⟩
    obtain ⟨_, _, hl⟩ := leads_requireBudget hm hbudget
    rw [Effect.intact_bind]
    refine ⟨intact_placeOrCollect hl.sound, fun place h₂ _ => ?_⟩
    simp [Effect.get_bind]

end Heap

/-! ## Operations -/

open Heap (after)

/-- No operation ends because the heap was found corrupt. -/
theorem Operation.intact_apply {h : Heap} (hm : h.memory.Sound) (op : Operation) :
    (op.apply h).Intact := by
  have hafter {α : Type} {t : Transition Heap α} (ht : Intact (t h)) : (after t h).Intact := by
    rw [after, Checked.intact_bind]
    exact ⟨ht, fun _ _ => Checked.intact_pure _⟩
  cases op with
  | allocate heap request => exact hafter (Heap.intact_allocate hm request)
  | findBlock heap target size => exact hafter (Heap.intact_tryPlace target size)
  | writeSlot object slot target => exact hafter (Heap.intact_writeSlot object slot target)
  | createHandle kind target => exact hafter (Heap.intact_createHandle kind target)
  | freeHandle id => exact hafter (Heap.intact_freeHandle id)
  | registerForFinalization object => exact hafter (Heap.intact_registerForFinalization object)
  | suppressFinalization object => exact hafter (Heap.intact_suppressFinalization object)
  | analyze => exact hafter Heap.intact_analyze
  | collect generation reason => exact hafter (Heap.intact_collect hm generation reason)
  | startBackground => exact hafter Heap.intact_startBackground
  | completeBackground => exact hafter (Heap.intact_completeBackground hm)
  | abortBackground => exact hafter Heap.intact_abortBackground
  | _ => exact Checked.intact_ok _

namespace Heap

variable {h : Heap}

/-- A heap passes its check in every state: objects share no address, each lies in the allocated part
of a live segment of its heap, and slots that are not empty hold objects, those of dead objects too. So
no operation ends because a check has failed. -/
theorem never_corrupt (hr : h.Reachable) :
    HeapCheck.verify h.space h.tables = .ok (.ok ⟨⟩) ∧
    (∀ a b r q, h.space.get? a = some r → h.space.get? b = some q → a ≠ b →
      AddressRange.Apart ⟨a, r.size⟩ ⟨b, q.size⟩) ∧
    (∀ a r, h.space.get? a = some r → ∃ l s, h.heaps[r.heap]? = some l ∧
      l.segments.find? r.segment = some s ∧ s.start ≤ a ∧ a + r.size ≤ s.allocated) ∧
    (∀ o r t, h.space.get? o = some r → t ∈ r.slots → t ≠ 0 → h.space.contains t = true) ∧
    ∀ op : Operation, op.apply h ≠ .error .corruptHeap := by
  have hm := hr.sound
  have hslots : h.space.NoDangling := hm.closed.slots
  refine ⟨HeapCheck.verify_eq_ok.2 (hm.laid.passes hslots), ?_, ?_, hslots, Operation.intact_apply hm⟩
  · intro a b r q ha hb hne
    rcases Nat.lt_or_gt_of_ne hne with hlt | hlt
    · exact .inl (hm.laid.apart.stop_le ha hb hlt)
    · exact .inr (hm.laid.apart.stop_le hb ha hlt)
  · intro a r ha
    obtain ⟨t, s, ht, hs, hin⟩ := hm.laid.held ha
    have ht : (h.heaps.map (·.segments))[r.heap]? = some t := ht
    rw [List.getElem?_map, Option.map_eq_some_iff] at ht
    obtain ⟨l, hl, rfl⟩ := ht
    exact ⟨l, s, hl, hs, hin⟩

/-- A dead object that has grown older still refers to another one, and a cycle is in progress. -/
theorem never_corrupt_page : ∃ h, h.Reachable ∧ h.space.count = 3 ∧ h.background.isSome = true ∧
    HeapCheck.verify h.space h.tables = .ok (.ok ⟨⟩) ∧
    (∀ a b r q, h.space.get? a = some r → h.space.get? b = some q → a ≠ b →
      AddressRange.Apart ⟨a, r.size⟩ ⟨b, q.size⟩) ∧
    (∀ a r, h.space.get? a = some r → ∃ l s, h.heaps[r.heap]? = some l ∧
      l.segments.find? r.segment = some s ∧ s.start ≤ a ∧ a + r.size ≤ s.allocated) ∧
    (∀ o r t, h.space.get? o = some r → t ∈ r.slots → t ≠ 0 → h.space.contains t = true) ∧
    ∀ op : Operation, op.apply h ≠ .error .corruptHeap := by
  have hpage : leadsTo pageConfig
      [.allocate 0 { size := 48, slots := 1 }, .allocate 0 { size := 32 }, .writeSlot 4096 0 4144,
        .createHandle .strong 4096, .failNext 1 1, .collect .gen0 .induced, .freeHandle 0,
        .failNext 0 0, .allocate 0 { size := 24, generation := .pinned }, .startBackground]
      (fun h => h.space.count == 3 && h.background.isSome) = true := by
    decide +kernel
  obtain ⟨h, hr, hp⟩ := exists_of_leadsTo hpage
  obtain ⟨hcount, hcycle⟩ := Bool.and_eq_true_iff.1 hp
  exact ⟨h, hr, eq_of_beq hcount, hcycle, never_corrupt hr⟩

end Heap

end GenHeap
