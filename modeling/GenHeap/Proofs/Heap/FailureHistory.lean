import GenHeap.Proofs.Heap.Publication
import GenHeap.Proofs.Heap.Refusal
import GenHeap.Proofs.Reading

/-!
The failures on record and those that are shown. Each request that is refused for want of memory is
recorded once, with the logical heap that refused it, and what a board shows of the record is all of
it: the latest failures, as many as the configuration keeps, oldest first.
-/

namespace GenHeap

open Diagnostics (Board Field)
open OutOfMemory (Event History)

namespace LogicalHeap.Face

/-- The board has room for the failures on record, which are those of a ring, and for all counters. -/
structure Equipped (f : Face) : Prop where
  formed : f.board.Formed
  room : f.board.eventCapacity = f.failures.capacity
  ring : ∃ recorded, f.failures.Holds recorded
  kinds : f.kinds = [6, 5, 7, 5]

/-- Besides, it shows them. -/
structure Exports (f : Face) : Prop extends Equipped f where
  shown : f.board.words .outOfMemoryEvents = f.failures.events.flatMap (·.encode)

theorem Equipped.record {f : Face} (hf : f.Equipped) (event : Event) :
    ({ f with failures := f.failures.record event } : Face).Equipped := by
  obtain ⟨recorded, hring⟩ := hf.ring
  exact ⟨hf.formed, hf.room.trans (History.capacity_record ..).symm,
    ⟨_, hring.record event⟩, hf.kinds⟩

end LogicalHeap.Face

namespace Heap

/-- All refused requests on the way to a heap, oldest first: the logical heap that was asked, and the
failure as it was answered. -/
inductive Failed : Heap → List (Nat × Event) → Prop where
  | start {config : Config} {range : AddressRange} {h : Heap} (hpos : 0 < range.start)
    (hrun : onRange config range = .ok (.ok h)) : Failed h []
  | refused {h h' : Heap} {log : List (Nat × Event)} {i size : Nat} {request : AllocRequest}
    {reason : OutOfMemory.Reason} {target : Generation} (hf : Failed h log)
    (hrun : allocate i request h = .ok (.error (.outOfMemory reason size target), h')) :
    Failed h' (log ++ [(i, {
      time := h.clock, reason, size, generation := target, collection := h'.collections })])
  | passed {h h' : Heap} {log : List (Nat × Event)} (op : Operation) (hf : Failed h log)
    (hrun : op.apply h = .ok h')
    (hother : ∀ i request reason size target, op = .allocate i request →
      allocate i request h ≠ .ok (.error (.outOfMemory reason size target), h')) : Failed h' log

/-- The failures of one logical heap. -/
def failuresOf (i : Nat) (log : List (Nat × Event)) : List Event :=
  (log.filter (·.1 == i)).map (·.2)

variable {h h' : Heap} {i x a size : Nat} {target : Generation} {op : Operation}
  {log : List (Nat × Event)} {l : LogicalHeap} {event : Event}

/-! ## What is shown -/

theorem cut_outOfMemoryEvents {capacity : Nat} {es : List Event} (hroom : es.length ≤ capacity) :
    cut capacity .outOfMemoryEvents (es.flatMap (·.encode)) = es.flatMap (·.encode) := by
  have hlength := Event.length_flatMap_encode es
  apply Diagnostics.Board.fitting_of_le
  · rw [hlength]
    exact Nat.mul_le_mul_left _ hroom
  · rw [hlength]
    exact Nat.mul_mod_right ..

/-- A publication shows what is on record. -/
theorem exports_publish (hequipped : ∀ f ∈ h.faces, f.Equipped) :
    ∀ f ∈ h.publish.faces, f.Exports := by
  intro f hf
  obtain ⟨_, hpublished, rfl⟩ := List.mem_map.1 hf
  rw [heaps_publish] at hpublished
  obtain ⟨l, hl, rfl⟩ := List.mem_map.1 hpublished
  have he := hequipped l.face (List.mem_map_of_mem hl)
  obtain ⟨recorded, hring⟩ := he.ring
  refine ⟨⟨formed_drawn he.formed, eventCapacity_drawn.trans he.room, he.ring, he.kinds⟩, ?_⟩
  refine (words_drawn he.formed _).trans (cut_outOfMemoryEvents ?_)
  have hroom : l.board.eventCapacity = l.failures.capacity := he.room
  rw [hroom]
  exact hring.length_events

theorem Publishes.exports (hp : h.Publishes h') (hequipped : ∀ f ∈ h.faces, f.Equipped) :
    ∀ f ∈ h'.faces, f.Exports := by
  obtain ⟨k, rfl, hk⟩ := hp
  exact exports_publish (faces_of_views hk ▸ hequipped)

/-- A new heap is published. -/
theorem publishes_onRange {config : Config} {range : AddressRange}
    (hrun : onRange config range = .ok (.ok h)) :
    ∃ k : Heap, h = k.publish ∧ ∀ f ∈ k.faces, f.Equipped := by
  have hpos := Config.oomHistoryCapacity_pos (validate_of_onRange hrun)
  obtain ⟨cards, heaps, _, _, hnew, rfl⟩ := onRange_eq_ok hrun
  refine ⟨_, rfl, fun f hf => ?_⟩
  obtain ⟨l, hl, rfl⟩ := List.mem_map.1 hf
  have hl := hnew l hl
  simp only [LogicalHeap.ofConfig, Checked.bind_eq_ok, Checked.pure_eq_ok] at hl
  obtain ⟨failures, hfailures, board, hboard, rfl⟩ := hl
  obtain ⟨hring, hcapacity⟩ := History.holds_empty hfailures
  refine ⟨Diagnostics.Board.formed_ofCapacity hboard, ?_, ⟨_, hring⟩, rfl⟩
  show board.eventCapacity = failures.capacity
  rw [Diagnostics.Board.eventCapacity_ofCapacity hboard, hcapacity]
  exact (Nat.max_eq_left hpos).symm

theorem exports_onRange {config : Config} {range : AddressRange}
    (hrun : onRange config range = .ok (.ok h)) : ∀ f ∈ h.faces, f.Exports := by
  obtain ⟨k, rfl, hk⟩ := publishes_onRange hrun
  exact exports_publish hk

/-- A failure is recorded and published. -/
theorem publishes_fail {α : Type} {reason : OutOfMemory.Reason} {y : Except HeapError α}
    (he : ∀ f ∈ h.faces, f.Equipped) (hrun : fail i reason size target h = .ok (y, h')) :
    ∃ k : Heap, h' = k.publish ∧ ∀ f ∈ k.faces, f.Equipped := by
  cases fail_apply.symm.trans hrun
  refine ⟨_, rfl, fun f hf => ?_⟩
  obtain ⟨l, hl, rfl⟩ := List.mem_map.1 hf
  rcases mem_modify hl with hold | ⟨k, hk, rfl⟩
  · exact he l.face (List.mem_map_of_mem hold)
  · exact (he k.face (List.mem_map_of_mem hk)).record _

theorem exports_fail {α : Type} {reason : OutOfMemory.Reason} {y : Except HeapError α}
    (he : ∀ f ∈ h.faces, f.Exports) (hrun : fail i reason size target h = .ok (y, h')) :
    ∀ f ∈ h'.faces, f.Exports := by
  obtain ⟨k, rfl, hk⟩ := publishes_fail (fun f hf => (he f hf).toEquipped) hrun
  exact exports_publish hk

/-- An allocation writes other fields. -/
theorem exports_install {request : AllocRequest} (he : ∀ f ∈ h.faces, f.Exports)
    (hrun : install i request target size a x h = .ok h') : ∀ f ∈ h'.faces, f.Exports := by
  simp only [install, Checked.bind_eq_ok] at hrun
  obtain ⟨space, _, statistics, _, hrun⟩ := hrun
  rcases updateHeap_cases hrun with ⟨_, rfl⟩ | ⟨l, l', hl, hl', rfl⟩
  · exact he
  · simp only [Checked.bind_eq_ok, Checked.pure_eq_ok] at hl'
    obtain ⟨budgets, _, rfl⟩ := hl'
    intro f hf
    obtain ⟨k, hk, rfl⟩ := List.mem_map.1 hf
    rcases List.mem_or_eq_of_mem_set hk with hk | rfl
    · exact he k.face (List.mem_map_of_mem hk)
    · have hshown := he l.face (List.mem_map_of_mem (List.mem_of_getElem? hl))
      refine ⟨⟨formed_publishAllocation hshown.formed,
        eventCapacity_publishAllocation.trans hshown.room, hshown.ring, hshown.kinds⟩, ?_⟩
      exact (words_publishAllocation_of_ne rfl).trans hshown.shown

/-- Every board shows the failures on record. -/
theorem Reachable.exports (hr : h.Reachable) : ∀ f ∈ h.faces, f.Exports := by
  refine hr.parts_induct (I := fun h => ∀ f ∈ h.faces, f.Exports) (fun _ => exports_onRange) ?_
    (fun _ he _ _ hrun => exports_install he hrun) fun he hrun => exports_fail he hrun
  intro op k k' hnew hk he hrun
  rcases faces_apply hk.sound hnew hrun with hfaces | hp
  · rwa [hfaces]
  · exact hp.exports fun f hf => (he f hf).toEquipped

/-! ## What is on record -/

theorem histories_faces (h : Heap) : h.histories = h.faces.map (·.failures) := by
  unfold faces
  rw [List.map_map]
  rfl

theorem histories_publish : h.publish.histories = h.histories := by
  unfold histories
  rw [heaps_publish, List.map_map]
  rfl

theorem histories_apply (hm : h.memory.Sound) (hnew : ∀ i request, op ≠ .allocate i request)
    (hrun : op.apply h = .ok h') : h'.histories = h.histories := by
  rcases faces_apply hm hnew hrun with hfaces | ⟨k, rfl, hk⟩
  · rw [histories_faces, hfaces, ← histories_faces]
  · rw [histories_publish, histories_faces, faces_of_views hk, ← histories_faces]

theorem histories_prepares (hm : h.memory.Sound) (hp : h.Prepares h') :
    h'.histories = h.histories := by
  obtain ⟨ops, hops, hrun⟩ := hp
  have hall := Checked.foldlM_induct (fun k => k.memory.Sound ∧ k.histories = h.histories) ?_
    ⟨hm, rfl⟩ hrun
  · exact hall.2
  · rintro k op k' hop ⟨hk, hsame⟩ hstep
    refine ⟨(apply_eq_ok hk hstep).1, (histories_apply hk (fun i request he => ?_) hstep).trans hsame⟩
    subst he
    cases hops _ hop

theorem histories_install {request : AllocRequest}
    (hrun : install i request target size a x h = .ok h') : h'.histories = h.histories := by
  obtain ⟨_, hstanding⟩ := standing_install hrun
  rw [histories_eq, hstanding, ← histories_eq]

/-- A request that is not refused for want of memory records no failure. -/
theorem histories_allocate (hm : h.memory.Sound) {request : AllocRequest} {y : Except HeapError Nat}
    (hrun : allocate i request h = .ok (y, h'))
    (hother : ∀ reason size target, y ≠ .error (.outOfMemory reason size target)) :
    h'.histories = h.histories := by
  cases allocate_cases hrun with
  | unknown => rfl
  | oversized _ _ hfail => exact (hother _ _ _ (standing_fail hfail).1).elim
  | uncollected _ _ hbudget => exact histories_prepares hm (prepares_requireBudget hbudget)
  | unplaced _ _ hbudget hplace =>
    have hp₁ := prepares_requireBudget hbudget
    rcases prepares_placeOrCollect hplace with ⟨⟨_, he⟩, _⟩ | ⟨_, hp₂ | ⟨reason, k, hp₂, hfail⟩⟩
    · cases he
    · exact histories_prepares hm (hp₁.trans hp₂)
    · cases (standing_fail hfail).1
      exact (hother _ _ _ rfl).elim
  | installed _ _ hbudget hplace hinstall =>
    have hp₁ := prepares_requireBudget hbudget
    rcases prepares_placeOrCollect hplace with ⟨_, hp₂⟩ | ⟨⟨_, he⟩, _⟩
    · exact (histories_install hinstall).trans (histories_prepares hm (hp₁.trans hp₂))
    · cases he

/-- A request that is refused records the failure that it answers. -/
theorem histories_refused (hr : h.Reachable) {request : AllocRequest}
    {reason : OutOfMemory.Reason}
    (hrun : allocate i request h = .ok (.error (.outOfMemory reason size target), h')) :
    h'.histories = h.histories.modify i (·.record
      { time := h.clock, reason, size, generation := target, collection := h'.collections }) := by
  obtain ⟨hi, hdenied⟩ := denied_of_allocate hr.sound hrun
  rcases hdenied with ⟨hsize, hfail⟩ | ⟨hsize, _, h₁, h₂, h₃, hdenied⟩
  · exact (refused_unsized hr hi hsize hfail).histories.2
  · exact (refused_sized hr hi hsize hdenied).histories.2

theorem Failed.reachable (hf : h.Failed log) : h.Reachable := by
  induction hf with
  | start hpos hrun => exact .start hpos hrun
  | refused _ hrun ih => exact ih.step (.allocate _ _) (after_eq_ok.2 ⟨_, hrun⟩)
  | passed op _ hrun _ ih => exact ih.step op hrun

theorem failuresOf_concat (i j : Nat) (event : Event) (log : List (Nat × Event)) :
    failuresOf i (log ++ [(j, event)]) = failuresOf i log ++ if j = i then [event] else [] := by
  unfold failuresOf
  rw [List.filter_append, List.map_append]
  by_cases hj : j = i
  · simp [hj]
  · simp [hj]

/-- The ring of each logical heap holds the failures of that heap. -/
theorem Failed.holds (hf : h.Failed log) {j : Nat} {r : History}
    (hj : h.histories[j]? = some r) : r.Holds (failuresOf j log) := by
  induction hf generalizing r with
  | start hpos hrun =>
    obtain ⟨cards, heaps, _, _, hnew, rfl⟩ := onRange_eq_ok hrun
    rw [histories_publish, histories, List.getElem?_map] at hj
    obtain ⟨l, hl, rfl⟩ := Option.map_eq_some_iff.1 hj
    have hl := hnew l (List.mem_of_getElem? hl)
    simp only [LogicalHeap.ofConfig, Checked.bind_eq_ok, Checked.pure_eq_ok] at hl
    obtain ⟨failures, hfailures, _, _, rfl⟩ := hl
    exact (History.holds_empty hfailures).1
  | @refused k k' log i size request reason target hf hrun ih =>
    rw [histories_refused hf.reachable hrun, List.getElem?_modify] at hj
    rw [failuresOf_concat]
    obtain ⟨q, hq, rfl⟩ := Option.map_eq_some_iff.1 hj
    by_cases hi : i = j
    · simp only [hi, if_true]
      exact (ih hq).record _
    · simp only [hi, if_false, List.append_nil]
      exact ih hq
  | @passed k k' log op hf hrun hother ih =>
    have hsame : k'.histories = k.histories := by
      cases op with
      | allocate i request =>
        obtain ⟨y, hrun⟩ := after_eq_ok.1 hrun
        refine histories_allocate hf.reachable.sound hrun fun reason size target hy => ?_
        exact hother i request reason size target rfl (hy ▸ hrun)
      | _ => exact histories_apply hf.reachable.sound (by rintro _ _ ⟨⟩) hrun
    rw [hsame] at hj
    exact ih hj

theorem Reachable.exists_failed (hr : h.Reachable) : ∃ log, h.Failed log := by
  induction hr with
  | start hpos hrun => exact ⟨[], .start hpos hrun⟩
  | @step k k' op hr hrun ih =>
    obtain ⟨log, hf⟩ := ih
    by_cases hrefused : ∃ i request reason size target, op = .allocate i request ∧
        allocate i request k = .ok (.error (.outOfMemory reason size target), k')
    · obtain ⟨i, request, reason, size, target, _, hanswer⟩ := hrefused
      exact ⟨_, hf.refused hanswer⟩
    · refine ⟨log, hf.passed op hrun fun i request reason size target he hanswer => ?_⟩
      exact hrefused ⟨i, request, reason, size, target, he, hanswer⟩

/-! ## What is read -/

theorem heaps_source (hl : h.heaps[i]? = some l) : h.source.heaps[i]? = some l.board.read := by
  unfold source Diagnostics.Source.ofBoards
  rw [List.getElem?_map, List.getElem?_map, hl]
  rfl

/-- The failures that are read are those on record, each at the start of its millisecond. -/
theorem read_failures (hr : h.Reachable) (hl : h.heaps[i]? = some l)
    (hdated : ∀ e ∈ l.failures.events, e.Dated) {source : Diagnostics.Source}
    (hread : source.read i Field.outOfMemoryEvents.name .outOfMemoryEvent =
      h.source.read i Field.outOfMemoryEvents.name .outOfMemoryEvent) :
    source.outOfMemoryEvents i = .ok (l.failures.events.map (·.truncated)) := by
  have hshown := (hr.exports l.face (List.mem_map_of_mem (List.mem_of_getElem? hl))).shown
  have hboard : h.source.read i Field.outOfMemoryEvents.name .outOfMemoryEvent =
      .ok (l.board.read .outOfMemoryEvents) :=
    (Diagnostics.Source.read_eq (heaps_source hl) _).trans
      (congrArg Except.ok (Diagnostics.Source.lookUp_eq rfl rfl))
  have hwords : (l.board.read .outOfMemoryEvents).asArray Field.outOfMemoryEvents.name =
      .ok (l.failures.events.flatMap (·.encode)) := congrArg Except.ok hshown
  unfold Diagnostics.Source.outOfMemoryEvents
  dsimp only
  rw [hread, hboard]
  simp only [Except.bind, bind, hwords, pure, Except.pure]
  rw [Event.decode_flatMap_encode hdated]

/-- The failures that are read, of a heap or of a snapshot of it, are those on record, in the same order,
each at the start of its millisecond; and those are the latest of all failures that the logical heap
answered with, as many as the configuration keeps. -/
theorem exported_failures_exact (hr : h.Reachable) : (∃ log, h.Failed log) ∧
    ∀ log, h.Failed log → ∀ (i : Nat) l, h.heaps[i]? = some l →
      l.failures.events = History.latest h.config.oomHistoryCapacity (failuresOf i log) ∧
      l.failures.total = (failuresOf i log).length ∧
      ((∀ e ∈ l.failures.events, e.Dated) →
        h.source.outOfMemoryEvents i = .ok (l.failures.events.map (·.truncated)) ∧
        ∀ takenAt, (h.snapshot takenAt).source.outOfMemoryEvents i =
          .ok (l.failures.events.map (·.truncated))) := by
  refine ⟨hr.exists_failed, fun log hf i l hl => ?_⟩
  have hhistory : h.histories[i]? = some l.failures := by
    unfold histories
    rw [List.getElem?_map, hl]
    rfl
  have hring := hf.holds hhistory
  have hcapacity : l.failures.capacity = h.config.oomHistoryCapacity :=
    hr.shaped.standing.capacities l.standing (List.mem_map_of_mem (List.mem_of_getElem? hl))
  refine ⟨hcapacity ▸ hring.events, hring.total, fun hdated => ⟨?_, fun takenAt => ?_⟩⟩
  · exact read_failures hr hl hdated rfl
  · exact read_failures hr hl hdated (Diagnostics.Source.read_capture ..)

/-- Of three failures the latest two are kept, the first of them from before 1970; both are read. -/
theorem exported_failures_exact_two : ∃ h log l, Reachable h ∧ h.Failed log ∧
    h.heaps[0]? = some l ∧ (failuresOf 0 log).length = 3 ∧
    History.latest 2 (failuresOf 0 log) =
      [⟨-1, .addressSpaceExhausted, 70001, .large, 0⟩,
        ⟨5000001, .addressSpaceExhausted, 70002, .large, 0⟩] ∧
    h.source.outOfMemoryEvents 0 =
      .ok [⟨-1000000, .addressSpaceExhausted, 70001, .large, 0⟩,
        ⟨5000000, .addressSpaceExhausted, 70002, .large, 0⟩] ∧
    (h.snapshot ⟨2000, 1, 1, 0, 0, 0, 0⟩).source.outOfMemoryEvents 0 = h.source.outOfMemoryEvents 0 := by
  have hpage : leadsTo { pageConfig with oomHistoryCapacity := 2 }
      [.setClock 1999999, .allocate 0 { size := 70000 }, .setClock (-1),
        .allocate 0 { size := 70001 }, .setClock 5000001, .allocate 0 { size := 70002 }]
      (fun h => h.config.oomHistoryCapacity == 2 &&
        h.heaps.map (fun l => (l.failures.events, l.failures.total)) ==
          [([⟨-1, .addressSpaceExhausted, 70001, .large, 0⟩,
            ⟨5000001, .addressSpaceExhausted, 70002, .large, 0⟩], 3)]) = true := by
    decide +kernel
  obtain ⟨h, hr, hp⟩ := exists_of_leadsTo hpage
  rw [Bool.and_eq_true, beq_iff_eq, beq_iff_eq] at hp
  obtain ⟨hcapacity, hheaps⟩ := hp
  obtain ⟨l, rest, hl, hevents, _⟩ := List.map_eq_cons_iff.1 hheaps
  rw [Prod.mk.injEq] at hevents
  obtain ⟨hevents, htotal⟩ := hevents
  have hfirst : h.heaps[0]? = some l := by
    rw [hl]
    rfl
  obtain ⟨⟨log, hf⟩, hexact⟩ := exported_failures_exact hr
  obtain ⟨hlatest, hlength, hread⟩ := hexact log hf 0 l hfirst
  rw [hcapacity, hevents] at hlatest
  rw [hevents] at hread
  obtain ⟨hlive, hsnapshot⟩ := hread (by decide)
  exact ⟨h, log, l, hr, hf, hfirst, hlength.symm.trans htotal, hlatest.symm, hlive,
    (hsnapshot _).trans hlive.symm⟩

end Heap

end GenHeap
