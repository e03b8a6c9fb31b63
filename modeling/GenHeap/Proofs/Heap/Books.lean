import GenHeap.Proofs.Heap.Reachable

/-!
The books of a heap's provider. They are exact in every state, whatever was made to fail on the way,
and show nothing any more once the heap is shut down.
-/

namespace GenHeap

namespace SharedArena

/-- The first `k` heaps have given all their memory back, and the others still hold theirs. -/
structure Closing (s : SharedArena) (k : Nat) : Prop where
  serves : s.provider.Serves (s.tables.flatMap SegmentTable.holdings)
  wellFormed : ∀ t ∈ s.tables, t.WellFormed
  balanced : s.Balanced
  closed : ∀ {i t}, i < k → s.tables[i]? = some t → t.heldBytes = 0 ∧ t.chargedBytes = 0

variable {s : SharedArena} {k : Nat} {t : SegmentTable}

theorem Closing.step (h : s.Closing k) (ht : s.tables[k]? = some t) :
    ∃ a, SegmentArena.releaseAll ⟨t, s.provider⟩ = .ok (.ok ⟨⟩, a) ∧
      (s.withArena k a).Closing (k + 1) := by
  have hsound : SegmentArena.Sound ⟨t, s.provider⟩ s.provider.space.range (s.others k) :=
    ⟨h.wellFormed t (List.mem_of_getElem? ht), h.serves.perm (perm_holdings ht), rfl⟩
  obtain ⟨a, hrun, hbooks, hheld, hcharged⟩ :=
    SegmentArena.releaseAll_charges hsound (h.balanced.arena ht)
  obtain ⟨_, hsound', _⟩ := hsound.releaseAll hrun
  refine ⟨a, hrun, ⟨hsound'.serves.perm (perm_holdings_withArena ht).symm, fun t' ht' => ?_,
    .withArena ht (hbooks.congr ?_ ?_), fun {i t'} hi ht' => ?_⟩⟩
  · exact (List.mem_or_eq_of_mem_set ht').elim (h.wellFormed t') (· ▸ hsound'.wellFormed)
  · rw [hheld, Nat.zero_add]
  · rw [hcharged, Nat.zero_add]
  · have hset : (s.tables.set k a.table)[i]? = some t' := ht'
    rw [List.getElem?_set, if_pos (List.getElem?_eq_some_iff.1 ht).1] at hset
    split at hset
    · cases hset
      exact ⟨hheld, hcharged⟩
    next hne => exact h.closed (by omega) hset

/-- Once all heaps are closed, nothing is on the books. -/
theorem Closing.books (h : s.Closing s.tables.length) : s.provider.Books 0 0 := by
  have hzero {f : SegmentTable → Nat} (hf : ∀ t ∈ s.tables, f t = 0) :
      Word.total (s.tables.map f) = 0 := by
    apply Word.total_eq_zero
    intro n hn
    obtain ⟨t, ht, rfl⟩ := List.mem_map.1 hn
    exact hf t ht
  have hclosed (t : SegmentTable) (ht : t ∈ s.tables) : t.heldBytes = 0 ∧ t.chargedBytes = 0 := by
    obtain ⟨i, hi⟩ := List.mem_iff_getElem?.1 ht
    exact h.closed (List.getElem?_eq_some_iff.1 hi).1 hi
  exact Provider.Books.congr h.balanced (hzero fun t ht => (hclosed t ht).1)
    (hzero fun t ht => (hclosed t ht).2)

end SharedArena

namespace Heap

variable {h h' : Heap}

/-- A heap can be shut down in every state, and leaves nothing on the books. -/
theorem shutdown_eq_ok (hm : h.memory.Sound) :
    ∃ h', shutdown h = .ok (.ok ⟨⟩, h') ∧ h'.provider.Books 0 0 := by
  obtain ⟨_, _, _, hdiscard⟩ := memory_discardCycle (h := h)
  have hstart : h.discardCycle.memory.shared.Closing 0 := by
    rw [hdiscard]
    refine ⟨hm.laid.serves, fun t ht => ?_, hm.laid.balanced, fun hlt => absurd hlt (Nat.not_lt_zero _)⟩
    obtain ⟨i, hi⟩ := List.mem_iff_getElem?.1 ht
    exact hm.laid.wellFormed hi
  obtain ⟨h₁, hloop, hlength, hclosing⟩ := Effect.exists_forM_range
    (f := fun i => onArena i SegmentArena.releaseAll) (s := h.discardCycle)
    (n := h.discardCycle.heaps.length)
    (fun k x => x.heaps.length = h.discardCycle.heaps.length ∧ x.memory.shared.Closing k)
    (fun k x hk ⟨hlength, hx⟩ => by
      have hl := List.getElem?_eq_getElem (hlength ▸ hk)
      obtain ⟨a, hrelease, hx'⟩ := hx.step (getElem?_tables hl)
      refine ⟨_, (onArena_eq_ok hl).2 ⟨a, hrelease, rfl⟩, ?_, ?_⟩
      · rw [← hlength, ← length_tables, memory_withArena, ← length_tables]
        exact List.length_set ..
      · rw [memory_withArena]
        exact hx')
    ⟨rfl, hstart⟩
  refine ⟨{ h₁ with space := {} }, ?_, ?_⟩
  · unfold shutdown
    rw [Effect.modify_bind, Effect.get_bind, Effect.bind_eq_ok]
    exact .inl ⟨_, h₁, hloop, rfl⟩
  · rw [← hlength, ← length_tables] at hclosing
    exact SharedArena.Closing.books hclosing

/-- In every state, the committed bytes are those of the live segments, the reserved bytes are those
of the live segments and the pools, and nothing was given back that was not charged. A block that
cannot be committed changes nothing of it, and a heap that is shut down leaves nothing. -/
theorem books_exact (hr : h.Reachable) :
    h.provider.space.committed =
      Word.total ((h.tables.flatMap SegmentTable.segments).map (·.committed)) ∧
    h.provider.space.reserved =
      Word.total ((h.tables.flatMap SegmentTable.segments).map (·.range.size)) +
        Word.total ((h.tables.flatMap (·.freeRegions)).map (·.size)) ∧
    h.provider.space.overdrawn = 0 ∧
    (∀ (a a' : SegmentArena) id size e, SegmentArena.bump id size a = .ok (.error e, a') →
      a'.table = a.table ∧ a'.provider.space.committed = a.provider.space.committed) ∧
    ∃ h', shutdown h = .ok (.ok ⟨⟩, h') ∧ h'.provider.space.committed = 0 ∧
      h'.provider.space.reserved = 0 ∧ h'.provider.space.overdrawn = 0 := by
  have hbooks := hr.sound.laid.balanced
  refine ⟨?_, ?_, hbooks.overdrawn_eq, fun a a' id size e => SegmentArena.bump_error, ?_⟩
  · rw [Word.total_map_flatMap]
    exact hbooks.committed_eq
  · rw [Word.total_map_flatMap, Word.total_map_flatMap, ← Word.total_map_add]
    refine hbooks.reserved_eq.trans ?_
    simp only [SegmentTable.heldBytes_eq]
    rfl
  · obtain ⟨h', hrun, hempty⟩ := shutdown_eq_ok hr.sound
    exact ⟨h', hrun, hempty.committed_eq, hempty.reserved_eq, hempty.overdrawn_eq⟩

/-- The third region was never committed, and one region waits in the pool. -/
theorem books_exact_refused : ∃ h : Heap, h.Reachable ∧
    h.tables.map (fun t => t.segments.map fun s => (s.id, s.committed)) = [[(2, 4096), (3, 0)]] ∧
    h.tables.map (·.freeRegions.length) = [1] ∧ h.provider.space.committed = 4096 ∧
    h.provider.space.reserved = 12288 ∧ h.provider.space.overdrawn = 0 ∧
    ∃ h', shutdown h = .ok (.ok ⟨⟩, h') ∧ h'.provider.space.committed = 0 ∧
      h'.provider.space.reserved = 0 := by
  have hpage : leadsTo { pageConfig with layout := .regions, tuning := { retainedEmptySegments := 0 } }
      [.allocate 0 { size := 3000 }, .allocate 0 { size := 3000 }, .allocate 0 { size := 3000 },
        .failNext 1 1, .allocate 0 { size := 4000, generation := .gen2 }]
      (fun h => h.tables.map (fun t => t.segments.map fun s => (s.id, s.committed)) ==
          [[(2, 4096), (3, 0)]] && h.tables.map (·.freeRegions.length) == [1] &&
        h.provider.space.committed == 4096 && h.provider.space.reserved == 12288) = true := by
    decide +kernel
  obtain ⟨h, hr, hp⟩ := exists_of_leadsTo hpage
  simp only [Bool.and_eq_true, beq_iff_eq] at hp
  obtain ⟨⟨⟨hsegments, hpool⟩, hcommitted⟩, hreserved⟩ := hp
  obtain ⟨_, _, hzero, _, h', hrun, hcommitted', hreserved', _⟩ := books_exact hr
  exact ⟨h, hr, hsegments, hpool, hcommitted, hreserved, hzero, h', hrun, hcommitted', hreserved'⟩

end Heap

end GenHeap
