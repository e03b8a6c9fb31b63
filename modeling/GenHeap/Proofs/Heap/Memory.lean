import GenHeap.Heap.Finalizers
import GenHeap.Proofs.SegmentArena

/-!
The part of a heap that decides what is alive and where it lies, with the number of collections.
Budgets, counters, boards, statistics and the clock are no part of it, so an operation on these
leaves the memory as it is.
-/

namespace GenHeap

structure Memory where
  provider : Provider
  /-- the segments of each logical heap -/
  tables : List SegmentTable
  space : ObjectSpace
  handles : HandleTable
  /-- the finalization queue of each logical heap -/
  queues : List FinalizationQueue
  cards : CardTable
  writeWatch : CardTable
  watching : Bool
  background : Option BackgroundMark
  /-- the collections begun so far -/
  collections : Nat

namespace Heap

variable {h h' : Heap} {i : Nat} {l : LogicalHeap}

def memory (h : Heap) : Memory where
  provider := h.provider
  tables := h.heaps.map (·.segments)
  space := h.space
  handles := h.handles
  queues := h.heaps.map (·.finalization)
  cards := h.cards
  writeWatch := h.writeWatch
  watching := h.watching
  background := h.background
  collections := h.collections

theorem getElem?_tables (hl : h.heaps[i]? = some l) : h.memory.tables[i]? = some l.segments := by
  show (h.heaps.map (·.segments))[i]? = _
  rw [List.getElem?_map, hl]
  rfl

theorem memory_queues : h.memory.queues[i]? = (h.heaps[i]?).map (·.finalization) :=
  List.getElem?_map ..

/-- Logical heaps with segments have queues. -/
theorem exists_queue {t : SegmentTable} (ht : h.memory.tables[i]? = some t) :
    ∃ q, h.memory.queues[i]? = some q := by
  obtain ⟨l, hl, _⟩ := Option.map_eq_some_iff.1 ((List.getElem?_map ..).symm.trans ht)
  rw [memory_queues, hl]
  exact ⟨l.finalization, rfl⟩

theorem length_tables : h.memory.tables.length = h.heaps.length := List.length_map ..

theorem getElem?_queues {f : FinalizationQueue → FinalizationQueue}
    (hq : h'.memory.queues = h.memory.queues.map f) (hl : h.heaps[i]? = some l) :
    ∃ l', h'.heaps[i]? = some l' ∧ l'.finalization = f l.finalization := by
  have hi : (h'.heaps.map (·.finalization))[i]? = ((h.heaps.map (·.finalization)).map f)[i]? :=
    congrArg (·[i]?) hq
  rw [List.getElem?_map, List.getElem?_map, List.getElem?_map, hl] at hi
  exact Option.map_eq_some_iff.1 hi

theorem getElem?_modifyHeap {f : LogicalHeap → LogicalHeap} (hl : h.heaps[i]? = some l) :
    (h.modifyHeap i f).heaps[i]? = some (f l) := by
  show (h.heaps.modify i f)[i]? = _
  simp only [List.getElem?_modify, hl, if_true, Option.map_eq_map, Option.map_some]

/-! ## Changes of the logical heaps -/

theorem memory_modifyHeaps {f : LogicalHeap → LogicalHeap}
    (hs : ∀ l, (f l).segments = l.segments) (hq : ∀ l, (f l).finalization = l.finalization) :
    (h.modifyHeaps f).memory = h.memory := by
  have hs' : h.heaps.map (fun l => (f l).segments) = h.heaps.map (·.segments) :=
    List.map_congr_left fun l _ => hs l
  have hq' : h.heaps.map (fun l => (f l).finalization) = h.heaps.map (·.finalization) :=
    List.map_congr_left fun l _ => hq l
  simp only [memory, modifyHeaps, List.map_map, Function.comp_def, hs', hq']

theorem memory_modifyHeaps_queues {f : LogicalHeap → LogicalHeap}
    {q : FinalizationQueue → FinalizationQueue}
    (hs : ∀ l, (f l).segments = l.segments) (hq : ∀ l, (f l).finalization = q l.finalization) :
    (h.modifyHeaps f).memory = { h.memory with queues := h.memory.queues.map q } := by
  have hs' : h.heaps.map (fun l => (f l).segments) = h.heaps.map (·.segments) :=
    List.map_congr_left fun l _ => hs l
  have hq' : h.heaps.map (fun l => (f l).finalization) =
      h.heaps.map fun l => q l.finalization := List.map_congr_left fun l _ => hq l
  simp only [memory, modifyHeaps, List.map_map, Function.comp_def, hs', hq']

theorem map_modify {α β : Type} {f : α → α} {g : α → β} {k : β → β} (xs : List α) (i : Nat)
    (h : ∀ a, g (f a) = k (g a)) : (xs.modify i f).map g = (xs.map g).modify i k := by
  apply List.ext_getElem?
  intro j
  simp only [List.getElem?_map, List.getElem?_modify]
  cases xs[j]? with
  | none => rfl
  | some a =>
    simp only [Option.map_some]
    split <;> simp [h]

theorem memory_modifyHeap {f : LogicalHeap → LogicalHeap}
    (hs : ∀ l, (f l).segments = l.segments) (hq : ∀ l, (f l).finalization = l.finalization) :
    (h.modifyHeap i f).memory = h.memory := by
  have hs' := map_modify (k := id) h.heaps i hs
  have hq' := map_modify (k := id) h.heaps i hq
  rw [List.modify_id] at hs' hq'
  simp only [memory, modifyHeap, hs', hq']

theorem memory_modifyHeap_queues {f : LogicalHeap → LogicalHeap}
    {q : FinalizationQueue → FinalizationQueue}
    (hs : ∀ l, (f l).segments = l.segments) (hq : ∀ l, (f l).finalization = q l.finalization) :
    (h.modifyHeap i f).memory = { h.memory with queues := h.memory.queues.modify i q } := by
  have hs' := map_modify (k := id) h.heaps i hs
  rw [List.modify_id] at hs'
  simp only [memory, modifyHeap, hs', map_modify h.heaps i hq]

theorem memory_updateHeap_queues {f : LogicalHeap → Checked LogicalHeap}
    {q : FinalizationQueue → FinalizationQueue}
    (hf : ∀ l l', f l = .ok l' → l'.segments = l.segments ∧ l'.finalization = q l.finalization)
    (hrun : h.updateHeap i f = .ok h') :
    h'.memory = { h.memory with queues := h.memory.queues.modify i q } := by
  unfold updateHeap at hrun
  cases hl : h.heaps[i]? with
  | none =>
    simp only [hl] at hrun
    cases hrun
    have hlen : h.memory.queues.length ≤ i := by
      rw [show h.memory.queues.length = h.heaps.length from List.length_map ..]
      exact List.getElem?_eq_none_iff.1 hl
    rw [List.modify_eq_self hlen]
  | some l =>
    simp only [hl, Checked.bind_eq_ok, Checked.pure_eq_ok] at hrun
    obtain ⟨l', hl', rfl⟩ := hrun
    obtain ⟨hs, hq⟩ := hf l l' hl'
    have hset {β : Type} (g : LogicalHeap → β) (k : β → β) (hg : g l' = k (g l)) :
        (h.heaps.set i l').map g = (h.heaps.map g).modify i k := by
      apply List.ext_getElem?
      intro j
      rw [List.getElem?_map, List.getElem?_set, List.getElem?_modify, List.getElem?_map]
      by_cases hj : i = j
      · subst hj
        simp only [if_true, (List.getElem?_eq_some_iff.1 hl).1, hl, Option.map_eq_map,
          Option.map_some, hg]
      · simp only [hj, if_false, Option.map_eq_map, Option.map_id']
    have hs' := hset LogicalHeap.segments id hs
    rw [List.modify_id] at hs'
    simp only [memory, hs', hset LogicalHeap.finalization q hq]

theorem memory_updateHeap {f : LogicalHeap → Checked LogicalHeap}
    (hf : ∀ l l', f l = .ok l' → l'.segments = l.segments ∧ l'.finalization = l.finalization)
    (hrun : h.updateHeap i f = .ok h') : h'.memory = h.memory := by
  rw [memory_updateHeap_queues (q := id) hf hrun, List.modify_id]

theorem memory_publish (h : Heap) : h.publish.memory = h.memory :=
  memory_modifyHeaps (fun _ => rfl) fun _ => rfl

theorem memory_countExpansion (h : Heap) (i : Nat) (x : Expansion) :
    (h.countExpansion i x).memory = h.memory :=
  memory_modifyHeap (fun _ => rfl) fun _ => rfl

theorem memory_countMechanism (h : Heap) (m : Mechanism) :
    (h.countMechanism m).memory = h.memory :=
  memory_modifyHeaps (fun _ => rfl) fun _ => rfl

theorem memory_count {p : DataPoint} {amount : Nat} (hrun : h.count i p amount = .ok h') :
    h'.memory = h.memory := by
  refine memory_updateHeap (fun l l' hl' => ?_) hrun
  simp only [Checked.bind_eq_ok, Checked.pure_eq_ok] at hl'
  obtain ⟨counters, _, rfl⟩ := hl'
  exact ⟨rfl, rfl⟩

/-! ## Segments with their provider -/

/-- The segments of a logical heap with the shared provider. -/
def arena (h : Heap) (l : LogicalHeap) : SegmentArena :=
  { table := l.segments, provider := h.provider }

/-- The heap after its arena of logical heap `i` has changed. -/
def withArena (h : Heap) (i : Nat) (arena : SegmentArena) : Heap :=
  { h.modifyHeap i fun l => { l with segments := arena.table } with provider := arena.provider }

theorem onArena_eq_ok {α : Type} {t : Transition SegmentArena α} {r : Except HeapError α}
    (hl : h.heaps[i]? = some l) : onArena i t h = .ok (r, h') ↔
      ∃ arena, t (h.arena l) = .ok (r, arena) ∧ h' = h.withArena i arena := by
  simp only [onArena, fetchHeap, hl, Effect.get_bind, Transition.ofExcept_bind]
  exact Transition.onPart_eq_ok

theorem withArena_arena (hl : h.heaps[i]? = some l) : h.withArena i (h.arena l) = h := by
  have hheaps : h.heaps.modify i (fun x => { x with segments := l.segments }) = h.heaps := by
    apply List.ext_getElem?
    intro j
    rw [List.getElem?_modify]
    by_cases hj : i = j
    · subst hj
      rw [hl]
      simp only [if_true, Option.map_eq_map, Option.map_some]
    · simp only [hj, if_false, Option.map_eq_map, Option.map_id']
  unfold withArena modifyHeap arena
  simp only [hheaps]

theorem withArena_withArena {arena arena' : SegmentArena} :
    (h.withArena i arena).withArena i arena' = h.withArena i arena' := by
  unfold withArena modifyHeap
  simp only [List.modify_modify_eq]
  rfl

theorem memory_withArena {arena : SegmentArena} :
    (h.withArena i arena).memory =
      { h.memory with
        tables := h.memory.tables.set i arena.table, provider := arena.provider } := by
  have hs : (h.heaps.modify i fun l => { l with segments := arena.table }).map (·.segments) =
      (h.heaps.map (·.segments)).set i arena.table := by
    rw [map_modify (k := fun _ => arena.table) h.heaps i fun _ => rfl]
    apply List.ext_getElem?
    intro j
    rw [List.getElem?_modify, List.getElem?_set]
    by_cases hj : i = j
    · subst hj
      simp only [if_true, List.length_map]
      split
      next hlt => rw [List.getElem?_eq_getElem (by simpa using hlt)]; rfl
      next hlt => rw [List.getElem?_eq_none (by simpa using hlt)]; rfl
    · simp only [hj, if_false, Option.map_eq_map, Option.map_id']
  have hq : (h.heaps.modify i fun l => { l with segments := arena.table }).map (·.finalization) =
      h.heaps.map (·.finalization) := by
    have hmap := map_modify (g := LogicalHeap.finalization) (k := id)
      (f := fun l => { l with segments := arena.table }) h.heaps i fun _ => rfl
    rwa [List.modify_id] at hmap
  simp only [memory, withArena, modifyHeap, hs, hq]

end Heap

end GenHeap
