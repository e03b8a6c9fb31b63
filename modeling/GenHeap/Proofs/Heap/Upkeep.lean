import GenHeap.Proofs.Heap.Lasting
import GenHeap.Proofs.Heap.Reachable

/-!
What a heap keeps besides its objects for the sake of a background cycle: the watch on writes, the
saved ranges of the ephemeral segments, the phase, the place of the sweeper, and what the boards
show. All of it is in order between operations: there with a cycle, and gone without one, whatever
has ended the last.
-/

namespace GenHeap

/-- The parts of a heap that go with a background cycle. -/
structure Upkeep where
  /-- the low bound of the cycle in progress -/
  low : Option Nat
  watching : Bool
  /-- the cards that were written -/
  written : List Nat
  /-- the saved range of each logical heap -/
  saved : List (Option (Nat × Nat))
  /-- whether each board shows a cycle -/
  shown : List Bool
  phase : MarkPhase
  /-- where the sweeper stands -/
  next : Nat

namespace Upkeep

/-- What there is goes with the cycle in progress, and without one there is nothing. -/
structure InOrder (u : Upkeep) : Prop where
  watching : u.watching = u.low.isSome
  shown : ∀ s ∈ u.shown, s = u.low.isSome
  written : u.low = none → u.written = []
  saved : u.low = none → ∀ s ∈ u.saved, s = none
  phase : u.low = none → u.phase = .idle
  next : ∀ low, u.low = some low → u.next = low

end Upkeep

theorem BackgroundMark.low_step (space : ObjectSpace) (chunk : Nat) (b : BackgroundMark) :
    (step space chunk b).low = b.low := map_step (fun _ _ _ _ _ => rfl) space chunk b

theorem BackgroundMark.low_allocateBlack (b : BackgroundMark) (a : Nat) :
    (b.allocateBlack a).low = b.low := by
  unfold allocateBlack
  split <;> rfl

namespace Heap

open Diagnostics (Board)

variable {α β : Type} {h h' : Heap} {i x a size : Nat} {condemned target : Generation}

def upkeep (h : Heap) : Upkeep where
  low := h.background.map (·.low)
  watching := h.watching
  written := h.writeWatch.dirtyCards
  saved := h.heaps.map (·.savedEphemeral)
  shown := h.heaps.map (·.board.cycleActive)
  phase := h.pausePhase
  next := h.sweeper.next

/-! ## Changes of the logical heaps -/

theorem upkeep_of_heaps {heaps : List LogicalHeap}
    (hsaved : heaps.map (·.savedEphemeral) = h.heaps.map (·.savedEphemeral))
    (hshown : heaps.map (·.board.cycleActive) = h.heaps.map (·.board.cycleActive)) :
    ({ h with heaps } : Heap).upkeep = h.upkeep := by
  unfold upkeep
  simp only [hsaved, hshown]

theorem upkeep_modifyHeap {f : LogicalHeap → LogicalHeap}
    (hsaved : ∀ l, (f l).savedEphemeral = l.savedEphemeral)
    (hshown : ∀ l, (f l).board.cycleActive = l.board.cycleActive) :
    (h.modifyHeap i f).upkeep = h.upkeep :=
  upkeep_of_heaps (map_modify_of_same hsaved _) (map_modify_of_same hshown _)

theorem upkeep_modifyHeaps {f : LogicalHeap → LogicalHeap}
    (hsaved : ∀ l, (f l).savedEphemeral = l.savedEphemeral)
    (hshown : ∀ l, (f l).board.cycleActive = l.board.cycleActive) :
    (h.modifyHeaps f).upkeep = h.upkeep := by
  refine upkeep_of_heaps ?_ ?_
  · rw [List.map_map]
    exact List.map_congr_left fun l _ => hsaved l
  · rw [List.map_map]
    exact List.map_congr_left fun l _ => hshown l

theorem upkeep_updateHeap {f : LogicalHeap → Checked LogicalHeap}
    (hf : ∀ l l', f l = .ok l' → l'.savedEphemeral = l.savedEphemeral ∧
      l'.board.cycleActive = l.board.cycleActive) (hrun : h.updateHeap i f = .ok h') :
    h'.upkeep = h.upkeep := by
  obtain ⟨he, hsaved⟩ := map_updateHeap (fun l l' hl => (hf l l' hl).1) hrun
  obtain ⟨_, hshown⟩ := map_updateHeap (fun l l' hl => (hf l l' hl).2) hrun
  rw [he]
  exact upkeep_of_heaps hsaved hshown

theorem upkeep_refits (hr : h.Refits h') : h'.upkeep = h.upkeep := by
  have hsaved := hr.map (g := (·.savedEphemeral)) fun _ => rfl
  have hshown := hr.map (g := (·.board.cycleActive)) fun _ => rfl
  rw [hr.rest]
  exact upkeep_of_heaps hsaved hshown

/-! ## Publication -/

theorem cycleActive_set (b : Board) (f : Diagnostics.Field) (value : Nat) :
    (b.set f value).cycleActive = b.cycleActive := rfl

theorem cycleActive_setArray (b : Board) (f : Diagnostics.Field) (values : List Nat) :
    (b.setArray f values).cycleActive = b.cycleActive := rfl

theorem cycleActive_writeAllocation (l : LogicalHeap) (b : Board) :
    (l.writeAllocation b).cycleActive = b.cycleActive := by
  simp only [LogicalHeap.writeAllocation, cycleActive_set, cycleActive_setArray]

theorem cycleActive_write (l : LogicalHeap) (b : Board) :
    (l.write b).cycleActive = b.cycleActive := by
  simp only [LogicalHeap.write, Board.setFlag, cycleActive_set, cycleActive_setArray,
    cycleActive_writeAllocation]

theorem cycleActive_writeShared (b : Board) : (h.writeShared b).cycleActive = b.cycleActive := by
  simp only [writeShared, cycleActive_set]

theorem cycleActive_publish {write : Board → Board}
    (hwrite : ∀ b, (write b).cycleActive = b.cycleActive) (b : Board) :
    (b.publish write).cycleActive = b.cycleActive := hwrite b.turn

/-- A publication shows on every board whether there is a cycle. -/
theorem upkeep_publish : h.publish.upkeep =
    { h.upkeep with shown := h.heaps.map fun _ => h.background.isSome } := by
  have hshown (l : LogicalHeap) : (({ l.board with cycleActive := h.background.isSome } :
      Board).publish fun b => h.writeShared (l.write b)).cycleActive = h.background.isSome :=
    cycleActive_publish (fun b => (cycleActive_writeShared _).trans (cycleActive_write l b)) _
  have hheaps : h.publish.heaps.map (·.board.cycleActive) =
      h.heaps.map fun _ => h.background.isSome := by
    unfold publish modifyHeaps
    rw [List.map_map]
    exact List.map_congr_left fun l _ => hshown l
  have hsaved : h.publish.heaps.map (·.savedEphemeral) = h.heaps.map (·.savedEphemeral) := by
    unfold publish modifyHeaps
    rw [List.map_map]
    rfl
  unfold upkeep
  rw [hheaps, hsaved]
  rfl

variable {summary summary' : CollectionSummary}

/-- The upkeep is a part of what the stages of a collection pass by. -/
def Lasting.upkeep (s : Lasting) : Upkeep where
  low := s.background.map (·.low)
  watching := s.watching
  written := s.writeWatch.dirtyCards
  saved := s.heaps.map (·.savedEphemeral)
  shown := s.heaps.map (·.view.face.board.cycleActive)
  phase := s.phase
  next := s.next

end Heap

end GenHeap
