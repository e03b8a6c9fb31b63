import GenHeap.Heap.Publication
import GenHeap.Proofs.Board

/-!
What a publication puts on a board: after a full one every field shows what the heap holds at the
time, cut to the room of the field; the one after an allocation changes four fields only.
-/

namespace GenHeap

open Diagnostics (Board Field)
open Diagnostics.Board

namespace Heap

/-- What the fields of a logical heap stand for. -/
def display (h : Heap) (l : LogicalHeap) : Field → List Nat
  | .allocationPointer => [l.allocationPointer]
  | .ephemeralSegment => [l.ephemeralStart]
  | .finalizationQueue | .cardTable => [LogicalHeap.presentPointer]
  | .outOfMemoryEvents => l.failures.events.flatMap (·.encode)
  | .dataPoints => l.counters.dataPoints
  | .compactions => l.counters.compactions
  | .expansions => l.counters.expansions
  | .mechanisms => l.counters.mechanisms
  | .internalRoots => l.internalRoots
  | .internalRootCount => [l.internalRoots.length]
  | .analysisSuccess => [if l.analysisSucceeded then 1 else 0]
  | .markArray => [if h.background.isSome then LogicalHeap.presentPointer else 0]
  | .nextSweepObject => [h.sweeper.next]
  | .backgroundLow => [(h.background.map (·.low)).getD 0]
  | .backgroundHigh => [(h.background.map (·.high)).getD 0]
  | .savedEphemeralSegment => [(l.savedEphemeral.map (·.1)).getD 0]
  | .savedEphemeralPointer => [(l.savedEphemeral.map (·.2)).getD 0]
  | .collectionIndex => [h.collections]
  | .markPhase => [h.phase.code]
  | .budgets => (l.budgets.map (·.budget)).toList
  | .allocated => l.allocatedBytes
  | .segmentCount => [l.segments.count]
  | .readyFinalizers => [l.finalization.readyCount]
  | .backgroundAborts => [h.statistics.backgroundAborts]
  | .outOfMemoryTotal => [l.failures.total]

/-- The board of a logical heap after a full publication. -/
def drawn (h : Heap) (l : LogicalHeap) : Board :=
  { l.board with cycleActive := h.background.isSome }.publish fun b => h.writeShared (l.write b)

end Heap

/-- The fields that are written after an allocation. -/
def Diagnostics.Field.ofAllocation : Field → Bool
  | .allocationPointer | .ephemeralSegment | .allocated | .segmentCount => true
  | _ => false

/-- The fields that depend on more than one logical heap. -/
def Diagnostics.Field.isShared : Field → Bool
  | .cardTable | .markArray | .nextSweepObject | .backgroundLow | .backgroundHigh
  | .collectionIndex | .markPhase | .backgroundAborts => true
  | _ => false

namespace Heap

variable {h : Heap} {l : LogicalHeap} {b : Board} {f : Field}

theorem heaps_publish (h : Heap) :
    h.publish.heaps = h.heaps.map fun l => { l with board := h.drawn l } := rfl

/-! ## Well-formed boards -/

theorem formed_writeAllocation : (l.writeAllocation b).Formed ↔ b.Formed := by
  simp (disch := decide) only [LogicalHeap.writeAllocation, formed_set, formed_setArray]

theorem formed_write : (l.write b).Formed ↔ b.Formed := by
  simp (disch := decide) only [LogicalHeap.write, formed_set, formed_setFlag, formed_setArray,
    formed_writeAllocation]

theorem formed_writeShared : (h.writeShared b).Formed ↔ b.Formed := by
  simp only [writeShared, formed_set]

theorem eventCapacity_writeAllocation :
    (l.writeAllocation b).eventCapacity = b.eventCapacity := by
  simp only [LogicalHeap.writeAllocation, eventCapacity_set, eventCapacity_setArray]

theorem eventCapacity_write : (l.write b).eventCapacity = b.eventCapacity := by
  simp only [LogicalHeap.write, eventCapacity_set, eventCapacity_setFlag, eventCapacity_setArray,
    eventCapacity_writeAllocation]

theorem eventCapacity_writeShared : (h.writeShared b).eventCapacity = b.eventCapacity := by
  simp only [writeShared, eventCapacity_set]

/-! ## What is shown -/

/-- What a field shows of some words. -/
def cut (capacity : Nat) (f : Field) (ws : List Nat) : List Nat :=
  fitting (room capacity f) (elementWords f) ws

theorem words_writeAllocation_of_ne (hf : f.ofAllocation = false) :
    (l.writeAllocation b).words f = b.words f := by
  unfold LogicalHeap.writeAllocation
  cases f <;> first
    | exact absurd hf (by decide)
    | simp (disch := decide) only [words_set_of_ne, words_setArray_of_ne]

theorem words_writeAllocation (hb : b.Formed) (hf : f.ofAllocation = true) :
    (l.writeAllocation b).words f = cut b.eventCapacity f (h.display l f) := by
  unfold LogicalHeap.writeAllocation
  cases f <;> first
    | exact absurd hf (by decide)
    | simp (disch := first
        | decide
        | simpa (disch := decide) only [formed_set, formed_setArray] using hb) only
        [words_set_of_ne, words_setArray_of_ne, words_set_self, words_setArray_self, cut, display,
          fitting_of_isWord, eventCapacity_set]

theorem words_write (hb : b.Formed) (hf : f.isShared = false) :
    (l.write b).words f = cut b.eventCapacity f (h.display l f) := by
  cases hallocation : f.ofAllocation with
  | true =>
    rw [← words_writeAllocation hb hallocation]
    unfold LogicalHeap.write
    cases f <;> first
      | exact absurd hallocation (by decide)
      | simp (disch := decide) only [words_set_of_ne, words_setArray_of_ne, words_setFlag_of_ne]
  | false =>
    unfold LogicalHeap.write
    cases f <;> first
      | exact absurd hf (by decide)
      | exact absurd hallocation (by decide)
      | simp (disch := first
          | decide
          | simpa (disch := decide) only [formed_set, formed_setFlag, formed_setArray,
              formed_writeAllocation] using hb) only
          [words_set_of_ne, words_setArray_of_ne, words_setFlag_of_ne, words_set_self,
            words_setFlag_self, words_setArray_self, cut, display, fitting_of_isWord,
            eventCapacity_set, eventCapacity_setFlag, eventCapacity_setArray,
            eventCapacity_writeAllocation]

theorem words_writeShared_of_ne (hf : f.isShared = false) :
    (h.writeShared b).words f = b.words f := by
  unfold writeShared
  cases f <;> first
    | exact absurd hf (by decide)
    | simp (disch := decide) only [words_set_of_ne]

theorem words_writeShared (hb : b.Formed) (hf : f.isShared = true) :
    (h.writeShared b).words f = cut b.eventCapacity f (h.display l f) := by
  unfold writeShared
  cases f <;> first
    | exact absurd hf (by decide)
    | simp (disch := first
        | decide
        | simpa only [formed_set] using hb) only
        [words_set_of_ne, words_set_self, cut, display, fitting_of_isWord]

/-- After a full publication every field shows what it stands for. -/
theorem words_drawn (hb : l.board.Formed) (f : Field) :
    (h.drawn l).words f = cut l.board.eventCapacity f (h.display l f) := by
  unfold drawn
  rw [words_publish]
  generalize hstart : ({ l.board with cycleActive := h.background.isSome } : Board).turn = start
  have hcapacity : l.board.eventCapacity = start.eventCapacity := by
    subst hstart
    rfl
  have hformed : start.Formed := by
    subst hstart
    exact hb.of_cells rfl
  rw [hcapacity]
  cases hf : f.isShared with
  | true => rw [words_writeShared (l := l) (formed_write.2 hformed) hf, eventCapacity_write]
  | false =>
    rw [words_writeShared_of_ne hf]
    exact words_write hformed hf

theorem formed_drawn (hb : l.board.Formed) : (h.drawn l).Formed := by
  have hstart : ({ l.board with cycleActive := h.background.isSome } : Board).Formed :=
    hb.of_cells rfl
  unfold drawn Board.publish
  rwa [formed_turn, formed_writeShared, formed_write, formed_turn]

theorem eventCapacity_drawn : (h.drawn l).eventCapacity = l.board.eventCapacity := by
  have hwritten (b : Board) : (h.writeShared (l.write b)).eventCapacity = b.eventCapacity := by
    rw [eventCapacity_writeShared, eventCapacity_write]
  unfold drawn
  rw [eventCapacity_publish hwritten]
  rfl

/-- The publication after an allocation changes the fields that an allocation writes. -/
theorem words_publishAllocation_of_ne (hf : f.ofAllocation = false) :
    l.publishAllocation.board.words f = l.board.words f := by
  unfold LogicalHeap.publishAllocation
  rw [words_publish, words_writeAllocation_of_ne hf]
  rfl

theorem words_publishAllocation (hb : l.board.Formed) (hf : f.ofAllocation = true) :
    l.publishAllocation.board.words f = cut l.board.eventCapacity f (h.display l f) := by
  unfold LogicalHeap.publishAllocation
  rw [words_publish, words_writeAllocation (formed_turn.2 hb) hf]
  rfl

theorem formed_publishAllocation (hb : l.board.Formed) : l.publishAllocation.board.Formed := by
  unfold LogicalHeap.publishAllocation Board.publish
  rwa [formed_turn, formed_writeAllocation, formed_turn]

theorem eventCapacity_publishAllocation :
    l.publishAllocation.board.eventCapacity = l.board.eventCapacity :=
  eventCapacity_publish fun _ => eventCapacity_writeAllocation

end Heap

end GenHeap
