import GenHeap.Diagnostics.Snapshot
import GenHeap.Heap.State

/-!
What a heap publishes on its boards. A full publication writes every field, one after an
allocation the fields that allocating changes. Of structures inside the heap a board shows only
whether they are there.
-/

namespace GenHeap

open Diagnostics (Board Source Snapshot)

namespace LogicalHeap

/-- The pointer to a structure that is there. -/
def presentPointer : Nat := 1

def allocatedBytes (l : LogicalHeap) : List Nat := (l.budgets.map (·.allocated)).toList

def writeAllocation (l : LogicalHeap) (b : Board) : Board :=
  b |>.set .allocationPointer l.allocationPointer
    |>.set .ephemeralSegment l.ephemeralStart
    |>.setArray .allocated l.allocatedBytes
    |>.set .segmentCount l.segments.count

/-- Writes what depends on this logical heap alone. -/
def write (l : LogicalHeap) (b : Board) : Board :=
  l.writeAllocation b
    |>.set .finalizationQueue presentPointer
    |>.setArray .outOfMemoryEvents (l.failures.events.flatMap (·.encode))
    |>.setArray .dataPoints l.counters.dataPoints
    |>.setArray .compactions l.counters.compactions
    |>.setArray .expansions l.counters.expansions
    |>.setArray .mechanisms l.counters.mechanisms
    |>.setArray .internalRoots l.internalRoots
    |>.set .internalRootCount l.internalRoots.length
    |>.setFlag .analysisSuccess l.analysisSucceeded
    |>.set .savedEphemeralSegment ((l.savedEphemeral.map (·.1)).getD 0)
    |>.set .savedEphemeralPointer ((l.savedEphemeral.map (·.2)).getD 0)
    |>.setArray .budgets (l.budgets.map (·.budget)).toList
    |>.set .readyFinalizers l.finalization.readyCount
    |>.set .outOfMemoryTotal l.failures.total

def publishAllocation (l : LogicalHeap) : LogicalHeap :=
  { l with board := l.board.publish l.writeAllocation }

end LogicalHeap

namespace Heap

def writeShared (h : Heap) (b : Board) : Board :=
  b |>.set .cardTable LogicalHeap.presentPointer
    |>.set .markArray (if h.background.isSome then LogicalHeap.presentPointer else 0)
    |>.set .nextSweepObject h.sweeper.next
    |>.set .backgroundLow ((h.background.map (·.low)).getD 0)
    |>.set .backgroundHigh ((h.background.map (·.high)).getD 0)
    |>.set .collectionIndex h.collections
    |>.set .markPhase h.phase.code
    |>.set .backgroundAborts h.statistics.backgroundAborts

def publish (h : Heap) : Heap :=
  h.modifyHeaps fun l =>
    let board := { l.board with cycleActive := h.background.isSome }
    { l with board := board.publish fun b => h.writeShared (l.write b) }

def source (h : Heap) : Source := .ofBoards h.capabilities (h.heaps.map (·.board))

def snapshot (h : Heap) (takenAt : UtcTime) : Snapshot := h.source.capture takenAt

/-- A heap with nothing in it, on memory of a provider with some range. Refused for a
configuration with an issue. -/
def onRange (config : Config) (range : AddressRange) : Checked (Except HeapError Heap) := do
  match config.validate with
  | .error issue => return .error (.invalidConfig issue.text)
  | .ok () =>
    let cards ← CardTable.ofRange range config.cardSize
    let heaps ← (List.range config.heapCount).mapM fun _ => LogicalHeap.ofConfig config
    let heap : Heap := { config, provider := .ofRange range, cards, writeWatch := cards, heaps }
    return .ok heap.publish

/-- A heap on the address range of its configuration. -/
def ofConfig (config : Config) : Checked (Except HeapError Heap) :=
  onRange config config.addressRange

end Heap

end GenHeap
