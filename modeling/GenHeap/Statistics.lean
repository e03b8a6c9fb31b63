import GenHeap.Compaction

/-!
Summaries of single collections, and statistics over all collections of a heap.
-/

namespace GenHeap

inductive CollectionReason where
  | allocationBudget
  | induced
  /-- asked for, with compaction -/
  | inducedCompacting
  | memoryPressure
  | lastBeforeOutOfMemory
  | background
  deriving DecidableEq, Repr

structure CollectionSummary where
  /-- the number of the collection, from 1 on -/
  index : Nat
  condemned : Generation
  reason : CollectionReason
  compaction : Option CompactionReason := none
  /-- whether it ended a background cycle -/
  background : Bool := false
  /-- whether a background cycle was given up for it -/
  abortedBackground : Bool := false
  objectsFreed : Nat := 0
  bytesFreed : Nat := 0
  objectsPromoted : Nat := 0
  bytesPromoted : Nat := 0
  objectsRelocated : Nat := 0
  finalizersReady : Nat := 0
  cardsScanned : Nat := 0
  falsePositiveCards : Nat := 0
  /-- nanoseconds for which the embedder was stopped -/
  pause : Nat := 0
  deriving DecidableEq, Repr

structure Statistics where
  /-- collections of the three ages -/
  collections : List Nat := [0, 0, 0]
  backgroundCollections : Nat := 0
  backgroundAborts : Nat := 0
  compactions : Nat := 0
  /-- nanoseconds -/
  totalPause : Nat := 0
  maxPause : Nat := 0
  totalAllocated : Nat := 0
  totalFreed : Nat := 0
  totalPromoted : Nat := 0
  totalRelocated : Nat := 0
  finalizersRun : Nat := 0
  finalizerFaults : Nat := 0
  allocationFailures : Nat := 0
  /-- bytes freed by the last collection -/
  lastCollected : Nat := 0
  deriving DecidableEq, Repr

namespace Statistics

def recordCollection (s : Statistics) (c : CollectionSummary) : Checked Statistics := do
  return { s with
    collections := s.collections.modify c.condemned.tier (· + 1)
    backgroundCollections := s.backgroundCollections + if c.background then 1 else 0
    compactions := s.compactions + if c.compaction.isSome then 1 else 0
    totalPause := s.totalPause + c.pause
    maxPause := max s.maxPause c.pause
    totalFreed := ← Word.add s.totalFreed c.bytesFreed
    totalPromoted := ← Word.add s.totalPromoted c.bytesPromoted
    totalRelocated := ← Word.add s.totalRelocated c.objectsRelocated
    lastCollected := c.bytesFreed }

def recordAllocation (s : Statistics) (bytes : Nat) : Checked Statistics := do
  return { s with totalAllocated := ← Word.add s.totalAllocated bytes }

def totalCollections (s : Statistics) : Nat := Word.total s.collections

def collectionsOf (s : Statistics) (g : Generation) : Nat := s.collections.getD g.tier 0

/-- The mean pause in whole nanoseconds, zero without collections. The number of collections is
cut to 32 bits, and one that is zero then is no divisor. -/
def averagePause (s : Statistics) : Checked Nat :=
  if s.totalCollections = 0 then .ok 0
  else
    let divisor := s.totalCollections % 0x100000000
    if divisor = 0 then .error .zeroDivisor else .ok (s.totalPause / divisor)

end Statistics

end GenHeap
