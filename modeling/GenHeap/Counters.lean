import GenHeap.Compaction

/-!
Counters of one heap, kept for its whole life: data points of collections, reasons to compact, ways
of growing, and kinds of collections.
-/

namespace GenHeap

inductive DataPoint where
  | cardsScanned
  | falsePositiveCards
  | pinnedSurvivors
  | objectsRelocated
  | bytesRelocated
  | objectsPromoted
  deriving DecidableEq, Repr

def DataPoint.index : DataPoint → Nat
  | cardsScanned => 0
  | falsePositiveCards => 1
  | pinnedSurvivors => 2
  | objectsRelocated => 3
  | bytesRelocated => 4
  | objectsPromoted => 5

inductive Expansion where
  | newSegment
  | newEphemeralSegment
  | newRegion
  | reusedRegion
  /-- for an unusually large object -/
  | largeObjectSpike
  /-- although enough bytes are free, in pieces that are too small -/
  | fragmentationGrowth
  /-- not at all -/
  | noMemory
  deriving DecidableEq, Repr

def Expansion.index : Expansion → Nat
  | newSegment => 0
  | newEphemeralSegment => 1
  | newRegion => 2
  | reusedRegion => 3
  | largeObjectSpike => 4
  | fragmentationGrowth => 5
  | noMemory => 6

inductive Mechanism where
  | induced
  | compacted
  | background
  | backgroundAborted
  | lastBeforeOutOfMemory
  deriving DecidableEq, Repr

def Mechanism.index : Mechanism → Nat
  | induced => 0
  | compacted => 1
  | background => 2
  | backgroundAborted => 3
  | lastBeforeOutOfMemory => 4

structure Counters where
  dataPoints : List Nat := List.replicate 6 0
  compactions : List Nat := List.replicate 5 0
  expansions : List Nat := List.replicate 7 0
  mechanisms : List Nat := List.replicate 5 0
  deriving DecidableEq, Repr

namespace Counters

def dataPoint (c : Counters) (p : DataPoint) : Nat := c.dataPoints.getD p.index 0

def compaction (c : Counters) (r : CompactionReason) : Nat := c.compactions.getD r.index 0

def expansion (c : Counters) (x : Expansion) : Nat := c.expansions.getD x.index 0

def mechanism (c : Counters) (m : Mechanism) : Nat := c.mechanisms.getD m.index 0

def add (c : Counters) (p : DataPoint) (amount : Nat) : Checked Counters := do
  return { c with dataPoints := c.dataPoints.set p.index (← Word.add (c.dataPoint p) amount) }

def recordCompaction (c : Counters) (r : CompactionReason) : Counters :=
  { c with compactions := c.compactions.modify r.index (· + 1) }

def recordExpansion (c : Counters) (x : Expansion) : Counters :=
  { c with expansions := c.expansions.modify x.index (· + 1) }

def recordMechanism (c : Counters) (m : Mechanism) : Counters :=
  { c with mechanisms := c.mechanisms.modify m.index (· + 1) }

end Counters

end GenHeap
