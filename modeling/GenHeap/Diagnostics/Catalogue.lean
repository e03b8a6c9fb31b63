import GenHeap.Config
import GenHeap.OutOfMemory

/-!
The catalogue of diagnostic fields. A tool finds a field by name and checks its type; what a field
needs of the configuration stands beside it, and a field that a configuration does not have is
missing rather than zero. The catalogue only grows: each field names the version that added it.
-/

namespace GenHeap.Diagnostics

def catalogueVersion : Nat := 2

/-- The most roots that an analysis records. -/
def maxInternalRoots : Nat := 64

inductive Field where
  | allocationPointer
  | ephemeralSegment
  | finalizationQueue
  | outOfMemoryEvents
  | dataPoints
  | compactions
  | expansions
  | mechanisms
  | internalRoots
  | internalRootCount
  | analysisSuccess
  | cardTable
  | markArray
  | nextSweepObject
  | backgroundLow
  | backgroundHigh
  | savedEphemeralSegment
  | savedEphemeralPointer
  | collectionIndex
  | markPhase
  | budgets
  | allocated
  | segmentCount
  | readyFinalizers
  | backgroundAborts
  | outOfMemoryTotal
  deriving DecidableEq, Repr

inductive TypeTag where
  | address | size | bool | phase | segment | finalizationQueue | cardTable | markArray
  | outOfMemoryEvent
  deriving DecidableEq, Repr

namespace TypeTag

def all : List TypeTag :=
  [address, size, bool, phase, segment, finalizationQueue, cardTable, markArray, outOfMemoryEvent]

def name : TypeTag → String
  | address => "address"
  | size => "size"
  | bool => "bool"
  | phase => "phase"
  | segment => "segment*"
  | finalizationQueue => "finalize_queue*"
  | cardTable => "card_table*"
  | markArray => "mark_array*"
  | outOfMemoryEvent => "oom_event"

def ofName? (s : String) : Option TypeTag := all.find? (·.name == s)

end TypeTag

inductive Shape where
  /-- one word -/
  | direct
  /-- one word that points to a structure of the heap -/
  | pointer
  /-- a number of words that never changes -/
  | fixed (words : Nat)
  /-- any number of elements of some words each -/
  | varying (elementWords : Nat)
  deriving DecidableEq, Repr

inductive Capability where
  | backgroundCollection
  | segments
  deriving DecidableEq, Repr

structure Capabilities where
  backgroundCollection : Bool := false
  segments : Bool := false
  deriving DecidableEq, Repr

namespace Capabilities

def ofConfig (c : Config) : Capabilities where
  backgroundCollection := c.concurrent
  segments := c.layout == .segments

def has (c : Capabilities) : Capability → Bool
  | .backgroundCollection => c.backgroundCollection
  | .segments => c.segments

def satisfies (c : Capabilities) (needed : List Capability) : Bool := needed.all c.has

end Capabilities

structure Descriptor where
  name : String
  tag : TypeTag
  shape : Shape
  needs : List Capability := []
  /-- whether the field can change while it is read during a background cycle -/
  volatile : Bool := false
  /-- the first version with the field -/
  since : Nat := 1
  deriving DecidableEq, Repr

namespace Field

def all : List Field :=
  [allocationPointer, ephemeralSegment, finalizationQueue, outOfMemoryEvents, dataPoints,
   compactions, expansions, mechanisms, internalRoots, internalRootCount, analysisSuccess,
   cardTable, markArray, nextSweepObject, backgroundLow, backgroundHigh, savedEphemeralSegment,
   savedEphemeralPointer, collectionIndex, markPhase, budgets, allocated, segmentCount,
   readyFinalizers, backgroundAborts, outOfMemoryTotal]

def index : Field → Nat
  | allocationPointer => 0
  | ephemeralSegment => 1
  | finalizationQueue => 2
  | outOfMemoryEvents => 3
  | dataPoints => 4
  | compactions => 5
  | expansions => 6
  | mechanisms => 7
  | internalRoots => 8
  | internalRootCount => 9
  | analysisSuccess => 10
  | cardTable => 11
  | markArray => 12
  | nextSweepObject => 13
  | backgroundLow => 14
  | backgroundHigh => 15
  | savedEphemeralSegment => 16
  | savedEphemeralPointer => 17
  | collectionIndex => 18
  | markPhase => 19
  | budgets => 20
  | allocated => 21
  | segmentCount => 22
  | readyFinalizers => 23
  | backgroundAborts => 24
  | outOfMemoryTotal => 25

private def number (name : String) (since : Nat) : Descriptor :=
  { name, tag := .size, shape := .direct, since }

/-- As many numbers as `words` says. -/
private def numbers (name : String) (words : Nat) (since : Nat) : Descriptor :=
  { name, tag := .size, shape := .fixed words, since }

/-- An address that a background cycle changes. -/
private def tracked (name : String) (needs : List Capability) : Descriptor :=
  { name, tag := .address, shape := .direct, needs, volatile := true }

def descriptor : Field → Descriptor
  | allocationPointer => tracked "alloc_allocated" []
  | ephemeralSegment =>
    { name := "ephemeral_heap_segment", tag := .segment, shape := .pointer, needs := [.segments] }
  | finalizationQueue =>
    { name := "finalize_queue", tag := .finalizationQueue, shape := .pointer }
  | outOfMemoryEvents =>
    { name := "oom_info", tag := .outOfMemoryEvent, shape := .varying OutOfMemory.Event.words }
  | dataPoints => numbers "interesting_data_per_heap" 6 1
  | compactions => numbers "compact_reasons_per_heap" 5 1
  | expansions => numbers "expand_mechanisms_per_heap" 7 1
  | mechanisms => numbers "interesting_mechanism_bits_per_heap" 5 1
  | internalRoots => { name := "internal_root_array", tag := .address, shape := .varying 1 }
  | internalRootCount => number "internal_root_array_index" 1
  | analysisSuccess => { name := "heap_analyze_success", tag := .bool, shape := .direct }
  | cardTable => { name := "card_table", tag := .cardTable, shape := .pointer }
  | markArray =>
    { name := "mark_array", tag := .markArray, shape := .pointer, needs := [.backgroundCollection]
      volatile := true }
  | nextSweepObject => tracked "next_sweep_obj" [.backgroundCollection]
  | backgroundLow => tracked "background_saved_lowest_address" [.backgroundCollection]
  | backgroundHigh => tracked "background_saved_highest_address" [.backgroundCollection]
  | savedEphemeralSegment =>
    { name := "saved_sweep_ephemeral_seg", tag := .segment, shape := .pointer
      needs := [.backgroundCollection, .segments], volatile := true }
  | savedEphemeralPointer =>
    tracked "saved_sweep_ephemeral_start" [.backgroundCollection, .segments]
  | collectionIndex => number "gc_index" 2
  | markPhase =>
    { name := "mark_phase", tag := .phase, shape := .direct, volatile := true, since := 2 }
  | budgets => numbers "generation_budgets" 5 2
  | allocated => { numbers "generation_allocated" 5 2 with volatile := true }
  | segmentCount => number "segment_count" 2
  | readyFinalizers => number "finalize_ready_count" 2
  | backgroundAborts => number "concurrent_mark_aborts" 2
  | outOfMemoryTotal => number "oom_total" 2

def name (f : Field) : String := f.descriptor.name

def ofName? (s : String) : Option Field := all.find? (·.name == s)

def isAvailable (f : Field) (c : Capabilities) : Bool := c.satisfies f.descriptor.needs

def isKnownIn (f : Field) (v : Nat) : Bool := f.descriptor.since ≤ v

theorem all_index (f : Field) : all[f.index]? = some f := by cases f <;> rfl

theorem mem_all (f : Field) : f ∈ all := List.mem_of_getElem? (all_index f)

theorem ofName?_name (f : Field) : ofName? f.name = some f := by cases f <;> decide

end Field

end GenHeap.Diagnostics
