import GenHeap.Address
import GenHeap.Generation

/-!
Configurations of a heap: layout, sizes, budgets and the thresholds of every heuristic, with their
defaults and the conditions that a usable configuration meets.
-/

namespace GenHeap

/-- How the address space of a generation is organised. -/
inductive Layout where
  /-- lists of growing segments, and one segment shared by the two youngest generations -/
  | segments
  /-- regions of a fixed size, each owned by one generation -/
  | regions
  deriving DecidableEq, Repr

namespace Layout

def name : Layout → String
  | segments => "segments"
  | regions => "regions"

def ofName? : String → Option Layout
  | "segments" => some segments
  | "regions" => some regions
  | _ => none

end Layout

/-- Thresholds of the heuristics. -/
structure Tuning where
  /-- budget growth per unit of survival -/
  survivalGrowth : Float := 2.0
  /-- the most a budget grows to, relative to its initial value -/
  maxBudgetMultiplier : Float := 8.0
  /-- the share of free bytes from which compaction is considered -/
  fragmentationRatio : Float := 0.3
  /-- the free bytes below which fragmentation does not matter -/
  fragmentationMinBytes : Nat := 1048576
  /-- the density of pinned survivors above which fragmentation is put up with -/
  pinnedDensityLimit : Float := 0.25
  /-- the share of free bytes from which large objects are compacted -/
  largeFragmentationRatio : Float := 0.5
  /-- the share of the large budget from which one allocation is a spike -/
  largeSpikeRatio : Float := 0.25
  /-- how far allocation may overrun a budget during a background cycle -/
  backgroundBudgetOverrun : Float := 2.0
  /-- the empty segments that stay committed after a collection -/
  retainedEmptySegments : Nat := 1
  /-- the addresses that the background tracer takes at a time -/
  backgroundChunk : Nat := 256
  /-- the number of roots from which marking is spread over the workers -/
  parallelMarkThreshold : Nat := 64

structure Config where
  layout : Layout := .segments
  heapCount : Nat := 1
  gcThreads : Nat := 1
  /-- whether the oldest generation may be collected in the background -/
  concurrent : Bool := true
  addressSpaceBase : Nat := 0x10000000
  addressSpaceSize : Nat := 1073741824
  cardSize : Nat := 256
  initialSegmentSize : Nat := 33554432
  maxSegmentSize : Nat := 268435456
  regionSize : Nat := 4194304
  commitGranularity : Nat := 65536
  /-- the size from which an object is large -/
  largeThreshold : Nat := 85000
  budgets : PerGeneration Nat := ⟨16777216, 8388608, 67108864, 33554432, 8388608⟩
  /-- the most bytes that objects may take -/
  hardLimit : Option Nat := none
  oomHistoryCapacity : Nat := 4
  /-- whether the heap is checked after every collection -/
  verifyHeap : Bool := true
  /-- whether an induced compaction moves large objects -/
  compactLargeOnInduced : Bool := false
  tuning : Tuning := {}

namespace Config

/-- The region layout with the other settings at their defaults. -/
def regions : Config := { layout := .regions }

def addressRange (c : Config) : AddressRange := ⟨c.addressSpaceBase, c.addressSpaceSize⟩

inductive Issue where
  /-- a text that holds no configuration -/
  | unreadable
  | heapCount
  | gcThreads
  | cardSize
  | commitGranularity
  | addressSpaceBase
  | addressSpaceSize
  | regionSize
  | initialSegmentSize
  | budgets
  | oomHistoryCapacity
  /-- a share outside the unit interval -/
  | ratio (name : String)
  | multipliers
  | backgroundChunk
  deriving DecidableEq, Repr

def Issue.text : Issue → String
  | unreadable => "the text holds no configuration"
  | heapCount => "heap_count must be at least 1"
  | gcThreads => "gc_threads must be at least 1"
  | cardSize => "card_size must be a power of two of at least 64"
  | commitGranularity => "commit_granularity must be a power of two"
  | addressSpaceBase => "address_space_base must be non-zero and commit aligned"
  | addressSpaceSize => "address_space_size must be non-zero"
  | regionSize => "region_size must be a multiple of commit_granularity"
  | initialSegmentSize => "initial_segment_size must be non-zero and not exceed max_segment_size"
  | budgets => "budgets must be non-zero"
  | oomHistoryCapacity => "oom_history_capacity must be at least 1"
  | ratio name => name ++ " must lie in [0, 1]"
  | multipliers => "budget multipliers must be at least 1.0"
  | backgroundChunk => "background_chunk must be non-zero"

/-- Whether a number lies between 0 and 1; what is no number does not. -/
def isShare (x : Float) : Bool := 0.0 ≤ x && x ≤ 1.0

/-- The issues of a configuration with the condition under which each of them holds, in the order
in which they are looked for. -/
def checks (c : Config) : List (Issue × Bool) :=
  let t := c.tuning
  [(.heapCount, c.heapCount == 0),
   (.gcThreads, c.gcThreads == 0),
   (.cardSize, !Word.isPowerOfTwo c.cardSize || c.cardSize < 64),
   (.commitGranularity, !Word.isPowerOfTwo c.commitGranularity),
   (.addressSpaceBase, c.addressSpaceBase == 0 || c.addressSpaceBase % c.commitGranularity != 0),
   (.addressSpaceSize, c.addressSpaceSize == 0),
   (.regionSize, c.regionSize == 0 || c.regionSize % c.commitGranularity != 0),
   (.initialSegmentSize, c.initialSegmentSize == 0 || c.maxSegmentSize < c.initialSegmentSize),
   (.budgets, c.budgets.toList.contains 0),
   (.oomHistoryCapacity, c.oomHistoryCapacity == 0),
   (.ratio "fragmentation_ratio", !isShare t.fragmentationRatio),
   (.ratio "pinned_density_limit", !isShare t.pinnedDensityLimit),
   (.ratio "large_fragmentation_ratio", !isShare t.largeFragmentationRatio),
   (.ratio "large_spike_ratio", !isShare t.largeSpikeRatio),
   (.multipliers, t.maxBudgetMultiplier < 1.0 || t.backgroundBudgetOverrun < 1.0),
   (.backgroundChunk, t.backgroundChunk == 0)]

def issue? (c : Config) : Option Issue :=
  (c.checks.find? (·.2)).map (·.1)

def validate (c : Config) : Except Issue Unit :=
  match c.issue? with
  | some issue => .error issue
  | none => .ok ()

end Config

end GenHeap
