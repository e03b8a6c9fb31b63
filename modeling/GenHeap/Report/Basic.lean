import GenHeap.Diagnostics.Snapshot
import GenHeap.Report.Names

/-!
Reports: the values of the library as JSON, for tools that watch a heap. Records become objects,
names of cases become strings, what is absent becomes null, and a double is shown by the sixteen
hexadecimal digits of its bits.
-/

namespace GenHeap

/-- Types whose values can be shown as JSON. -/
class Report (α : Type) where
  toJson : α → Json

/-- A value as JSON. -/
def report {α : Type} [Report α] (a : α) : Json := Report.toJson a

namespace Report

variable {α β : Type}

/-- An object with the given entries. -/
def record (entries : List (String × Json)) : Json :=
  .object (entries.map fun (key, value) => (some key, value))

instance : Report Json := ⟨id⟩

instance : Report Unit := ⟨fun _ => .null⟩

instance : Report Nat := ⟨.natural⟩

instance : Report Int where
  toJson
    | .ofNat n => .natural n
    | .negSucc n => .number ('-' :: Nat.toDigits 10 (n + 1))

instance : Report Bool := ⟨.bool⟩

instance : Report String := ⟨fun s => .string s⟩

instance [Report α] : Report (Option α) := ⟨fun a => (a.map report).getD .null⟩

instance [Report α] : Report (List α) := ⟨fun as => .array (as.map report)⟩

instance [Report α] [Report β] : Report (α × β) := ⟨fun (a, b) => .array [report a, report b]⟩

instance [Named α] : Report α := ⟨fun a => report (Named.name a)⟩

instance [Report α] : Report (PerGeneration α) := ⟨fun t => report t.toList⟩

/-- The bits of a double in hexadecimal; all values that are no number look the same. -/
def bits (x : Float) : String :=
  if x.isNaN then "nan"
  else
    let digits := Nat.toDigits 16 x.toBits.toNat
    String.ofList (List.replicate (16 - digits.length) '0' ++ digits)

instance : Report Float := ⟨fun x => report (bits x)⟩

/-- The cause of an error and its message; of a text that is no snapshot no more is told. -/
instance : Report HeapError where
  toJson
    | .snapshot _ => record [("error", report "Snapshot")]
    | e => record [("error", report e.kind), ("message", report e.message)]

/-- What is wrong with a configuration; of a text that holds none no more is told. -/
instance : Report Config.Issue where
  toJson
    | .unreadable => record [("error", report "InvalidConfig")]
    | issue => report (HeapError.invalidConfig issue.text)

instance [Report α] : Report (Except HeapError α) where
  toJson
    | .ok a => report a
    | .error e => report e

/-! ## Configuration -/

instance : Report Tuning where
  toJson t := record [
    ("survival_growth", report t.survivalGrowth),
    ("max_budget_multiplier", report t.maxBudgetMultiplier),
    ("fragmentation_ratio", report t.fragmentationRatio),
    ("fragmentation_min_bytes", report t.fragmentationMinBytes),
    ("pinned_density_limit", report t.pinnedDensityLimit),
    ("large_fragmentation_ratio", report t.largeFragmentationRatio),
    ("large_spike_ratio", report t.largeSpikeRatio),
    ("background_budget_overrun", report t.backgroundBudgetOverrun),
    ("retained_empty_segments", report t.retainedEmptySegments),
    ("background_chunk", report t.backgroundChunk),
    ("parallel_mark_threshold", report t.parallelMarkThreshold)]

/-- The settings that do not depend on the machine. -/
def settings (c : Config) : List (String × Json) :=
  [("layout", report c.layout), ("heap_count", report c.heapCount),
   ("concurrent", report c.concurrent), ("address_space_base", report c.addressSpaceBase),
   ("address_space_size", report c.addressSpaceSize), ("card_size", report c.cardSize),
   ("initial_segment_size", report c.initialSegmentSize),
   ("max_segment_size", report c.maxSegmentSize), ("region_size", report c.regionSize),
   ("commit_granularity", report c.commitGranularity), ("loh_threshold", report c.largeThreshold),
   ("budgets", report c.budgets), ("heap_hard_limit", report c.hardLimit),
   ("oom_history_capacity", report c.oomHistoryCapacity), ("verify_heap", report c.verifyHeap),
   ("compact_large_on_induced", report c.compactLargeOnInduced), ("tuning", report c.tuning)]

instance : Report Config := ⟨fun c => record (("gc_threads", report c.gcThreads) :: settings c)⟩

/-! ## Diagnostics -/

open Diagnostics

instance : Report Capabilities := ⟨Capabilities.toJson⟩

instance : Report Shape where
  toJson
    | .direct => report "direct"
    | .pointer => report "pointer"
    | .fixed n => record [("fixed", report n)]
    | .varying n => record [("var", report n)]

def descriptor (f : Field) : Json :=
  let d := f.descriptor
  record [("index", report f.index), ("name", report d.name), ("type", report d.tag),
    ("shape", report d.shape), ("requires", report d.needs), ("volatile", report d.volatile),
    ("since", report d.since)]

instance : Report FieldValue where
  toJson
    | .missing => report "missing"
    | .scalar n => record [("scalar", report n)]
    | .flag b => record [("flag", report b)]
    | .pointer a => record [("pointer", report a)]
    | .array words => record [("array", report words)]

instance : Report Reading where
  toJson r := record [("value", report r.value), ("stable", report r.stable)]

instance : Report SnapshotField :=
  ⟨fun f => .array [report f.name, report f.reading.value, report f.reading.stable]⟩

/-- What is told of a failed allocation apart from its time. -/
def event (e : OutOfMemory.Event) : List (String × Json) :=
  [("reason", report e.reason), ("size", report e.size), ("generation", report e.generation),
   ("gc_index", report e.collection)]

instance : Report OutOfMemory.Event := ⟨fun e => record (event e)⟩

/-- A failed allocation with its time in milliseconds. -/
def timedEvent (e : OutOfMemory.Event) : Json :=
  record (("millis", report e.milliseconds) :: event e)

instance : Report OutOfMemory.History where
  toJson h := record [("events", report h.events), ("latest", report h.latest?),
    ("len", report h.kept), ("empty", report h.isEmpty), ("capacity", report h.capacity),
    ("total", report h.total)]

end Report

end GenHeap
