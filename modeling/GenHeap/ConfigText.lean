import GenHeap.Config
import GenHeap.Toml.Document
import GenHeap.Word

/-!
Configurations as TOML text. A key that is not there keeps the default of its setting, and keys
that name no setting are passed over; a value of the wrong kind makes the text unreadable. What is
read has to be a valid configuration.
-/

namespace GenHeap

namespace Toml.Value

/-- A count: a whole number that is not negative. -/
def count? : Value → Option Nat
  | integer n => if 0 ≤ n then some n.toNat else none
  | _ => none

/-- A number; a whole number is rounded to the nearest double. -/
def number? : Value → Option Float
  | float x => some x
  | integer n =>
    let magnitude := Word.toFloat n.natAbs
    some (if n < 0 then -magnitude else magnitude)
  | _ => none

def bool? : Value → Option Bool
  | bool b => some b
  | _ => none

def isEmpty : Value → Bool
  | array [] | table [] => true
  | _ => false

end Toml.Value

open Toml (Value)

/-- A layout by its name, which may stand as a key with nothing in it. -/
def Layout.ofToml? : Value → Option Layout
  | .string name => ofName? name
  | .table [(name, v)] => if v.isEmpty then ofName? name else none
  | _ => none

namespace Tuning

def names : List String :=
  ["survival_growth", "max_budget_multiplier", "fragmentation_ratio", "fragmentation_min_bytes",
   "pinned_density_limit", "large_fragmentation_ratio", "large_spike_ratio",
   "background_budget_overrun", "retained_empty_segments", "background_chunk",
   "parallel_mark_threshold"]

def setToml? (t : Tuning) (name : String) (v : Value) : Option Tuning := do
  match name with
  | "survival_growth" => return { t with survivalGrowth := ← v.number? }
  | "max_budget_multiplier" => return { t with maxBudgetMultiplier := ← v.number? }
  | "fragmentation_ratio" => return { t with fragmentationRatio := ← v.number? }
  | "fragmentation_min_bytes" => return { t with fragmentationMinBytes := ← v.count? }
  | "pinned_density_limit" => return { t with pinnedDensityLimit := ← v.number? }
  | "large_fragmentation_ratio" => return { t with largeFragmentationRatio := ← v.number? }
  | "large_spike_ratio" => return { t with largeSpikeRatio := ← v.number? }
  | "background_budget_overrun" => return { t with backgroundBudgetOverrun := ← v.number? }
  | "retained_empty_segments" => return { t with retainedEmptySegments := ← v.count? }
  | "background_chunk" => return { t with backgroundChunk := ← v.count? }
  | "parallel_mark_threshold" => return { t with parallelMarkThreshold := ← v.count? }
  | _ => return t

/-- Reads the settings from a table, or from an array that lists them in their order. -/
def ofToml? (v : Value) : Option Tuning :=
  let set (t : Tuning) (entry : String × Value) := t.setToml? entry.1 entry.2
  match v with
  | .table entries => entries.foldlM set {}
  | .array values => (names.zip values).foldlM set {}
  | .time => some {}
  | _ => none

end Tuning

/-- The first five entries of an array. -/
def PerGeneration.ofToml? (v : Value) : Option (PerGeneration Nat) := do
  match v with
  | .array (a :: b :: c :: d :: e :: _) =>
    return ⟨← a.count?, ← b.count?, ← c.count?, ← d.count?, ← e.count?⟩
  | _ => failure

namespace Config

def setToml? (c : Config) (name : String) (v : Value) : Option Config := do
  match name with
  | "layout" => return { c with layout := ← Layout.ofToml? v }
  | "heap_count" => return { c with heapCount := ← v.count? }
  | "gc_threads" => return { c with gcThreads := ← v.count? }
  | "concurrent" => return { c with concurrent := ← v.bool? }
  | "address_space_base" => return { c with addressSpaceBase := ← v.count? }
  | "address_space_size" => return { c with addressSpaceSize := ← v.count? }
  | "card_size" => return { c with cardSize := ← v.count? }
  | "initial_segment_size" => return { c with initialSegmentSize := ← v.count? }
  | "max_segment_size" => return { c with maxSegmentSize := ← v.count? }
  | "region_size" => return { c with regionSize := ← v.count? }
  | "commit_granularity" => return { c with commitGranularity := ← v.count? }
  | "loh_threshold" => return { c with largeThreshold := ← v.count? }
  | "budgets" => return { c with budgets := ← PerGeneration.ofToml? v }
  | "heap_hard_limit" => return { c with hardLimit := some (← v.count?) }
  | "oom_history_capacity" => return { c with oomHistoryCapacity := ← v.count? }
  | "verify_heap" => return { c with verifyHeap := ← v.bool? }
  | "compact_large_on_induced" => return { c with compactLargeOnInduced := ← v.bool? }
  | "tuning" => return { c with tuning := ← Tuning.ofToml? v }
  | _ => return c

/-- The configuration with the given settings, without a check of them. -/
def ofEntries? (entries : List (String × Value)) : Option Config :=
  entries.foldlM (fun c (name, v) => c.setToml? name v) {}

def read? (text : String) : Option Config := do ofEntries? (← Toml.Document.ofText? text)

/-- The valid configuration that a text holds. -/
def ofText (text : String) : Except Issue Config := do
  let some c := read? text | throw .unreadable
  c.validate
  return c

end Config

end GenHeap
