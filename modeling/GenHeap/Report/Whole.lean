import GenHeap.Heap.Finalizers
import GenHeap.Report.Parts

/-!
Reports on a heap as a whole: its object graph as the handles show it, and all of its state.
-/

namespace GenHeap.Report

/-- An object with the targets of its slots, or an address that names none. -/
def node (h : Heap) (a : Nat) : Json :=
  match h.info? a, h.space.get? a with
  | some info, some r => .array [report info, report r.slots]
  | _, _ => .array [report a, report "dead"]

/-- Walks from a queue of addresses, breadth first, to those not seen before. -/
def walkFrom (h : Heap) : Nat → Std.TreeSet Nat → List Nat → List Nat
  | 0, _, _ => []
  | _ + 1, _, [] => []
  | fuel + 1, seen, a :: queue =>
    if seen.contains a then walkFrom h fuel seen queue
    else
      let found := ((h.space.get? a).map (·.references)).getD []
      a :: walkFrom h fuel (seen.insert a) (queue ++ found)

/-- The graph reachable from all handles, weak ones too, breadth first. -/
def walk (h : Heap) : Json :=
  let targets := h.handles.targets
  .array ((walkFrom h (targets.length + h.space.slotCount) ∅ targets).map (node h))

def logicalHeap (l : LogicalHeap) : Json :=
  record [("generations", generations l.budgets), ("counters", report l.counters),
    ("segments", report l.segments.count), ("oom", report l.failures.events)]

/-- The target of each handle, zero for an empty one, by identifier. -/
def handles (t : HandleTable) : Json :=
  .array (t.slots.map fun
    | some handle => report handle.target
    | none => report "free")

instance : Report Heap where
  toJson h := record [("stats", report h.statistics), ("heaps", .array (h.heaps.map logicalHeap)),
    ("handles", handles h.handles), ("objects", report h.space.count),
    ("committed", report h.provider.space.committed), ("phase", report h.phase),
    ("background", report h.background.isSome), ("cards", report h.cards.dirtyRuns),
    ("dirty", report h.cards.dirtyCount)]

instance : Report FinalizerReport :=
  ⟨fun r => record [("ran", report r.ran), ("faults", report r.faults)]⟩

end GenHeap.Report
