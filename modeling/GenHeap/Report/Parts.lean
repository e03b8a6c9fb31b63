import GenHeap.BackgroundMark
import GenHeap.Budget
import GenHeap.FinalizationQueue
import GenHeap.Heap.Mutator
import GenHeap.Report.Basic

/-!
Reports on the parts of a heap.
-/

namespace GenHeap.Report

/-! ## Generations -/

def facts (g : Generation) : Json :=
  record [("index", report g.index), ("tier", report g.tier), ("promoted", report g.promoted),
    ("condemn_tier", report g.condemnTier), ("ephemeral", report g.ephemeral),
    ("condemned_by", report (Generation.all.map g.condemnedBy))]

instance : Report AllocRequest where
  toJson r := .array [report r.size, report r.generation, report r.slots, report r.finalizable,
    report r.pinned, report r.effectiveSize?]

/-- Whether and why to compact, and the ratios that decide it. -/
def decision (i : CompactionInputs) (t : Tuning) : Json :=
  record [("decision", report (i.decide? t)), ("fragmentation", report i.fragmentation),
    ("pinned_density", report i.pinnedDensity),
    ("large_fragmentation", report i.largeFragmentation)]

/-! ## Tables -/

instance : Report HandleTable where
  toJson t := record [("roots", report t.roots),
    ("pinned", report (t.pinnedTargets.mergeSort.eraseDups)), ("all", report t.targets),
    ("len", report t.count), ("empty", report (t.count == 0))]

instance : Report FinalizableEntry :=
  ⟨fun e => record [("object", report e.object), ("generation", report e.generation)]⟩

instance : Report FinalizationQueue where
  toJson q := record [("roots", report q.roots), ("running", report q.running),
    ("pending", report (Generation.all.map q.pendingCount)),
    ("total_pending", report q.totalPending), ("ready", report q.ready),
    ("ready_count", report q.readyCount),
    ("stats", record [("registered", report q.registered), ("suppressed", report q.suppressed),
      ("made_ready", report q.madeReady)])]

def generation (t : BudgetTable) (g : Generation) : Json :=
  let s := t.get g
  record [("generation", report g), ("initial_budget", report s.initialBudget),
    ("budget", report s.budget), ("allocated_since_gc", report s.allocated),
    ("occupancy", report s.occupancy), ("collection_count", report s.collections),
    ("last_survival_rate", report s.survivalRate)]

def generations (t : BudgetTable) : Json := .array (Generation.all.map (generation t))

instance : Report Counters where
  toJson c := record [("data_points", report c.dataPoints),
    ("compact_reasons", report c.compactions), ("expand_mechanisms", report c.expansions),
    ("mechanism_bits", report c.mechanisms)]

/-- What statistics tell apart from pauses. -/
def totals (s : Statistics) : List (String × Json) :=
  [("collections", report s.collections),
   ("background_collections", report s.backgroundCollections),
   ("background_aborts", report s.backgroundAborts), ("compactions", report s.compactions),
   ("total_allocated", report s.totalAllocated), ("total_freed", report s.totalFreed),
   ("total_promoted", report s.totalPromoted), ("total_relocated", report s.totalRelocated),
   ("finalizers_run", report s.finalizersRun), ("finalizer_faults", report s.finalizerFaults),
   ("allocation_failures", report s.allocationFailures),
   ("last_collected", report s.lastCollected)]

instance : Report Statistics := ⟨fun s => record (totals s)⟩

def statistics (s : Statistics) : Checked Json := do
  return record (totals s ++ [("total_pause_ns", report s.totalPause),
    ("max_pause_ns", report s.maxPause), ("avg_pause_ns", report (← s.averagePause)),
    ("total", report s.totalCollections), ("of", report (Generation.all.map s.collectionsOf))])

instance : Report CollectionSummary where
  toJson c := record [("gc_index", report c.index), ("condemned", report c.condemned),
    ("reason", report c.reason), ("compaction", report c.compaction),
    ("background", report c.background), ("aborted_background", report c.abortedBackground),
    ("objects_freed", report c.objectsFreed), ("bytes_freed", report c.bytesFreed),
    ("objects_promoted", report c.objectsPromoted), ("bytes_promoted", report c.bytesPromoted),
    ("objects_relocated", report c.objectsRelocated),
    ("finalizers_ready", report c.finalizersReady), ("cards_scanned", report c.cardsScanned),
    ("false_positive_cards", report c.falsePositiveCards)]

/-! ## Memory -/

instance : Report AddressRange := ⟨fun r => report [r.start, r.size]⟩

instance : Report AddressSpace where
  toJson s := record [("committed", report s.committed), ("reserved", report s.reserved),
    ("space", report s.range)]

instance : Report CardTable where
  toJson t := record [("len", report t.count), ("empty", report (t.count == 0)),
    ("card_size", report t.cardSize), ("dirty_count", report t.dirtyCount),
    ("ranges", report t.dirtyRuns), ("cards", report t.dirtyCards),
    ("stats", report [t.count, t.dirtyCount, t.cardSize, t.covered]),
    ("ratio", report (CardTable.dirtyRatio t.count t.dirtyCount))]

instance : Report Growth where
  toJson g := record [("handle", report g.segment), ("reused", report g.reused),
    ("new_ephemeral", report g.newEphemeral)]

/-- Start, size and end of free spans. -/
def spans (spans : List FreeSpan) : Checked Json := do
  return .array (← spans.mapM fun s => do return report [s.start, s.size, ← s.stop])

/-- A segment with what follows from its parts. -/
def segment (s : Segment) : Checked Json := do
  return record [("handle", report s.id), ("kind", report s.kind), ("start", report s.start),
    ("size", report s.range.size), ("reserved_end", report (← s.reservedEnd)),
    ("allocated", report s.allocated), ("committed", report s.committed),
    ("committed_end", report (← s.committedEnd)), ("owner", report s.owner),
    ("free", ← spans s.freeSpans), ("free_bytes", report (← s.freeBytes)),
    ("used", report (← s.usedBytes)), ("remaining", report (← s.remaining))]

/-- The segments of a heap, and which of them its generations use. -/
def segmentTable (t : SegmentTable) : Checked Json := do
  return record [("segments", .array (← t.segments.mapM segment)), ("count", report t.count),
    ("layout", report t.layout), ("owned", report t.owned),
    ("alloc_segment", report (Generation.all.map t.allocSegment?)),
    ("candidates", report (Generation.all.map t.candidates)),
    ("free_for", report (← Generation.all.mapM t.freeBytesFor)),
    ("ephemeral", report t.ephemeral), ("bounds", report t.bounds?),
    ("committed", report (← t.committedBytes)), ("free_regions", report t.freeRegions.length)]

def sweepPlan (p : Segment.SweepPlan) : Checked Json := do
  return record [("allocated", report p.allocated), ("free", ← spans p.freeSpans),
    ("live_bytes", report p.liveBytes)]

instance : Report CompactionPlan where
  toJson p := record [("forwarding", report p.forwarding.toList), ("moved", report p.movedObjects),
    ("bytes", report p.movedBytes)]

/-! ## Objects -/

def object (a : Nat) (r : Record) : Json :=
  record [("addr", report a), ("size", report r.size), ("generation", report r.generation),
    ("heap", report r.heap), ("segment", report r.segment), ("refs", report r.slots),
    ("finalizable", report r.finalizable), ("pinned", report r.pinned),
    ("marked", report r.marked)]

def objects (rs : List (Nat × Record)) : Json := .array (rs.map fun (a, r) => object a r)

instance : Report ObjectInfo where
  toJson i := .array [report i.address, report i.size, report i.generation, report i.heap,
    report i.segment, report i.slots, report i.finalizable, report i.pinned]

/-- What a scan of cards found. -/
def cardScan (s : CardScan) : List (String × Json) :=
  [("seeds", report s.seeds), ("consumed", report s.consumed),
   ("false_cards", report s.falsePositives)]

instance : Report CardScan := ⟨fun s => record (cardScan s)⟩

def marking (p : Marking.Progress) (s : CardScan) : Json :=
  record ([("objects", report p.objects), ("bytes", report p.bytes),
    ("cards", report s.consumed.length), ("false_positives", report s.falsePositives.length),
    ("phase", report MarkPhase.done)] ++ cardScan s)

instance : Report ObjectSpace where
  toJson s := record [("len", report s.count), ("bytes", report s.totalBytes),
    ("empty", report s.isEmpty)]

instance : Report Sweeper := ⟨fun s => record [("next", report s.next), ("swept", report s.swept)]⟩

instance : Report HeapAnalysis where
  toJson h := record [("success", report h.success), ("roots", report h.roots),
    ("root_count", report h.rootCount), ("reachable_objects", report h.reachableObjects),
    ("reachable_bytes", report h.reachableBytes),
    ("unreachable_objects", report h.unreachableObjects), ("error", report h.error?)]

instance : Report BackgroundMark where
  toJson b := record [("low", report b.low), ("high", report b.high), ("phase", report b.phase),
    ("aborted", report b.aborted), ("finished", report b.finished), ("traced", report b.traced),
    ("marked", report b.bitmap.count)]

end GenHeap.Report
