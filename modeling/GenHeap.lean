import GenHeap.Address
import GenHeap.BackgroundMark
import GenHeap.Blank
import GenHeap.Budget
import GenHeap.CardTable
import GenHeap.Chunks
import GenHeap.Compaction
import GenHeap.Config
import GenHeap.ConfigText
import GenHeap.Counters
import GenHeap.Decimal
import GenHeap.Diagnostics.Board
import GenHeap.Diagnostics.Catalogue
import GenHeap.Diagnostics.Reading
import GenHeap.Diagnostics.Snapshot
import GenHeap.Digits
import GenHeap.Error
import GenHeap.FinalizationQueue
import GenHeap.Generation
import GenHeap.HandleTable
import GenHeap.Heap.Allocate
import GenHeap.Heap.Background
import GenHeap.Heap.Collect
import GenHeap.Heap.Finalizers
import GenHeap.Heap.Mutator
import GenHeap.Heap.Publication
import GenHeap.Heap.Reclaim
import GenHeap.Heap.State
import GenHeap.HeapCheck
import GenHeap.Json.Token
import GenHeap.Json.Value
import GenHeap.MarkBitmap
import GenHeap.Marking
import GenHeap.Named
import GenHeap.Object
import GenHeap.ObjectSpace
import GenHeap.OutOfMemory
import GenHeap.Proofs.ArenaProgress
import GenHeap.Proofs.BackgroundMark
import GenHeap.Proofs.Balance
import GenHeap.Proofs.Board
import GenHeap.Proofs.Books
import GenHeap.Proofs.Budget
import GenHeap.Proofs.CardScan
import GenHeap.Proofs.CardTable
import GenHeap.Proofs.Census
import GenHeap.Proofs.Compaction
import GenHeap.Proofs.CompactionProgress
import GenHeap.Proofs.Config
import GenHeap.Proofs.Constants
import GenHeap.Proofs.Crew
import GenHeap.Proofs.Digits
import GenHeap.Proofs.DirtyCards
import GenHeap.Proofs.Effect
import GenHeap.Proofs.Faults
import GenHeap.Proofs.FinalizationAccounts
import GenHeap.Proofs.FinalizationOrder
import GenHeap.Proofs.FinalizationQueue
import GenHeap.Proofs.HandleMap
import GenHeap.Proofs.HandleTable
import GenHeap.Proofs.Heap.Advances
import GenHeap.Proofs.Heap.Agreement
import GenHeap.Proofs.Heap.Allocate
import GenHeap.Proofs.Heap.AllocateProgress
import GenHeap.Proofs.Heap.Anchors
import GenHeap.Proofs.Heap.Barrier
import GenHeap.Proofs.Heap.Books
import GenHeap.Proofs.Heap.Cards
import GenHeap.Proofs.Heap.Coherence
import GenHeap.Proofs.Heap.Collect
import GenHeap.Proofs.Heap.CollectProgress
import GenHeap.Proofs.Heap.Compact
import GenHeap.Proofs.Heap.Completion
import GenHeap.Proofs.Heap.Conservation
import GenHeap.Proofs.Heap.Consumption
import GenHeap.Proofs.Heap.Cycle
import GenHeap.Proofs.Heap.Display
import GenHeap.Proofs.Heap.Enrollment
import GenHeap.Proofs.Heap.Exhaustion
import GenHeap.Proofs.Heap.FailureHistory
import GenHeap.Proofs.Heap.Faults
import GenHeap.Proofs.Heap.Finalizers
import GenHeap.Proofs.Heap.Floating
import GenHeap.Proofs.Heap.Handles
import GenHeap.Proofs.Heap.HardLimit
import GenHeap.Proofs.Heap.Healing
import GenHeap.Proofs.Heap.Integrity
import GenHeap.Proofs.Heap.Invariant
import GenHeap.Proofs.Heap.Journal
import GenHeap.Proofs.Heap.Lasting
import GenHeap.Proofs.Heap.Layout
import GenHeap.Proofs.Heap.Ledger
import GenHeap.Proofs.Heap.Lifecycle
import GenHeap.Proofs.Heap.Likeness
import GenHeap.Proofs.Heap.Marking
import GenHeap.Proofs.Heap.Memory
import GenHeap.Proofs.Heap.Mirror
import GenHeap.Proofs.Heap.Mutator
import GenHeap.Proofs.Heap.Owners
import GenHeap.Proofs.Heap.Placement
import GenHeap.Proofs.Heap.Preservation
import GenHeap.Proofs.Heap.Publication
import GenHeap.Proofs.Heap.Reachable
import GenHeap.Proofs.Heap.Readiness
import GenHeap.Proofs.Heap.Reckoning
import GenHeap.Proofs.Heap.Reclaim
import GenHeap.Proofs.Heap.ReclaimProgress
import GenHeap.Proofs.Heap.Refusal
import GenHeap.Proofs.Heap.Registrations
import GenHeap.Proofs.Heap.Retention
import GenHeap.Proofs.Heap.Search
import GenHeap.Proofs.Heap.SettleProgress
import GenHeap.Proofs.Heap.Shape
import GenHeap.Proofs.Heap.Shedding
import GenHeap.Proofs.Heap.Sifting
import GenHeap.Proofs.Heap.Spending
import GenHeap.Proofs.Heap.Stages
import GenHeap.Proofs.Heap.Standing
import GenHeap.Proofs.Heap.StandingCollect
import GenHeap.Proofs.Heap.Steady
import GenHeap.Proofs.Heap.Survivors
import GenHeap.Proofs.Heap.Sweep
import GenHeap.Proofs.Heap.Tallies
import GenHeap.Proofs.Heap.Transience
import GenHeap.Proofs.Heap.Trimming
import GenHeap.Proofs.Heap.Upkeep
import GenHeap.Proofs.Heap.Zones
import GenHeap.Proofs.HeapAnalysis
import GenHeap.Proofs.HeapCheck
import GenHeap.Proofs.HousedCompaction
import GenHeap.Proofs.Housing
import GenHeap.Proofs.Json.Token
import GenHeap.Proofs.Json.Value
import GenHeap.Proofs.Likeness
import GenHeap.Proofs.MarkBitmap
import GenHeap.Proofs.MarkedGranules
import GenHeap.Proofs.Marking
import GenHeap.Proofs.ObjectSize
import GenHeap.Proofs.ObjectSpace
import GenHeap.Proofs.OutOfMemory
import GenHeap.Proofs.Owners
import GenHeap.Proofs.Packing
import GenHeap.Proofs.Progress
import GenHeap.Proofs.Provider
import GenHeap.Proofs.Publications
import GenHeap.Proofs.RangeQuery
import GenHeap.Proofs.Readiness
import GenHeap.Proofs.Reading
import GenHeap.Proofs.Reservations
import GenHeap.Proofs.Rounding
import GenHeap.Proofs.Scan
import GenHeap.Proofs.Segment
import GenHeap.Proofs.SegmentArena
import GenHeap.Proofs.SegmentTable
import GenHeap.Proofs.SegmentedSpace
import GenHeap.Proofs.SharedArena
import GenHeap.Proofs.Shedding
import GenHeap.Proofs.Sliding
import GenHeap.Proofs.Snapshot
import GenHeap.Proofs.Spending
import GenHeap.Proofs.Statistics
import GenHeap.Proofs.Sweeping
import GenHeap.Proofs.Tracer
import GenHeap.Proofs.UtcTime
import GenHeap.Proofs.Weight
import GenHeap.Proofs.Worklist
import GenHeap.Provider
import GenHeap.Report.Basic
import GenHeap.Report.Names
import GenHeap.Report.Parts
import GenHeap.Report.Whole
import GenHeap.Scan
import GenHeap.Segment
import GenHeap.SegmentTable
import GenHeap.Statistics
import GenHeap.SwapErase
import GenHeap.Toml.Document
import GenHeap.Toml.Value
import GenHeap.Transition
import GenHeap.UtcTime
import GenHeap.Word
import GenHeap.Worklist
