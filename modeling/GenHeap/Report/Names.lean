import GenHeap.Counters
import GenHeap.Diagnostics.Reading
import GenHeap.HandleTable
import GenHeap.Marking
import GenHeap.Named
import GenHeap.Provider
import GenHeap.Statistics

/-!
The names under which reports speak of the cases of the enumerations.
-/

namespace GenHeap

instance : Named Generation := ⟨Generation.all, Generation.name⟩

instance : Named Layout := ⟨[.segments, .regions], Layout.name⟩

instance : Named CompactionReason := ⟨CompactionReason.all, CompactionReason.name⟩

instance : Named Diagnostics.Field := ⟨Diagnostics.Field.all, Diagnostics.Field.name⟩

instance : Named Diagnostics.TypeTag := ⟨Diagnostics.TypeTag.all, Diagnostics.TypeTag.name⟩

instance : Named OutOfMemory.Reason where
  all := OutOfMemory.Reason.all
  name
    | .budgetExceeded => "BudgetExceeded"
    | .fragmentation => "Fragmentation"
    | .addressSpaceExhausted => "AddressSpaceExhausted"
    | .commitFailed => "CommitFailed"

instance : Named CollectionReason where
  all := [.allocationBudget, .induced, .inducedCompacting, .memoryPressure,
    .lastBeforeOutOfMemory, .background]
  name
    | .allocationBudget => "AllocationBudget"
    | .induced => "Induced"
    | .inducedCompacting => "InducedCompacting"
    | .memoryPressure => "MemoryPressure"
    | .lastBeforeOutOfMemory => "LastGcBeforeOom"
    | .background => "Background"

instance : Named Expansion where
  all := [.newSegment, .newEphemeralSegment, .newRegion, .reusedRegion, .largeObjectSpike,
    .fragmentationGrowth, .noMemory]
  name
    | .newSegment => "NewSegment"
    | .newEphemeralSegment => "NewEphemeralSegment"
    | .newRegion => "NewRegion"
    | .reusedRegion => "ReusedRegion"
    | .largeObjectSpike => "LargeObjectSpike"
    | .fragmentationGrowth => "FragmentationGrowth"
    | .noMemory => "NoMemory"

instance : Named Mechanism where
  all := [.induced, .compacted, .background, .backgroundAborted, .lastBeforeOutOfMemory]
  name
    | .induced => "Induced"
    | .compacted => "Compacted"
    | .background => "Background"
    | .backgroundAborted => "BackgroundAborted"
    | .lastBeforeOutOfMemory => "LastGcBeforeOom"

instance : Named DataPoint where
  all := [.cardsScanned, .falsePositiveCards, .pinnedSurvivors, .objectsRelocated,
    .bytesRelocated, .objectsPromoted]
  name
    | .cardsScanned => "CardsScanned"
    | .falsePositiveCards => "FalsePositiveCards"
    | .pinnedSurvivors => "PinnedSurvivors"
    | .objectsRelocated => "ObjectsRelocated"
    | .bytesRelocated => "BytesRelocated"
    | .objectsPromoted => "ObjectsPromoted"

instance : Named MarkPhase where
  all := [.idle, .markRoots, .trace, .finalPause, .done]
  name
    | .idle => "Idle"
    | .markRoots => "MarkRoots"
    | .trace => "Trace"
    | .finalPause => "FinalPause"
    | .done => "Done"

instance : Named HandleKind where
  all := [.strong, .pinned, .weak]
  name
    | .strong => "Strong"
    | .pinned => "Pinned"
    | .weak => "Weak"

instance : Named SegmentKind where
  all := [.segment, .region]
  name
    | .segment => "Segment"
    | .region => "Region"

instance : Named ProviderCall where
  all := [.reserve, .commit, .decommit, .release]
  name
    | .reserve => "reserve"
    | .commit => "commit"
    | .decommit => "decommit"
    | .release => "release"

instance : Named Diagnostics.Capability where
  all := [.backgroundCollection, .segments]
  name
    | .backgroundCollection => "BackgroundGc"
    | .segments => "Segments"

def HeapError.kind : HeapError → String
  | outOfMemory .. => "OutOfMemory"
  | reserveFailed .. => "ReserveFailed"
  | commitFailed .. => "CommitFailed"
  | markAborted .. => "ConcurrentMarkAborted"
  | invariantViolated .. => "CompactionInvariantViolation"
  | fieldMissing .. => "DiagnosticFieldMissing"
  | fieldUnknown .. => "UnknownDiagnosticField"
  | fieldTypeMismatch .. => "DiagnosticTypeMismatch"
  | finalizerFault .. => "FinalizerFault"
  | invalidConfig .. => "InvalidConfig"
  | invalidAddress .. => "InvalidAddress"
  | invalidHandle .. => "InvalidHandle"
  | invalidSegment .. => "InvalidSegment"
  | invalidHeap .. => "InvalidHeap"
  | invalidSlot .. => "InvalidSlot"
  | snapshot .. => "Snapshot"

end GenHeap
