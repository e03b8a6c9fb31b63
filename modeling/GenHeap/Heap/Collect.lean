import GenHeap.Heap.Background

/-!
Collections in a pause. Marking starts from the roots and, in a partial collection, from the dirty
cards; a background cycle in progress is given up for it and makes the collection a full one.
-/

namespace GenHeap.Heap

/-- The logical heap with a segment at the start of a card, the first one if there is none. -/
def heapOfCard (h : Heap) (card : Nat) : Checked Nat := do
  let (start, _) ← h.cards.bounds card
  let found ← h.heaps.zipIdx.findM? fun (l, _) => do
    return (← l.segments.segmentOf? start).isSome
  return (found.map (·.2)).getD 0

/-- Counts scanned cards for the logical heaps that they belong to. -/
def countCards (h : Heap) (p : DataPoint) (cards : List Nat) : Checked Heap :=
  cards.foldlM (fun h card => do h.count (← h.heapOfCard card) p 1) h

/-- Whether an object outlives a collection, by its marks. -/
def outlives (condemned : Generation) (_ : Nat) (r : Record) : Bool :=
  !r.generation.condemnedBy condemned || r.marked

/-- Marks what is reachable in the condemned generations, finalizable objects included. Answers
the cards that were scanned, and the summary so far. -/
def markCondemned (condemned : Generation) (summary : CollectionSummary) (h : Heap) :
    Checked (CardScan × CollectionSummary × Heap) := do
  let workers := h.config.gcThreads
  let threshold := h.config.tuning.parallelMarkThreshold
  let (progress, scan) ←
    Marking.mark workers threshold h.space h.roots condemned h.cards h.ranges
  let h ← { h with space := progress.space, pausePhase := .done }.countCards .cardsScanned
    scan.consumed
  let h ← h.countCards .falsePositiveCards scan.falsePositives
  let (revived, h) := h.scanFinalizable condemned (Marking.survives h.space condemned)
  let summary := { summary with
    cardsScanned := scan.consumed.length
    falsePositiveCards := scan.falsePositives.length
    finalizersReady := revived.length }
  return (scan, summary,
    { h with space := (Marking.trace workers threshold condemned h.space revived).space })

/-- The heap at the start of a collection, without a cycle in progress. -/
def beginCollection (h : Heap) : Heap := { h.discardCycle with collections := h.collections + 1 }

/-- What a request to collect `generation` condemns: all generations if a cycle is given up. -/
def condemnedOf (h : Heap) (generation : Generation) : Generation :=
  if h.background.isSome then .gen2 else generation.condemnTier

/-- Collects the generations that a request for `generation` condemns, or all of them if a
background cycle has to be given up. -/
def collect (generation : Generation) (reason : CollectionReason) :
    Transition Heap CollectionSummary := do
  let before ← get
  let condemned := before.condemnedOf generation
  let h := before.beginCollection
  let summary : CollectionSummary :=
    { index := h.collections, condemned, reason, abortedBackground := before.background.isSome }
  let (scan, summary, h) ← h.markCondemned condemned summary
  set h
  let consumed := if condemned = .gen2 then none else some scan.consumed
  let summary ← reclaim condemned (outlives condemned) true consumed summary
  modify fun h => { h with sweeper := { h.sweeper with next := 0 } }
  set (← (← get).finishCollection summary)
  return summary

end GenHeap.Heap
