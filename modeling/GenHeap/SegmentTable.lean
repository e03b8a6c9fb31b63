import GenHeap.Config
import GenHeap.Provider
import GenHeap.Segment

/-!
The segments of one heap. Identifiers are given out in order and never reused. In the segment
layout the two youngest generations share the ephemeral segment, and a replaced ephemeral segment
goes to the oldest; in the region layout each generation owns regions, and an empty region waits
in a pool for its next use.
-/

namespace GenHeap

structure SegmentTable where
  layout : Layout
  /-- the segments by identifier; an entry is empty once its segment is gone -/
  slots : List (Option Segment)
  /-- the identifiers of each owner, oldest first -/
  owned : PerGeneration (List Nat)
  /-- how often each generation has grown -/
  grown : PerGeneration Nat
  ephemeral : Option Nat
  /-- decommitted regions, the next one to be used first -/
  freeRegions : List AddressRange
  initialSegmentSize : Nat
  maxSegmentSize : Nat
  regionSize : Nat
  commitGranularity : Nat
  deriving Repr

structure Growth where
  segment : Nat
  /-- whether a pooled region is used again -/
  reused : Bool
  /-- whether it took the place of the ephemeral segment -/
  newEphemeral : Bool
  deriving DecidableEq, Repr

namespace SegmentTable

def ofConfig (c : Config) : SegmentTable where
  layout := c.layout
  slots := []
  owned := .const []
  grown := .const 0
  ephemeral := none
  freeRegions := []
  initialSegmentSize := c.initialSegmentSize
  maxSegmentSize := c.maxSegmentSize
  regionSize := c.regionSize
  commitGranularity := c.commitGranularity

def find? (t : SegmentTable) (id : Nat) : Option Segment := (t.slots[id]?).join

def fetch (t : SegmentTable) (id : Nat) : Except HeapError Segment :=
  match t.find? id with
  | some s => .ok s
  | none => .error (.invalidSegment id)

def put (t : SegmentTable) (s : Segment) : SegmentTable :=
  { t with slots := t.slots.set s.id (some s) }

/-- Adds an empty segment on a range, which no owner lists yet. -/
def append (t : SegmentTable) (owner : Generation) (range : AddressRange) (kind : SegmentKind) :
    SegmentTable :=
  { t with
    slots := t.slots ++ [some {
      id := t.slots.length, kind, range, committed := 0, allocated := range.start, owner
      freeSpans := [] }]
    grown := t.grown.modify owner (· + 1) }

/-- Lists a segment as the newest of its owner. -/
def enlist (t : SegmentTable) (id : Nat) (owner : Generation) : SegmentTable :=
  { t with owned := t.owned.modify owner (· ++ [id]) }

/-- Strikes a segment off the list of its owner. -/
def delist (t : SegmentTable) (id : Nat) (owner : Generation) : SegmentTable :=
  { t with owned := t.owned.modify owner (·.filter (· != id)) }

/-- The table without a segment. -/
def forget (t : SegmentTable) (id : Nat) (owner : Generation) : SegmentTable :=
  { t.delist id owner with slots := t.slots.set id none }

def segments (t : SegmentTable) : List Segment := t.slots.filterMap id

def count (t : SegmentTable) : Nat := t.segments.length

/-- Whether allocations for a generation go to the ephemeral segment. -/
def usesEphemeral (t : SegmentTable) (g : Generation) : Bool :=
  t.layout == .segments && g.ephemeral

/-- The segment in which a generation allocates behind the pointer. -/
def allocSegment? (t : SegmentTable) (g : Generation) : Option Nat :=
  if t.usesEphemeral g then t.ephemeral else (t.owned.get g).getLast?

/-- The segments whose free spans a generation may use. -/
def candidates (t : SegmentTable) (g : Generation) : List Nat :=
  if t.usesEphemeral g then t.ephemeral.toList else t.owned.get g

/-- The free bytes in the spans that a generation may use. -/
def freeBytesFor (t : SegmentTable) (g : Generation) : Checked Nat := do
  let sizes ← ((t.candidates g).filterMap t.find?).mapM Segment.freeBytes
  Word.fit (Word.total sizes)

/-- The first segment whose range holds an address. -/
def segmentOf? (t : SegmentTable) (a : Nat) : Checked (Option Nat) := do
  return (← t.segments.findM? fun s => s.contains a).map (·.id)

/-- The lowest start and the highest allocation pointer. -/
def bounds? (t : SegmentTable) : Option (Nat × Nat) :=
  match t.segments with
  | [] => none
  | s :: rest =>
    some (rest.foldl (fun low x => min low x.start) s.start,
      rest.foldl (fun high x => max high x.allocated) s.allocated)

def committedBytes (t : SegmentTable) : Checked Nat :=
  Word.fit (Word.total (t.segments.map (·.committed)))

def rebuild (t : SegmentTable) (space : ObjectSpace) : Checked SegmentTable := do
  let slots ← t.slots.mapM fun
    | none => pure none
    | some s => do return some (← s.rebuild space).2
  return { t with slots }

def ranges (t : SegmentTable) : List (Nat × Nat) := t.segments.map fun s => (s.start, s.allocated)

/-- The size of the next segment of a generation: doubled with each growth up to the largest size,
or as many regions as hold the minimum. -/
def nextSize (t : SegmentTable) (g : Generation) (minimum : Nat) : Checked Nat :=
  match t.layout with
  | .segments =>
    let doubled := Word.mulSat t.initialSegmentSize (1 <<< min (t.grown.get g) 16)
    Word.alignUp (max (min doubled t.maxSegmentSize) minimum) t.commitGranularity
  | .regions =>
    if minimum ≤ t.regionSize then .ok t.regionSize else Word.alignUp minimum t.regionSize

/-- Gives a segment to another owner, whose newest it becomes. -/
def retag (id : Nat) (owner : Generation) : Transition SegmentTable Unit := do
  let t ← get
  let s ← Transition.ofExcept (t.fetch id)
  unless s.owner = owner do
    set (((t.put { s with owner }).delist id s.owner).enlist id owner)

/-- In the region layout, moves what a collection left in the young regions one age on. -/
def promoteRegions (condemned : Generation) : Transition SegmentTable Unit := do
  let t ← get
  if t.layout = .regions then
    if 1 ≤ condemned.condemnTier.tier then
      (t.owned.get .gen1).forM fun id => retag id .gen2
    ((← get).owned.get .gen0).forM fun id => retag id .gen1

/-- The first-fit block of a segment's free spans. -/
def takeFree (id size : Nat) (t : SegmentTable) : Checked (Option Nat × SegmentTable) :=
  match t.find? id with
  | none => .ok (none, t)
  | some s => do
    match ← FreeSpan.takeFirst? size s.freeSpans with
    | none => return (none, t)
    | some (a, freeSpans) => return (some a, t.put { s with freeSpans })

end SegmentTable

/-- The segments of one heap with the provider of their memory. -/
structure SegmentArena where
  table : SegmentTable
  provider : Provider

namespace SegmentArena

def onProvider {α : Type} (t : Transition Provider α) : Transition SegmentArena α :=
  t.onPart SegmentArena.provider fun provider a => { a with provider }

def onTable {α : Type} (t : Transition SegmentTable α) : Transition SegmentArena α :=
  t.onPart SegmentArena.table fun table a => { a with table }

/-- The range of a new segment of `size` bytes, its kind, and whether it was pooled. -/
def acquire (size : Nat) : Transition SegmentArena (AddressRange × SegmentKind × Bool) := do
  let t := (← get).table
  match t.layout with
  | .segments => return (← onProvider (Provider.reserve size t.commitGranularity), .segment, false)
  | .regions =>
    if size = t.regionSize then
      if let range :: rest := t.freeRegions then
        modify fun a => { a with table := { a.table with freeRegions := rest } }
        return (range, .region, true)
    return (← onProvider (Provider.reserve size t.regionSize), .region, false)

/-- Makes a segment the ephemeral one; its predecessor goes to the oldest generation. -/
def replaceEphemeral (id : Nat) : Transition SegmentArena Unit := do
  let previous := (← get).table.ephemeral
  modify fun a => { a with table := { a.table with ephemeral := some id } }
  if let some previous := previous then onTable (SegmentTable.retag previous .gen2)

/-- A new segment for a generation with room for at least `minimum` bytes. -/
def grow (g : Generation) (minimum : Nat) : Transition SegmentArena Growth := do
  let t := (← get).table
  let owner := if t.usesEphemeral g then .gen0 else g
  let (range, kind, reused) ← acquire (← t.nextSize owner minimum)
  let t := (← get).table
  let id := t.slots.length
  modify fun a => { a with table := a.table.append owner range kind }
  let newEphemeral := t.usesEphemeral owner
  if newEphemeral then replaceEphemeral id
  modify fun a => { a with table := a.table.enlist id owner }
  return { segment := id, reused, newEphemeral }

/-- Commits, in whole steps, what a segment needs to reach `stop`. Answers the bytes committed
then. -/
def commitUpTo (s : Segment) (stop : Nat) : Transition SegmentArena Nat := do
  let committedEnd ← s.committedEnd
  if stop ≤ committedEnd then return s.committed
  let granularity := (← get).table.commitGranularity
  let target := min (← Word.alignUp stop granularity) (← s.reservedEnd)
  let grown ← Word.sub target committedEnd
  onProvider (Provider.commit ⟨committedEnd, grown⟩)
  return s.committed + grown

/-- The block of `size` bytes at the allocation pointer; nothing if the reserved range is too
short. -/
def bump (id size : Nat) : Transition SegmentArena (Option Nat) := do
  let s ← Transition.ofExcept ((← get).table.fetch id)
  let stop ← Word.add s.allocated size
  if (← s.reservedEnd) < stop then return none
  let committed ← commitUpTo s stop
  modify fun a => { a with table := a.table.put { s with committed, allocated := stop } }
  return some s.allocated

/-- Whether an object starts in the reserved range of a segment. -/
def holdsObject (s : Segment) (space : ObjectSpace) : Checked Bool := do
  return !(← space.startingIn s.start (← s.reservedEnd)).isEmpty

/-- Gives the committed part of a segment back. -/
def decommitPart (s : Segment) : Transition SegmentArena Unit := do
  if 0 < s.committed then onProvider (Provider.decommit ⟨s.start, s.committed⟩)

/-- Pools the range of a region of the usual size, and releases any other range. -/
def returnRange (s : Segment) : Transition SegmentArena Unit := do
  let a ← get
  if s.kind = .region ∧ s.range.size = a.table.regionSize then
    set { a with table := { a.table with freeRegions := s.range :: a.table.freeRegions } }
  else
    onProvider (Provider.release s.range)

/-- Gives the memory of a segment without objects back and forgets the segment, unless it is the
ephemeral one. Answers whether it did. -/
def decommitIfEmpty (id : Nat) (space : ObjectSpace) : Transition SegmentArena Bool := do
  let t := (← get).table
  if t.ephemeral = some id then return false
  let s ← Transition.ofExcept (t.fetch id)
  if ← holdsObject s space then return false
  decommitPart s
  returnRange s
  modify fun a => { a with table := a.table.forget id s.owner }
  return true

/-- Gives back the memory of one segment, after forgetting it. -/
def releaseSegment (s : Segment) : Transition SegmentArena Unit := do
  modify fun a => { a with table := { a.table with slots := a.table.slots.set s.id none } }
  decommitPart s
  onProvider (Provider.release s.range)

/-- Gives all memory back, segments first and pooled regions then. -/
def releaseAll : Transition SegmentArena Unit := do
  (← get).table.segments.forM releaseSegment
  let pooled := (← get).table.freeRegions.reverse
  modify fun a => { a with table := { a.table with freeRegions := [] } }
  pooled.forM fun range => onProvider (Provider.release range)
  modify fun a => { a with table := { a.table with owned := .const [], ephemeral := none } }

end SegmentArena

end GenHeap
