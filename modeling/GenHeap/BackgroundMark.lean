import GenHeap.MarkBitmap
import GenHeap.Marking

/-!
Marking in the background. The tracer takes addresses from a shared worklist a chunk at a time and
the embedder runs between the chunks; objects outside the bounds of the cycle count as live, new
objects inside them are marked at once, and cards written during the cycle are looked at again in
the final pause.
-/

namespace GenHeap

structure BackgroundMark where
  low : Nat
  high : Nat
  bitmap : MarkBitmap
  /-- addresses to be traced, the next ones first -/
  worklist : List Nat
  aborted : Bool := false
  finished : Bool := false
  phase : MarkPhase := .markRoots
  traced : Nat := 0

namespace BackgroundMark

def ofRoots (low high : Nat) (roots : List Nat) : BackgroundMark where
  low := low
  high := high
  bitmap := .ofBounds low high
  worklist := Worklist.add [] roots

def inBounds (low high a : Nat) : Bool := low ≤ a && a < high

def covers (b : BackgroundMark) (a : Nat) : Bool := inBounds b.low b.high a

def isLive (b : BackgroundMark) (a : Nat) : Bool := !b.covers a || b.bitmap.isMarked a

/-- Marks a new object, if it lies in the bounds. -/
def allocateBlack (b : BackgroundMark) (a : Nat) : BackgroundMark :=
  if b.covers a then { b with bitmap := b.bitmap.mark a } else b

/-- Marks an object in the bounds that is not marked yet, and finds its references. -/
def visit (space : ObjectSpace) (b : BackgroundMark) (a : Nat) : BackgroundMark × List Nat :=
  match space.get? a with
  | none => (b, [])
  | some r =>
    if b.covers a && b.bitmap.isNews a then
      ({ b with bitmap := b.bitmap.mark a, traced := b.traced + 1 }, r.references)
    else (b, [])

def visitAll (space : ObjectSpace) (b : BackgroundMark) (batch : List Nat) :
    BackgroundMark × List Nat :=
  batch.foldl (fun (b, found) a =>
    let (b, more) := visit space b a
    (b, found ++ more)) (b, [])

/-- One step of the tracer: a chunk of the worklist, or the end if there is none. -/
def step (space : ObjectSpace) (chunk : Nat) (b : BackgroundMark) : BackgroundMark :=
  let batch := (b.worklist.take chunk).reverse
  if batch.isEmpty then { b with finished := true }
  else
    let (b, found) := visitAll space { b with worklist := b.worklist.drop chunk } batch
    { b with worklist := Worklist.add b.worklist found }

/-- Steps until the tracer is aborted or finished, `fuel` steps at most. -/
def steps (space : ObjectSpace) (chunk : Nat) : Nat → BackgroundMark → BackgroundMark
  | 0, b => b
  | fuel + 1, b =>
    if b.aborted || b.finished then b else steps space chunk fuel (step space chunk b)

/-- Runs the tracer to its end. Every step but the last takes an address, and there are no more of
them than the worklist and all slots hold. -/
def run (space : ObjectSpace) (chunk : Nat) (b : BackgroundMark) : BackgroundMark :=
  steps space chunk (b.worklist.length + space.slotCount + 1) b

/-- Marks what is reachable from a stack of addresses, the next one last. -/
def traceToClosure (space : ObjectSpace) (b : BackgroundMark) (stack : List Nat) :
    BackgroundMark :=
  Worklist.drain (visit space) (stack.length + space.slotCount) b (Worklist.add [] stack)

def cardReferences (space : ObjectSpace) (b : BackgroundMark) (watch : CardTable) (card : Nat) :
    Checked (List Nat) := do
  let (start, stop) ← watch.bounds card
  let live := (← space.overlapping start stop).filter b.isLive
  return (live.filterMap space.get?).flatMap Record.references

/-- The end of marking, in a pause: the rest of the worklist, the roots of now and the written
cards are traced. Answers the number of cards too. -/
def finishUnderPause (space : ObjectSpace) (b : BackgroundMark) (roots : List Nat)
    (watch : CardTable) (ranges : List (Nat × Nat)) : Checked (Nat × BackgroundMark) := do
  let cards := Marking.dirtyCards watch ranges
  let found := (← cards.mapM (cardReferences space b watch)).flatten
  let stack := b.worklist.reverse ++ roots ++ found
  return (cards.length, traceToClosure space { b with worklist := [] } stack)

end BackgroundMark

end GenHeap
