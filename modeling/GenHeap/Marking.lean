import GenHeap.CardTable
import GenHeap.Chunks
import GenHeap.ObjectSpace
import GenHeap.Worklist

/-!
Marking during a pause. `trace` marks the condemned objects reachable from seeds through condemned
objects; a partial collection takes as further seeds the references into condemned generations
from older objects on dirty cards.
-/

namespace GenHeap

inductive MarkPhase where
  | idle | markRoots | trace | finalPause | done
  deriving DecidableEq, Repr

namespace MarkPhase

def code : MarkPhase → Nat
  | idle => 0 | markRoots => 1 | trace => 2 | finalPause => 3 | done => 4

/-- The phase of a code; idle for an unknown one. -/
def ofCode : Nat → MarkPhase
  | 1 => markRoots | 2 => trace | 3 => finalPause | 4 => done | _ => idle

end MarkPhase

structure CardScan where
  /-- references to condemned objects -/
  seeds : List Nat := []
  /-- the scanned cards -/
  consumed : List Nat := []
  /-- those of them without a seed -/
  falsePositives : List Nat := []
  deriving DecidableEq, Repr

namespace Marking

/-- The space during a trace, and the objects and bytes marked so far. -/
structure Progress where
  space : ObjectSpace
  objects : Nat := 0
  bytes : Nat := 0

/-- Marks a condemned object that is not marked yet, and finds its references. -/
def visit (condemned : Generation) (p : Progress) (a : Nat) : Progress × List Nat :=
  match p.space.get? a with
  | none => (p, [])
  | some r =>
    if r.generation.condemnedBy condemned && !r.marked then
      ({ space := p.space.update a fun r => { r with marked := true }
         objects := p.objects + 1
         bytes := p.bytes + r.size }, r.references)
    else (p, [])

/-- Marks what is reachable from the seeds. There are no more visits than seeds and slots. -/
def traceSerial (condemned : Generation) (p : Progress) (seeds : List Nat) : Progress :=
  Worklist.drain (visit condemned) (seeds.length + p.space.slotCount) p (Worklist.add [] seeds)

/-- Marks what is reachable from the seeds, which are shared out among the workers if there are
enough of them. -/
def trace (workers threshold : Nat) (condemned : Generation) (space : ObjectSpace)
    (seeds : List Nat) : Progress :=
  if workers ≤ 1 ∨ seeds.length < max threshold 2 then traceSerial condemned { space } seeds
  else
    (chunks (Word.pieces seeds.length workers - 1) seeds).foldl (traceSerial condemned) { space }

/-- Whether an object outlives the collection after marking. -/
def survives (space : ObjectSpace) (condemned : Generation) (a : Nat) : Bool :=
  (space.get? a).any fun r => !r.generation.condemnedBy condemned || r.marked

/-- The references to condemned objects from the others among `objects`. -/
def oldToCondemned (space : ObjectSpace) (condemned : Generation) (objects : List Nat) :
    List Nat :=
  ((objects.filterMap space.get?).filter (!·.generation.condemnedBy condemned)).flatMap fun r =>
    r.references.filter fun t => (space.get? t).any (·.generation.condemnedBy condemned)

def scanCard (space : ObjectSpace) (condemned : Generation) (cards : CardTable) (scan : CardScan)
    (card : Nat) : Checked CardScan := do
  let (start, stop) ← cards.bounds card
  let seeds := oldToCondemned space condemned (← space.overlapping start stop)
  return {
    seeds := scan.seeds ++ seeds
    consumed := scan.consumed ++ [card]
    falsePositives := if seeds.isEmpty then scan.falsePositives ++ [card] else scan.falsePositives }

/-- The dirty cards of some ranges, range by range. -/
def dirtyCards (cards : CardTable) (ranges : List (Nat × Nat)) : List Nat :=
  ranges.flatMap fun (start, stop) => cards.dirtyIn start stop

def scanCards (space : ObjectSpace) (condemned : Generation) (cards : CardTable)
    (ranges : List (Nat × Nat)) : Checked CardScan :=
  (dirtyCards cards ranges).foldlM (scanCard space condemned cards) {}

/-- Clears all marks and marks anew from the roots, and from dirty cards if not all generations
are condemned. -/
def mark (workers threshold : Nat) (space : ObjectSpace) (roots : List Nat)
    (condemned : Generation) (cards : CardTable) (ranges : List (Nat × Nat)) :
    Checked (Progress × CardScan) := do
  let space := space.clearMarks
  let scan ← if condemned.condemnTier.tier < 2
    then scanCards space condemned cards ranges
    else pure {}
  return (trace workers threshold condemned space (roots ++ scan.seeds), scan)

end Marking

end GenHeap
