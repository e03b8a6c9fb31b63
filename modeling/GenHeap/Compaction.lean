import GenHeap.Config
import GenHeap.Segment

/-!
Compaction: when to do it, and how. A plan slides the movable objects of segments towards their
starts; an immovable object stays, and none passes it. Applying a plan moves the records and
redirects every slot that held an old address.
-/

namespace GenHeap

inductive CompactionReason where
  | lastBeforeOutOfMemory
  | induced
  /-- the ephemeral segment has less room than one budget of the youngest generation -/
  | lowEphemeralSpace
  | highFragmentation
  | largeObjectFragmentation
  deriving DecidableEq, Repr

namespace CompactionReason

def all : List CompactionReason :=
  [lastBeforeOutOfMemory, induced, lowEphemeralSpace, highFragmentation, largeObjectFragmentation]

def index : CompactionReason → Nat
  | lastBeforeOutOfMemory => 0
  | induced => 1
  | lowEphemeralSpace => 2
  | highFragmentation => 3
  | largeObjectFragmentation => 4

def name : CompactionReason → String
  | lastBeforeOutOfMemory => "LastGcBeforeOom"
  | induced => "Induced"
  | lowEphemeralSpace => "LowEphemeralSpace"
  | highFragmentation => "HighFragmentation"
  | largeObjectFragmentation => "LargeObjectFragmentation"

end CompactionReason

structure CompactionInputs where
  /-- free bytes below the allocation pointers of the condemned segments -/
  freeBytes : Nat := 0
  allocatedBytes : Nat := 0
  survivors : Nat := 0
  pinnedSurvivors : Nat := 0
  inducedCompacting : Bool := false
  lastBeforeOutOfMemory : Bool := false
  /-- the room in the ephemeral segment, if there is one -/
  ephemeralAvailable : Option Nat := none
  youngBudget : Nat := 0
  full : Bool := false
  largeFreeBytes : Nat := 0
  largeAllocatedBytes : Nat := 0
  deriving DecidableEq, Repr

namespace CompactionInputs

def fragmentation (i : CompactionInputs) : Float := Word.ratio i.freeBytes i.allocatedBytes

def pinnedDensity (i : CompactionInputs) : Float := Word.ratio i.pinnedSurvivors i.survivors

def largeFragmentation (i : CompactionInputs) : Float :=
  Word.ratio i.largeFreeBytes i.largeAllocatedBytes

def isFragmented (i : CompactionInputs) (t : Tuning) : Bool :=
  t.fragmentationRatio ≤ i.fragmentation && t.fragmentationMinBytes ≤ i.freeBytes &&
    i.pinnedDensity ≤ t.pinnedDensityLimit

def isLargeFragmented (i : CompactionInputs) (t : Tuning) : Bool :=
  i.full && t.largeFragmentationRatio ≤ i.largeFragmentation &&
    t.fragmentationMinBytes ≤ i.largeFreeBytes

/-- Why to compact, if at all: the first reason that holds. -/
def decide? (i : CompactionInputs) (t : Tuning) : Option CompactionReason :=
  if i.lastBeforeOutOfMemory then some .lastBeforeOutOfMemory
  else if i.inducedCompacting then some .induced
  else if i.ephemeralAvailable.any (· < i.youngBudget) then some .lowEphemeralSpace
  else if i.isFragmented t then some .highFragmentation
  else if i.isLargeFragmented t then some .largeObjectFragmentation
  else none

end CompactionInputs

/-- Where objects are to go. -/
structure CompactionPlan where
  /-- new addresses by old ones -/
  forwarding : Std.TreeMap Nat Nat := ∅
  movedBytes : Nat := 0

namespace CompactionPlan

def empty : CompactionPlan := {}

def isEmpty (p : CompactionPlan) : Bool := p.forwarding.isEmpty

def movedObjects (p : CompactionPlan) : Nat := p.forwarding.size

/-- The new address of an address; one that does not move is its own. -/
def forward (p : CompactionPlan) (a : Nat) : Nat := p.forwarding.getD a a

def move (p : CompactionPlan) (a : Nat) (size : Nat) (target : Nat) : Checked CompactionPlan := do
  return { forwarding := p.forwarding.insert a target, movedBytes := ← Word.add p.movedBytes size }

/-- Slides objects, given in ascending order, towards the cursor. -/
def slide (movable : Nat → Record → Bool) (cursor : Nat) (p : CompactionPlan) :
    List (Nat × Record) → Checked CompactionPlan
  | [] => .ok p
  | (a, r) :: rest => do
    if movable a r then
      let p ← if cursor < a then p.move a r.size cursor else pure p
      slide movable (← Word.add cursor r.size) p rest
    else
      slide movable (← Word.add a r.size) p rest

def addSegment (p : CompactionPlan) (s : Segment) (space : ObjectSpace)
    (movable : Nat → Record → Bool) : Checked CompactionPlan := do
  p.slide movable s.start (← space.startingIn s.start s.allocated)

/-- Moves the objects and redirects the slots of all objects. -/
def apply (p : CompactionPlan) (space : ObjectSpace) : Checked ObjectSpace := do
  if p.isEmpty then return space
  let moves := p.forwarding.toList.filterMap fun (a, target) =>
    (space.get? a).map fun r => (a, target, r)
  let vacated := moves.foldl (fun s (a, _, _) => s.erase a) space
  let moved ← moves.foldlM (fun s (_, target, r) => s.insert target r) vacated
  return moved.mapRecords fun _ r => { r with slots := r.slots.map p.forward }

end CompactionPlan

/-- The state of sweeping: where a background sweep stands, and the objects swept so far. -/
structure Sweeper where
  next : Nat := 0
  swept : Nat := 0
  deriving DecidableEq, Repr

namespace Sweeper

/-- Removes dead objects; answers them in ascending order. -/
def sweep (w : Sweeper) (space : ObjectSpace) (dead : Nat → Record → Bool) :
    List (Nat × Record) × Sweeper × ObjectSpace :=
  let (gone, space) := space.removeWhere dead
  (gone, { w with swept := w.swept + gone.length }, space)

end Sweeper

end GenHeap
