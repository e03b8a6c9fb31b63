import GenHeap.SwapErase
import GenHeap.Transition

/-!
A provider of address space: ranges are reserved, committed, decommitted and released. The
`AddressSpace` keeps the books of one range of addresses; released ranges are reused first fit,
and what alignment or size leaves over of a reused range is kept as holes. Reservations and
commits can be made to fail, in the books or, for a `Provider`, before a call reaches them.
-/

namespace GenHeap

structure AddressSpace where
  /-- all addresses that can be handed out -/
  range : AddressRange
  /-- the addresses from here on were never reserved -/
  next : Nat
  /-- released ranges, in the order in which a reservation looks at them -/
  holes : List AddressRange
  reserved : Nat
  committed : Nat
  commitLimit : Option Nat
  failingCommits : Nat
  failingReserves : Nat
  /-- the bytes given back beyond those that were charged; no answer depends on them -/
  overdrawn : Nat
  deriving DecidableEq, Repr

namespace AddressSpace

def ofRange (range : AddressRange) : AddressSpace where
  range := range
  next := range.start
  holes := []
  reserved := 0
  committed := 0
  commitLimit := none
  failingCommits := 0
  failingReserves := 0
  overdrawn := 0

/-- The aligned place of `size` bytes in a hole: its first address and the first one behind it. -/
def fit? (size alignment : Nat) (hole : AddressRange) : Checked (Option (Nat × Nat)) := do
  let some start ← Word.alignUp? hole.start alignment | return none
  let some stop := Word.add? start size | return none
  return if stop ≤ (← hole.stop) then some (start, stop) else none

/-- The first hole with room: its index, the hole, and the place in it. -/
def firstFit? (size alignment : Nat) :
    List AddressRange → Nat → Checked (Option (Nat × AddressRange × Nat × Nat))
  | [], _ => .ok none
  | hole :: rest, i => do
    match ← fit? size alignment hole with
    | some (start, stop) => return some (i, hole, start, stop)
    | none => firstFit? size alignment rest (i + 1)

/-- What is left of a hole around `start` up to `stop`. -/
def leftover (hole : AddressRange) (start stop : Nat) : List AddressRange :=
  (if hole.start < start then [⟨hole.start, start - hole.start⟩] else []) ++
  (if stop < hole.start + hole.size then [⟨stop, hole.start + hole.size - stop⟩] else [])

/-- Takes an aligned range, from the first hole with room or else from the untouched end. -/
def reserve (size alignment : Nat) : Transition AddressSpace AddressRange := do
  let s ← get
  if 0 < s.failingReserves then
    set { s with failingReserves := s.failingReserves - 1 }
    throw (.reserveFailed size)
  match ← firstFit? size alignment s.holes 0 with
  | some (i, hole, start, stop) =>
    let reserved ← Word.add s.reserved size
    set { s with holes := swapErase s.holes i ++ leftover hole start stop, reserved }
    return ⟨start, size⟩
  | none =>
    let start ← Word.alignUp s.next alignment
    let some stop := Word.add? start size | throw (.reserveFailed size)
    if (← s.range.stop) < stop then throw (.reserveFailed size)
    let reserved ← Word.add s.reserved size
    set { s with next := stop, reserved }
    return ⟨start, size⟩

/-- Charges the bytes of a range, unless that is made to fail or goes over the limit. -/
def commit (r : AddressRange) : Transition AddressSpace Unit := do
  let s ← get
  if 0 < s.failingCommits then
    set { s with failingCommits := s.failingCommits - 1 }
    throw (.commitFailed r.start r.size)
  let committed ← Word.add s.committed r.size
  if s.commitLimit.any (· < committed) then throw (.commitFailed r.start r.size)
  set { s with committed }

/-- Takes the bytes of a range off the charge, which stops at zero. -/
def decommit (r : AddressRange) (s : AddressSpace) : AddressSpace :=
  { s with
    committed := s.committed - r.size
    overdrawn := s.overdrawn + (r.size - s.committed) }

/-- Gives a range back; it becomes a hole. -/
def release (r : AddressRange) (s : AddressSpace) : AddressSpace :=
  { s with
    reserved := s.reserved - r.size
    overdrawn := s.overdrawn + (r.size - s.reserved)
    holes := s.holes ++ [r] }

end AddressSpace

inductive ProviderCall where
  | reserve | commit | decommit | release
  deriving DecidableEq, Repr

/-- How many of the next calls of each kind are refused. -/
structure Refusals where
  reserve : Nat := 0
  commit : Nat := 0
  decommit : Nat := 0
  release : Nat := 0
  deriving DecidableEq, Repr

namespace Refusals

def get (r : Refusals) : ProviderCall → Nat
  | .reserve => r.reserve | .commit => r.commit | .decommit => r.decommit | .release => r.release

def set (r : Refusals) (call : ProviderCall) (n : Nat) : Refusals :=
  match call with
  | .reserve => { r with reserve := n }
  | .commit => { r with commit := n }
  | .decommit => { r with decommit := n }
  | .release => { r with release := n }

end Refusals

/-- An address space behind a gate that can refuse calls. -/
structure Provider where
  space : AddressSpace
  refusals : Refusals := {}
  deriving DecidableEq, Repr

namespace Provider

def ofRange (range : AddressRange) : Provider := { space := .ofRange range }

/-- Makes the next `n` calls of a kind fail. -/
def refuse (p : Provider) (call : ProviderCall) (n : Nat) : Provider :=
  { p with refusals := p.refusals.set call n }

/-- Passes the gate, or fails with the range of the call. -/
def enter (call : ProviderCall) (r : AddressRange) : Transition Provider Unit := do
  let p ← get
  if 0 < p.refusals.get call then
    set (p.refuse call (p.refusals.get call - 1))
    throw (.commitFailed r.start r.size)

def onSpace {α : Type} (t : Transition AddressSpace α) : Transition Provider α :=
  t.onPart Provider.space fun space p => { p with space }

def reserve (size alignment : Nat) : Transition Provider AddressRange := do
  enter .reserve ⟨0, size⟩
  onSpace (AddressSpace.reserve size alignment)

def commit (r : AddressRange) : Transition Provider Unit := do
  enter .commit r
  onSpace (AddressSpace.commit r)

def decommit (r : AddressRange) : Transition Provider Unit := do
  enter .decommit r
  modify fun p => { p with space := p.space.decommit r }

def release (r : AddressRange) : Transition Provider Unit := do
  enter .release r
  modify fun p => { p with space := p.space.release r }

end Provider

end GenHeap
