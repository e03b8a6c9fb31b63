import GenHeap.Transition

/-!
Handles: names for objects that the embedder holds. Strong and pinned handles keep their target
alive, a pinned one also in its place, and a weak one is cleared when its target dies. Identifiers
are numbers of 32 bits; those of freed handles are given out again, the last one first.
-/

namespace GenHeap

inductive HandleKind where
  | strong | pinned | weak
  deriving DecidableEq, Repr

structure Handle where
  kind : HandleKind
  /-- zero for an empty handle -/
  target : Nat
  deriving DecidableEq, Repr

def Handle.isStale (live : Nat → Bool) (h : Handle) : Bool :=
  h.kind == .weak && h.target != 0 && !live h.target

structure HandleTable where
  slots : List (Option Handle) := []
  /-- the freed identifiers, the next one to be used first -/
  free : List Nat := []
  deriving DecidableEq, Repr

namespace HandleTable

/-- The number of numbers of 32 bits. -/
def idCount : Nat := 0x100000000

def find? (t : HandleTable) (id : Nat) : Option Handle := (t.slots[id]?).join

def fetch (t : HandleTable) (id : Nat) : Except HeapError Handle :=
  match t.find? id with
  | some h => .ok h
  | none => .error (.invalidHandle id)

/-- A new handle: its identifier and the table with it. For a new slot the length of the table is
cut to 32 bits before the identifier is taken from it. -/
def create (t : HandleTable) (kind : HandleKind) (target : Nat) : Checked (Nat × HandleTable) :=
  match t.free with
  | id :: free => return (id, { slots := t.slots.set id (some ⟨kind, target⟩), free })
  | [] => do
    let slots := t.slots ++ [some ⟨kind, target⟩]
    return (← Word.sub (slots.length % idCount) 1, { t with slots })

def release (t : HandleTable) (id : Nat) : Except HeapError HandleTable := do
  let _ ← t.fetch id
  return { slots := t.slots.set id none, free := id :: t.free }

/-- The target, if the handle is not empty. -/
def target (t : HandleTable) (id : Nat) : Except HeapError (Option Nat) := do
  let h ← t.fetch id
  return if h.target = 0 then none else some h.target

def kind (t : HandleTable) (id : Nat) : Except HeapError HandleKind :=
  return (← t.fetch id).kind

def setTarget (t : HandleTable) (id : Nat) (target : Nat) : Except HeapError HandleTable := do
  let h ← t.fetch id
  return { t with slots := t.slots.set id (some { h with target }) }

def handles (t : HandleTable) : List Handle := t.slots.filterMap id

def occupied (t : HandleTable) : List Handle := t.handles.filter (·.target != 0)

/-- The targets of the strong and the pinned handles. -/
def roots (t : HandleTable) : List Nat :=
  (t.occupied.filter (·.kind != .weak)).map (·.target)

def pinnedTargets (t : HandleTable) : List Nat :=
  (t.occupied.filter (·.kind == .pinned)).map (·.target)

def targets (t : HandleTable) : List Nat := t.occupied.map (·.target)

/-- Empties the weak handles of dead targets. -/
def clearDeadWeak (t : HandleTable) (live : Nat → Bool) : HandleTable :=
  { t with slots := t.slots.map (·.map fun h =>
      if h.isStale live then { h with target := 0 } else h) }

/-- How many handles `clearDeadWeak` empties. -/
def deadWeakCount (t : HandleTable) (live : Nat → Bool) : Nat :=
  t.handles.countP (·.isStale live)

def relocate (t : HandleTable) (forward : Nat → Nat) : HandleTable :=
  { t with slots := t.slots.map (·.map fun h => { h with target := forward h.target }) }

def count (t : HandleTable) : Nat := t.handles.length

end HandleTable

end GenHeap
