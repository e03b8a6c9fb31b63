import GenHeap.Chunks
import GenHeap.Diagnostics.Board
import GenHeap.Error

/-!
Reading fields by name and type. A `Source` is whatever answers for the fields of some heaps: the
boards of a running heap, or a snapshot. A field that the source's version or configuration does
not have reads as missing, and the source is not asked.
-/

namespace GenHeap.Diagnostics

inductive FieldValue where
  | missing
  | scalar (n : Nat)
  | flag (b : Bool)
  | pointer (a : Nat)
  | array (words : List Nat)
  deriving DecidableEq, Repr

namespace FieldValue

def kind : FieldValue → String
  | missing => "missing"
  | scalar _ => "scalar"
  | flag _ => "flag"
  | pointer _ => "pointer"
  | array _ => "array"

def ofWords (d : Descriptor) (words : List Nat) : FieldValue :=
  let first := words.headD 0
  match d.shape with
  | .fixed _ | .varying _ => array words
  | .pointer => pointer first
  | .direct =>
    match d.tag with
    | .address => pointer first
    | .bool => flag (first != 0)
    | _ => scalar first

end FieldValue

/-- A value, and whether it was at rest when it was read. -/
structure Reading where
  value : FieldValue
  stable : Bool
  deriving DecidableEq, Repr

namespace Reading

def missing : Reading := ⟨.missing, true⟩

def mismatch (r : Reading) (name expected : String) : HeapError :=
  match r.value with
  | .missing => .fieldMissing name
  | v => .fieldTypeMismatch name expected v.kind

def asScalar (r : Reading) (name : String) : Except HeapError Nat :=
  match r.value with
  | .scalar n => .ok n
  | _ => .error (r.mismatch name "scalar")

def asFlag (r : Reading) (name : String) : Except HeapError Bool :=
  match r.value with
  | .flag b => .ok b
  | _ => .error (r.mismatch name "flag")

def asPointer (r : Reading) (name : String) : Except HeapError Nat :=
  match r.value with
  | .pointer a => .ok a
  | _ => .error (r.mismatch name "pointer")

def asArray (r : Reading) (name : String) : Except HeapError (List Nat) :=
  match r.value with
  | .array words => .ok words
  | _ => .error (r.mismatch name "array")

end Reading

/-- What answers for the fields of some heaps. -/
structure Source where
  version : Nat
  capabilities : Capabilities
  /-- the fields of each heap, asked only for those it has -/
  heaps : List (Field → Reading)

namespace Source

/-- A field of one heap; missing if the version or the configuration does not have it. -/
def lookUp (s : Source) (heap : Field → Reading) (f : Field) : Reading :=
  if f.isKnownIn s.version && f.isAvailable s.capabilities then heap f else .missing

/-- Reads a field by its name, expecting a type. -/
def read (s : Source) (heap : Nat) (name : String) (expected : TypeTag) :
    Except HeapError Reading :=
  match Field.ofName? name with
  | none => .error (.fieldUnknown name)
  | some f =>
    if f.descriptor.tag ≠ expected then
      .error (.fieldTypeMismatch name expected.name f.descriptor.tag.name)
    else
      match s.heaps[heap]? with
      | none => .error (.invalidHeap heap)
      | some h => .ok (s.lookUp h f)

/-- The allocation failures of one heap, oldest first; words that stand for none are left out. -/
def outOfMemoryEvents (s : Source) (heap : Nat) : Except HeapError (List OutOfMemory.Event) := do
  let name := Field.outOfMemoryEvents.name
  let reading ← s.read heap name .outOfMemoryEvent
  let words ← reading.asArray name
  return (chunks (OutOfMemory.Event.words - 1) words).filterMap OutOfMemory.Event.decode?

end Source

/-- A field as a board shows it: in motion during a publication, and during a background cycle if
the field is volatile. -/
def Board.read (b : Board) (f : Field) : Reading where
  value := .ofWords f.descriptor (b.words f)
  stable := b.isConsistent && !(f.descriptor.volatile && b.cycleActive)

/-- The boards of a running heap as a source. -/
def Source.ofBoards (capabilities : Capabilities) (boards : List Board) : Source where
  version := catalogueVersion
  capabilities := capabilities
  heaps := boards.map Board.read

end GenHeap.Diagnostics
