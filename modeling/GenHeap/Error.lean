import GenHeap.Address
import GenHeap.OutOfMemory

/-!
The errors that operations of the heap answer, each by its cause, and their wording.
-/

namespace GenHeap

inductive HeapError where
  /-- no space, also after a last collection -/
  | outOfMemory (reason : OutOfMemory.Reason) (requested : Nat) (generation : Generation)
  | reserveFailed (size : Nat)
  | commitFailed (start : Nat) (size : Nat)
  | markAborted (reason : String)
  /-- the heap check found a broken invariant -/
  | invariantViolated (what : String)
  /-- a field of the catalogue that this configuration does not have -/
  | fieldMissing (name : String)
  | fieldUnknown (name : String)
  | fieldTypeMismatch (name expected actual : String)
  | finalizerFault (object : Nat) (message : String)
  | invalidConfig (what : String)
  | invalidAddress (address : Nat)
  | invalidHandle (handle : Nat)
  | invalidSegment (segment : Nat)
  | invalidHeap (heap : Nat)
  | invalidSlot (object : Nat) (slot : Nat)
  /-- a snapshot text that cannot be read -/
  | snapshot (what : String)
  deriving DecidableEq, Repr

namespace HeapError

def message : HeapError → String
  | outOfMemory reason requested generation =>
    "out of memory (" ++ reason.text ++ "): requested " ++ toString requested ++ " bytes in "
      ++ generation.name
  | reserveFailed size => "address space reservation of " ++ toString size ++ " bytes failed"
  | commitFailed start size =>
    "commit of " ++ toString size ++ " bytes at " ++ Address.text start ++ " failed"
  | markAborted reason => "concurrent mark aborted: " ++ reason
  | invariantViolated what => "compaction invariant violated: " ++ what
  | fieldMissing name => "diagnostic field `" ++ name ++ "` is missing in this configuration"
  | fieldUnknown name => "unknown diagnostic field `" ++ name ++ "`"
  | fieldTypeMismatch name expected actual =>
    "diagnostic field `" ++ name ++ "` has type " ++ actual ++ ", expected " ++ expected
  | finalizerFault object message =>
    "finalizer for " ++ Address.text object ++ " failed: " ++ message
  | invalidConfig what => "Invalid GC configuration: " ++ what
  | invalidAddress address => "no object at " ++ Address.text address
  | invalidHandle handle => "invalid handle " ++ toString handle
  | invalidSegment segment => "invalid segment handle " ++ toString segment
  | invalidHeap heap => "invalid heap index " ++ toString heap
  | invalidSlot object slot =>
    "object " ++ Address.text object ++ " has no reference slot " ++ toString slot
  | snapshot what => "diagnostic snapshot error: " ++ what

def isOutOfMemory : HeapError → Bool
  | outOfMemory .. => true
  | _ => false

end HeapError

end GenHeap
