import GenHeap.Address
import GenHeap.Generation

/-!
Objects: requests for them, the bytes they take, and the record that the heap keeps of each. The
heap knows an object's size and references, not its contents.
-/

namespace GenHeap

namespace Object

def slotBytes : Nat := 8

def headerBytes : Nat := 16

def minBytes : Nat := 24

def alignment : Nat := 8

def slotAddress (object slot : Nat) : Checked Nat := do
  Word.add object (← Word.add headerBytes (← Word.mul slot slotBytes))

end Object

structure AllocRequest where
  size : Nat
  generation : Generation := .gen0
  slots : Nat := 0
  finalizable : Bool := false
  /-- never to be moved -/
  pinned : Bool := false
  deriving DecidableEq, Repr

namespace AllocRequest

/-- The least size that holds the header and the slots. -/
def neededBytes? (r : AllocRequest) : Option Nat := do
  let slots ← Word.mul? r.slots Object.slotBytes
  Word.add? slots Object.headerBytes

/-- The bytes that the object takes: room for header and slots, never below the smallest object,
rounded up to the alignment; nothing if that is no word. -/
def effectiveSize? (r : AllocRequest) : Option Nat := do
  let needed ← r.neededBytes?
  let top ← Word.add? (max (max r.size needed) Object.minBytes) (Object.alignment - 1)
  return top / Object.alignment * Object.alignment

end AllocRequest

structure Record where
  size : Nat
  generation : Generation
  heap : Nat
  segment : Nat
  /-- the targets of the reference slots, zero where a slot is empty -/
  slots : List Nat
  finalizable : Bool := false
  pinned : Bool := false
  marked : Bool := false
  deriving DecidableEq, Repr

namespace Record

def references (r : Record) : List Nat := r.slots.filter (· != 0)

end Record

end GenHeap
