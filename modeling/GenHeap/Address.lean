import GenHeap.Word

/-!
Addresses of the managed space, which are plain words, and half-open ranges of them. Address 0
names no object.
-/

namespace GenHeap

def Address.text (a : Nat) : String := "0x" ++ String.ofList (Nat.toDigits 16 a)

structure AddressRange where
  start : Nat
  size : Nat
  deriving DecidableEq, Repr

namespace AddressRange

/-- The first address behind the range. -/
def stop (r : AddressRange) : Checked Nat := Word.add r.start r.size

/-- Whether `a` lies in the range. The end is only looked at for addresses from the start on. -/
def contains (r : AddressRange) (a : Nat) : Checked Bool :=
  if a < r.start then .ok false else do return a < (← r.stop)

end AddressRange

end GenHeap
