/-!
Unsigned 64-bit words, kept as natural numbers.

An operation whose exact result is no word faults, a saturating one stops at the largest word, and
rounding to a power of two never loses bits: `alignUp v a` is the least multiple of `a` from `v` on.
-/

namespace GenHeap

/-- Why a run ends on the spot: a value left the range of its type, or a caller broke a
precondition. A fault is not an answer of an operation; nothing follows it. -/
inductive Fault where
  /-- the exact result is no 64-bit word -/
  | overflow
  /-- an alignment or a card size that is no power of two -/
  | alignment
  /-- a range that starts above its end -/
  | reversedRange
  /-- a clamp whose bounds are reversed or not numbers -/
  | reversedBounds
  /-- an allocation pointer outside the committed part of its segment -/
  | outsideSegment
  /-- a division by zero -/
  | zeroDivisor
  /-- a table with more entries than memory can hold -/
  | capacity
  /-- a heap that fails its own check after a collection -/
  | corruptHeap
  deriving DecidableEq, Repr

/-- A computation that may fault. -/
abbrev Checked (α : Type) := Except Fault α

namespace Word

/-- The number of words, the 64th power of two. -/
def count : Nat := 0x10000000000000000

/-- The lowest word that is negative when read as a signed number. -/
def signBit : Nat := 0x8000000000000000

def largest : Nat := count - 1

def fit (n : Nat) : Checked Nat :=
  if n < count then .ok n else .error .overflow

def add (a b : Nat) : Checked Nat := fit (a + b)

def mul (a b : Nat) : Checked Nat := fit (a * b)

def sub (a b : Nat) : Checked Nat :=
  if b ≤ a then .ok (a - b) else .error .overflow

/-- The sum, if it is a word. -/
def add? (a b : Nat) : Option Nat :=
  if a + b < count then some (a + b) else none

/-- The product, if it is a word. -/
def mul? (a b : Nat) : Option Nat :=
  if a * b < count then some (a * b) else none

/-- The sum, or the largest word where the sum is none. -/
def addSat (a b : Nat) : Nat := min (a + b) largest

/-- The product, or the largest word where the product is none. -/
def mulSat (a b : Nat) : Nat := min (a * b) largest

def isPowerOfTwo (n : Nat) : Bool := n != 0 && n &&& (n - 1) == 0

/-- The number of pieces of size `piece` that cover `n`. -/
def pieces (n piece : Nat) : Nat := (n + piece - 1) / piece

/-- The least multiple of `alignment` that is not below `v`. The sum `v + alignment` has to be a
word, also where the result would be one without it. -/
def alignUp (v alignment : Nat) : Checked Nat := do
  unless isPowerOfTwo alignment do throw .alignment
  let top ← add v alignment
  return (top - 1) / alignment * alignment

/-- The least multiple of `alignment` that is not below `v`, if the step up to it stays within
the words. -/
def alignUp? (v alignment : Nat) : Checked (Option Nat) := do
  unless isPowerOfTwo alignment do throw .alignment
  return (add? v (alignment - 1)).map fun top => top / alignment * alignment

/-- The double nearest to a word. -/
def toFloat (n : Nat) : Float := n.toUInt64.toFloat

/-- The integer part of a double, stopped at zero and at the largest word; zero for no number. -/
def ofFloat (x : Float) : Nat := x.toUInt64.toNat

/-- `part / whole`, and zero for an empty whole. -/
def ratio (part whole : Nat) : Float :=
  if whole = 0 then 0.0 else toFloat part / toFloat whole

def total (ns : List Nat) : Nat := ns.foldr (· + ·) 0

/-- Faults unless a table of `n` entries of `entry` bytes can be addressed. -/
def requireCapacity (n entry : Nat) : Checked Unit :=
  if n * entry < signBit then .ok () else .error .capacity

theorem fit_eq_ok_iff {n m : Nat} : fit n = .ok m ↔ n < count ∧ n = m := by
  grind [fit]

theorem add_eq_ok_iff {a b c : Nat} : add a b = .ok c ↔ a + b < count ∧ a + b = c :=
  fit_eq_ok_iff

theorem sub_eq_ok_iff {a b c : Nat} : sub a b = .ok c ↔ b ≤ a ∧ a - b = c := by
  grind [sub]

@[simp] theorem total_nil : total [] = 0 := rfl

@[simp] theorem total_cons {n : Nat} {ns : List Nat} : total (n :: ns) = n + total ns := rfl

theorem add?_eq_some_iff {a b c : Nat} : add? a b = some c ↔ a + b < count ∧ a + b = c := by
  grind [add?]

end Word

end GenHeap
