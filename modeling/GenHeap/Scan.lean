import GenHeap.Blank
import GenHeap.Digits

/-!
Reading text from its start. A scan takes characters from the front of a list and answers what it
read, or refuses; one that refuses leaves nothing behind, so another one can be tried on the same
text.
-/

namespace GenHeap

/-- A step that reads from the start of a text. -/
abbrev Scan (α : Type) := StateT (List Char) Option α

namespace Scan

variable {α β : Type}

def peek : Scan (Option Char) := return (← get).head?

def charWhere (p : Char → Bool) : Scan Char := do
  match ← get with
  | c :: rest =>
    guard (p c)
    set rest
    return c
  | [] => failure

def oneOf (cs : List Char) : Scan Char := charWhere (cs.contains ·)

def char (c : Char) : Scan Unit := do let _ ← charWhere (· == c)

def literal (s : String) : Scan Unit := s.toList.forM char

/-- Reads characters as long as they satisfy `p`. -/
def takeWhile (p : Char → Bool) : Scan (List Char) := do
  let cs ← get
  set (cs.dropWhile p)
  return cs.takeWhile p

/-- Reads characters as long as they satisfy `p`, at least one. -/
def takeWhile1 (p : Char → Bool) : Scan (List Char) := do
  let cs ← takeWhile p
  guard (!cs.isEmpty)
  return cs

/-- Reads digits, at least one and up to `most`, as many as there are. -/
def digits (most : Nat) : Scan (List Char) := do
  let cs ← get
  let ds := (cs.take most).takeWhile Char.isDigit
  guard (!ds.isEmpty)
  set (cs.drop ds.length)
  return ds

/-- Reads a number of exactly `n` digits. -/
def digitsOf (n : Nat) : Scan Nat := do
  let ds ← digits n
  guard (ds.length = n)
  return ofDigits 10 ds

/-- Tries a step and goes back if it refuses. -/
def optional (p : Scan α) : Scan (Option α) := (some <$> p) <|> pure none

def isEnd : Scan Bool := return (← get).isEmpty

/-- Repeats a step until it refuses, `fuel` times at most. -/
def repeatUpTo (p : Scan α) : Nat → Scan (List α)
  | 0 => return []
  | fuel + 1 => do
    match ← optional p with
    | none => return []
    | some a => return a :: (← repeatUpTo p fuel)

/-- Repeats a step, which takes at least one character each time, until it refuses. -/
def many (p : Scan α) : Scan (List α) := do repeatUpTo p (← get).length

/-- Repeats a step with a separator between, at least once. -/
def separated (p : Scan α) (separator : Scan β) : Scan (List α) := do
  let a ← p
  return a :: (← many (separator *> p))

def blanks : Scan Unit := modify dropBlanks

/-- What a step reads from a whole text. -/
def whole? (p : Scan α) (s : String) : Option α := do
  let (a, rest) ← p.run s.toList
  guard rest.isEmpty
  return a

end Scan

end GenHeap
