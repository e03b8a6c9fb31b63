import GenHeap.Generation
import GenHeap.Word

/-!
Allocation failures: their causes, the events that record them, the five words in which an event
is published, and a ring that keeps the latest events of one heap.

`Event.decode?` reads back what `Event.encode` writes up to the part of the time below a
millisecond; a `History` holds the last events, oldest first, whatever its capacity.
-/

namespace GenHeap.OutOfMemory

inductive Reason where
  /-- the hard limit of the heap was reached -/
  | budgetExceeded
  /-- enough space is free, in pieces that are too small -/
  | fragmentation
  /-- no address space is left -/
  | addressSpaceExhausted
  /-- the provider refused to commit memory -/
  | commitFailed
  deriving DecidableEq, Repr

namespace Reason

def all : List Reason := [budgetExceeded, fragmentation, addressSpaceExhausted, commitFailed]

/-- The code in published events; 0 stands for no reason. -/
def code : Reason → Nat
  | budgetExceeded => 1
  | fragmentation => 2
  | addressSpaceExhausted => 3
  | commitFailed => 4

def ofCode? : Nat → Option Reason
  | 1 => some budgetExceeded
  | 2 => some fragmentation
  | 3 => some addressSpaceExhausted
  | 4 => some commitFailed
  | _ => none

def text : Reason → String
  | budgetExceeded => "budget exceeded"
  | fragmentation => "fragmentation"
  | addressSpaceExhausted => "address space exhausted"
  | commitFailed => "commit failed"

theorem ofCode?_code (r : Reason) : ofCode? r.code = some r := by cases r <;> rfl

end Reason

structure Event where
  /-- nanoseconds since the start of 1970, UTC -/
  time : Int
  reason : Reason
  size : Nat
  generation : Generation
  /-- the number of collections begun before -/
  collection : Nat
  deriving DecidableEq, Repr

namespace Event

/-- The words of one published event. -/
def words : Nat := 5

/-- The first and the last millisecond that a calendar date stands for. -/
def firstMillisecond : Int := -8334601228800000
def lastMillisecond : Int := 8210266876799999

/-- Whole milliseconds since the start of 1970, rounded down. -/
def milliseconds (e : Event) : Int := e.time.fdiv 1000000

/-- An integer as the word with the same low 64 bits. -/
def wordOfInt (i : Int) : Nat := (i % (Word.count : Int)).toNat

/-- A word read as a signed integer. -/
def intOfWord (w : Nat) : Int := if w < Word.signBit then w else (w : Int) - Word.count

def encode (e : Event) : List Nat :=
  [e.reason.code, e.size, e.generation.index, e.collection, wordOfInt e.milliseconds]

/-- Reads one event; refused unless there are five words with a known time, reason and
generation. -/
def decode? : List Nat → Option Event
  | [code, size, generation, collection, time] => do
    let ms := intOfWord time
    guard (firstMillisecond ≤ ms ∧ ms ≤ lastMillisecond)
    let reason ← Reason.ofCode? code
    let generation ← Generation.ofIndex? generation
    return { time := ms * 1000000, reason, size, generation, collection }
  | _ => none

end Event

/-- A ring of event slots. The newest `kept` of them, ending before `head`, are in use. -/
structure History where
  slots : Array (Option Event)
  head : Nat
  kept : Nat
  /-- all events ever recorded -/
  total : Nat
  deriving DecidableEq, Repr

namespace History

/-- The bytes that the slot of one event takes. -/
def slotBytes : Nat := 32

/-- An empty ring with room for `capacity` events, or for one if that is zero. -/
def empty (capacity : Nat) : Checked History := do
  let capacity := max capacity 1
  Word.requireCapacity capacity slotBytes
  return { slots := Array.replicate capacity none, head := 0, kept := 0, total := 0 }

def capacity (h : History) : Nat := h.slots.size

/-- Adds an event; a full ring gives up its oldest. -/
def record (h : History) (e : Event) : History where
  slots := h.slots.setIfInBounds h.head (some e)
  head := (h.head + 1) % h.capacity
  kept := min (h.kept + 1) h.capacity
  total := h.total + 1

/-- The slot of the oldest event. -/
def start (h : History) : Nat := (h.head + h.capacity - h.kept) % h.capacity

/-- The event `i` places after the oldest. -/
def slot? (h : History) (i : Nat) : Option Event :=
  (h.slots[(h.start + i) % h.capacity]?).join

/-- The kept events, oldest first. -/
def events (h : History) : List Event :=
  (List.range h.kept).filterMap h.slot?

def latest? (h : History) : Option Event :=
  if h.kept = 0 then none else (h.slots[(h.head + h.capacity - 1) % h.capacity]?).join

def isEmpty (h : History) : Bool := h.kept == 0

end History

end GenHeap.OutOfMemory
