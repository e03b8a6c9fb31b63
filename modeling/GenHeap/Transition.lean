import GenHeap.Error

/-!
Operations on a state. An operation answers a value or an error and leaves a state in both cases:
an error keeps what was done before it. A fault leaves nothing.
-/

namespace GenHeap

/-- An operation on states `σ` with answers in `α`. -/
abbrev Transition (σ α : Type) := ExceptT HeapError (StateT σ Checked) α

namespace Transition

variable {σ τ α : Type}

def apply (t : Transition σ α) (s : σ) : Checked (Except HeapError α × σ) := t s

def ofExcept (r : Except HeapError α) : Transition σ α := fun s => .ok (r, s)

/-- An operation on a part of the state. -/
def onPart (get : σ → τ) (put : τ → σ → σ) (t : Transition τ α) : Transition σ α := fun s => do
  let (r, part) ← t (get s)
  return (r, put part s)

/-- A change of the state that may fault and has no answer. -/
def change (f : σ → Checked σ) : Transition σ Unit := fun s => do
  return (.ok (), ← f s)

end Transition

end GenHeap
