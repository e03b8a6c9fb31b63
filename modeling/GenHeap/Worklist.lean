/-!
Depth-first traversal by a worklist. The newest address is visited first, and what a visit finds
is added in order, so that its last find comes next.
-/

namespace GenHeap.Worklist

variable {σ : Type}

/-- Adds finds to a worklist, whose newest entry is its head. -/
def add (work found : List Nat) : List Nat := found.reverse ++ work

/-- Visits until the worklist is empty, `fuel` visits at most. -/
def drain (visit : σ → Nat → σ × List Nat) : Nat → σ → List Nat → σ
  | 0, s, _ => s
  | _ + 1, s, [] => s
  | fuel + 1, s, a :: work =>
    let (s, found) := visit s a
    drain visit fuel s (add work found)

end GenHeap.Worklist
