import GenHeap.Config

/-!
Allocation budgets. Each heap keeps, per generation, the bytes allocated since it was last
collected, the bytes it holds, and a budget that grows with the share that survives a collection.
-/

namespace GenHeap

structure GenerationState where
  initialBudget : Nat
  budget : Nat
  /-- bytes allocated in the generation or promoted to it since its last collection -/
  allocated : Nat := 0
  occupancy : Nat := 0
  collections : Nat := 0
  /-- the share of bytes that survived the last of them -/
  survivalRate : Float := 0.0
  /-- bytes taken off beyond the occupancy; no answer depends on them -/
  overdrawn : Nat := 0

namespace GenerationState

def wouldExceed (s : GenerationState) (size : Nat) : Bool := s.budget < Word.addSat s.allocated size

/-- Allocated bytes relative to the budget. -/
def pressure (s : GenerationState) : Float :=
  Word.toFloat s.allocated / Word.toFloat (max s.budget 1)

def charge (s : GenerationState) (size : Nat) : Checked GenerationState := do
  return { s with
    allocated := ← Word.add s.allocated size
    occupancy := ← Word.add s.occupancy size }

def discharge (s : GenerationState) (size : Nat) : GenerationState :=
  { s with
    occupancy := s.occupancy - size
    overdrawn := s.overdrawn + (size - s.occupancy) }

end GenerationState

/-- The number moved into the bounds; what is no number stays. -/
def clamp (x low high : Float) : Checked Float :=
  if low ≤ high then .ok (if x < low then low else if high < x then high else x)
  else .error .reversedBounds

/-- The budget after a collection that left the share `rate`: the initial one, grown by the rate,
up to the largest multiple. -/
def tunedBudget (initial : Nat) (rate : Float) (tuning : Tuning) : Checked Nat := do
  let start := Word.toFloat initial
  let scaled := start * (1.0 + tuning.survivalGrowth * rate)
  return Word.ofFloat (← clamp scaled start (start * tuning.maxBudgetMultiplier))

abbrev BudgetTable := PerGeneration GenerationState

namespace BudgetTable

def ofConfig (c : Config) : BudgetTable :=
  c.budgets.map fun budget => { initialBudget := budget, budget }

def charge (t : BudgetTable) (g : Generation) (size : Nat) : Checked BudgetTable := do
  return t.set g (← (t.get g).charge size)

def discharge (t : BudgetTable) (g : Generation) (size : Nat) : BudgetTable :=
  t.modify g (·.discharge size)

/-- The generations whose own budget can raise a collection, youngest first. -/
def escalation : List Generation := [.gen1, .gen2, .large, .pinned]

/-- The collection that an allocation calls for: none while its generation stays in budget, else
that of its generation or of the oldest one that is over its budget already. -/
def condemned? (t : BudgetTable) (g : Generation) (size : Nat) : Option Generation :=
  if (t.get g).wouldExceed size then
    some (escalation.foldl (fun c h =>
      if (t.get h).wouldExceed 0 && c.tier < h.condemnTier.tier then h.condemnTier else c)
      g.condemnTier)
  else none

/-- Starts a generation's budget anew after a collection that left the share `rate` of it. -/
def finishGeneration (s : GenerationState) (rate : Float) (tuning : Tuning) :
    Checked GenerationState := do
  let rate ← clamp rate 0.0 1.0
  return { s with
    survivalRate := rate
    collections := s.collections + 1
    allocated := 0
    budget := ← tunedBudget s.initialBudget rate tuning }

/-- Starts the budgets of the condemned generations anew, by their survival rates. -/
def finishCollection (t : BudgetTable) (condemned : Generation) (survival : PerGeneration Float)
    (tuning : Tuning) : Checked BudgetTable :=
  Generation.all.foldlM (fun t g =>
    if g.condemnedBy condemned then do
      return t.set g (← finishGeneration (t.get g) (survival.get g) tuning)
    else pure t) t

end BudgetTable

end GenHeap
