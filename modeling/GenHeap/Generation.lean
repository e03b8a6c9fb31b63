/-!
The five generations of a heap, their order by age, and tables with one entry per generation.
-/

namespace GenHeap

/-- Where an object lives: three ages of ordinary objects, and two spaces of their own for large
and for pinned objects, which count as oldest. -/
inductive Generation where
  | gen0 | gen1 | gen2 | large | pinned
  deriving DecidableEq, Repr

namespace Generation

def all : List Generation := [gen0, gen1, gen2, large, pinned]

def index : Generation → Nat
  | gen0 => 0 | gen1 => 1 | gen2 => 2 | large => 3 | pinned => 4

def ofIndex? (i : Nat) : Option Generation := all[i]?

def name : Generation → String
  | gen0 => "Gen0" | gen1 => "Gen1" | gen2 => "Gen2" | large => "Large" | pinned => "Pinned"

def ofName? (s : String) : Option Generation := all.find? (·.name == s)

/-- Age: 0, 1 or 2. -/
def tier : Generation → Nat
  | gen0 => 0 | gen1 => 1 | _ => 2

/-- Where a survivor of its own collection goes; the oldest stay. -/
def promoted : Generation → Generation
  | gen0 => gen1 | gen1 => gen2 | g => g

/-- The collection that a request for this generation means: one of the three ages. -/
def condemnTier : Generation → Generation
  | gen0 => gen0 | gen1 => gen1 | _ => gen2

/-- Whether a collection of `condemned` covers this generation. -/
def condemnedBy (g condemned : Generation) : Bool := g.tier ≤ condemned.condemnTier.tier

def ephemeral : Generation → Bool
  | gen0 | gen1 => true
  | _ => false

theorem mem_all (g : Generation) : g ∈ all := by cases g <;> decide

theorem ofIndex?_index (g : Generation) : ofIndex? g.index = some g := by cases g <;> rfl

theorem ofIndex?_eq_some_iff {i : Nat} {g : Generation} :
    ofIndex? i = some g ↔ i = g.index := by
  constructor
  · intro h
    match i, h with
    | 0, h | 1, h | 2, h | 3, h | 4, h => cases g <;> simp_all [ofIndex?, all, index]
    | n + 5, h => simp [ofIndex?, all] at h
  · rintro rfl
    exact ofIndex?_index g

end Generation

structure PerGeneration (α : Type) where
  gen0 : α
  gen1 : α
  gen2 : α
  large : α
  pinned : α
  deriving DecidableEq, Repr

namespace PerGeneration

variable {α β : Type}

def ofFn (f : Generation → α) : PerGeneration α :=
  ⟨f .gen0, f .gen1, f .gen2, f .large, f .pinned⟩

def const (a : α) : PerGeneration α := ⟨a, a, a, a, a⟩

def get (t : PerGeneration α) : Generation → α
  | .gen0 => t.gen0 | .gen1 => t.gen1 | .gen2 => t.gen2 | .large => t.large | .pinned => t.pinned

def modify (t : PerGeneration α) (g : Generation) (f : α → α) : PerGeneration α :=
  match g with
  | .gen0 => { t with gen0 := f t.gen0 }
  | .gen1 => { t with gen1 := f t.gen1 }
  | .gen2 => { t with gen2 := f t.gen2 }
  | .large => { t with large := f t.large }
  | .pinned => { t with pinned := f t.pinned }

def set (t : PerGeneration α) (g : Generation) (a : α) : PerGeneration α :=
  t.modify g fun _ => a

def toList (t : PerGeneration α) : List α := [t.gen0, t.gen1, t.gen2, t.large, t.pinned]

def map (f : α → β) (t : PerGeneration α) : PerGeneration β :=
  ⟨f t.gen0, f t.gen1, f t.gen2, f t.large, f t.pinned⟩

@[simp] theorem get_ofFn (f : Generation → α) (g : Generation) : (ofFn f).get g = f g := by
  cases g <;> rfl

@[simp] theorem get_map (f : α → β) (t : PerGeneration α) (g : Generation) :
    (t.map f).get g = f (t.get g) := by
  cases g <;> rfl

@[simp] theorem get_modify_self (t : PerGeneration α) (g : Generation) (f : α → α) :
    (t.modify g f).get g = f (t.get g) := by
  cases g <;> rfl

theorem get_modify_of_ne (t : PerGeneration α) {g h : Generation} (f : α → α) (hne : h ≠ g) :
    (t.modify g f).get h = t.get h := by
  cases g <;> cases h <;> first | rfl | exact absurd rfl hne

theorem modify_eq_set (t : PerGeneration α) (g : Generation) (f : α → α) :
    t.modify g f = t.set g (f (t.get g)) := by
  cases g <;> rfl

theorem ext_get {s t : PerGeneration α} (h : ∀ g, s.get g = t.get g) : s = t := by
  cases s
  cases t
  simp only [PerGeneration.mk.injEq]
  exact ⟨h .gen0, h .gen1, h .gen2, h .large, h .pinned⟩

end PerGeneration

end GenHeap
