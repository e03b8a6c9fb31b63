/-!
Types whose values have names, such as the cases of an enumeration.
-/

namespace GenHeap

class Named (α : Type) where
  /-- the values in their order -/
  all : List α
  name : α → String

def Named.ofName? {α : Type} [Named α] (s : String) : Option α :=
  (Named.all (α := α)).find? (Named.name · == s)

end GenHeap
