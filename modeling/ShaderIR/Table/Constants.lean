import ShaderIR.Assoc
import ShaderIR.Literal

/-! Which literals have an id, and whether their constant is declared. Literals are told apart by
kind and bit pattern. -/
namespace ShaderIR

structure ConstantEntry where
  id : Id
  declared : Bool := false
deriving DecidableEq, Repr, Inhabited

structure ConstantTable where
  entries : Assoc Literal ConstantEntry := []
deriving DecidableEq, Repr, Inhabited

namespace ConstantTable

def find? (t : ConstantTable) (literal : Literal) : Option ConstantEntry := t.entries.find? literal

/-- Gives a literal an id, without declaring it yet. -/
def register (t : ConstantTable) (literal : Literal) (id : Id) : ConstantTable :=
  { entries := t.entries.insert literal { id } }

def declare (t : ConstantTable) (literal : Literal) (id : Id) : ConstantTable :=
  { entries := t.entries.insert literal { id, declared := true } }

theorem find?_register (t : ConstantTable) (literal other : Literal) (id : Id) :
    (t.register literal id).find? other = if literal = other then some { id } else t.find? other :=
  Assoc.find?_insert t.entries literal other _

theorem find?_declare (t : ConstantTable) (literal other : Literal) (id : Id) :
    (t.declare literal id).find? other =
      if literal = other then some { id, declared := true } else t.find? other :=
  Assoc.find?_insert t.entries literal other _

end ConstantTable

end ShaderIR
