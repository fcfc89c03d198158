import ShaderIR.Proofs.Faults

/-! Which types a module can declare. A type is refused for what it is itself, or because it is built
from a type that is refused. -/
namespace ShaderIR

namespace Ty

/-- A type that no module can declare, whatever it is built from. -/
def isRefused : Ty → Bool
  | .int width _ | .float width => width != 32
  | .matrix component rows columns =>
      !component.isScalar || decide (rows < 2) || decide (4 < rows) || decide (columns < 1) ||
        decide (4 < columns) || decide (1 < columns) && !component.isFloat
  | .texture inner => !inner.isImage
  | .void | .bool | .array _ _ | .runtimeArray _ | .pointer _ _ | .struct _ | .image _ _ _ => false

mutual

def isDeclarable : Ty → Bool
  | .matrix component rows columns =>
      !(Ty.matrix component rows columns).isRefused && isDeclarable component
  | .texture inner => !(Ty.texture inner).isRefused && isDeclarable inner
  | .array element _ | .runtimeArray element => isDeclarable element
  | .pointer _ pointee => isDeclarable pointee
  | .struct members => areDeclarable members
  | .int width signed => !(Ty.int width signed).isRefused
  | .float width => !(Ty.float width).isRefused
  | .void | .bool | .image _ _ _ => true

def areDeclarable : List Ty → Bool
  | [] => true
  | ty :: rest => isDeclarable ty && areDeclarable rest

end

mutual

/-- How deep a type is built: everything that is declared for a type has a lower rank. -/
def rank : Ty → Nat
  | .void | .bool | .int _ _ | .float _ => 0
  | .matrix _ _ columns => if columns = 1 then 1 else 2
  | .array element _ | .runtimeArray element => rank element + 1
  | .pointer _ pointee => rank pointee + 1
  | .struct members => rankAll members + 1
  | .image _ _ _ => 1
  | .texture inner => rank inner + 1

def rankAll : List Ty → Nat
  | [] => 0
  | ty :: rest => max (rank ty) (rankAll rest)

end

theorem isDeclarable_sint : Ty.sint.isDeclarable = true := rfl

theorem isDeclarable_bool : Ty.bool.isDeclarable = true := rfl

theorem rank_of_isScalar {ty : Ty} (scalar : ty.isScalar = true) : ty.rank = 0 := by
  cases ty <;> simp_all [rank, isScalar, isBool, isInteger, isFloat]

theorem rank_le_rankAll {ty : Ty} {members : List Ty} (member : ty ∈ members) :
    ty.rank ≤ rankAll members := by
  induction members with
  | nil => contradiction
  | cons first rest ih =>
    rw [rankAll]
    rcases List.mem_cons.mp member with rfl | inside
    · exact Nat.le_max_left _ _
    · exact Nat.le_trans (ih inside) (Nat.le_max_right _ _)

theorem isRefused_matrix {component : Ty} {rows columns : Word} :
    (Ty.matrix component rows columns).isRefused = false ↔
      component.isScalar = true ∧ 2 ≤ rows ∧ rows ≤ 4 ∧ 1 ≤ columns ∧ columns ≤ 4 ∧
        (1 < columns → component.isFloat = true) := by
  simp only [isRefused, Bool.or_eq_false_iff, Bool.and_eq_false_iff, Bool.not_eq_false',
    decide_eq_false_iff_not, UInt32.not_lt]
  constructor
  · rintro ⟨⟨⟨⟨⟨scalar, low⟩, high⟩, some⟩, few⟩, float⟩
    refine ⟨scalar, low, high, some, few, fun several => ?_⟩
    rcases float with single | float
    · exact absurd several (UInt32.not_lt.mpr single)
    · exact float
  · rintro ⟨scalar, low, high, some, few, float⟩
    refine ⟨⟨⟨⟨⟨scalar, low⟩, high⟩, some⟩, few⟩, ?_⟩
    by_cases several : 1 < columns
    · exact .inr (float several)
    · exact .inl (UInt32.not_lt.mp several)

end Ty

def Fault.Undeclarable (f : Fault) : Prop := ∃ ty : Ty, f = .unsupportedType ty ∧ ty.isRefused = true

theorem Fault.Undeclarable.plain {f : Fault} (undeclarable : f.Undeclarable) : f.Plain := by
  obtain ⟨ty, rfl, _⟩ := undeclarable
  trivial

end ShaderIR
