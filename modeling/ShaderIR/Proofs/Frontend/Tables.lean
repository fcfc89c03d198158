import ShaderIR.Frontend.Command
import ShaderIR.Proofs.Applied

/-! The typing tables of the front end against the rules of drafts. Whatever a table admits, the
rule for the same operation accepts, and both give the same type. -/
namespace ShaderIR.Frontend

variable {op : BinaryOp} {k left result right : Kind}

namespace Kind

@[simp] theorem ty_ofLiteral (l : Literal) : (Kind.ofLiteral l).ty = l.ty := by
  cases l <;> rfl

/-- An operator on operands of some types selects an operation with the given result. -/
def Lowers (op : BinaryOp) (left right result : Ty) : Prop :=
  op ≠ .lookup ∧ ∃ lowering, op.lower left right = .ok lowering ∧ lowering.result = result

theorem lowers_elementwise (arithmetic : op ∈ [.add, .sub, .mul, .div])
    (numerical : k.isNumerical = true) : Lowers op k.ty k.ty k.ty := by
  simp only [List.mem_cons, List.not_mem_nil, or_false] at arithmetic
  cases k with
  | int | uint | float =>
    rcases arithmetic with rfl | rfl | rfl | rfl <;> exact ⟨by decide, _, rfl, rfl⟩
  | vec arity =>
    cases arity <;> rcases arithmetic with rfl | rfl | rfl | rfl <;> exact ⟨by decide, _, rfl, rfl⟩
  | _ => contradiction

theorem lowers_product (found : product? left right = some (op, result)) :
    Lowers op left.ty right.ty result.ty := by
  unfold product? at found
  split at found
  · rename_i arity
    obtain ⟨rfl, rfl⟩ := Prod.mk.inj (Option.some.inj found)
    cases arity <;> exact ⟨by decide, _, rfl, rfl⟩
  · rename_i arity
    obtain ⟨rfl, rfl⟩ := Prod.mk.inj (Option.some.inj found)
    cases arity <;> exact ⟨by decide, _, rfl, rfl⟩
  · rename_i arity _
    split at found
    · rename_i same
      subst same
      obtain ⟨rfl, rfl⟩ := Prod.mk.inj (Option.some.inj found)
      cases arity <;> exact ⟨by decide, _, rfl, rfl⟩
    · contradiction
  · rename_i arity _
    split at found
    · rename_i same
      subst same
      obtain ⟨rfl, rfl⟩ := Prod.mk.inj (Option.some.inj found)
      cases arity <;> exact ⟨by decide, _, rfl, rfl⟩
    · contradiction
  · split at found
    · rename_i same
      obtain ⟨rfl, numerical⟩ := same
      obtain ⟨rfl, rfl⟩ := Prod.mk.inj (Option.some.inj found)
      exact lowers_elementwise (by simp) numerical
    · contradiction

theorem lowers_arithmetic {op' : BinaryOp} (found : arithmetic? op left right = some (op', result))
    : Lowers op' left.ty right.ty result.ty := by
  unfold arithmetic? at found
  split at found
  · exact lowers_product found
  all_goals
    try contradiction
  all_goals
    split at found
    · rename_i same
      obtain ⟨rfl, numerical⟩ := same
      obtain ⟨rfl, rfl⟩ := Prod.mk.inj (Option.some.inj found)
      exact lowers_elementwise (by simp) numerical
    · contradiction

theorem lowers_dot (found : dot? left right = some result) :
    Lowers .dot left.ty right.ty result.ty := by
  unfold dot? at found
  split at found
  all_goals
    try contradiction
  all_goals
    rename_i arity _
    split at found
    · rename_i same
      subst same
      obtain rfl := Option.some.inj found
      cases arity <;> exact ⟨by decide, _, rfl, rfl⟩
    · contradiction

theorem lowers_comparison (admitted : comparable op left right = true) :
    Lowers op left.ty right.ty .bool := by
  unfold comparable at admitted
  split at admitted
  all_goals
    try contradiction
  all_goals
    simp only [Bool.and_eq_true, decide_eq_true_eq] at admitted
  · obtain ⟨rfl, scalar⟩ := admitted
    cases left with
    | bool | int | uint | float => exact ⟨by decide, _, rfl, rfl⟩
    | _ => contradiction
  · obtain ⟨rfl, scalar⟩ := admitted
    cases left with
    | bool | int | uint | float => exact ⟨by decide, _, rfl, rfl⟩
    | _ => contradiction
  all_goals
    obtain ⟨⟨rfl, scalar⟩, numerical⟩ := admitted
    cases left with
    | int | uint | float => exact ⟨by decide, _, rfl, rfl⟩
    | _ => contradiction

theorem lowers_negation (signed : k.isSigned = true) :
    ∃ operation, UnaryOp.lower .negate k.ty = .ok (operation, k.ty) := by
  cases k with
  | int | float => exact ⟨_, rfl⟩
  | vec arity => cases arity <;> exact ⟨_, rfl⟩
  | _ => contradiction

theorem lookup_sample {coordinates : Kind} (found : k.coordinates? = some coordinates) :
    BinaryOp.lookupResult k.ty coordinates.ty = .ok (Kind.vec .four).ty ∧
      k.ty.isMatrix = false := by
  unfold coordinates? at found
  split at found
  · obtain rfl := Option.some.inj found
    exact ⟨rfl, rfl⟩
  · obtain rfl := Option.some.inj found
    exact ⟨rfl, rfl⟩
  · obtain rfl := Option.some.inj found
    exact ⟨rfl, rfl⟩
  · contradiction

theorem lookup_component (arity : Arity) :
    BinaryOp.lookupResult (Kind.vec arity).ty Kind.int.ty = .ok Kind.float.ty ∧
      (Kind.vec arity).ty.isMatrix = false := by
  cases arity <;> exact ⟨rfl, rfl⟩

theorem lookup_column (arity : Arity) :
    BinaryOp.lookupResult (Kind.mat arity).ty Kind.int.ty = .ok (Kind.vec arity).ty := by
  cases arity <;> rfl

theorem element_ty {element : Kind} (found : k.element? = some element) :
    k.ty.element = .ok element.ty := by
  cases k with
  | array | runtimeArray =>
    obtain rfl := Option.some.inj found
    rfl
  | vec arity =>
    obtain rfl := Option.some.inj found
    cases arity <;> rfl
  | _ => contradiction

theorem parts_vec (arity : Arity) :
    Draft.constructParts (Kind.vec arity).ty = .ok (arity.toNat, Kind.float.ty) := by
  cases arity <;> rfl

theorem parts_array (element : Kind) (length : Word) :
    Draft.constructParts (Kind.array element length).ty = .ok (length.toNat, element.ty) := rfl

end Kind

theorem accepts_of_fitsBuiltin {role : Builtin} (fits : fitsBuiltin role k = true) :
    role.accepts k.ty = true := by
  unfold fitsBuiltin at fits
  split at fits
  case h_5 => contradiction
  all_goals rfl

end ShaderIR.Frontend
