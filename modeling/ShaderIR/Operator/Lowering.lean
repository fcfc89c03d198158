import ShaderIR.Fault

/-! Which machine operation an operator selects for given operand types. -/
namespace ShaderIR

structure Lowering where
  operation : Operation
  result : Ty
  /-- The operands are emitted in reverse order. -/
  swap : Bool := false
deriving DecidableEq

namespace BinaryOp

/-- Refuses operand types that no operation fits. -/
def refuse {α : Type} (op : BinaryOp) (lhs rhs : Ty) : Except Fault α :=
  .error (.invalidOperands (.binary op) [lhs, rhs])

/-- Refuses operand types that have a meaning but no operation. -/
def refuseUnsupported {α : Type} (op : BinaryOp) (lhs rhs : Ty) : Except Fault α :=
  .error (.unsupportedOperation (.binary op) [lhs, rhs])

def elementwise? : BinaryOp → Ty → Option Operation
  | .add, .int _ _ => some .iAdd
  | .sub, .int _ _ => some .iSub
  | .mul, .int _ _ => some .iMul
  | .div, .int _ true => some .sDiv
  | .div, .int _ false => some .uDiv
  | .add, .float _ => some .fAdd
  | .sub, .float _ => some .fSub
  | .mul, .float _ => some .fMul
  | .div, .float _ => some .fDiv
  | _, _ => none

/-- The operation that multiplies an aggregate by a float of its component type. -/
def scaling? (scalar : Ty) : Ty → Option Operation
  | .matrix component _ columns =>
      if scalar.isFloat && component == scalar then
        some (if columns = 1 then .vectorTimesScalar else .matrixTimesScalar)
      else none
  | _ => none

/-- Sum, difference, product and quotient. Operands of one elementwise type are combined component
by component; a product may also scale a vector or a matrix, with the factor on either side. -/
def arithmetic (op : BinaryOp) (lhs rhs : Ty) : Except Fault Lowering :=
  if lhs = rhs ∧ lhs.isMatrix then
    op.refuseUnsupported lhs rhs
  else if lhs = rhs ∧ lhs.isElementwise then
    match lhs.scalar?.bind op.elementwise? with
    | some operation => .ok { operation, result := lhs }
    | none => op.refuse lhs rhs
  else if op = .mul then
    match scaling? rhs lhs, scaling? lhs rhs with
    | some operation, _ => .ok { operation, result := lhs }
    | none, some operation => .ok { operation, result := rhs, swap := true }
    | none, none => op.refuse lhs rhs
  else op.refuse lhs rhs

/-- Dot product of two vectors, product of a row vector and a matrix, product of two matrices. -/
def product : Ty → Ty → Except Fault Lowering
  | lhs@(.matrix component rows columns), rhs@(.matrix component' rows' columns') =>
      if component ≠ component' then refuse .dot lhs rhs
      else if columns = 1 then
        if columns' = 1 then
          if rows ≠ rows' ∨ !component.isFloat then refuse .dot lhs rhs
          else .ok { operation := .dot, result := component }
        else if rows ≠ rows' then refuse .dot lhs rhs
        else .ok { operation := .vectorTimesMatrix, result := .vector component columns' }
      else if columns' = 1 then refuseUnsupported .dot lhs rhs
      else if columns ≠ rows' then refuse .dot lhs rhs
      else .ok { operation := .matrixTimesMatrix, result := .matrix component rows columns' }
  | lhs, rhs => refuse .dot lhs rhs

/-- The comparison of components of the given type. Booleans have no order. -/
def comparison? : BinaryOp → Ty → Option Operation
  | .equal, .float _ => some .fOrdEqual
  | .notEqual, .float _ => some .fOrdNotEqual
  | .less, .float _ => some .fOrdLessThan
  | .greater, .float _ => some .fOrdGreaterThan
  | .lessEqual, .float _ => some .fOrdLessThanEqual
  | .greaterEqual, .float _ => some .fOrdGreaterThanEqual
  | .equal, .int _ _ => some .iEqual
  | .notEqual, .int _ _ => some .iNotEqual
  | .less, .int _ signed => some (if signed then .sLessThan else .uLessThan)
  | .greater, .int _ signed => some (if signed then .sGreaterThan else .uGreaterThan)
  | .lessEqual, .int _ signed => some (if signed then .sLessThanEqual else .uLessThanEqual)
  | .greaterEqual, .int _ signed =>
      some (if signed then .sGreaterThanEqual else .uGreaterThanEqual)
  | .equal, .bool => some .logicalEqual
  | .notEqual, .bool => some .logicalNotEqual
  | _, _ => none

def comparison (op : BinaryOp) (lhs rhs : Ty) : Except Fault Lowering :=
  if lhs ≠ rhs ∨ !lhs.isElementwise then op.refuse lhs rhs
  else
    match lhs.scalar?.bind op.comparison? with
    | some operation => .ok { operation, result := lhs.toBool }
    | none => op.refuse lhs rhs

/-- The operation of an arithmetic, product or comparison operator. A lookup selects its operation
by other rules. -/
def lower (op : BinaryOp) (lhs rhs : Ty) : Except Fault Lowering :=
  match op with
  | .add | .sub | .mul | .div => op.arithmetic lhs rhs
  | .dot => product lhs rhs
  | .lookup => op.refuse lhs rhs
  | .equal | .notEqual | .less | .greater | .lessEqual | .greaterEqual => op.comparison lhs rhs

/-- The result type of a lookup. A texture is sampled with a float vector of its coordinate count,
a vector is indexed with an integer, and a matrix gives one of its columns. -/
def lookupResult (source index : Ty) : Except Fault Ty :=
  match source with
  | .texture (.image dim _ _) =>
      if index = .vec dim.coordinates then .ok (.vec 4) else refuse .lookup source index
  | .matrix component _ columns =>
      if !index.isInteger then refuse .lookup source index
      else if columns = 1 then .ok component
      else
        match source.column? with
        | some column => .ok column
        | none => refuse .lookup source index
  | _ => refuse .lookup source index

end BinaryOp

/-- The operation of a unary operator and its result type. Only floats and signed integers have a
negation. -/
def UnaryOp.lower (op : UnaryOp) (arg : Ty) : Except Fault (Operation × Ty) :=
  match op, if arg.isElementwise then arg.scalar? else none with
  | .negate, some (.float _) => .ok (.fNegate, arg)
  | .negate, some (.int _ true) => .ok (.sNegate, arg)
  | .negate, _ => .error (.invalidOperands (.unary op) [arg])

end ShaderIR
