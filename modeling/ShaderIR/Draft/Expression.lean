import ShaderIR.Draft.Basic
import ShaderIR.Operator.Lowering

/-! Calls that build expressions. Operand types are checked when a node is built. -/
namespace ShaderIR

/-- The index that a constant node stands for. A negative index is out of every bound. -/
def NodeKind.constantIndex : NodeKind → Except Fault (Option Word)
  | .constant (.int value) =>
      if value < 0 then .error (.indexOutOfBounds value.toUInt32 0) else .ok (some value.toUInt32)
  | .constant (.uint value) => .ok (some value)
  | _ => .ok none

namespace Draft

def constant (literal : Literal) : Build Handle :=
  Build.pushNode literal.ty (.constant literal) []

/-- Gives the level of detail used for sampling an id, if it has none. -/
def registerSampleLevel : Build Unit := do
  if ((← get).constants.find? .floatZero).isNone then
    let id ← Build.freshId
    modify fun d => { d with constants := d.constants.register .floatZero id }

/-- Checks an index into a vector or a matrix: a constant one has to be in range, and a column can
only be taken at a constant index. -/
def checkIndex (source index : Ty) (kind : NodeKind) : Except Fault Unit := do
  let length := (if source.isMatrix then source.columns? else source.rows?).getD 0
  match ← kind.constantIndex with
  | some value => if length ≤ value then throw (.indexOutOfBounds value length)
  | none => if source.isMatrix then BinaryOp.refuseUnsupported .lookup source index

/-- Samples a texture at a coordinate, or extracts a component of a vector or a column of a
matrix. -/
def lookup (source index : Handle) : Build Handle := do
  let sourceTy ← Build.typeOf source
  let indexTy ← Build.typeOf index
  let ty ← Build.check (BinaryOp.lookupResult sourceTy indexTy)
  if sourceTy.isTexture then
    registerSampleLevel
  else
    let node ← Build.check ((← get).graph.node index)
    Build.check (checkIndex sourceTy indexTy node.kind)
  Build.pushNode ty (.binary .lookup) [source, index]

def binary (op : BinaryOp) (lhs rhs : Handle) : Build Handle := do
  if op = .lookup then
    lookup lhs rhs
  else
    let lhsTy ← Build.typeOf lhs
    let rhsTy ← Build.typeOf rhs
    let lowering ← Build.check (op.lower lhsTy rhsTy)
    Build.pushNode lowering.result (.binary op) [lhs, rhs]

def negate (value : Handle) : Build Handle := do
  let (_, ty) ← Build.check (UnaryOp.lower .negate (← Build.typeOf value))
  Build.pushNode ty (.unary .negate) [value]

/-- Picks `accept` where the condition holds and `reject` elsewhere. Vectors may be picked component
by component. -/
def select (condition accept reject : Handle) : Build Handle := do
  let conditionTy ← Build.typeOf condition
  let ty ← Build.typeOf accept
  let rejectTy ← Build.typeOf reject
  if ty ≠ rejectTy then throw (.typeMismatch ty rejectTy)
  let expected := if ty.isVector then ty.toBool else .bool
  if conditionTy ≠ .bool ∧ conditionTy ≠ expected then
    throw (.typeMismatch expected conditionTy)
  Build.pushNode ty .select [condition, accept, reject]

def constructParts (ty : Ty) : Except Fault (Nat × Ty) :=
  match ty.parts? with
  | some (count, part) => .ok (count.toNat, part)
  | none =>
      match ty with
      | .matrix _ _ _ => .error (.unsupportedType ty)
      | _ => .error (.invalidOperands .construct [ty])

/-- Builds a vector from scalars, a matrix from columns or an array from elements. -/
def construct (ty : Ty) (parts : List Handle) : Build Handle := do
  let (count, part) ← Build.check (constructParts ty)
  if parts.length ≠ count then throw (.wrongArgumentCount parts.length count)
  parts.forM fun value => do
    let found ← Build.typeOf value
    if found ≠ part then throw (.typeMismatch part found)
  Build.pushNode ty .construct parts

end Draft

end ShaderIR
