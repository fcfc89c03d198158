import ShaderIR.Interface
import ShaderIR.Operator
import ShaderIR.Settings
import ShaderIR.Ty.Text

/-! Why a call or a compilation was refused. Causes are data; their wording is here and nowhere
else. -/
namespace ShaderIR

inductive FlowFault where
  | openAtCompile
  | elseWithoutSelection
  | secondElse
  | endWithoutSelection
  | endWithoutLoop
  | breakOutsideLoop
  | continueOutsideLoop
  | loadNotReplayed
  | unknownEvent
  | unknownSelection
  | unknownLoop
  | selectionOpenedTwice
  | elseOutsideSelection
  | selectionNotOpen
  | loopOpenedTwice
  | loopNotOpen
  | jumpOutsideBody
deriving DecidableEq, Repr, Inhabited

def FlowFault.message : FlowFault → String
  | .openAtCompile => "a block is still open at compile time"
  | .elseWithoutSelection => "else without an open if"
  | .secondElse => "if already has an else branch"
  | .endWithoutSelection => "end_if without an open if"
  | .endWithoutLoop => "end_for without an open loop"
  | .breakOutsideLoop => "break outside of a loop"
  | .continueOutsideLoop => "continue outside of a loop"
  | .loadNotReplayed => "load used before being replayed"
  | .unknownEvent => "reference to an unknown event"
  | .unknownSelection => "unknown if block"
  | .unknownLoop => "unknown loop"
  | .selectionOpenedTwice => "if header written twice"
  | .elseOutsideSelection => "else block outside of an if"
  | .selectionNotOpen => "end of an if that was not started"
  | .loopOpenedTwice => "loop header written twice"
  | .loopNotOpen => "end of a loop that was not started"
  | .jumpOutsideBody => "jump outside of a loop body"

inductive Fault where
  | undeclaredType (ty : Ty)
  | unsupportedType (ty : Ty)
  | builtinRedefined (builtin : Builtin)
  | unsupportedBuiltin (builtin : Builtin) (stage : Stage)
  | invalidOperands (op : Operator) (operands : List Ty)
  | unsupportedOperation (op : Operator) (operands : List Ty)
  | wrongArgumentCount (actual expected : Nat)
  | indexOutOfBounds (index length : Word)
  | typeMismatch (expected found : Ty)
  | staleValue (slot : Nat)
  | unknownPlace (index : Nat)
  | undeclaredVariable (id : Id)
  | readOnly (ty : Ty)
  | unknownInput (slot : Nat)
  | bindingMismatch (set binding : Word)
  | notAggregate (ty : Ty)
  | controlFlow (cause : FlowFault)
  | invalidLoopBounds (first last : Int32)
  /-- A value of one shader was used in another. -/
  | foreignValue
  /-- A value needs its own result. -/
  | cyclicValue
deriving DecidableEq, Inhabited

namespace Fault

def description : Fault → String
  | .undeclaredType _ => "type used before being declared"
  | .unsupportedType _ => "unsupported type"
  | .builtinRedefined _ => "builtin output set twice"
  | .unsupportedBuiltin _ _ => "unsupported builtin"
  | .invalidOperands _ _ => "invalid operands"
  | .unsupportedOperation _ _ => "unsupported operation"
  | .wrongArgumentCount _ _ => "wrong number of arguments"
  | .indexOutOfBounds _ _ => "index out of bound"
  | .typeMismatch _ _ => "type mismatch"
  | .staleValue _ => "value was released"
  | .unknownPlace _ => "unknown pointer"
  | .undeclaredVariable _ => "pointer used before its variable is declared"
  | .readOnly _ => "store to a read-only pointer"
  | .unknownInput _ => "unknown input"
  | .bindingMismatch _ _ => "binding redeclared with a different type"
  | .notAggregate _ => "invalid access chain"
  | .controlFlow _ => "invalid control flow"
  | .invalidLoopBounds _ _ => "invalid loop bounds"
  | .foreignValue => "value belongs to another module"
  | .cyclicValue => "value depends on itself"

private def typeList (types : List Ty) : String := ", ".intercalate (types.map Ty.text)

def message : Fault → String
  | .undeclaredType ty => s!"type {ty.text} has no id yet"
  | .unsupportedType ty => s!"type {ty.text} cannot be declared"
  | .builtinRedefined builtin => s!"builtin {builtin.name} is already set"
  | .unsupportedBuiltin builtin stage =>
      s!"builtin {builtin.name} is not supported in {stage.name} shaders"
  | .invalidOperands op operands => s!"invalid operands for {op.name}: ({typeList operands})"
  | .unsupportedOperation op operands => s!"{op.name} is not implemented for ({typeList operands})"
  | .wrongArgumentCount actual expected => s!"got {actual} arguments, expected {expected}"
  | .indexOutOfBounds index length =>
      s!"index {index.toNat} is out of bound for a length of {length.toNat}"
  | .typeMismatch expected found =>
      s!"expected a value of type {expected.text}, found {found.text}"
  | .staleValue slot => s!"node {slot} was released and cannot be used anymore"
  | .unknownPlace index => s!"pointer {index} does not belong to this session"
  | .undeclaredVariable id => s!"variable %{id} is not declared"
  | .readOnly ty => s!"cannot store through a pointer of type {ty.text}"
  | .unknownInput slot => s!"shader has no input {slot}"
  | .bindingMismatch set binding =>
      s!"set {set.toNat} binding {binding.toNat} is already bound to another resource"
  | .notAggregate ty => s!"cannot take a member or an element of {ty.text}"
  | .controlFlow cause => s!"invalid control flow: {cause.message}"
  | .invalidLoopBounds first last =>
      s!"loop end {last.toInt} is lower than its start {first.toInt}"
  | .foreignValue => "value belongs to another module"
  | .cyclicValue => "value depends on itself"

end Fault

end ShaderIR
