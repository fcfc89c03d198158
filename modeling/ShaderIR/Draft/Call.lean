import ShaderIR.Draft.Compile
import ShaderIR.Draft.Flow
import ShaderIR.Draft.Roots

/-! The calls on a draft as data, so that a history of calls is a list. -/
namespace ShaderIR

inductive Call where
  | addInput (ty : Ty)
  | input (slot : Nat)
  | constant (literal : Literal)
  | binary (op : BinaryOp) (lhs rhs : Handle)
  | negate (value : Handle)
  | select (condition accept reject : Handle)
  | construct (ty : Ty) (parts : List Handle)
  | uniform (set binding : Word) (ty : Ty)
  | storage (set binding : Word) (ty : Ty)
  | texture (set binding : Word) (dim : Dim)
  | localVariable (ty : Ty)
  | member (place : Place) (index : Word)
  | index (place : Place) (value : Handle)
  | pointee (place : Place)
  | load (place : Place)
  | store (place : Place) (value : Handle)
  | beginIf (condition : Handle)
  | beginElse
  | endIf
  | beginFor (first last : Int32)
  | endFor
  | breakLoop
  | continueLoop
  | output (value : Handle)
  | builtin (builtin : Builtin) (value : Handle)
  | retain (value : Handle)
  | release (value : Handle)
  | typeOf (value : Handle)
  | compile
  | reset
deriving DecidableEq, Inhabited

/-- What a call that succeeds gives. -/
inductive Reply where
  | done
  | value (handle : Handle)
  | place (place : Place)
  | ty (ty : Ty)
  | module (compiled : ShaderModule)
deriving DecidableEq, Inhabited

namespace Call

def run : Call → Build Reply
  | .addInput ty => .value <$> Draft.addInput ty
  | .input slot => .value <$> Draft.input slot
  | .constant literal => .value <$> Draft.constant literal
  | .binary op lhs rhs => .value <$> Draft.binary op lhs rhs
  | .negate value => .value <$> Draft.negate value
  | .select condition accept reject => .value <$> Draft.select condition accept reject
  | .construct ty parts => .value <$> Draft.construct ty parts
  | .uniform set binding ty => .place <$> Draft.uniform set binding ty
  | .storage set binding ty => .place <$> Draft.storage set binding ty
  | .texture set binding dim => .value <$> Draft.texture set binding dim
  | .localVariable ty => .place <$> Draft.localVariable ty
  | .member p i => .place <$> Draft.member p i
  | .index p v => .place <$> Draft.index p v
  | .pointee p => .ty <$> Draft.pointee p
  | .load p => .value <$> Draft.load p
  | .store p v => (fun _ => .done) <$> Draft.store p v
  | .beginIf condition => (fun _ => .done) <$> Draft.beginIf condition
  | .beginElse => (fun _ => .done) <$> Draft.beginElse
  | .endIf => (fun _ => .done) <$> Draft.endIf
  | .beginFor first last => .value <$> Draft.beginFor first last
  | .endFor => (fun _ => .done) <$> Draft.endFor
  | .breakLoop => (fun _ => .done) <$> Draft.breakLoop
  | .continueLoop => (fun _ => .done) <$> Draft.continueLoop
  | .output value => (fun _ => .done) <$> Draft.output value
  | .builtin b v => (fun _ => .done) <$> Draft.builtin b v
  | .retain value => (fun _ => .done) <$> Build.retain value
  | .release value => (fun _ => .done) <$> Draft.release value
  | .typeOf value => .ty <$> Build.typeOf value
  | .compile => .module <$> Draft.compile
  | .reset => (fun _ => .done) <$> Draft.reset

/-- What a call on a draft reports. A range that ends below its start is worth a warning when it is
accepted as it is. -/
def notices (d : Draft) : Call → List Notice
  | .beginFor first last =>
      if last < first ∧ !d.settings.strictLoopBounds ∧ last ≠ 0 then [.emptyLoop first last] else []
  | .compile => d.compilation.notices
  | .reset => [.alive d.aliveCount]
  | _ => []

end Call

end ShaderIR
