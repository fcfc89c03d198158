import ShaderIR.Frontend.World

/-! The operations of the front end. An empty operand makes the result empty without a call on the
draft, but all operands are brought into the shader first. -/
namespace ShaderIR.Frontend.Front

def build (m : ShaderId) (kind : Kind) (call : Build Handle) : Front Value := do
  return { kind, shader := m, handle := ← attempt m call }

def buildPointer (m : ShaderId) (target : Target) (call : Build Place) : Front Pointer := do
  return { target, shader := m, place := ← attempt m call }

def input (m : ShaderId) (kind : Kind) : Front Value := build m kind (Draft.addInput kind.ty)

def output (m : ShaderId) (a : Argument) : Front Unit := do
  if let some h ← a.bring m then
    let _ ← attempt m (Draft.output h)

def builtin (m : ShaderId) (role : Builtin) (a : Argument) : Front Unit := do
  if let some h ← a.bring m then
    let _ ← attempt m (Draft.builtin role h)

def uniform (m : ShaderId) (set binding : Word) (members : List Ty) : Front Pointer :=
  buildPointer m .block (Draft.uniform set binding (.struct members))

def storage (m : ShaderId) (set binding : Word) (members : List Ty) : Front Pointer :=
  buildPointer m .block (Draft.storage set binding (.struct members))

def texture (m : ShaderId) (dim : Dim) (set binding : Word) : Front Value :=
  build m (.sampler dim) (Draft.texture set binding dim)

def localVariable (m : ShaderId) (kind : Kind) : Front Pointer :=
  buildPointer m (.kind kind) (Draft.localVariable kind.ty)

def constant (m : ShaderId) (a : Argument) : Front Value := do
  return { kind := a.kind, shader := m, handle := ← a.bring m }

def construct (m : ShaderId) (kind : Kind) (parts : List Argument) : Front Value := do
  let handles ← parts.mapM fun a => a.bring m
  match handles.mapM id with
  | some handles => build m kind (Draft.construct kind.ty handles)
  | none => return { kind, shader := m, handle := none }

/-- A node from a value and an operand that was brought into its shader. -/
def combine (op : BinaryOp) (kind : Kind) (lhs : Value) (rhs : Option Handle) : Front Value := do
  match lhs.handle, rhs with
  | some a, some b => build lhs.shader kind (Draft.binary op a b)
  | _, _ => return { kind, shader := lhs.shader, handle := none }

def binary (op : BinaryOp) (kind : Kind) (lhs : Value) (rhs : Argument) : Front Value := do
  let b ← rhs.bring lhs.shader
  combine op kind lhs b

/-- A binary operator with a literal on its left, which is built first. -/
def binaryLiteral (op : BinaryOp) (kind : Kind) (lhs : Literal) (rhs : Value) : Front Value := do
  let a ← constant rhs.shader (.literal lhs)
  binary op kind a (.value rhs)

def negate (a : Value) : Front Value := do
  match a.handle with
  | some h => build a.shader a.kind (Draft.negate h)
  | none => return a

def select (condition : Value) (kind : Kind) (accept reject : Argument) : Front Value := do
  let m := condition.shader
  let a ← accept.bring m
  let b ← reject.bring m
  match condition.handle, a, b with
  | some c, some a, some b => build m kind (Draft.select c a b)
  | _, _, _ => return { kind, shader := m, handle := none }

/-- A pointer to a member of a struct, which has to be of the given type. -/
def member (p : Pointer) (kind : Kind) (index : Word) : Front Pointer := do
  match p.place with
  | none => return { target := .kind kind, shader := p.shader, place := none }
  | some place =>
      buildPointer p.shader (.kind kind) do
        let part ← Draft.member place index
        let found ← Draft.pointee part
        if found ≠ kind.ty then throw (.typeMismatch kind.ty found)
        return part

def index (p : Pointer) (kind : Kind) (a : Argument) : Front Pointer := do
  let h ← a.bring p.shader
  match p.place, h with
  | some place, some h => buildPointer p.shader (.kind kind) (Draft.index place h)
  | _, _ => return { target := .kind kind, shader := p.shader, place := none }

def load (p : Pointer) (kind : Kind) : Front Value := do
  match p.place with
  | some place => build p.shader kind (Draft.load place)
  | none => return { kind, shader := p.shader, handle := none }

def store (p : Pointer) (a : Argument) : Front Unit := do
  let h ← a.bring p.shader
  match p.place, h with
  | some place, some h => do let _ ← attempt p.shader (Draft.store place h)
  | _, _ => return

/-- Runs steps in a block that is entered when a condition holds. They do not run if the block
cannot be opened. -/
def ifThen {α : Type} (m : ShaderId) (condition : Argument) (body : Front α) :
    Front (Option α) := do
  match ← condition.bring m with
  | none => return none
  | some h =>
      match ← attempt m (Draft.beginIf h) with
      | none => return none
      | some _ =>
          let a ← body
          let _ ← attempt m Draft.endIf
          return some a

def ifThenElse {α : Type} (m : ShaderId) (condition : Argument) (body otherwise : Front α) :
    Front (Option (α × α)) :=
  ifThen m condition do
    let a ← body
    let _ ← attempt m Draft.beginElse
    let b ← otherwise
    return (a, b)

/-- Runs steps in the body of a counting loop. They do not run if the range is refused. -/
def forRange {α : Type} (m : ShaderId) (first last : Int32) (body : Value → Front α) :
    Front (Option α) := do
  match ← attempt m (Draft.beginFor first last) with
  | none => return none
  | some counter =>
      let a ← body { kind := .int, shader := m, handle := some counter }
      let _ ← attempt m Draft.endFor
      return some a

def breakLoop (m : ShaderId) : Front Unit := do
  let _ ← attempt m Draft.breakLoop

def continueLoop (m : ShaderId) : Front Unit := do
  let _ ← attempt m Draft.continueLoop

def compile (m : ShaderId) : Front (Option (Except Fault ShaderModule)) := do
  match (← get).shaders[m]? with
  | none => return none
  | some s =>
      setShader m s.compiled.shader
      return some s.compiled.result

end ShaderIR.Frontend.Front
