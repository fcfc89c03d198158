import ShaderIR.Frontend.Describe
import ShaderIR.Frontend.Operation

/-! Front-end programs: commands over names, with nested blocks, and what running them gives. A
command is checked against the typing tables before it runs. -/
namespace ShaderIR.Frontend

inductive Operand where
  | name (name : String)
  | literal (literal : Literal)
deriving DecidableEq, Repr, Inhabited

inductive Action where
  | input (m : ShaderId) (kind : Kind)
  | output (m : ShaderId) (a : Operand)
  /-- Writes a value of any type to an output with a fixed role. -/
  | anyBuiltin (m : ShaderId) (role : Builtin) (a : Operand)
  /-- Writes a value of a fitting type to an output with a fixed role. -/
  | builtin (m : ShaderId) (role : Builtin) (a : Operand)
  | uniform (m : ShaderId) (set binding : Word) (members : List Ty)
  | storage (m : ShaderId) (set binding : Word) (members : List Ty)
  | texture (m : ShaderId) (dim : Dim) (set binding : Word)
  | localVariable (m : ShaderId) (kind : Kind)
  | constant (m : ShaderId) (a : Operand)
  | vector (m : ShaderId) (arity : Arity) (parts : List Operand)
  | array (m : ShaderId) (element : Kind) (length : Word) (parts : List String)
  | arithmetic (op : BinaryOp) (a b : Operand)
  | negate (a : String)
  | dot (a : String) (b : Operand)
  | compare (op : BinaryOp) (a : String) (b : Operand)
  | select (c : String) (a b : Operand)
  | sample (a : String) (b : Operand)
  | component (a : String) (b : Operand)
  | column (a : String) (index : Int32)
  | member (p : String) (kind : Kind) (index : Word)
  | index (p : String) (a : Operand)
  | copy (p : String)
  | load (p : String)
  | store (p : String) (a : Operand)
  | breakLoop (m : ShaderId)
  | continueLoop (m : ShaderId)
  | hasFault (m : ShaderId)
  | describe (m : ShaderId)
  | compile (m : ShaderId)
deriving DecidableEq, Inhabited

/-- What an action gives. Where a fault can be recorded, whether the shader holds one is told. -/
inductive Outcome where
  | value (value : Value) (faulty : Bool)
  | pointer (pointer : Pointer)
  | done (faulty : Bool)
  | stored
  | faulty (faulty : Bool)
  | text (text : Option String)
  | module (compiled : ShaderModule)
  | fault (fault : Fault)
  /-- A name that nothing was bound to. Nothing was done. -/
  | unbound (name : String)
  /-- Types that fit no table, or a shader that does not exist. Nothing was done. -/
  | illTyped
deriving DecidableEq, Inhabited

/-- An action on the way: it may end early with an outcome of its own. -/
abbrev Acting := ExceptT Outcome Front

namespace Acting

def value (name : String) : Acting Value := do
  match (← get).values.find? name with
  | some v => return v
  | none => throw (.unbound name)

def pointer (name : String) : Acting Pointer := do
  match (← get).pointers.find? name with
  | some p => return p
  | none => throw (.unbound name)

def argument : Operand → Acting Argument
  | .name name => return .value (← value name)
  | .literal l => return .literal l

def ensure (wellTyped : Bool) : Acting Unit :=
  if wellTyped then return else throw .illTyped

def entry {α : Type} : Option α → Acting α
  | some a => return a
  | none => throw .illTyped

def gives (v : Value) : Acting Outcome := do
  return .value v (← Front.hasFault v.shader)

def finishes (m : ShaderId) : Acting Outcome := do
  return .done (← Front.hasFault m)

end Acting

open Acting in
/-- Carries out an action. Names are resolved first, in order, then types are checked. -/
def Action.run : Action → Acting Outcome
  | .input m kind => do gives (← Front.input m kind)
  | .output m a => do
      let a ← argument a
      Front.output m a
      finishes m
  | .anyBuiltin m role a => do
      let a ← argument a
      Front.builtin m role a
      finishes m
  | .builtin m role a => do
      let a ← argument a
      ensure (fitsBuiltin role a.kind)
      Front.builtin m role a
      finishes m
  | .uniform m set binding members => do
      return .pointer (← Front.uniform m set binding members)
  | .storage m set binding members => do
      return .pointer (← Front.storage m set binding members)
  | .texture m dim set binding => do gives (← Front.texture m dim set binding)
  | .localVariable m kind => do return .pointer (← Front.localVariable m kind)
  | .constant m a => do
      let a ← argument a
      gives (← Front.constant m a)
  | .vector m arity parts => do
      let parts ← parts.mapM argument
      ensure (parts.length == arity.toNat && parts.all fun a => a.kind == .float)
      gives (← Front.construct m (.vec arity) parts)
  | .array m element length parts => do
      let parts ← parts.mapM value
      ensure (parts.all fun v => v.kind == element)
      gives (← Front.construct m (.array element length) (parts.map .value))
  | .arithmetic op a b => do
      let a ← argument a
      let b ← argument b
      let (op, kind) ← entry (Kind.arithmetic? op a.kind b.kind)
      match a, b with
      | .value v, _ => gives (← Front.binary op kind v b)
      | .literal l, .value v => gives (← Front.binaryLiteral op kind l v)
      | .literal _, .literal _ => throw .illTyped
  | .negate a => do
      let a ← value a
      ensure a.kind.isSigned
      gives (← Front.negate a)
  | .dot a b => do
      let a ← value a
      let b ← argument b
      let kind ← entry (Kind.dot? a.kind b.kind)
      gives (← Front.binary .dot kind a b)
  | .compare op a b => do
      let a ← value a
      let b ← argument b
      ensure (Kind.comparable op a.kind b.kind)
      gives (← Front.binary op .bool a b)
  | .select c a b => do
      let c ← value c
      let a ← argument a
      let b ← argument b
      ensure (c.kind == .bool && a.kind == b.kind)
      gives (← Front.select c a.kind a b)
  | .sample a b => do
      let a ← value a
      let b ← argument b
      let coordinates ← entry a.kind.coordinates?
      ensure (b.kind == coordinates)
      gives (← Front.binary .lookup (.vec .four) a b)
  | .component a b => do
      let a ← value a
      let b ← argument b
      match a.kind with
      | .vec _ =>
          ensure (b.kind == .int)
          gives (← Front.binary .lookup .float a b)
      | _ => throw .illTyped
  | .column a i => do
      let a ← value a
      match a.kind with
      | .mat arity => gives (← Front.binary .lookup (.vec arity) a (.literal (.int i)))
      | _ => throw .illTyped
  | .member p kind i => do
      let p ← pointer p
      return .pointer (← Front.member p kind i)
  | .index p a => do
      let p ← pointer p
      let a ← argument a
      match p.target with
      | .kind kind =>
          let element ← entry kind.element?
          ensure (a.kind == .int)
          return .pointer (← Front.index p element a)
      | .block => throw .illTyped
  | .copy p => return .pointer (← pointer p)
  | .load p => do
      let p ← pointer p
      match p.target with
      | .kind kind => gives (← Front.load p kind)
      | .block => throw .illTyped
  | .store p a => do
      let p ← pointer p
      let a ← argument a
      ensure (p.target == .kind a.kind)
      Front.store p a
      return .stored
  | .breakLoop m => do
      Front.breakLoop m
      finishes m
  | .continueLoop m => do
      Front.continueLoop m
      finishes m
  | .hasFault m => do return .faulty (← Front.hasFault m)
  | .describe m => do
      return .text ((← get).shaders[m]?.bind Shader.describe?)
  | .compile m => do
      match ← entry (← Front.compile m) with
      | .ok compiled => return .module compiled
      | .error fault => return .fault fault

def Action.notices (w : World) : Action → List Notice
  | .compile m =>
      match w.shaders[m]? with
      | some s => s.compiled.notices
      | none => []
  | _ => []

inductive Command where
  /-- Carries out an action and binds what it gives to a name. -/
  | act (binder : Option String) (action : Action)
  | ifThen (m : ShaderId) (condition : Operand) (body : List Command)
  | ifThenElse (m : ShaderId) (condition : Operand) (body otherwise : List Command)
  /-- A counting loop; the counter is bound to a name before the body runs. -/
  | forRange (m : ShaderId) (first last : Int32) (counter : Option String) (body : List Command)
deriving Inhabited

/-- What running a command gives: for a block, the reports of the commands in it if they ran. -/
inductive Report where
  | action (outcome : Outcome) (notices : List Notice)
  | ifThen (body : Option (List Report)) (faulty : Bool)
  | ifThenElse (branches : Option (List Report × List Report)) (faulty : Bool)
  | forRange (run : Option (Outcome × List Report)) (faulty : Bool) (notices : List Notice)
deriving Inhabited

namespace World

def bind (w : World) (binder : Option String) (outcome : Outcome) : World :=
  match binder, outcome with
  | some name, .value v _ => { w with values := w.values.insert name v }
  | some name, .pointer p => { w with pointers := w.pointers.insert name p }
  | _, _ => w

end World

def Action.outcome (action : Action) : Front Outcome := do
  match ← action.run.run with
  | .ok outcome => return outcome
  | .error outcome => return outcome

/-- The condition of a block, or the outcome that ends its command. -/
def condition (operand : Operand) : Front (Except Outcome Argument) := do
  match ← (Acting.argument operand).run with
  | .ok a => return if a.kind = .bool then .ok a else .error .illTyped
  | .error outcome => return .error outcome

mutual

def Command.run : Command → Front Report
  | .act binder action => do
      let notices := action.notices (← get)
      let outcome ← action.outcome
      modify fun w => w.bind binder outcome
      return .action outcome notices
  | .ifThen m operand body => do
      match ← condition operand with
      | .error outcome => return .action outcome []
      | .ok a =>
          let reports ← Front.ifThen m a (runAll body)
          return .ifThen reports (← Front.hasFault m)
  | .ifThenElse m operand body otherwise => do
      match ← condition operand with
      | .error outcome => return .action outcome []
      | .ok a =>
          let reports ← Front.ifThenElse m a (runAll body) (runAll otherwise)
          return .ifThenElse reports (← Front.hasFault m)
  | .forRange m first last counter body => do
      let notices ← Front.notices m (.beginFor first last)
      let reports ← Front.forRange m first last fun v => do
        let outcome := .value v (← Front.hasFault m)
        modify fun w => w.bind counter outcome
        return (outcome, ← runAll body)
      return .forRange reports (← Front.hasFault m) notices

def runAll : List Command → Front (List Report)
  | [] => return []
  | command :: rest => do
      let report ← command.run
      let reports ← runAll rest
      return report :: reports

end

def World.new (settings : List Settings) : World :=
  { shaders := (settings.map Shader.new).toArray }

end ShaderIR.Frontend
