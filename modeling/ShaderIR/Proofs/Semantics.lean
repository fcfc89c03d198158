import ShaderIR.Proofs.Session

/-! Two meanings. A module without branches is executed instruction by instruction; a program of
calls is evaluated call by call. What opcodes compute and how memory behaves is left open. -/
namespace ShaderIR

/-- What opcodes compute and what memory does. Nothing is assumed of either. -/
structure Semantics where
  Value : Type
  Memory : Type
  /-- What an id or a handle holds before it is given a value. -/
  unset : Value
  literal : Literal → Value
  compute : Operation → List Value → Value
  select : Value → Value → Value → Value
  construct : List Value → Value
  extract : Value → Word → Value
  extractDynamic : Value → Value → Value
  sample : Value → Value → Value → Value
  /-- Memory is addressed by a variable and a list of indices. -/
  read : Memory → Id → List Value → Value
  write : Memory → Id → List Value → Value → Memory

/-- A part of a variable: its id and the indices that lead to the part. -/
structure Address (S : Semantics) where
  root : Id
  indices : List S.Value

def Semantics.readAt (S : Semantics) (memory : S.Memory) (a : Address S) : S.Value :=
  S.read memory a.root a.indices

def Semantics.writeAt (S : Semantics) (memory : S.Memory) (a : Address S) (v : S.Value) : S.Memory :=
  S.write memory a.root a.indices v

def Address.step {S : Semantics} (a : Address S) (index : S.Value) : Address S :=
  { a with indices := a.indices ++ [index] }

/-! Executing instructions. -/

structure Machine (S : Semantics) where
  values : Id → S.Value
  pointers : Id → Address S
  memory : S.Memory

namespace Machine

variable {S : Semantics}

def start (memory : S.Memory) : Machine S where
  values _ := S.unset
  pointers id := { root := id, indices := [] }
  memory := memory

def hold (s : Machine S) (id : Id) (v : S.Value) : Machine S :=
  { s with values := fun other => if other = id then v else s.values other }

def point (s : Machine S) (id : Id) (a : Address S) : Machine S :=
  { s with pointers := fun other => if other = id then a else s.pointers other }

/-- One instruction. Branches and merges do not occur in straight-line code. -/
def execute (s : Machine S) : Instruction → Option (Machine S)
  | .constant _ result literal => some (s.hold result (S.literal literal))
  | .variableDecl _ result _ => some (s.point result { root := result, indices := [] })
  | .load _ result source => some (s.hold result (S.readAt s.memory (s.pointers source)))
  | .store target value =>
      some { s with memory := S.writeAt s.memory (s.pointers target) (s.values value) }
  | .accessChain _ result base indices =>
      some (s.point result ((indices.map s.values).foldl Address.step (s.pointers base)))
  | .compute operation _ result operands =>
      some (s.hold result (S.compute operation (operands.map s.values)))
  | .select _ result condition accept reject =>
      some (s.hold result (S.select (s.values condition) (s.values accept) (s.values reject)))
  | .construct _ result parts => some (s.hold result (S.construct (parts.map s.values)))
  | .extract _ result composite index =>
      some (s.hold result (S.extract (s.values composite) index))
  | .extractDynamic _ result vector index =>
      some (s.hold result (S.extractDynamic (s.values vector) (s.values index)))
  | .sample _ result image coordinates lod =>
      some (s.hold result (S.sample (s.values image) (s.values coordinates) (s.values lod)))
  | .branch _ | .branchConditional _ _ _ | .selectionMerge _ | .loopMerge _ _ | .returnVoid => none
  | _ => some s

/-- A list of instructions up to the return, which it has to reach. -/
def run (s : Machine S) : List Instruction → Option (Machine S)
  | [] => none
  | .returnVoid :: _ => some s
  | i :: rest => (s.execute i).bind fun t => t.run rest

end Machine

/-- The memory that a module leaves. Constants and variables come before the function, which is the
only one. -/
def ShaderModule.execute (S : Semantics) (m : ShaderModule) (memory : S.Memory) : Option S.Memory :=
  ((Machine.start memory).run m.instructions).map Machine.memory

/-! Evaluating calls. -/

/-- What the calls made so far have computed: the value of every handle, the address of every
location, memory, and what is to be stored at the end. -/
structure Evaluation (S : Semantics) where
  values : Handle → S.Value
  addresses : Place → Address S
  memory : S.Memory
  outputs : List (Id × S.Value)
  builtins : List (Id × S.Value)

def Draft.placeId (d : Draft) (p : Place) : Id := ((d.places.find? p).map PlaceData.id).getD 0

/-- A binary operator: the operation and the order that its operand types select. A lookup samples a
texture, extracts a column under a known index, or a component. -/
def Semantics.binary (S : Semantics) (op : BinaryOp) (l r : Node) (x y : S.Value) : S.Value :=
  match op with
  | .lookup =>
      if l.ty.isTexture then S.sample x y (S.literal .floatZero)
      else if l.ty.isMatrix then
        match r.kind.constantIndex with
        | .ok (some column) => S.extract x column
        | _ => S.unset
      else S.extractDynamic x y
  | op =>
      match op.lower l.ty r.ty with
      | .ok lowering => S.compute lowering.operation (if lowering.swap then [y, x] else [x, y])
      | .error _ => S.unset

def Semantics.unary (S : Semantics) (op : UnaryOp) (v : Node) (x : S.Value) : S.Value :=
  match op.lower v.ty with
  | .ok (operation, _) => S.compute operation [x]
  | .error _ => S.unset

namespace Evaluation

variable {S : Semantics}

def start (memory : S.Memory) : Evaluation S where
  values _ := S.unset
  addresses _ := { root := 0, indices := [] }
  memory := memory
  outputs := []
  builtins := []

def give (v : Evaluation S) (h : Handle) (x : S.Value) : Evaluation S :=
  { v with values := fun other => if other = h then x else v.values other }

def locate (v : Evaluation S) (p : Place) (a : Address S) : Evaluation S :=
  { v with addresses := fun other => if other = p then a else v.addresses other }

def declare (v : Evaluation S) (d : Draft) (p : Place) : Evaluation S :=
  v.locate p { root := d.placeId p, indices := [] }

def load (v : Evaluation S) (p : Place) (h : Handle) : Evaluation S :=
  v.give h (S.readAt v.memory (v.addresses p))

/-- The stores at the end: the outputs, then those with a fixed role. -/
def finish (v : Evaluation S) : S.Memory :=
  (v.outputs ++ v.builtins).foldl (fun memory out => S.write memory out.1 [] out.2) v.memory

end Evaluation

/-- What a call that is accepted computes. Inputs are read from the memory the program starts with.
The draft `d` is the one the call is made on and `d'` the one it leaves. -/
def Call.evaluated {S : Semantics} (initial : S.Memory) (d d' : Draft) (v : Evaluation S) :
    Call → Reply → Evaluation S
  | .addInput _, .value h =>
      (v.declare d' d.places.next).give h (S.read initial (d'.placeId d.places.next) [])
  | .constant literal, .value h => v.give h (S.literal literal)
  | .binary op a b, .value h =>
      match d.graph.find? a, d.graph.find? b with
      | some l, some r => v.give h (S.binary op l r (v.values a) (v.values b))
      | _, _ => v
  | .negate a, .value h =>
      match d.graph.find? a with
      | some n => v.give h (S.unary .negate n (v.values a))
      | none => v
  | .select c a r, .value h => v.give h (S.select (v.values c) (v.values a) (v.values r))
  | .construct _ parts, .value h => v.give h (S.construct (parts.map v.values))
  | .uniform _ _ _, .place p | .storage _ _ _, .place p | .localVariable _, .place p => v.declare d' p
  | .texture set binding _, .value h =>
      match d'.bindings.find? fun b => b.set == set && b.binding == binding with
      | some b => (v.declare d' b.place).load b.place h
      | none => v
  | .member p part, .place q =>
      v.locate q ((v.addresses p).step (S.literal (.int part.toInt32)))
  | .index p value, .place q => v.locate q ((v.addresses p).step (v.values value))
  | .load p, .value h => v.load p h
  | .store p value, _ =>
      { v with memory := S.writeAt v.memory (v.addresses p) (v.values value) }
  | .output value, _ =>
      { v.declare d' d.places.next with
        outputs := v.outputs ++ [(d'.placeId d.places.next, v.values value)] }
  | .builtin _ value, _ =>
      { v.declare d' d.places.next with
        builtins := v.builtins ++ [(d'.placeId d.places.next, v.values value)] }
  | _, _ => v

/-- What a call computes. A call that is refused computes nothing. -/
def Call.evaluate {S : Semantics} (initial : S.Memory) (d : Draft) (v : Evaluation S) (c : Call) :
    Evaluation S :=
  match c.answer d with
  | .ok reply => c.evaluated initial d (c.leaves d) v reply
  | .error _ => v

def Draft.evaluate {S : Semantics} (initial : S.Memory) (d : Draft) (v : Evaluation S) :
    List Call → Evaluation S
  | [] => v
  | c :: rest => (c.leaves d).evaluate initial (c.evaluate initial d v) rest

/-- The memory that a program leaves, evaluated on a new session with the given input slots. -/
def Draft.meaning (S : Semantics) (settings : Settings) (slots : List Ty) (program : List Call)
    (memory : S.Memory) : S.Memory :=
  ((Draft.new settings).evaluate memory (.start memory) (slots.map .addInput ++ program)).finish

/-- The calls of straight-line programs: those that neither open nor close a block, jump, release or
start over. -/
def Call.isStraight : Call → Bool
  | .beginIf _ | .beginElse | .endIf | .beginFor _ _ | .endFor | .breakLoop | .continueLoop
  | .release _ | .compile | .reset => false
  | _ => true

end ShaderIR
