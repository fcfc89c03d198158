import ShaderIR.Fault
import ShaderIR.Handle
import ShaderIR.Literal

/-! The expression graph: nodes in reusable slots, each with a count of its references, and an edge
for each operand position. -/
namespace ShaderIR

inductive NodeKind where
  | constant (literal : Literal)
  /-- The value of an input slot. -/
  | input (slot : Nat)
  | load (event : Nat)
  | unary (op : UnaryOp)
  | binary (op : BinaryOp)
  | construct
  /-- A condition followed by the two candidates. -/
  | select
deriving DecidableEq, Repr, Inhabited

def NodeKind.isLoad : NodeKind → Bool
  | .load _ => true
  | _ => false

structure Node where
  id : Id
  ty : Ty
  kind : NodeKind
  /-- What the node is built from. What is left of it is read from the edges. -/
  operands : List Handle
  position : Position
  serial : Nat := 0
  /-- References held by operand positions of other nodes and by callers. -/
  refs : Nat := 0
deriving DecidableEq, Inhabited

/-- An edge leads from the slot of an operand to that of the node that uses it. -/
structure Edge where
  source : Nat
  target : Nat
  position : Nat
deriving DecidableEq, Repr, Inhabited

namespace Edge

def ofOperand (target : Nat) (operand : Handle × Nat) : Edge :=
  { source := operand.1.slot, target, position := operand.2 }

def insertByPosition (e : Edge) : List Edge → List Edge
  | [] => [e]
  | first :: rest =>
      if e.position ≤ first.position then e :: first :: rest
      else first :: e.insertByPosition rest

/-- Sorts edges by their positions. Edges with the same position stay in order. -/
def sortByPosition : List Edge → List Edge
  | [] => []
  | e :: rest => e.insertByPosition (sortByPosition rest)

end Edge

structure Graph where
  slots : Array (Option Node) := #[]
  /-- All edges, the most recent first. -/
  edges : List Edge := []
  /-- Freed slots, the most recently freed first. -/
  free : List Nat := []
  nextSerial : Nat := 0
deriving DecidableEq, Inhabited

namespace Graph

def find? (g : Graph) (h : Handle) : Option Node :=
  match g.slots[h.slot]? with
  | some (some node) => if node.serial = h.serial then some node else none
  | _ => none

def node (g : Graph) (h : Handle) : Except Fault Node :=
  match g.find? h with
  | some node => .ok node
  | none => .error (.staleValue h.slot)

def contains (g : Graph) (h : Handle) : Bool := (g.find? h).isSome

def typeOf (g : Graph) (h : Handle) : Except Fault Ty := do
  return (← g.node h).ty

/-- The handle of the node in a slot. -/
def handleAt? (g : Graph) (slot : Nat) : Option Handle :=
  match g.slots[slot]? with
  | some (some node) => some { slot, serial := node.serial }
  | _ => none

/-- The operands of the node in a slot, in order. -/
def operandsAt (g : Graph) (slot : Nat) : List Handle :=
  (Edge.sortByPosition (g.edges.filter fun e => e.target == slot)).filterMap fun e =>
    g.handleAt? e.source

def size (g : Graph) : Nat := g.slots.countP Option.isSome

def handles (g : Graph) : List Handle :=
  g.slots.toList.zipIdx.filterMap fun (node?, slot) =>
    node?.map fun node => { slot, serial := node.serial }

def setSlot (g : Graph) (slot : Nat) (content : Option Node) : Graph :=
  { g with slots := g.slots.setIfInBounds slot content }

def addRef (g : Graph) (h : Handle) : Graph :=
  match g.find? h with
  | some node => g.setSlot h.slot (some { node with refs := node.refs + 1 })
  | none => g

def retain (g : Graph) (h : Handle) : Except Fault Graph := do
  let _ ← g.node h
  return g.addRef h

/-- Puts a node into the most recently freed slot, or into a new one. -/
def place (g : Graph) (node : Node) : Graph × Nat :=
  match g.free with
  | slot :: rest => ({ g.setSlot slot (some node) with free := rest }, slot)
  | [] => ({ g with slots := g.slots.push (some node) }, g.slots.size)

/-- Adds an edge for each operand of the node in a slot, one after the other. -/
def wire (g : Graph) (slot : Nat) (operands : List Handle) : Graph :=
  { g with edges := (operands.zipIdx.map (Edge.ofOperand slot)).reverse ++ g.edges }

/-- Adds a node, which takes one reference for each operand position. Its serial is new and its
reference count starts at zero. -/
def insert (g : Graph) (node : Node) : Except Fault (Graph × Handle) := do
  node.operands.forM fun h => do let _ ← g.node h
  let serial := g.nextSerial
  let (placed, slot) := { g with nextSerial := serial + 1 }.place { node with serial, refs := 0 }
  return (node.operands.foldl addRef (placed.wire slot node.operands), { slot, serial })

/-- Takes the node out of a slot, with all its edges. -/
def erase (g : Graph) (slot : Nat) : Graph :=
  { g.setSlot slot none with
    edges := g.edges.filter fun e => e.source != slot && e.target != slot
    free := slot :: g.free }

/-- Drops every node. Serials go on, so that all handles become stale. -/
def clear (g : Graph) : Graph := { nextSerial := g.nextSerial }

end Graph

end ShaderIR
