import ShaderIR.Block
import ShaderIR.Graph.Release
import ShaderIR.Place.Basic
import ShaderIR.Table.Constants
import ShaderIR.Table.Types
import ShaderIR.Trace.Basic

/-! A shader under construction. Every call that builds it either succeeds or gives a fault, and the
draft is known in both cases. -/
namespace ShaderIR

structure Input where
  ty : Ty
  place : Place
  value : Handle
deriving DecidableEq, Inhabited

/-- A value written to the output variable of a location. -/
structure Output where
  value : Handle
  place : Place
deriving DecidableEq, Repr, Inhabited

structure BuiltinOutput where
  builtin : Builtin
  value : Handle
  place : Place
deriving DecidableEq, Repr, Inhabited

inductive BindingKind where
  /-- A block that can only be read. -/
  | uniform
  /-- A block that can also be written. -/
  | storage
  | texture
deriving DecidableEq, Repr, Inhabited

structure Binding where
  set : Word
  binding : Word
  kind : BindingKind
  ty : Ty
  place : Place
deriving DecidableEq, Inhabited

inductive Scope where
  | selection (index : Nat)
  | loop (index : Nat)
deriving DecidableEq, Repr, Inhabited

structure Draft where
  settings : Settings
  nextId : Id := 1
  graph : Graph := {}
  places : Places := {}
  trace : Trace := {}
  types : TypeTable := {}
  constants : ConstantTable := {}
  selections : Array Selection := #[]
  loops : Array CountedLoop := #[]
  /-- The open blocks, innermost first. -/
  scopes : List Scope := []
  inputs : Array Input := #[]
  outputs : Array Output := #[]
  bindings : Array Binding := #[]
  builtins : Array BuiltinOutput := #[]
  locals : Array Place := #[]
deriving DecidableEq, Inhabited

abbrev Build := EStateM Fault Draft

namespace Build

def check {α : Type} : Except Fault α → Build α
  | .ok a => pure a
  | .error fault => throw fault

def freshId : Build Id :=
  modifyGet fun d => (d.nextId, { d with nextId := d.nextId + 1 })

/-- Adds a node at the current point of the program. -/
def pushNode (ty : Ty) (kind : NodeKind) (operands : List Handle) : Build Handle := do
  let id ← freshId
  let d ← get
  let position := d.trace.position
  let (graph, handle) ← check (d.graph.insert { id, ty, kind, operands, position })
  set { d with graph }
  return handle

def pushVariable (storage : Storage) (pointee : Ty) (writable : Bool) : Build Place := do
  let id ← freshId
  let d ← get
  set { d with
    places := d.places.push
      { id, storage, pointee, origin := .root, depth := 1, writable, position := {} } }
  return d.places.next

def retain (value : Handle) : Build Unit := do
  let d ← get
  let graph ← check (d.graph.retain value)
  set { d with graph }

def typeOf (value : Handle) : Build Ty := do
  check ((← get).graph.typeOf value)

def placeData (place : Place) : Build PlaceData := do
  check ((← get).places.get place)

end Build

namespace Draft

def new (settings : Settings) : Draft := { settings }

def addInput (ty : Ty) : Build Handle := do
  let slot := (← get).inputs.size
  let place ← Build.pushVariable .input ty false
  let value ← Build.pushNode ty (.input slot) []
  Build.retain value
  modify fun d => { d with inputs := d.inputs.push { ty, place, value } }
  return value

def input (slot : Nat) : Build Handle := do
  match (← get).inputs[slot]? with
  | some input => return input.value
  | none => throw (.unknownInput slot)

/-- A draft with an input slot for each type, in order. -/
def withInputs (settings : Settings) (types : List Ty) : EStateM.Result Fault Draft Unit :=
  (types.forM fun ty => do let _ ← addInput ty).run (new settings)

def nodeCount (d : Draft) : Nat := d.graph.size

end Draft

end ShaderIR
