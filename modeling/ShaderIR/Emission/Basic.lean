import ShaderIR.Draft.Basic

/-! The state of a compilation. A draft does not change while it is compiled; what does is collected
here, and only ever grows. -/
namespace ShaderIR

inductive Phase where
  | built
  | opened
  /-- The second branch of a selection is open. -/
  | switched
  | closed
deriving DecidableEq, Repr, Inhabited

structure Emission where
  nextId : Id
  types : TypeTable
  constants : ConstantTable
  /-- The id that holds the value of the node in a slot. -/
  results : Assoc Nat Id := []
  /-- The locations whose id is written. -/
  reached : List Place := []
  /-- The events that are written, or being written. -/
  written : List Nat := []
  selectionPhases : Assoc Nat Phase := []
  loopPhases : Assoc Nat Phase := []
  annotations : Array Instruction := #[]
  declarations : Array Instruction := #[]
  locals : Array Instruction := #[]
  body : Array Instruction := #[]
deriving DecidableEq, Inhabited

abbrev Emit := EStateM Fault Emission

namespace Emit

def check {α : Type} : Except Fault α → Emit α
  | .ok a => pure a
  | .error fault => throw fault

def freshId : Emit Id :=
  modifyGet fun e => (e.nextId, { e with nextId := e.nextId + 1 })

def annotate (instruction : Instruction) : Emit Unit :=
  modify fun e => { e with annotations := e.annotations.push instruction }

def declare (instruction : Instruction) : Emit Unit :=
  modify fun e => { e with declarations := e.declarations.push instruction }

def declareLocal (instruction : Instruction) : Emit Unit :=
  modify fun e => { e with locals := e.locals.push instruction }

def write (instruction : Instruction) : Emit Unit :=
  modify fun e => { e with body := e.body.push instruction }

def writeAll (instructions : List Instruction) : Emit Unit :=
  instructions.forM write

def markReached (place : Place) : Emit Unit :=
  modify fun e => { e with reached := place :: e.reached }

def setResult (slot : Nat) (id : Id) : Emit Unit :=
  modify fun e => { e with results := e.results.insert slot id }

end Emit

def Emission.start (d : Draft) : Emission :=
  { nextId := d.nextId, types := d.types, constants := d.constants }

end ShaderIR
