import ShaderIR.Emission.Demand
import ShaderIR.Emission.Layout
import ShaderIR.ShaderModule

/-! Putting a module together: declare all variables, replay the events, store the outputs, and join
the sections behind the header. -/
namespace ShaderIR

structure EntryIds where
  void : Id
  signature : Id
  function : Id
  label : Id
  glsl : Id
deriving DecidableEq, Repr, Inhabited

namespace Emit

variable (d : Draft)

/-- Declares the variable of a location, in the section that fits its storage class. -/
def variableDecl (p : Place) : Emit Id := do
  let data ← check (d.places.get p)
  let type ← type data.ty
  let instruction : Instruction := .variableDecl type data.id data.storage
  match data.storage with
  | .function => declareLocal instruction
  | _ => declare instruction
  markReached p
  return data.id

/-- Declares the variables of a list of locations and annotates each with its position there. -/
def located : Nat → List Place → Emit (List Id)
  | _, [] => return []
  | index, p :: rest => do
      let id ← variableDecl d p
      annotate (.decorate id (.location index))
      let ids ← located (index + 1) rest
      return id :: ids

def builtinDecl (output : BuiltinOutput) : Emit Id := do
  let id ← variableDecl d output.place
  annotate (.decorate id (.builtIn output.builtin))
  return id

def blockDecoration? : BindingKind → Option Decoration
  | .uniform => some .block
  | .storage => some .bufferBlock
  | .texture => none

/-- Declares a bound resource. Blocks are marked once for each kind they are bound as, and their
layout is annotated. Gives the marks made so far. -/
def bindingDecl (marked : List (Id × Decoration)) (b : Binding) :
    Emit (List (Id × Decoration)) := do
  let id ← variableDecl d b.place
  annotate (.decorate id (.descriptorSet b.set))
  annotate (.decorate id (.binding b.binding))
  match blockDecoration? b.kind with
  | none => return marked
  | some decoration =>
      let struct ← declaredType b.ty
      let mark := (struct, decoration)
      if mark ∉ marked then annotate (.decorate struct decoration)
      layout b.ty
      return if mark ∈ marked then marked else mark :: marked

/-- Declares all variables and gives the interface of the entry point: inputs, outputs, outputs with
a fixed role. -/
def allVariables : Emit (List Id) := do
  let inputs ← located d 0 (d.inputs.toList.map Input.place)
  let outputs ← located d 0 (d.outputs.toList.map Output.place)
  let builtins ← d.builtins.toList.mapM (builtinDecl d)
  let _ ← d.bindings.toList.foldlM (bindingDecl d) []
  d.locals.toList.forM fun p => do let _ ← variableDecl d p
  return inputs ++ outputs ++ builtins

def finalStores : List (Place × Handle) :=
  d.outputs.toList.map (fun output => (output.place, output.value)) ++
    d.builtins.toList.map (fun output => (output.place, output.value))

/-- Writes the function body: inputs are read at the top, so that every block can use them, then the
events are replayed and the outputs stored. -/
def functionBody : Emit Unit := do
  let asking := demand d d.levels
  d.inputs.toList.forM fun input => do let _ ← asking.value input.value
  (List.range d.trace.size).forM asking.event
  (finalStores d).forM fun (p, h) => storeEvent asking p h

def entry : Emit EntryIds := do
  let void ← type .void
  let signature ← freshId
  let function ← freshId
  let label ← freshId
  let glsl ← freshId
  declare (.typeDecl signature (.function void))
  return { void, signature, function, label, glsl }

def everything : Emit (EntryIds × List Id) := do
  if !d.scopes.isEmpty then throw (.controlFlow .openAtCompile)
  let ids ← entry
  let interface ← allVariables d
  functionBody d
  return (ids, interface)

end Emit

/-- The capabilities of a draft. Each is declared once, in the order of their numbers. -/
def Draft.capabilities (d : Draft) : List Capability :=
  let asked := d.builtins.toList.filterMap fun output => output.builtin.capability?
  .shader :: [Capability.clipDistance, .cullDistance].filter (· ∈ asked)

def Settings.executionMode (s : Settings) (function : Id) : List Instruction :=
  match s.stage with
  | .fragment => [.originUpperLeft function]
  | .glCompute => [.localSize function s.localSize]
  | _ => []

/-- The instructions of a module, from the sections of a finished compilation. -/
def Emission.instructions (e : Emission) (d : Draft) (ids : EntryIds) (interface : List Id) :
    List Instruction :=
  d.capabilities.map .capability ++
    [.importSet ids.glsl "GLSL.std.450",
      .memoryModel,
      .entryPoint d.settings.stage ids.function d.settings.entryPoint interface] ++
    d.settings.executionMode ids.function ++
    e.annotations.toList ++
    e.declarations.toList ++
    [.functionBegin ids.void ids.function ids.signature, .label ids.label] ++
    e.locals.toList ++
    e.body.toList ++
    [.returnVoid, .functionEnd]

/-- The five words in front of the instructions. The bound of the ids is not known yet. -/
def Settings.header (s : Settings) : List Word :=
  [ShaderModule.magic,
    (s.versionMajor.toUInt32 <<< 16) ||| (s.versionMinor.toUInt32 <<< 8),
    s.generator,
    0,
    0]

def Encoder.writeAll (out : Encoder) (code : List Instruction) : Encoder :=
  code.foldl Instruction.write out

/-- Writes a module. Each section has a buffer of its own; the buffers are joined behind the header,
and the bound of the ids is filled in at the end. -/
def Emission.encode (e : Emission) (d : Draft) (ids : EntryIds) (interface : List Id) : Encoder :=
  let part (code : Array Instruction) := Encoder.writeAll {} code.toList
  let out := (Encoder.extend {} d.settings.header).writeAll
    (d.capabilities.map .capability ++
      [.importSet ids.glsl "GLSL.std.450",
        .memoryModel,
        .entryPoint d.settings.stage ids.function d.settings.entryPoint interface] ++
      d.settings.executionMode ids.function)
  let out := (out.append (part e.annotations)).append (part e.declarations)
  let out := out.writeAll [.functionBegin ids.void ids.function ids.signature, .label ids.label]
  let out := (out.append (part e.locals)).append (part e.body)
  (out.writeAll [.returnVoid, .functionEnd]).patch 3 (.ofId e.nextId)

/-- Compiles a draft. The state of the compilation is given also when it fails. -/
def Draft.assemble (d : Draft) : EStateM.Result Fault Emission ShaderModule :=
  match (Emit.everything d).run (.start d) with
  | .error fault e => .error fault e
  | .ok (ids, interface) e =>
      .ok
        { bound := e.nextId
          instructions := e.instructions d ids interface
          words := (e.encode d ids interface).words.toList }
        e

theorem Draft.assemble_eq_ok {d : Draft} {m : ShaderModule} {e : Emission}
    (run : d.assemble = .ok m e) :
    ∃ ids interface, (Emit.everything d).run (.start d) = .ok (ids, interface) e ∧
      m.instructions = e.instructions d ids interface ∧ m.bound = e.nextId ∧
      m.words = (e.encode d ids interface).words.toList := by
  unfold assemble at run
  cases whole : (Emit.everything d).run (.start d) with
  | error fault e' =>
    rw [whole] at run
    contradiction
  | ok pair e' =>
    rw [whole] at run
    obtain ⟨rfl, rfl⟩ := EStateM.Result.ok.inj run
    exact ⟨pair.1, pair.2, rfl, rfl, rfl, rfl⟩

end ShaderIR
