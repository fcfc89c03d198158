import ShaderIR.Emission.Assembly
import ShaderIR.Notice

/-! Compiling a draft and starting over. A compilation starts over whether it succeeds or not. -/
namespace ShaderIR

namespace Draft

def roots (d : Draft) : List Handle :=
  d.outputs.toList.map Output.value ++ d.builtins.toList.map BuiltinOutput.value

/-- The graph after the references of the outputs are dropped. A caller may have released an output
before; that is no fault here. -/
def releasedGraph (d : Draft) : Graph :=
  d.roots.foldl
    (fun g h =>
      match g.release h with
      | .ok _ g' => g'
      | .error _ g' => g')
    d.graph

def aliveCount (d : Draft) : Nat := d.releasedGraph.size

/-- An empty draft with the settings of an earlier one. Handles given out before stay invalid, and
type declarations are forgotten as far as their table forgets. -/
def cleared (d : Draft) (types : TypeTable) : Draft :=
  { settings := d.settings
    graph := d.releasedGraph.clear
    places := d.places.clear
    types := types.forget }

/-- An empty draft with the settings and the input slots of an earlier one. -/
def restart (d : Draft) (types : TypeTable) : Draft :=
  match (d.inputs.toList.forM fun input => do let _ ← addInput input.ty).run (d.cleared types) with
  | .ok _ d' => d'
  | .error _ d' => d'

end Draft

structure Compilation where
  result : Except Fault ShaderModule
  /-- The draft to go on with. -/
  draft : Draft
  notices : List Notice

namespace Draft

def compilation (d : Draft) : Compilation :=
  let started : List Notice := [.compiling d.settings.stage d.outputs.size d.builtins.size]
  match d.assemble with
  | .ok m e =>
      { result := .ok m
        draft := d.restart e.types
        notices := started ++ [.alive d.aliveCount, .compiled m.words.length m.bound] }
  | .error fault e =>
      { result := .error fault
        draft := d.restart e.types
        notices := started ++ [.alive d.aliveCount] }

def compile : Build ShaderModule := fun d =>
  let done := d.compilation
  match done.result with
  | .ok m => .ok m done.draft
  | .error fault => .error fault done.draft

def reset : Build Unit := fun d => .ok () (d.restart d.types)

end Draft

end ShaderIR
