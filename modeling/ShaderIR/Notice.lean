import ShaderIR.Settings

/-! What a call reports besides its result. -/
namespace ShaderIR

inductive Notice where
  /-- A loop was opened that never runs its body. -/
  | emptyLoop (first last : Int32)
  | compiling (stage : Stage) (outputs builtins : Nat)
  /-- How many nodes are alive when a draft starts over, after its outputs were released. -/
  | alive (nodes : Nat)
  | compiled (words : Nat) (bound : Id)
deriving DecidableEq, Repr, Inhabited

namespace Notice

def level : Notice → String
  | .emptyLoop _ _ => "WARN"
  | .compiling _ _ _ | .alive _ | .compiled _ _ => "DEBUG"

def text : Notice → String
  | .emptyLoop first last =>
      s!"loop end {last.toInt} is lower than its start {first.toInt}, the body will never run"
  | .compiling stage outputs builtins =>
      s!"compiling {stage.name} shader, {outputs} outputs and {builtins} builtins"
  | .alive nodes => s!"{nodes} nodes alive after releasing the outputs"
  | .compiled words bound => s!"module is {words} words long, id bound {bound}"

end Notice

end ShaderIR
