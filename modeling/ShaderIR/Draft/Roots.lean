import ShaderIR.Draft.Basic

/-! Calls that decide what a shader keeps: its outputs and the references of the caller. -/
namespace ShaderIR.Draft

def output (value : Handle) : Build Unit := do
  let ty ← Build.typeOf value
  Build.retain value
  let place ← Build.pushVariable .output ty true
  modify fun d => { d with outputs := d.outputs.push { value, place } }

/-- Writes a value to an output with a fixed role, which only vertex shaders have, and each of them
once. -/
def builtin (builtin : Builtin) (value : Handle) : Build Unit := do
  let d ← get
  if d.settings.stage ≠ .vertex then throw (.unsupportedBuiltin builtin d.settings.stage)
  if d.builtins.any fun slot => slot.builtin == builtin then throw (.builtinRedefined builtin)
  let ty ← Build.typeOf value
  if !builtin.accepts ty then throw (.typeMismatch builtin.expected ty)
  Build.retain value
  let place ← Build.pushVariable .output ty true
  modify fun d => { d with builtins := d.builtins.push { builtin, value, place } }

/-- Drops a reference on a node. A release that fails part of the way keeps what it did. -/
def release (value : Handle) : Build Unit := fun d =>
  match d.graph.release value with
  | .ok _ graph => .ok () { d with graph }
  | .error fault graph => .error fault { d with graph }

end ShaderIR.Draft
