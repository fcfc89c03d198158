import ShaderIR.Ty.Basic

/-! Fixed-role outputs of vertex shaders and the capabilities they ask for. -/
namespace ShaderIR

inductive Builtin where
  | position
  | pointSize
  | clipDistance
  | cullDistance
deriving DecidableEq, Repr, Inhabited

inductive Capability where
  | shader
  | clipDistance
  | cullDistance
deriving DecidableEq, Repr, Inhabited

def Capability.word : Capability → Word
  | .shader => 1
  | .clipDistance => 32
  | .cullDistance => 33

namespace Builtin

def name : Builtin → String
  | .position => "Position"
  | .pointSize => "PointSize"
  | .clipDistance => "ClipDistance"
  | .cullDistance => "CullDistance"

def word : Builtin → Word
  | .position => 0
  | .pointSize => 1
  | .clipDistance => 3
  | .cullDistance => 4

/-- The capability that a module must declare to write this output. -/
def capability? : Builtin → Option Capability
  | .clipDistance => some .clipDistance
  | .cullDistance => some .cullDistance
  | .position | .pointSize => none

def accepts : Builtin → Ty → Bool
  | .position, ty => ty == .vec 4
  | .pointSize, ty => ty == .single
  | .clipDistance, .array element _ | .cullDistance, .array element _ => element == .single
  | .clipDistance, _ | .cullDistance, _ => false

/-- The type that a refusal asks for. Distances are float arrays of any length. -/
def expected : Builtin → Ty
  | .position => .vec 4
  | .pointSize => .single
  | .clipDistance | .cullDistance => .runtimeArray .single

end Builtin

end ShaderIR
