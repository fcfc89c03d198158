import ShaderIR.Word

/-! What a shader is compiled for: its stage, its entry point and the module header. -/
namespace ShaderIR

inductive Stage where
  | vertex
  | tessellationControl
  | tessellationEvaluation
  | geometry
  | fragment
  | glCompute
  | kernel
deriving DecidableEq, Repr, Inhabited

def Stage.name : Stage → String
  | .vertex => "Vertex"
  | .tessellationControl => "TessellationControl"
  | .tessellationEvaluation => "TessellationEvaluation"
  | .geometry => "Geometry"
  | .fragment => "Fragment"
  | .glCompute => "GLCompute"
  | .kernel => "Kernel"

def Stage.word : Stage → Word
  | .vertex => 0
  | .tessellationControl => 1
  | .tessellationEvaluation => 2
  | .geometry => 3
  | .fragment => 4
  | .glCompute => 5
  | .kernel => 6

/-- The number of invocations in a compute workgroup, along each axis. -/
structure LocalSize where
  x : Word := 1
  y : Word := 1
  z : Word := 1
deriving DecidableEq, Repr, Inhabited

structure Settings where
  stage : Stage
  entryPoint : String := "main"
  versionMajor : UInt8 := 1
  versionMinor : UInt8 := 0
  generator : Word := 0
  localSize : LocalSize := {}
  /-- Refuse every loop whose end is below its start. -/
  strictLoopBounds : Bool := false
deriving DecidableEq, Repr, Inhabited

end ShaderIR
