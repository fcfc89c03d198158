import ShaderIR.Frontend.World
import ShaderIR.Text.Quoted

/-! A shader as text. -/
namespace ShaderIR

private def boolText (flag : Bool) : String := if flag then "true" else "false"

def Settings.describe (s : Settings) : String :=
  "Settings \x7b stage: " ++ s.stage.name ++
    ", entry_point: " ++ Text.quote s.entryPoint ++
    s!", version: ({s.versionMajor.toNat}, {s.versionMinor.toNat})" ++
    s!", generator: {s.generator.toNat}" ++
    s!", local_size: [{s.localSize.x.toNat}, {s.localSize.y.toNat}, {s.localSize.z.toNat}]" ++
    ", strict_loop_bounds: " ++ boolText s.strictLoopBounds ++ " \x7d"

/-- A shader that holds no fault, as text. -/
def Frontend.Shader.describe? (s : Frontend.Shader) : Option String :=
  match s.fault with
  | some _ => none
  | none =>
      some ("Module \x7b settings: " ++ s.draft.settings.describe ++
        s!", nodes: {s.draft.nodeCount}, error: None \x7d")

end ShaderIR
