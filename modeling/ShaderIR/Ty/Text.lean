import ShaderIR.Ty.Basic

/-! The text of a type, as messages show it. -/
namespace ShaderIR

def Storage.name : Storage → String
  | .uniformConstant => "UniformConstant"
  | .input => "Input"
  | .uniform => "Uniform"
  | .output => "Output"
  | .function => "Function"

def Dim.name : Dim → String
  | .plane => "Dim2D"
  | .volume => "Dim3D"
  | .cube => "Cube"

namespace Ty

/-- Vectors are named after their component kind alone; its width does not show. -/
def vectorStem : Ty → String
  | .bool => "bvec"
  | .int _ true => "ivec"
  | .int _ false => "uvec"
  | _ => "vec"

mutual

/-- The text of a type. A matrix that is not square shows its columns before its rows. -/
def text : Ty → String
  | .void => "void"
  | .bool => "bool"
  | .int width signed =>
      if width = 32 then (if signed then "int" else "uint")
      else (if signed then "i" else "u") ++ toString width.toNat
  | .float width => if width = 32 then "float" else "f" ++ toString width.toNat
  | .matrix component rows columns =>
      if columns = 1 then component.vectorStem ++ toString rows.toNat
      else if rows = columns then "mat" ++ toString rows.toNat
      else "mat" ++ toString columns.toNat ++ "x" ++ toString rows.toNat
  | .array element length => text element ++ "[" ++ toString length.toNat ++ "]"
  | .runtimeArray element => text element ++ "[]"
  | .pointer storage pointee => "ptr<" ++ storage.name ++ ", " ++ text pointee ++ ">"
  | .struct members => "struct \x7b " ++ ", ".intercalate (texts members) ++ " \x7d"
  | .image dim _ _ => "image" ++ dim.name
  | .texture (.image dim _ _) => "sampler" ++ dim.name
  | .texture inner => "sampler<" ++ text inner ++ ">"

def texts : List Ty → List String
  | [] => []
  | ty :: rest => text ty :: texts rest

end

end Ty

end ShaderIR
