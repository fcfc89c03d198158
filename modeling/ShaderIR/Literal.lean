import ShaderIR.Ty.Basic

/-! Scalar literals. A float is kept as its bit pattern, so that equality of literals tells apart
the two zeros and all NaN payloads; `sameNumber` is the comparison of the numbers they stand for. -/
namespace ShaderIR

inductive Literal where
  | int (value : Int32)
  | uint (value : UInt32)
  | float (bits : UInt32)
deriving DecidableEq, Repr, Inhabited

namespace Literal

def ty : Literal → Ty
  | .int _ => .sint
  | .uint _ => .uint
  | .float _ => .single

def word : Literal → Word
  | .int value => value.toUInt32
  | .uint value => value
  | .float bits => bits

/-- The float zero with a positive sign. -/
def floatZero : Literal := .float 0

end Literal

/-- A 32-bit float pattern without its sign bit. -/
def floatMagnitude (bits : UInt32) : UInt32 := bits &&& 0x7fffffff

/-- Patterns above the one of infinity stand for no number. -/
def floatIsNaN (bits : UInt32) : Bool := decide (0x7f800000 < floatMagnitude bits)

/-- Numeric equality of two 32-bit float patterns: a NaN equals nothing, both zeros are equal. -/
def floatSameNumber (a b : UInt32) : Bool :=
  !floatIsNaN a && !floatIsNaN b &&
    (a == b || (floatMagnitude a == 0 && floatMagnitude b == 0))

/-- Numeric equality of literals; literals of different kinds are different. -/
def Literal.sameNumber : Literal → Literal → Bool
  | .int a, .int b => a == b
  | .uint a, .uint b => a == b
  | .float a, .float b => floatSameNumber a b
  | _, _ => false

end ShaderIR
