import ShaderIR.Ty.Basic

/-! Operators of expressions and the machine operations they select. The same operator selects
different operations depending on its operand types; a pair of types not listed here is refused
and never guessed. -/
namespace ShaderIR

inductive BinaryOp where
  | add
  | sub
  | mul
  | div
  /-- Dot product, or a vector-matrix or matrix-matrix product. -/
  | dot
  | equal
  | notEqual
  | less
  | greater
  | lessEqual
  | greaterEqual
  /-- Component extraction, column extraction or texture sampling. -/
  | lookup
deriving DecidableEq, Repr, Inhabited

namespace BinaryOp

def name : BinaryOp → String
  | .add => "add"
  | .sub => "sub"
  | .mul => "mul"
  | .div => "div"
  | .dot => "dot"
  | .equal => "equal"
  | .notEqual => "not_equal"
  | .less => "less"
  | .greater => "greater"
  | .lessEqual => "less_equal"
  | .greaterEqual => "greater_equal"
  | .lookup => "lookup"

def isComparison : BinaryOp → Bool
  | .equal | .notEqual | .less | .greater | .lessEqual | .greaterEqual => true
  | .add | .sub | .mul | .div | .dot | .lookup => false

end BinaryOp

inductive UnaryOp where
  | negate
deriving DecidableEq, Repr, Inhabited

def UnaryOp.name : UnaryOp → String
  | .negate => "negate"

/-- Everything whose operand types can be refused. -/
inductive Operator where
  | unary (op : UnaryOp)
  | binary (op : BinaryOp)
  | construct
  | index
deriving DecidableEq, Repr, Inhabited

def Operator.name : Operator → String
  | .unary op => op.name
  | .binary op => op.name
  | .construct => "construct"
  | .index => "index"

/-- Machine operations that compute a value from the values of their operands alone. -/
inductive Operation where
  | sNegate
  | fNegate
  | iAdd
  | fAdd
  | iSub
  | fSub
  | iMul
  | fMul
  | uDiv
  | sDiv
  | fDiv
  | vectorTimesScalar
  | matrixTimesScalar
  | vectorTimesMatrix
  | matrixTimesMatrix
  | dot
  | logicalEqual
  | logicalNotEqual
  | iEqual
  | iNotEqual
  | uGreaterThan
  | sGreaterThan
  | uGreaterThanEqual
  | sGreaterThanEqual
  | uLessThan
  | sLessThan
  | uLessThanEqual
  | sLessThanEqual
  | fOrdEqual
  | fOrdNotEqual
  | fOrdLessThan
  | fOrdGreaterThan
  | fOrdLessThanEqual
  | fOrdGreaterThanEqual
deriving DecidableEq, Repr, Inhabited

def Operation.opcode : Operation → Word
  | .sNegate => 126
  | .fNegate => 127
  | .iAdd => 128
  | .fAdd => 129
  | .iSub => 130
  | .fSub => 131
  | .iMul => 132
  | .fMul => 133
  | .uDiv => 134
  | .sDiv => 135
  | .fDiv => 136
  | .vectorTimesScalar => 142
  | .matrixTimesScalar => 143
  | .vectorTimesMatrix => 144
  | .matrixTimesMatrix => 146
  | .dot => 148
  | .logicalEqual => 164
  | .logicalNotEqual => 165
  | .iEqual => 170
  | .iNotEqual => 171
  | .uGreaterThan => 172
  | .sGreaterThan => 173
  | .uGreaterThanEqual => 174
  | .sGreaterThanEqual => 175
  | .uLessThan => 176
  | .sLessThan => 177
  | .uLessThanEqual => 178
  | .sLessThanEqual => 179
  | .fOrdEqual => 180
  | .fOrdNotEqual => 182
  | .fOrdLessThan => 184
  | .fOrdGreaterThan => 186
  | .fOrdLessThanEqual => 188
  | .fOrdGreaterThanEqual => 190

end ShaderIR
