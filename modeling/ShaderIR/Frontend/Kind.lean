import ShaderIR.Interface
import ShaderIR.Literal
import ShaderIR.Operator

/-! The static types of the front end and its typing tables. Every combination that a table admits
is one that a draft accepts. -/
namespace ShaderIR.Frontend

/-- The number of components in a front-end vector, and of columns and rows in a matrix. -/
inductive Arity where
  | two
  | three
  | four
deriving DecidableEq, Repr, Inhabited

def Arity.toNat : Arity → Nat
  | .two => 2
  | .three => 3
  | .four => 4

def Arity.word : Arity → Word
  | .two => 2
  | .three => 3
  | .four => 4

inductive Kind where
  | bool
  | int
  | uint
  | float
  | vec (arity : Arity)
  | mat (arity : Arity)
  | sampler (dim : Dim)
  | array (element : Kind) (length : Word)
  | runtimeArray (element : Kind)
deriving DecidableEq, Repr, Inhabited

namespace Kind

def ty : Kind → Ty
  | .bool => .bool
  | .int => .sint
  | .uint => .uint
  | .float => .single
  | .vec arity => .vec arity.word
  | .mat arity => .mat arity.word arity.word
  | .sampler dim => .sampler dim
  | .array element length => .array element.ty length
  | .runtimeArray element => .runtimeArray element.ty

def ofLiteral : Literal → Kind
  | .int _ => .int
  | .uint _ => .uint
  | .float _ => .float

def isScalar : Kind → Bool
  | .bool | .int | .uint | .float => true
  | _ => false

def isNumerical : Kind → Bool
  | .int | .uint | .float | .vec _ => true
  | _ => false

def isSigned : Kind → Bool
  | .int | .float | .vec _ => true
  | _ => false

/-- How a product is carried out, and its type: a scaling, a product with a matrix, or an
elementwise product. -/
def product? : Kind → Kind → Option (BinaryOp × Kind)
  | .vec n, .float => some (.mul, .vec n)
  | .float, .vec n => some (.mul, .vec n)
  | .vec n, .mat k => if n = k then some (.dot, .vec n) else none
  | .mat n, .mat k => if n = k then some (.dot, .mat n) else none
  | lhs, rhs => if lhs = rhs ∧ lhs.isNumerical then some (.mul, lhs) else none

def arithmetic? (op : BinaryOp) (lhs rhs : Kind) : Option (BinaryOp × Kind) :=
  match op with
  | .mul => product? lhs rhs
  | .add | .sub | .div => if lhs = rhs ∧ lhs.isNumerical then some (op, lhs) else none
  | _ => none

def dot? : Kind → Kind → Option Kind
  | .vec n, .vec k => if n = k then some .float else none
  | .vec n, .mat k => if n = k then some (.vec n) else none
  | .mat n, .mat k => if n = k then some (.mat n) else none
  | _, _ => none

/-- Whether two scalars can be compared. Booleans are equal or not, but have no order. -/
def comparable (op : BinaryOp) (lhs rhs : Kind) : Bool :=
  match op with
  | .equal | .notEqual => decide (lhs = rhs) && lhs.isScalar
  | .less | .greater | .lessEqual | .greaterEqual =>
      decide (lhs = rhs) && lhs.isScalar && lhs.isNumerical
  | _ => false

def coordinates? : Kind → Option Kind
  | .sampler .plane => some (.vec .two)
  | .sampler .volume | .sampler .cube => some (.vec .three)
  | _ => none

def element? : Kind → Option Kind
  | .array element _ => some element
  | .runtimeArray element => some element
  | .vec _ => some .float
  | _ => none

end Kind

def fitsBuiltin : Builtin → Kind → Bool
  | .position, .vec .four => true
  | .pointSize, .float => true
  | .clipDistance, .array .float _ => true
  | .cullDistance, .array .float _ => true
  | _, _ => false

inductive Target where
  | kind (kind : Kind)
  /-- A struct whose member types are checked when a member is taken. -/
  | block
deriving DecidableEq, Repr, Inhabited

end ShaderIR.Frontend
