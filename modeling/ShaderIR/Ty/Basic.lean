import ShaderIR.Word

/-! Shader types. A vector is a matrix of one column, and two types are equal exactly when their
kind, their parameters and all their inner types are equal. -/
namespace ShaderIR

inductive Storage where
  | uniformConstant
  | input
  | uniform
  | output
  | function
deriving DecidableEq, Repr, Inhabited

inductive Dim where
  | plane
  | volume
  | cube
deriving DecidableEq, Repr, Inhabited

/-- How many float components a sampling coordinate has. -/
def Dim.coordinates : Dim → Word
  | .plane => 2
  | .volume | .cube => 3

/-- A shader type. Any width, shape or nesting can be described; which of them a module can declare
is decided where it is declared. -/
inductive Ty where
  | void
  | bool
  | int (width : Word) (signed : Bool)
  | float (width : Word)
  | matrix (component : Ty) (rows columns : Word)
  | array (element : Ty) (length : Word)
  | runtimeArray (element : Ty)
  | pointer (storage : Storage) (pointee : Ty)
  | struct (members : List Ty)
  | image (dim : Dim) (depth arrayed : Bool)
  | texture (image : Ty)
deriving Inhabited

namespace Ty

mutual

def beq : Ty → Ty → Bool
  | .void, .void => true
  | .bool, .bool => true
  | .int w s, .int w' s' => w == w' && s == s'
  | .float w, .float w' => w == w'
  | .matrix c r k, .matrix c' r' k' => beq c c' && r == r' && k == k'
  | .array e n, .array e' n' => beq e e' && n == n'
  | .runtimeArray e, .runtimeArray e' => beq e e'
  | .pointer s p, .pointer s' p' => s == s' && beq p p'
  | .struct ms, .struct ms' => beqAll ms ms'
  | .image d a b, .image d' a' b' => d == d' && a == a' && b == b'
  | .texture i, .texture i' => beq i i'
  | _, _ => false

def beqAll : List Ty → List Ty → Bool
  | [], [] => true
  | a :: as, b :: bs => beq a b && beqAll as bs
  | _, _ => false

end

mutual

theorem beq_iff_eq : (a b : Ty) → (beq a b = true ↔ a = b)
  | .void, b => by cases b <;> simp [beq]
  | .bool, b => by cases b <;> simp [beq]
  | .int _ _, b => by cases b <;> simp [beq]
  | .float _, b => by cases b <;> simp [beq]
  | .matrix c _ _, b => by cases b <;> simp [beq, beq_iff_eq c, and_assoc]
  | .array e _, b => by cases b <;> simp [beq, beq_iff_eq e]
  | .runtimeArray e, b => by cases b <;> simp [beq, beq_iff_eq e]
  | .pointer _ p, b => by cases b <;> simp [beq, beq_iff_eq p]
  | .struct ms, b => by cases b <;> simp [beq, beqAll_iff_eq ms]
  | .image _ _ _, b => by cases b <;> simp [beq, and_assoc]
  | .texture i, b => by cases b <;> simp [beq, beq_iff_eq i]

theorem beqAll_iff_eq : (as bs : List Ty) → (beqAll as bs = true ↔ as = bs)
  | [], bs => by cases bs <;> simp [beqAll]
  | a :: as, bs => by cases bs <;> simp [beqAll, beq_iff_eq a, beqAll_iff_eq as]

end

instance : DecidableEq Ty := fun a b => decidable_of_iff (beq a b = true) (beq_iff_eq a b)

def sint : Ty := .int 32 true

def uint : Ty := .int 32 false

def single : Ty := .float 32

def vector (component : Ty) (rows : Word) : Ty := .matrix component rows 1

def vec (rows : Word) : Ty := vector single rows

def mat (rows columns : Word) : Ty := .matrix single rows columns

def plainImage (dim : Dim) : Ty := .image dim false false

/-- A combined image and sampler. -/
def sampler (dim : Dim) : Ty := .texture (plainImage dim)

def isBool : Ty → Bool
  | .bool => true
  | _ => false

def isInteger : Ty → Bool
  | .int _ _ => true
  | _ => false

def isSigned : Ty → Bool
  | .int _ signed => signed
  | _ => false

def isFloat : Ty → Bool
  | .float _ => true
  | _ => false

def isScalar (ty : Ty) : Bool := ty.isBool || ty.isInteger || ty.isFloat

/-- A matrix of exactly one column. -/
def isVector : Ty → Bool
  | .matrix _ _ columns => columns == 1
  | _ => false

/-- A matrix of several columns. -/
def isMatrix : Ty → Bool
  | .matrix _ _ columns => decide (1 < columns)
  | _ => false

def isTexture : Ty → Bool
  | .texture _ => true
  | _ => false

def isImage : Ty → Bool
  | .image _ _ _ => true
  | _ => false

/-- Scalars and vectors: the shapes that elementwise operations accept. -/
def isElementwise (ty : Ty) : Bool := ty.isScalar || ty.isVector

def scalar? : Ty → Option Ty
  | .matrix component _ _ => some component
  | ty => if ty.isScalar then some ty else none

def column? : Ty → Option Ty
  | .matrix component rows columns => if 1 < columns then some (vector component rows) else none
  | _ => none

/-- The number of components in a column, 1 for a scalar. -/
def rows? : Ty → Option Word
  | .matrix _ rows _ => some rows
  | ty => if ty.isScalar then some 1 else none

/-- The number of columns, 1 for a vector or a scalar. -/
def columns? : Ty → Option Word
  | .matrix _ _ columns => some columns
  | ty => if ty.isScalar then some 1 else none

/-- The same shape with boolean components. -/
def toBool : Ty → Ty
  | .matrix _ rows columns => .matrix .bool rows columns
  | _ => .bool

mutual

/-- The size of a value in bytes, without any padding. What has no size of its own counts zero. -/
def size : Ty → Nat
  | .bool => 4
  | .int width _ => width.toNat / 8
  | .float width => width.toNat / 8
  | .matrix component rows columns => rows.toNat * columns.toNat * size component
  | .array element length => length.toNat * size element
  | .struct members => sizeAll members
  | .void | .runtimeArray _ | .pointer _ _ | .image _ _ _ | .texture _ => 0

def sizeAll : List Ty → Nat
  | [] => 0
  | member :: rest => size member + sizeAll rest

end

mutual

/-- The size as it is computed in words: a size that does not fit wraps around. -/
def sizeWord : Ty → Word
  | .bool => 4
  | .int width _ => width / 8
  | .float width => width / 8
  | .matrix component rows columns => rows * columns * sizeWord component
  | .array element length => length * sizeWord element
  | .struct members => sizeWords members
  | .void | .runtimeArray _ | .pointer _ _ | .image _ _ _ | .texture _ => 0

def sizeWords : List Ty → Word
  | [] => 0
  | member :: rest => sizeWord member + sizeWords rest

end

/-- The type that an index selects in an array, a vector or a matrix. -/
def element? : Ty → Option Ty
  | .array element _ => some element
  | .runtimeArray element => some element
  | .matrix component rows columns =>
      if columns = 1 then some component else (Ty.matrix component rows columns).column?
  | _ => none

/-- What a value of this type is built from: how many parts, and of which type. -/
def parts? : Ty → Option (Word × Ty)
  | .matrix component rows columns =>
      if columns = 1 then some (rows, component)
      else if 1 < columns then some (columns, vector component rows)
      else none
  | .array element length => some (length, element)
  | _ => none

end Ty

end ShaderIR
