import ShaderIR.Interface
import ShaderIR.Literal
import ShaderIR.Operator
import ShaderIR.Settings

/-! Instructions of a shader module. Every instruction that a compilation can write has a
constructor here; numbers of the binary format come in only when it is encoded. -/
namespace ShaderIR

/-- The form of a type declaration. It names the types it is built from by their ids. -/
inductive TypeForm where
  | void
  | bool
  | int (width : Word) (signed : Bool)
  | float (width : Word)
  | vector (component : Id) (size : Word)
  | matrix (column : Id) (count : Word)
  | image (sampled : Id) (dim : Dim) (depth arrayed : Bool)
  | sampledImage (inner : Id)
  | array (element length : Id)
  | runtimeArray (element : Id)
  | struct (members : List Id)
  | pointer (storage : Storage) (pointee : Id)
  | function (result : Id)
deriving DecidableEq, Repr, Inhabited

inductive Decoration where
  | block
  | bufferBlock
  | colMajor
  | arrayStride (bytes : Word)
  | matrixStride (bytes : Word)
  | builtIn (builtin : Builtin)
  | location (index : Nat)
  | binding (index : Word)
  | descriptorSet (index : Word)
  | offset (bytes : Word)
deriving DecidableEq, Repr, Inhabited

inductive Instruction where
  | capability (feature : Capability)
  | importSet (result : Id) (name : String)
  | memoryModel
  | entryPoint (stage : Stage) (function : Id) (name : String) (interface : List Id)
  | originUpperLeft (function : Id)
  | localSize (function : Id) (size : LocalSize)
  | decorate (target : Id) (decoration : Decoration)
  | decorateMember (target : Id) (member : Nat) (decoration : Decoration)
  | typeDecl (result : Id) (form : TypeForm)
  | constant (type result : Id) (literal : Literal)
  | variableDecl (type result : Id) (storage : Storage)
  | functionBegin (type result signature : Id)
  | functionEnd
  | label (result : Id)
  | load (type result source : Id)
  | store (target value : Id)
  | accessChain (type result base : Id) (indices : List Id)
  | compute (operation : Operation) (type result : Id) (operands : List Id)
  | select (type result condition accept reject : Id)
  | construct (type result : Id) (parts : List Id)
  | extract (type result composite : Id) (index : Word)
  | extractDynamic (type result vector index : Id)
  | sample (type result image coordinates lod : Id)
  | selectionMerge (merge : Id)
  | loopMerge (merge continuing : Id)
  | branch (target : Id)
  | branchConditional (condition accept reject : Id)
  | returnVoid
deriving DecidableEq, Repr, Inhabited

end ShaderIR
