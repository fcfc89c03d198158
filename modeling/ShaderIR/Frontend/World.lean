import ShaderIR.Draft.Call
import ShaderIR.Frontend.Kind

/-! Shaders of the front end. Front-end operations never fail: one that a draft refuses gives an
empty value or pointer, and the shader holds the first fault until it is compiled. -/
namespace ShaderIR.Frontend

abbrev ShaderId := Nat

/-- A draft and the first fault recorded on it. -/
structure Shader where
  draft : Draft
  fault : Option Fault := none
deriving DecidableEq, Inhabited

def Shader.new (settings : Settings) : Shader := { draft := .new settings }

def Shader.record (s : Shader) (fault : Fault) : Shader :=
  { s with fault := some (s.fault.getD fault) }

structure Compiled where
  result : Except Fault ShaderModule
  /-- The shader to go on with. -/
  shader : Shader
  notices : List Notice

/-- Compiles a shader and starts over. A held fault is given up in place of a result, without an
attempt to compile. -/
def Shader.compiled (s : Shader) : Compiled :=
  match s.fault with
  | some fault =>
      { result := .error fault
        shader := { draft := s.draft.restart s.draft.types }
        notices := [.alive s.draft.aliveCount] }
  | none =>
      let done := s.draft.compilation
      { result := done.result
        shader := { draft := done.draft }
        notices := done.notices }

/-- A typed value of a shader. It is empty if it could not be built. -/
structure Value where
  kind : Kind
  shader : ShaderId
  handle : Option Handle
deriving DecidableEq, Repr, Inhabited

structure Pointer where
  target : Target
  shader : ShaderId
  place : Option Place
deriving DecidableEq, Repr, Inhabited

/-- All shaders, and the names bound to values and to pointers. -/
structure World where
  shaders : Array Shader
  values : Assoc String Value := []
  pointers : Assoc String Pointer := []
deriving DecidableEq, Inhabited

abbrev Front := StateM World

namespace Front

def setShader (m : ShaderId) (s : Shader) : Front Unit :=
  modify fun w => { w with shaders := w.shaders.setIfInBounds m s }

def record (m : ShaderId) (fault : Fault) : Front Unit := do
  if let some s := (← get).shaders[m]? then setShader m (s.record fault)

/-- Makes a call on the draft of a shader. A refused call records its fault and gives nothing. -/
def attempt {α : Type} (m : ShaderId) (call : Build α) : Front (Option α) := do
  match (← get).shaders[m]? with
  | none => return none
  | some s =>
      match call s.draft with
      | .ok a draft =>
          setShader m { s with draft }
          return some a
      | .error fault draft =>
          setShader m ({ s with draft }.record fault)
          return none

def hasFault (m : ShaderId) : Front Bool := do
  match (← get).shaders[m]? with
  | some s => return s.fault.isSome
  | none => return false

def notices (m : ShaderId) (call : Call) : Front (List Notice) := do
  match (← get).shaders[m]? with
  | some s => return call.notices s.draft
  | none => return []

end Front

/-- What an operation can be applied to: a value, or a literal of the host program. -/
inductive Argument where
  | value (value : Value)
  | literal (literal : Literal)
deriving DecidableEq, Repr, Inhabited

namespace Argument

def kind : Argument → Kind
  | .value v => v.kind
  | .literal l => .ofLiteral l

/-- Brings an argument into a shader. A literal becomes a constant there; a value of another shader
is a fault, also if it is empty. -/
def bring (m : ShaderId) : Argument → Front (Option Handle)
  | .literal l => Front.attempt m (Draft.constant l)
  | .value v =>
      if v.shader = m then return v.handle
      else do
        Front.record m .foreignValue
        return none

end Argument

end ShaderIR.Frontend
