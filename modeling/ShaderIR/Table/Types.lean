import ShaderIR.Assoc
import ShaderIR.Ty.Basic

/-! Which types are declared, under which id, and whether their layout is annotated. -/
namespace ShaderIR

structure Declared where
  id : Id
  /-- Whether the layout of the type is annotated. -/
  decorated : Bool := false
deriving DecidableEq, Repr, Inhabited

/-- The declared types of a draft. The table keeps a line for every type it ever held; `recent`
lists those that came in since the last `forget`. -/
structure TypeTable where
  lines : Assoc Ty (Option Declared) := []
  recent : List Ty := []
deriving DecidableEq, Inhabited

namespace TypeTable

def find? (t : TypeTable) (ty : Ty) : Option Declared := (t.lines.find? ty).join

def id? (t : TypeTable) (ty : Ty) : Option Id := (t.find? ty).map Declared.id

def isDecorated (t : TypeTable) (ty : Ty) : Bool :=
  match t.find? ty with
  | some declared => declared.decorated
  | none => false

def declare (t : TypeTable) (ty : Ty) (id : Id) : TypeTable where
  lines := t.lines.insert ty (some { id })
  recent := if (t.lines.find? ty).isSome then t.recent else ty :: t.recent

def markDecorated (t : TypeTable) (ty : Ty) : TypeTable :=
  match t.find? ty with
  | some declared =>
      { t with lines := t.lines.insert ty (some { declared with decorated := true }) }
  | none => t

/-- Makes the types that came in since the last call undeclared. A type that had a line before then
keeps what the line says. -/
def forget (t : TypeTable) : TypeTable where
  lines := t.recent.foldl (fun lines ty => Assoc.insert lines ty none) t.lines
  recent := []

theorem find?_declare (t : TypeTable) (ty other : Ty) (id : Id) :
    (t.declare ty id).find? other = if ty = other then some { id } else t.find? other := by
  simp only [find?, declare, Assoc.find?_insert]
  split <;> rfl

theorem find?_markDecorated (t : TypeTable) (ty other : Ty) :
    (t.markDecorated ty).find? other =
      if ty = other then (t.find? other).map fun line => { line with decorated := true }
      else t.find? other := by
  unfold markDecorated
  cases found : t.find? ty with
  | none =>
    by_cases same : ty = other
    · subst same
      simp [found]
    · simp [same]
  | some line =>
    by_cases same : ty = other
    · subst same
      rw [if_pos rfl, found]
      simp [find?]
    · rw [if_neg same]
      simp [find?, Assoc.find?_insert_of_ne _ _ same]

theorem id?_declare (t : TypeTable) (ty other : Ty) (id : Id) :
    (t.declare ty id).id? other = if ty = other then some id else t.id? other := by
  simp only [id?, find?_declare]
  split <;> rfl

@[simp] theorem id?_markDecorated (t : TypeTable) (ty other : Ty) :
    (t.markDecorated ty).id? other = t.id? other := by
  simp only [id?, find?_markDecorated]
  split
  · rw [Option.map_map]
    rfl
  · rfl

end TypeTable

end ShaderIR
