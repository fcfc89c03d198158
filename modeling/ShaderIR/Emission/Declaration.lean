import ShaderIR.Emission.Basic

/-! Declaring types and constants. Each is declared once, after everything it is built from; whether
it was declared already is read from the tables. -/
namespace ShaderIR.Emit

/-- The id of a type, declaring it by the given step if it has none. -/
def onceType (ty : Ty) (declaring : Emit Id) : Emit Id := do
  match (← get).types.id? ty with
  | some id => return id
  | none => declaring

def announce (ty : Ty) (form : TypeForm) : Emit Id := do
  let id ← freshId
  modify fun e => { e with types := e.types.declare ty id }
  declare (.typeDecl id form)
  return id

/-- Declares a type that is built from no other. Numbers have to be 32 bits wide. -/
def scalarType (ty : Ty) : Emit Id :=
  onceType ty do
    match ty with
    | .void => announce ty .void
    | .bool => announce ty .bool
    | .int width signed =>
        if width = 32 then announce ty (.int width signed) else throw (.unsupportedType ty)
    | .float width => if width = 32 then announce ty (.float width) else throw (.unsupportedType ty)
    | _ => throw (.unsupportedType ty)

/-- Declares a constant. A literal without an id gets the proposed one, or a new one. -/
def constant (literal : Literal) (proposed : Option Id) : Emit Id := do
  match (← get).constants.find? literal with
  | some entry => if entry.declared then return entry.id else finish entry.id
  | none =>
      let id ← match proposed with
        | some id => pure id
        | none => freshId
      modify fun e => { e with constants := e.constants.register literal id }
      finish id
where
  finish (id : Id) : Emit Id := do
    let type ← scalarType literal.ty
    declare (.constant type id literal)
    modify fun e => { e with constants := e.constants.declare literal id }
    return id

def vectorType (component : Ty) (rows : Word) : Emit Id :=
  onceType (.vector component rows) do
    let id ← scalarType component
    announce (.vector component rows) (.vector id rows)

/-- Declares a vector or a matrix. Columns have two to four scalars; a matrix has two to four
columns of floats. -/
def matrixType (component : Ty) (rows columns : Word) : Emit Id := do
  let ty : Ty := .matrix component rows columns
  onceType ty do
    if !component.isScalar ∨ rows < 2 ∨ 4 < rows ∨ 4 < columns then
      throw (.unsupportedType ty)
    else if columns = 1 then
      let id ← scalarType component
      announce ty (.vector id rows)
    else if !component.isFloat ∨ columns < 2 then
      throw (.unsupportedType ty)
    else
      let id ← vectorType component rows
      announce ty (.matrix id columns)

mutual

/-- Declares a type and everything it is built from. -/
def type : Ty → Emit Id
  | .matrix component rows columns => matrixType component rows columns
  | .array element length =>
      onceType (.array element length) do
        let elementId ← type element
        let lengthId ← constant (.uint length) none
        announce (.array element length) (.array elementId lengthId)
  | .runtimeArray element =>
      onceType (.runtimeArray element) do
        let elementId ← type element
        announce (.runtimeArray element) (.runtimeArray elementId)
  | .pointer storage pointee =>
      onceType (.pointer storage pointee) do
        let pointeeId ← type pointee
        announce (.pointer storage pointee) (.pointer storage pointeeId)
  | .struct members =>
      onceType (.struct members) do
        let ids ← types members
        announce (.struct members) (.struct ids)
  | .image dim depth arrayed =>
      onceType (.image dim depth arrayed) do
        let sampledId ← scalarType .single
        announce (.image dim depth arrayed) (.image sampledId dim depth arrayed)
  | .texture inner =>
      onceType (.texture inner) do
        if inner.isImage then
          let imageId ← type inner
          announce (.texture inner) (.sampledImage imageId)
        else
          throw (.unsupportedType (.texture inner))
  | .void => scalarType .void
  | .bool => scalarType .bool
  | .int width signed => scalarType (.int width signed)
  | .float width => scalarType (.float width)

def types : List Ty → Emit (List Id)
  | [] => return []
  | ty :: rest => do
      let id ← type ty
      let ids ← types rest
      return id :: ids

end

end ShaderIR.Emit
