import ShaderIR.Emission.Declaration

/-! Annotating how blocks are laid out in memory. The offset of a member is the sum of the sizes of
the members before it, an element stride is the element size, and nothing is padded. All of them are
words. -/
namespace ShaderIR.Emit

def declaredType (ty : Ty) : Emit Id := do
  match (← get).types.id? ty with
  | some id => return id
  | none => throw (.undeclaredType ty)

/-- Annotates a member that is itself a matrix of several columns. -/
def matrixLayout (struct : Id) (index : Nat) : Ty → Emit Unit
  | .matrix component rows columns =>
      if 1 < columns then do
        annotate (.decorateMember struct index .colMajor)
        annotate (.decorateMember struct index (.matrixStride (rows * component.sizeWord)))
      else return
  | _ => return

/-- Runs a step for a type whose layout is not annotated yet, and notes that it is. -/
def onceLayout (ty : Ty) (annotating : Emit Unit) : Emit Unit := do
  if (← get).types.isDecorated ty then return
  annotating
  modify fun e => { e with types := e.types.markDecorated ty }

mutual

/-- Annotates the layout of a struct or an array and of everything nested in it. -/
def layout : Ty → Emit Unit
  | .struct members =>
      onceLayout (.struct members) do
        let id ← declaredType (.struct members)
        memberLayouts id 0 0 members
  | .array element length =>
      onceLayout (.array element length) do
        let id ← declaredType (.array element length)
        annotate (.decorate id (.arrayStride element.sizeWord))
        layout element
  | .runtimeArray element =>
      onceLayout (.runtimeArray element) do
        let id ← declaredType (.runtimeArray element)
        annotate (.decorate id (.arrayStride element.sizeWord))
        layout element
  | .void | .bool | .int _ _ | .float _ | .matrix _ _ _ | .pointer _ _ | .image _ _ _
  | .texture _ =>
      return

def memberLayouts (struct : Id) (index : Nat) (offset : Word) : List Ty → Emit Unit
  | [] => return
  | member :: rest => do
      annotate (.decorateMember struct index (.offset offset))
      matrixLayout struct index member
      layout member
      memberLayouts struct (index + 1) (offset + member.sizeWord) rest

end

end ShaderIR.Emit
