import ShaderIR.Draft.Expression
import ShaderIR.Draft.Memory

/-! Calls that open and close blocks. -/
namespace ShaderIR.Draft

def pushBoundary (boundary : Boundary) : Build Unit :=
  modify fun d => { d with trace := d.trace.pushBoundary boundary }

def beginIf (condition : Handle) : Build Unit := do
  let ty ← Build.typeOf condition
  if ty ≠ .bool then throw (.typeMismatch .bool ty)
  Build.retain condition
  let thenLabel ← Build.freshId
  let elseLabel ← Build.freshId
  let mergeLabel ← Build.freshId
  let index := (← get).selections.size
  modify fun d =>
    { d with
      selections := d.selections.push { condition, thenLabel, elseLabel, mergeLabel }
      scopes := .selection index :: d.scopes }
  pushBoundary (.ifBegin index)

/-- Goes over to the second branch of the innermost block, which has to be a selection that has
none yet. -/
def beginElse : Build Unit := do
  let d ← get
  match d.scopes with
  | .selection index :: _ =>
      match d.selections[index]? with
      | some s =>
          if s.hasElse then throw (.controlFlow .secondElse)
          set { d with selections := d.selections.setIfInBounds index { s with hasElse := true } }
          pushBoundary (.ifElse index)
      | none => throw (.controlFlow .secondElse)
  | _ => throw (.controlFlow .elseWithoutSelection)

def endIf : Build Unit := do
  let d ← get
  match d.scopes with
  | .selection index :: outer =>
      set { d with scopes := outer }
      pushBoundary (.ifEnd index)
  | _ => throw (.controlFlow .endWithoutSelection)

/-- The range a loop counts through. A range that ends below its start is refused when bounds are
strict. Otherwise an end of zero exchanges the bounds, so that the loop counts up from zero, and any
other such range is empty. -/
def loopRange (strict : Bool) (first last : Int32) : Except Fault (Int32 × Int32) :=
  if first ≤ last then .ok (first, last)
  else if strict then .error (.invalidLoopBounds first last)
  else if last = 0 then .ok (0, first)
  else .ok (first, last)

/-- Opens a loop that counts from `first` up to `last` excluded, and gives the counter as the body
sees it. -/
def beginFor (first last : Int32) : Build Handle := do
  let (first, last) ← Build.check (loopRange (← get).settings.strictLoopBounds first last)
  let first ← constant (.int first)
  let last ← constant (.int last)
  let step ← constant (.int 1)
  Build.retain first
  Build.retain last
  Build.retain step
  let counter ← localVariable .sint
  let header ← Build.freshId
  let check ← Build.freshId
  let body ← Build.freshId
  let increment ← Build.freshId
  let post ← Build.freshId
  let index := (← get).loops.size
  modify fun d =>
    { d with
      loops := d.loops.push { first, last, step, counter, header, check, body, increment, post }
      scopes := .loop index :: d.scopes }
  pushBoundary (.loopBegin index)
  load counter

def endFor : Build Unit := do
  let d ← get
  match d.scopes with
  | .loop index :: outer =>
      set { d with scopes := outer }
      pushBoundary (.loopEnd index)
  | _ => throw (.controlFlow .endWithoutLoop)

/-- The innermost open loop, seen through the selections inside it. -/
def innermostLoop? (scopes : List Scope) : Option Nat :=
  scopes.findSome? fun
    | .loop index => some index
    | .selection _ => none

def breakLoop : Build Unit := do
  match innermostLoop? (← get).scopes with
  | some index => do
      let label ← Build.freshId
      pushBoundary (.leave index label)
  | none => throw (.controlFlow .breakOutsideLoop)

def continueLoop : Build Unit := do
  match innermostLoop? (← get).scopes with
  | some index => do
      let label ← Build.freshId
      pushBoundary (.next index label)
  | none => throw (.controlFlow .continueOutsideLoop)

end ShaderIR.Draft
