import ShaderIR.Draft.Call
import ShaderIR.Proofs.Graph
import ShaderIR.Proofs.Outcome

/-! What each call does to a draft. A call that succeeds changes the draft in one explicit way, and a
call that is refused leaves it as it was. Facts about drafts are proved from these effects and not
from the calls. -/
namespace ShaderIR

namespace Draft

def withNode (d : Draft) (ty : Ty) (kind : NodeKind) (operands : List Handle) : Draft :=
  { d with
    nextId := d.nextId + 1
    graph := d.graph.added { id := d.nextId, ty, kind, operands, position := d.trace.position } }

def withPlace (d : Draft) (data : PlaceData) : Draft :=
  { d with nextId := d.nextId + 1, places := d.places.push data }

def variableData (d : Draft) (storage : Storage) (pointee : Ty) (writable : Bool) : PlaceData :=
  { id := d.nextId, storage, pointee, origin := .root, depth := 1, writable, position := {} }

def withVariable (d : Draft) (storage : Storage) (pointee : Ty) (writable : Bool) : Draft :=
  d.withPlace (d.variableData storage pointee writable)

def chainData (d : Draft) (parent : Place) (data : PlaceData) (link : Link) (pointee : Ty) :
    PlaceData :=
  { id := d.nextId, storage := data.storage, pointee, origin := .chain parent link
    depth := data.depth + 1, writable := data.writable, position := d.trace.position }

def withRef (d : Draft) (value : Handle) : Draft := { d with graph := d.graph.addRef value }

def withInput (d : Draft) (ty : Ty) : Draft :=
  { ((d.withVariable .input ty false).withNode ty (.input d.inputs.size) []).withRef
      d.graph.nextHandle with
    inputs := d.inputs.push { ty, place := d.places.next, value := d.graph.nextHandle } }

def withSampleLevel (d : Draft) : Draft :=
  let missing := (d.constants.find? .floatZero).isNone
  { d with
    nextId := if missing then d.nextId + 1 else d.nextId
    constants := if missing then d.constants.register .floatZero d.nextId else d.constants }

def withBinding (d : Draft) (set binding : Word) (kind : BindingKind) (ty : Ty)
    (storage : Storage) : Draft :=
  { d.withVariable storage ty (kind == .storage) with
    bindings := d.bindings.push { set, binding, kind, ty, place := d.places.next } }

def withLocal (d : Draft) (ty : Ty) : Draft :=
  { d.withVariable .function ty true with locals := d.locals.push d.places.next }

def withLoad (d : Draft) (place : Place) (ty : Ty) : Draft :=
  { d.withNode ty (.load d.trace.size) [] with
    places := d.places.markAccessed place
    trace := d.trace.pushLoad place d.graph.nextHandle }

def withStore (d : Draft) (place : Place) (value : Handle) : Draft :=
  { d.withRef value with
    places := d.places.markAccessed place
    trace := d.trace.pushStore place value }

def withOutput (d : Draft) (value : Handle) (ty : Ty) : Draft :=
  { (d.withRef value).withVariable .output ty true with
    outputs := d.outputs.push { value, place := d.places.next } }

def withBuiltin (d : Draft) (builtin : Builtin) (value : Handle) (ty : Ty) : Draft :=
  { (d.withRef value).withVariable .output ty true with
    builtins := d.builtins.push { builtin, value, place := d.places.next } }

def nextSelection (d : Draft) (condition : Handle) : Selection :=
  { condition, thenLabel := d.nextId, elseLabel := d.nextId + 1, mergeLabel := d.nextId + 2 }

def openSelection (d : Draft) (condition : Handle) : Draft :=
  { d with
    nextId := d.nextId + 3
    selections := d.selections.push (d.nextSelection condition)
    scopes := .selection d.selections.size :: d.scopes
    trace := d.trace.pushBoundary (.ifBegin d.selections.size) }

def switchSelection (d : Draft) (index : Nat) (s : Selection) : Draft :=
  { d with
    selections := d.selections.setIfInBounds index { s with hasElse := true }
    trace := d.trace.pushBoundary (.ifElse index) }

def closeBlock (d : Draft) (outer : List Scope) (boundary : Boundary) : Draft :=
  { d with scopes := outer, trace := d.trace.pushBoundary boundary }

def nextLoop (d : Draft) (first last step : Handle) (counter : Place) : CountedLoop :=
  { first, last, step, counter, header := d.nextId, check := d.nextId + 1, body := d.nextId + 2
    increment := d.nextId + 3, post := d.nextId + 4 }

def openLoop (d : Draft) (first last step : Handle) (counter : Place) : Draft :=
  { d with
    nextId := d.nextId + 5
    loops := d.loops.push (d.nextLoop first last step counter)
    scopes := .loop d.loops.size :: d.scopes
    trace := d.trace.pushBoundary (.loopBegin d.loops.size) }

def withBounds (d : Draft) (first last : Int32) : Draft :=
  let d₁ := d.withNode .sint (.constant (.int first)) []
  let d₂ := d₁.withNode .sint (.constant (.int last)) []
  let d₃ := d₂.withNode .sint (.constant (.int 1)) []
  ((d₃.withRef d.graph.nextHandle).withRef d₁.graph.nextHandle).withRef d₂.graph.nextHandle

def withLoop (d : Draft) (first last : Int32) : Draft :=
  let d₁ := d.withNode .sint (.constant (.int first)) []
  let d₂ := d₁.withNode .sint (.constant (.int last)) []
  ((d.withBounds first last).withLocal .sint).openLoop d.graph.nextHandle d₁.graph.nextHandle
    d₂.graph.nextHandle (d.withBounds first last).places.next

def withJump (d : Draft) (boundary : Id → Boundary) : Draft :=
  { d with nextId := d.nextId + 1, trace := d.trace.pushBoundary (boundary d.nextId) }

end Draft

inductive Bound (d : Draft) (set binding : Word) (kind : BindingKind) (ty : Ty) :
    Place → Draft → Prop where
  | again {b : Binding} :
      (d.bindings.find? fun b => b.set == set && b.binding == binding) = some b →
      b.kind = kind → b.ty = ty → Bound d set binding kind ty b.place d
  | new {storage : Storage} :
      (d.bindings.find? fun b => b.set == set && b.binding == binding) = none →
      Draft.bindingStorage kind ty = .ok storage →
      Bound d set binding kind ty d.places.next (d.withBinding set binding kind ty storage)

/-- What a call that succeeds replies and how it changes the draft, for the calls that build. -/
inductive Effect (d : Draft) : Call → Reply → Draft → Prop where
  | addInput (ty) : Effect d (.addInput ty) (.value d.graph.nextHandle) (d.withInput ty)
  | input {slot : Nat} {i : Input} : d.inputs[slot]? = some i →
      Effect d (.input slot) (.value i.value) d
  | constant (literal : Literal) : Effect d (.constant literal) (.value d.graph.nextHandle)
      (d.withNode literal.ty (.constant literal) [])
  | binary {op lhs rhs l r lowering} : op ≠ .lookup →
      d.graph.find? lhs = some l → d.graph.find? rhs = some r →
      op.lower l.ty r.ty = .ok lowering →
      Effect d (.binary op lhs rhs) (.value d.graph.nextHandle)
        (d.withNode lowering.result (.binary op) [lhs, rhs])
  | sample {source index s i ty} :
      d.graph.find? source = some s → d.graph.find? index = some i →
      BinaryOp.lookupResult s.ty i.ty = .ok ty → s.ty.isTexture = true →
      Effect d (.binary .lookup source index) (.value d.graph.nextHandle)
        (d.withSampleLevel.withNode ty (.binary .lookup) [source, index])
  | extract {source index s i ty} :
      d.graph.find? source = some s → d.graph.find? index = some i →
      BinaryOp.lookupResult s.ty i.ty = .ok ty → s.ty.isTexture = false →
      Draft.checkIndex s.ty i.ty i.kind = .ok () →
      Effect d (.binary .lookup source index) (.value d.graph.nextHandle)
        (d.withNode ty (.binary .lookup) [source, index])
  | negate {value v operation ty} : d.graph.find? value = some v →
      UnaryOp.lower .negate v.ty = .ok (operation, ty) →
      Effect d (.negate value) (.value d.graph.nextHandle)
        (d.withNode ty (.unary .negate) [value])
  | select {condition accept reject c a r} : d.graph.find? condition = some c →
      d.graph.find? accept = some a → d.graph.find? reject = some r → a.ty = r.ty →
      (c.ty = .bool ∨ c.ty = if a.ty.isVector then a.ty.toBool else .bool) →
      Effect d (.select condition accept reject) (.value d.graph.nextHandle)
        (d.withNode a.ty .select [condition, accept, reject])
  | construct {ty parts count part} : Draft.constructParts ty = .ok (count, part) →
      parts.length = count →
      (∀ value ∈ parts, ∃ v, d.graph.find? value = some v ∧ v.ty = part) →
      Effect d (.construct ty parts) (.value d.graph.nextHandle) (d.withNode ty .construct parts)
  | uniform {set binding ty place d'} : Bound d set binding .uniform ty place d' →
      Effect d (.uniform set binding ty) (.place place) d'
  | storage {set binding ty place d'} : Bound d set binding .storage ty place d' →
      Effect d (.storage set binding ty) (.place place) d'
  | texture {set binding dim place d' data} :
      Bound d set binding .texture (.sampler dim) place d' → d'.places.find? place = some data →
      Effect d (.texture set binding dim) (.value d'.graph.nextHandle)
        (d'.withLoad place data.pointee)
  | localVariable (ty) : Effect d (.localVariable ty) (.place d.places.next) (d.withLocal ty)
  | member {place index data ty} : d.places.find? place = some data →
      data.pointee.member index = .ok ty →
      Effect d (.member place index) (.place d.places.next)
        (d.withPlace (d.chainData place data (.member index) ty))
  | index {place value data v ty} : d.places.find? place = some data →
      d.graph.find? value = some v → v.ty.isInteger = true → data.pointee.element = .ok ty →
      Effect d (.index place value) (.place d.places.next)
        ((d.withRef value).withPlace (d.chainData place data (.index value) ty))
  | pointee {place data} : d.places.find? place = some data →
      Effect d (.pointee place) (.ty data.pointee) d
  | load {place data} : d.places.find? place = some data →
      Effect d (.load place) (.value d.graph.nextHandle) (d.withLoad place data.pointee)
  | store {place value data v} : d.places.find? place = some data → data.writable = true →
      d.graph.find? value = some v → v.ty = data.pointee →
      Effect d (.store place value) .done (d.withStore place value)
  | beginIf {condition c} : d.graph.find? condition = some c → c.ty = .bool →
      Effect d (.beginIf condition) .done ((d.withRef condition).openSelection condition)
  | beginElse {index outer s} : d.scopes = .selection index :: outer →
      d.selections[index]? = some s → s.hasElse = false →
      Effect d .beginElse .done (d.switchSelection index s)
  | endIf {index outer} : d.scopes = .selection index :: outer →
      Effect d .endIf .done (d.closeBlock outer (.ifEnd index))
  | beginFor {first last low high} :
      Draft.loopRange d.settings.strictLoopBounds first last = .ok (low, high) →
      Effect d (.beginFor first last) (.value (d.withLoop low high).graph.nextHandle)
        ((d.withLoop low high).withLoad (d.withBounds low high).places.next .sint)
  | endFor {index outer} : d.scopes = .loop index :: outer →
      Effect d .endFor .done (d.closeBlock outer (.loopEnd index))
  | breakLoop {index} : Draft.innermostLoop? d.scopes = some index →
      Effect d .breakLoop .done (d.withJump (.leave index))
  | continueLoop {index} : Draft.innermostLoop? d.scopes = some index →
      Effect d .continueLoop .done (d.withJump (.next index))
  | output {value v} : d.graph.find? value = some v →
      Effect d (.output value) .done (d.withOutput value v.ty)
  | builtin {builtin value v} : d.settings.stage = .vertex →
      (d.builtins.any fun slot => slot.builtin == builtin) = false →
      d.graph.find? value = some v → builtin.accepts v.ty = true →
      Effect d (.builtin builtin value) .done (d.withBuiltin builtin value v.ty)
  | retain {value v} : d.graph.find? value = some v →
      Effect d (.retain value) .done (d.withRef value)
  | typeOf {value v} : d.graph.find? value = some v → Effect d (.typeOf value) (.ty v.ty) d

/-- The calls that build: all but a release, a compilation and a new start. -/
def Call.builds : Call → Bool
  | .release _ | .compile | .reset => false
  | _ => true

end ShaderIR
