import ShaderIR.Draft.Basic

/-! Calls on memory: resources, local variables, access chains, loads and stores. -/
namespace ShaderIR.Draft

/-- The storage class of a bound resource. A block has to be a struct. -/
def bindingStorage (kind : BindingKind) (ty : Ty) : Except Fault Storage :=
  match kind, ty with
  | .uniform, .struct _ | .storage, .struct _ => .ok .uniform
  | .uniform, _ | .storage, _ => .error (.unsupportedType ty)
  | .texture, _ => .ok .uniformConstant

/-- Binds a resource. Asking again for the same resource gives the same location; a different one
at the same binding is refused. -/
def bind (set binding : Word) (kind : BindingKind) (ty : Ty) : Build Place := do
  let bound := (← get).bindings.find? fun b => b.set == set && b.binding == binding
  match bound with
  | some b =>
      if b.kind = kind ∧ b.ty = ty then return b.place
      else throw (.bindingMismatch set binding)
  | none =>
      let storage ← Build.check (bindingStorage kind ty)
      let place ← Build.pushVariable storage ty (kind == .storage)
      modify fun d => { d with bindings := d.bindings.push { set, binding, kind, ty, place } }
      return place

def uniform (set binding : Word) (ty : Ty) : Build Place := bind set binding .uniform ty

def storage (set binding : Word) (ty : Ty) : Build Place := bind set binding .storage ty

def localVariable (ty : Ty) : Build Place := do
  let place ← Build.pushVariable .function ty true
  modify fun d => { d with locals := d.locals.push place }
  return place

/-- Adds a chain at the current point of the program. It lives where its parent lives and can be
written if its parent can. -/
def pushChain (parent : Place) (link : Link) (pointee : Ty) : Build Place := do
  let id ← Build.freshId
  let data ← Build.placeData parent
  let d ← get
  set { d with
    places := d.places.push
      { id, storage := data.storage, pointee, origin := .chain parent link
        depth := data.depth + 1, writable := data.writable, position := d.trace.position } }
  return d.places.next

def member (place : Place) (index : Word) : Build Place := do
  let ty ← Build.check ((← Build.placeData place).pointee.member index)
  pushChain place (.member index) ty

def index (place : Place) (value : Handle) : Build Place := do
  let pointee := (← Build.placeData place).pointee
  let indexTy ← Build.typeOf value
  if !indexTy.isInteger then throw (.invalidOperands .index [pointee, indexTy])
  let ty ← Build.check pointee.element
  Build.retain value
  pushChain place (.index value) ty

def pointee (place : Place) : Build Ty := do
  return (← Build.placeData place).pointee

def load (place : Place) : Build Handle := do
  let ty ← pointee place
  let event := (← get).trace.size
  let value ← Build.pushNode ty (.load event) []
  modify fun d =>
    { d with places := d.places.markAccessed place, trace := d.trace.pushLoad place value }
  return value

def store (place : Place) (value : Handle) : Build Unit := do
  let data ← Build.placeData place
  if !data.writable then throw (.readOnly data.ty)
  let ty ← Build.typeOf value
  if ty ≠ data.pointee then throw (.typeMismatch data.pointee ty)
  Build.retain value
  modify fun d =>
    { d with places := d.places.markAccessed place, trace := d.trace.pushStore place value }

/-- A combined image and sampler, ready to be sampled. -/
def texture (set binding : Word) (dim : Dim) : Build Handle := do
  load (← bind set binding .texture (.sampler dim))

end ShaderIR.Draft
