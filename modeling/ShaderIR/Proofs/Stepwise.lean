import ShaderIR.Emission.Assembly
import ShaderIR.Proofs.Outcome
import ShaderIR.Proofs.Shift

/-! Walking through a compilation. It is made of a few small steps, and so is the compilation of a
draft whose handles are renamed. The walk goes through both side by side: a property of two parts,
one of each, that the small steps have and that is passed on when steps follow each other holds of
all of them. What is said of one compilation alone is such a property that does not look at the
other one. -/
namespace ShaderIR

variable {s : Shift} {ty : Ty}

def Instruction.isVariable : Instruction → Bool
  | .variableDecl .. => true
  | _ => false

def Instruction.isLayout : Instruction → Bool
  | .decorateMember .. | .decorate _ (.arrayStride _) => true
  | _ => false

/-- Whether a decoration says where a variable is found from outside of the shader. -/
def Decoration.locates : Decoration → Bool
  | .builtIn _ | .location _ | .binding _ | .descriptorSet _ => true
  | _ => false

/-- What a step keeps of a compilation if it neither declares nor annotates anything. -/
structure Emission.SameFront (e e' : Emission) : Prop where
  declarations : e'.declarations = e.declarations
  annotations : e'.annotations = e.annotations
  types : e'.types = e.types
  nextId : e'.nextId = e.nextId

/-- What a step keeps of a compilation if it notes no ids either: it may append to the code of the
function, reach locations and come to events. -/
structure Emission.Onward (e e' : Emission) : Prop extends front : SameFront e e' where
  constants : e'.constants = e.constants
  results : e'.results = e.results
  reached : e.reached ⊆ e'.reached
  written : e.written ⊆ e'.written
  locals : e.locals.toList <+: e'.locals.toList
  body : e.body.toList <+: e'.body.toList

theorem Emission.Onward.refl (e : Emission) : e.Onward e :=
  ⟨⟨rfl, rfl, rfl, rfl⟩, rfl, rfl, fun _ => id, fun _ => id, List.prefix_rfl, List.prefix_rfl⟩

/-- Two compilations that are the same up to the names of locations. Their type tables may differ in
what they remember of types that are not declared. -/
structure Shift.Mirrors (s : Shift) (e e' : Emission) : Prop where
  nextId : e'.nextId = e.nextId
  types : ∀ ty, e'.types.find? ty = e.types.find? ty
  constants : e'.constants = e.constants
  results : e'.results = e.results
  reached : e'.reached = e.reached.map s.place
  written : e'.written = e.written
  selectionPhases : e'.selectionPhases = e.selectionPhases
  loopPhases : e'.loopPhases = e.loopPhases
  annotations : e'.annotations = e.annotations
  declarations : e'.declarations = e.declarations
  locals : e'.locals = e.locals
  body : e'.body = e.body

namespace Shift

variable {e e' : Emission}

theorem Mirrors.id? (mirrors : s.Mirrors e e') (ty : Ty) : e'.types.id? ty = e.types.id? ty := by
  simp only [TypeTable.id?, mirrors.types]

theorem Mirrors.mem_reached (mirrors : s.Mirrors e e') {p : Place} :
    s.place p ∈ e'.reached ↔ p ∈ e.reached := by
  rw [mirrors.reached, List.mem_map]
  constructor
  · rintro ⟨q, member, eq⟩
    rwa [← place_inj.mp eq]
  · exact fun member => ⟨p, member, rfl⟩

def still : Shift := ⟨0, 0⟩

theorem mirrors_still (e : Emission) : still.Mirrors e e :=
  ⟨rfl, fun _ => rfl, rfl, rfl, (List.map_id _).symm, rfl, rfl, rfl, rfl, rfl, rfl, rfl⟩

end Shift

namespace Emit

abbrev Alone (Q : {α : Type} → Emit α → Prop) {α β : Type} (_ : α → β) (x : Emit α)
    (_ : Emit β) : Prop := Q x

section Properties

variable (s : Shift) (P : {α β : Type} → (α → β) → Emit α → Emit β → Prop)

/-- A property of parts of two compilations, with the renaming of what they give, that is passed on
from the steps they are made of. -/
structure Stepwise : Prop where
  pure : ∀ {α β : Type} (value : α → β) (a : α), P value (pure a) (pure (value a))
  throw : ∀ {α β : Type} (value : α → β) {fault : Fault}, fault.isUnpaired = false →
    P value (throw fault) (throw (s.fault fault))
  get : ∀ {α β : Type} {value : α → β} {f : Emission → Emit α} {g : Emission → Emit β},
    (∀ e e', s.Mirrors e e' → P value (f e) (g e')) → P value (get >>= f) (get >>= g)
  bind : ∀ {α β γ δ : Type} {value : α → β} {last : γ → δ} {x : Emit α} {y : Emit β}
    {f : α → Emit γ} {g : β → Emit δ}, P value x y → (∀ a, P last (f a) (g (value a))) →
    P last (x >>= f) (y >>= g)
  freshId : P id freshId freshId
  proceed : ∀ {f g : Emission → Emission}, (∀ e e', s.Mirrors e e' → s.Mirrors (f e) (g e')) →
    (∀ e : Emission, e.Onward (f e)) → P id (modify f : Emit PUnit) (modify g : Emit PUnit)
  declare : ∀ {i : Instruction}, i.isVariable = false → P id (declare i) (declare i)

structure Marking : Prop extends core : Stepwise s P where
  mark : ∀ {f : Emission → Emission}, (∀ e e', s.Mirrors e e' → s.Mirrors (f e) (f e')) →
    (∀ e : Emission, e.SameFront (f e)) → P id (modify f : Emit PUnit) (modify f : Emit PUnit)

structure Announcing : Prop extends inner : Marking s P where
  announce : ∀ ty form, P id (announce ty form) (announce ty form)

structure Declaring : Prop extends core : Stepwise s P where
  type : ∀ ty, P id (type ty) (type ty)
  constant : ∀ literal, P id (constant literal none) (constant literal none)

structure Noting : Prop extends inner : Declaring s P where
  result : ∀ slot id, P (fun u => u) (setResult slot id) (setResult slot id)
  named : ∀ literal id,
    P (fun i => i) (Emit.constant literal (some id)) (Emit.constant literal (some id))

def noteLayout (ty : Ty) : Emit PUnit :=
  modify fun e => { e with types := e.types.markDecorated ty }

structure Laying : Prop extends core : Stepwise s P where
  annotate : ∀ {i : Instruction}, i.isLayout = true → P id (annotate i) (annotate i)
  note : ∀ ty, P id (noteLayout ty) (noteLayout ty)

structure Exposing : Prop extends inner : Declaring s P where
  variableDecl : ∀ type id storage, P (fun u => u)
    (Emit.declare (.variableDecl type id storage)) (Emit.declare (.variableDecl type id storage))
  locate : ∀ id {decoration : Decoration}, decoration.locates = true →
    P (fun u => u) (annotate (.decorate id decoration)) (annotate (.decorate id decoration))

/-- A property that is passed on to everything that a compilation annotates and declares. -/
structure Whole : Prop extends outer : Exposing s P where
  annotate : ∀ i, P id (Emit.annotate i) (Emit.annotate i)
  note : ∀ ty, P id (noteLayout ty) (noteLayout ty)

end Properties

variable {P : {α β : Type} → (α → β) → Emit α → Emit β → Prop}

theorem Whole.laying (steps : Whole s P) : Laying s P :=
  ⟨steps.core, fun _ => steps.annotate _, steps.note⟩

theorem type_literal (literal : Literal) : type literal.ty = scalarType literal.ty := by
  cases literal <;> simp only [Literal.ty, Ty.sint, Ty.uint, Ty.single, type]

section Walk

variable (steps : Stepwise s P)

include steps

theorem Stepwise.next {α γ δ : Type} {last : γ → δ} {x y : Emit α} {f : α → Emit γ}
    {g : α → Emit δ} (first : P id x y) (rest : ∀ a, P last (f a) (g a)) :
    P last (x >>= f) (y >>= g) :=
  steps.bind first rest

/-! Checks and loops. -/

section Loops

variable {γ δ : Type} {value : α → β}

theorem walk_check {x : Except Fault α} {y : Except Fault β}
    (same : y = (x.map value).mapError s.fault)
    (paired : ∀ {f}, x = .error f → f.isUnpaired = false) : P value (check x) (check y) := by
  subst same
  cases x with
  | ok a => exact steps.pure value a
  | error f => exact steps.throw value (paired rfl)

theorem walk_plain {x : Except Fault α} (modest : Modest x) : P id (check x) (check x) := by
  cases eq : x with
  | ok a => exact steps.pure id a
  | error f =>
    obtain ⟨same, paired⟩ := s.repeats_modest (modest f eq)
    exact walk_check steps (congrArg Except.error same)
      fun refused => Except.error.inj refused ▸ paired

theorem walk_forM {f : α → Emit PUnit} {g : β → Emit PUnit} (each : ∀ a, P id (f a) (g (value a)))
    (items : List α) : P id (items.forM f) ((items.map value).forM g) := by
  induction items with
  | nil => exact steps.pure id _
  | cons a rest ih =>
    rw [List.map_cons, List.forM_eq_forM, List.forM_eq_forM, List.forM_cons, List.forM_cons]
    exact steps.next (each a) fun _ => ih

theorem walk_mapM {last : γ → δ} {f : α → Emit γ} {g : β → Emit δ}
    (each : ∀ a, P last (f a) (g (value a))) (items : List α) :
    P (List.map last) (items.mapM f) ((items.map value).mapM g) := by
  induction items with
  | nil => exact steps.pure (List.map last) []
  | cons a rest ih =>
    rw [List.map_cons, List.mapM_cons, List.mapM_cons]
    exact steps.bind (each a) fun c => steps.bind ih fun cs => steps.pure (List.map last) (c :: cs)

end Loops

theorem walk_write (i : Instruction) : P id (write i) (write i) :=
  steps.proceed (fun _ _ mirrors => { mirrors with
    body := congrArg (Array.push · i) mirrors.body }) fun e => { Emission.Onward.refl e with
      body := by simp }

theorem walk_writeAll (code : List Instruction) : P id (writeAll code) (writeAll code) := by
  have all : P id (code.forM write) ((code.map id).forM write) :=
    walk_forM steps (walk_write steps) code
  rwa [List.map_id] at all

theorem walk_markReached (p : Place) : P id (markReached p) (markReached (s.place p)) :=
  steps.proceed (fun _ _ mirrors => { mirrors with
    reached := congrArg (List.cons (s.place p)) mirrors.reached })
      fun e => { Emission.Onward.refl e with reached := List.subset_cons_self p e.reached }

/-! Types and constants. -/

theorem walk_onceType {declaring : Emit Id} (declares : P id declaring declaring) :
    P id (onceType ty declaring) (onceType ty declaring) := by
  refine steps.get fun e e' mirrors => ?_
  rw [mirrors.id?]
  split
  · exact steps.pure id _
  · exact declares

theorem walk_declaredType (ty : Ty) : P id (declaredType ty) (declaredType ty) := by
  refine steps.get fun e e' mirrors => ?_
  rw [mirrors.id?]
  split
  · exact steps.pure id _
  · exact steps.throw id rfl

end Walk

section Marking

variable (steps : Marking s P)

include steps

/-- The type of a constant is all that has to be declared before it. -/
theorem walk_constant {literal : Literal}
    (scalar : P id (scalarType literal.ty) (scalarType literal.ty)) (proposed : Option Id) :
    P id (constant literal proposed) (constant literal proposed) := by
  have constants : ∀ f : ConstantTable → ConstantTable,
      P id (modify fun e => { e with constants := f e.constants })
        (modify fun e => { e with constants := f e.constants }) := fun f =>
    steps.mark (fun _ _ mirrors => { mirrors with
      constants := congrArg f mirrors.constants }) fun _ => ⟨rfl, rfl, rfl, rfl⟩
  have finish : ∀ id, P (fun i => i) (constant.finish literal id) (constant.finish literal id) :=
    fun id => steps.next scalar fun _ => steps.next (steps.declare rfl) fun _ =>
      steps.next (constants (·.declare literal id)) fun _ => steps.pure _ id
  have register : ∀ id, P (fun i => i)
      (do
        modify fun e => { e with constants := e.constants.register literal id }
        constant.finish literal id)
      (do
        modify fun e => { e with constants := e.constants.register literal id }
        constant.finish literal id) := fun id =>
    steps.next (constants (·.register literal id)) fun _ => finish id
  refine steps.get fun e e' mirrors => ?_
  rw [mirrors.constants]
  split
  · split
    · exact steps.pure id _
    · exact finish _
  · cases proposed with
    | none => exact steps.next steps.freshId register
    | some id => exact register id

theorem Marking.noting (type : ∀ ty, P id (type ty) (Emit.type ty)) : Noting s P := by
  have constant : ∀ literal proposed, P id (constant literal proposed) (constant literal proposed) :=
    fun literal => walk_constant steps (type_literal literal ▸ type literal.ty)
  exact
    { core := steps.core
      type
      constant := fun literal => constant literal none
      result := fun slot id => steps.mark (fun _ _ mirrors => { mirrors with
        results := congrArg (Assoc.insert · slot id) mirrors.results }) fun _ => ⟨rfl, rfl, rfl, rfl⟩
      named := fun literal id => constant literal (some id) }

end Marking

section Announcing

variable (steps : Announcing s P)

include steps

theorem walk_scalarType (ty : Ty) : P id (scalarType ty) (scalarType ty) := by
  apply walk_onceType steps.core
  split
  · exact steps.announce _ _
  · exact steps.announce _ _
  · split
    · exact steps.announce _ _
    · exact steps.throw id rfl
  · split
    · exact steps.announce _ _
    · exact steps.throw id rfl
  · exact steps.throw id rfl

theorem walk_vectorType (component : Ty) (rows : Word) :
    P id (vectorType component rows) (vectorType component rows) :=
  walk_onceType steps.core (steps.next (walk_scalarType steps _) fun _ => steps.announce _ _)

theorem walk_matrixType (component : Ty) (rows columns : Word) :
    P id (matrixType component rows columns) (matrixType component rows columns) := by
  apply walk_onceType steps.core
  split
  · exact steps.throw id rfl
  · split
    · exact steps.next (walk_scalarType steps _) fun _ => steps.announce _ _
    · split
      · exact steps.throw id rfl
      · exact steps.next (walk_vectorType steps _ _) fun _ => steps.announce _ _

mutual

theorem walk_type : ∀ ty, P id (type ty) (type ty)
  | .matrix component rows columns => walk_matrixType steps component rows columns
  | .array element length =>
      walk_onceType steps.core (steps.next (walk_type element) fun _ =>
        steps.next (walk_constant steps.inner (walk_scalarType steps _) _) fun _ =>
          steps.announce _ _)
  | .runtimeArray element =>
      walk_onceType steps.core (steps.next (walk_type element) fun _ => steps.announce _ _)
  | .pointer storage pointee =>
      walk_onceType steps.core (steps.next (walk_type pointee) fun _ => steps.announce _ _)
  | .struct members =>
      walk_onceType steps.core (steps.next (walk_types members) fun _ => steps.announce _ _)
  | .image _ _ _ =>
      walk_onceType steps.core (steps.next (walk_scalarType steps _) fun _ => steps.announce _ _)
  | .texture inner => by
      apply walk_onceType steps.core
      split
      · exact steps.next (walk_type inner) fun _ => steps.announce _ _
      · exact steps.throw id rfl
  | .void => walk_scalarType steps _
  | .bool => walk_scalarType steps _
  | .int _ _ => walk_scalarType steps _
  | .float _ => walk_scalarType steps _

theorem walk_types : ∀ tys, P id (types tys) (types tys)
  | [] => steps.pure id _
  | ty :: rest => steps.next (walk_type ty) fun _ => steps.next (walk_types rest) fun _ =>
      steps.pure id _

end

theorem Announcing.noting : Noting s P := steps.inner.noting (walk_type steps)

end Announcing

/-! Layouts. -/

section Laying

variable (steps : Laying s P)

include steps

theorem walk_matrixLayout (struct : Id) (index : Nat) (ty : Ty) :
    P id (matrixLayout struct index ty) (matrixLayout struct index ty) := by
  cases ty with
  | matrix component rows columns =>
    simp only [matrixLayout]
    split
    · exact steps.next (steps.annotate rfl) fun _ => steps.annotate rfl
    · exact steps.pure id _
  | _ => exact steps.pure id _

theorem walk_onceLayout {annotating : Emit Unit} (annotates : P id annotating annotating) :
    P id (onceLayout ty annotating) (onceLayout ty annotating) := by
  refine steps.get fun e e' mirrors => ?_
  have same : e'.types.isDecorated ty = e.types.isDecorated ty := by
    simp only [TypeTable.isDecorated, mirrors.types]
  rw [same]
  split
  · exact steps.pure id _
  · exact steps.next annotates fun _ => steps.note ty

mutual

theorem walk_layout : ∀ ty, P id (layout ty) (layout ty)
  | .struct members =>
      walk_onceLayout steps (steps.next (walk_declaredType steps.core _) fun id =>
        walk_memberLayouts id 0 0 members)
  | .array element _ | .runtimeArray element =>
      walk_onceLayout steps (steps.next (walk_declaredType steps.core _) fun _ =>
        steps.next (steps.annotate rfl) fun _ => walk_layout element)
  | .void | .bool | .int _ _ | .float _ | .matrix _ _ _ | .pointer _ _ | .image _ _ _
  | .texture _ => steps.pure id _

theorem walk_memberLayouts (struct : Id) (index : Nat) (offset : Word) :
    ∀ tys, P id (memberLayouts struct index offset tys) (memberLayouts struct index offset tys)
  | [] => steps.pure id _
  | member :: rest =>
      steps.next (steps.annotate rfl) fun _ => steps.next (walk_matrixLayout steps _ _ _) fun _ =>
        steps.next (walk_layout member) fun _ =>
          walk_memberLayouts struct (index + 1) (offset + member.sizeWord) rest

end

end Laying

def entryIds (void : Id) : Emit EntryIds := do
  let signature ← freshId
  let function ← freshId
  let label ← freshId
  let glsl ← freshId
  declare (.typeDecl signature (.function void))
  return { void, signature, function, label, glsl }

theorem walk_entryIds (steps : Stepwise s P) (void : Id) : P id (entryIds void) (entryIds void) :=
  steps.next steps.freshId fun _ => steps.next steps.freshId fun _ =>
    steps.next steps.freshId fun _ => steps.next steps.freshId fun _ =>
      steps.next (steps.declare rfl) fun _ => steps.pure id _

theorem walk_entry (steps : Declaring s P) : P id entry entry :=
  steps.next (steps.type _) (walk_entryIds steps.core)

/-! What is said of the states that a part of one compilation leads to. -/

/-- A part of a compilation that leads from a state to related ones only, also if it fails. -/
def Leads (R : Emission → Emission → Prop) {α : Type} (x : Emit α) : Prop :=
  ∀ e, Outcome x e (fun _ => R e) fun _ => R e

section Leads

variable {R : Emission → Emission → Prop}

variable (refl : ∀ e, R e e) (trans : ∀ {e e₁ e₂}, R e e₁ → R e₁ e₂ → R e e₂)
  (fresh : ∀ e, R e { e with nextId := e.nextId + 1 })
  (declare : ∀ e i, i.isVariable = false → R e { e with declarations := e.declarations.push i })

include refl trans fresh declare

theorem stepwise_leads (proceed : ∀ e e', e.Onward e' → R e e') :
    Stepwise .still (Alone (Leads R)) where
  pure _ _ := refl
  throw _ _ _ := refl
  get rest e := rest e e (Shift.mirrors_still e) e
  bind first rest e := (outcome_bind ..).mpr ((first e).imp fun a e₁ leads =>
    (rest a e₁).mono (fun _ _ => trans leads) fun _ _ => trans leads)
  freshId := fresh
  proceed _ proceeds e := proceed e _ (proceeds e)
  declare other e := declare e _ other

theorem marking_leads (same : ∀ e e', e.SameFront e' → R e e') :
    Marking .still (Alone (Leads R)) where
  core := stepwise_leads refl trans fresh declare fun e e' proceeds => same e e' proceeds.front
  mark _ front e := same e _ (front e)

theorem announcing_leads (same : ∀ e e', e.SameFront e' → R e e')
    (types : ∀ e ty, R e { e with
      nextId := e.nextId + 1, types := e.types.declare ty e.nextId }) :
    Announcing .still (Alone (Leads R)) where
  inner := marking_leads refl trans fresh declare same
  announce ty _ e := trans (types e ty) (declare _ _ rfl)

end Leads

end Emit

end ShaderIR
