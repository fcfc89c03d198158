import Mathlib.Data.List.Forall2
import Mathlib.Logic.Relation
import ShaderIR.Emission.Layout
import ShaderIR.Proofs.Declarable
import ShaderIR.Proofs.Operands
import ShaderIR.Proofs.Outcome

/-! The quiet steps of a compilation: those that take ids, declare types and constants, or annotate,
and write nothing into the function body. Everything that a compilation does between two writes is
made of them. -/
namespace ShaderIR

open Relation (ReflTransGen)

variable {e e' e'' e₀ : Emission} {tys : List Ty} {id : Id} {ty : Ty} {form : TypeForm} {rank : Nat}
  {relies : Prop}

theorem related_left {α β : Type} {R : α → β → Prop} {as : List α} {bs : List β}
    (related : List.Forall₂ R as bs) {a : α} (member : a ∈ as) : ∃ b ∈ bs, R a b := by
  induction related with
  | nil => contradiction
  | @cons a' b as bs first _ ih =>
    rcases List.mem_cons.mp member with rfl | inside
    · exact ⟨b, List.mem_cons_self .., first⟩
    · obtain ⟨b', member', holds⟩ := ih inside
      exact ⟨b', List.mem_cons_of_mem b member', holds⟩

inductive Part where
  | preamble
  | decoration
  | declaration
  | bracket
  /-- A variable of the function. -/
  | own
  | body
deriving DecidableEq

def Instruction.part : Instruction → Part
  | .capability _ | .importSet _ _ | .memoryModel | .entryPoint _ _ _ _ | .originUpperLeft _
  | .localSize _ _ => .preamble
  | .decorate _ _ | .decorateMember _ _ _ => .decoration
  | .typeDecl _ _ | .constant _ _ _ => .declaration
  | .variableDecl _ _ storage => if storage = .function then .own else .declaration
  | .functionBegin _ _ _ | .functionEnd => .bracket
  | _ => .body

namespace Emission

def IsType (e : Emission) (ty : Ty) (id : Id) : Prop := e.types.id? ty = some id

def IsLiteral (e : Emission) (literal : Literal) (id : Id) : Prop :=
  e.constants.find? literal = some { id, declared := true }

inductive Forms (e : Emission) : Ty → TypeForm → Prop where
  | void : Forms e .void .void
  | bool : Forms e .bool .bool
  | int (signed : Bool) : Forms e (.int 32 signed) (.int 32 signed)
  | float : Forms e (.float 32) (.float 32)
  | vector {component : Ty} {rows : Word} {id : Id} : (Ty.vector component rows).isRefused = false →
      e.IsType component id → Forms e (.vector component rows) (.vector id rows)
  | matrix {component : Ty} {rows columns : Word} {id : Id} :
      (Ty.matrix component rows columns).isRefused = false → 1 < columns →
      e.IsType (.vector component rows) id → Forms e (.matrix component rows columns)
        (.matrix id columns)
  | array {element : Ty} {length : Word} {id count : Id} : e.IsType element id →
      e.IsLiteral (.uint length) count → Forms e (.array element length) (.array id count)
  | runtimeArray {element : Ty} {id : Id} : e.IsType element id →
      Forms e (.runtimeArray element) (.runtimeArray id)
  | pointer {storage : Storage} {pointee : Ty} {id : Id} : e.IsType pointee id →
      Forms e (.pointer storage pointee) (.pointer storage id)
  | struct {members : List Ty} {ids : List Id} : List.Forall₂ e.IsType members ids →
      Forms e (.struct members) (.struct ids)
  | image {dim : Dim} {depth arrayed : Bool} {id : Id} : e.IsType .single id →
      Forms e (.image dim depth arrayed) (.image id dim depth arrayed)
  | texture {inner : Ty} {id : Id} : inner.isImage = true → e.IsType inner id →
      Forms e (.texture inner) (.sampledImage id)

def Introduces (e : Emission) (id : Id) : Prop :=
  ∃ i, (i ∈ e.declarations ∨ i ∈ e.locals) ∧ i.result? = some id

/-- An id that an annotation can be about: one that has a meaning, or that of a type. -/
def Targets (e : Emission) (id : Id) : Prop := e.Introduces id ∨ ∃ ty, e.IsType ty id

def Defines (e : Emission) : Prop :=
  ∀ literal id, e.IsLiteral literal id →
    ∃ type, e.IsType literal.ty type ∧ Instruction.constant type id literal ∈ e.declarations

/-- What the tables say is declared is declared, in the form that belongs to it. -/
structure Listed (e : Emission) : Prop where
  types : ∀ ty id, e.IsType ty id →
    ∃ form, e.Forms ty form ∧ Instruction.typeDecl id form ∈ e.declarations
  constants : e.Defines

/-- One step that leaves the function body alone. A constant may take over the id of a node that
stands for it. -/
inductive Quiet (d : Draft) (e : Emission) : Emission → Prop where
  | fresh : Quiet d e { e with nextId := e.nextId + 1 }
  | announce {ty : Ty} {form : TypeForm} : e.types.id? ty = none → e.Forms ty form →
      Quiet d e { e with
        nextId := e.nextId + 1
        types := e.types.declare ty e.nextId
        declarations := e.declarations.push (.typeDecl e.nextId form) }
  | register {literal : Literal} : e.constants.find? literal = none →
      Quiet d e { e with
        nextId := e.nextId + 1
        constants := e.constants.register literal e.nextId }
  | name {h : Handle} {n : Node} {literal : Literal} : d.graph.find? h = some n →
      n.kind = .constant literal → e.constants.find? literal = none →
      Quiet d e { e with constants := e.constants.register literal n.id }
  | declare {literal : Literal} {id type : Id} : e.constants.find? literal = some { id } →
      e.IsType literal.ty type →
      Quiet d e { e with
        declarations := e.declarations.push (.constant type id literal)
        constants := e.constants.declare literal id }
  | annotate {instruction : Instruction} : instruction.part = .decoration →
      (∀ id ∈ instruction.refers, e.Targets id) →
      Quiet d e { e with annotations := e.annotations.push instruction }
  | decorate (ty : Ty) : Quiet d e { e with types := e.types.markDecorated ty }

abbrev Quiets (d : Draft) : Emission → Emission → Prop := ReflTransGen fun a b => Quiet d a b

structure Grows (e e' : Emission) : Prop where
  nextId : e.nextId ≤ e'.nextId
  types : ∀ ty id, e.IsType ty id → e'.IsType ty id
  results : ∀ slot id, e.results.find? slot = some id → e'.results.find? slot = some id
  reached : ∀ p ∈ e.reached, p ∈ e'.reached
  written : ∀ k ∈ e.written, k ∈ e'.written
  literals : ∀ literal id, e.IsLiteral literal id → e'.IsLiteral literal id
  declarations : ∀ i ∈ e.declarations, i ∈ e'.declarations
  locals : ∀ i ∈ e.locals, i ∈ e'.locals
  body : ∀ i ∈ e.body, i ∈ e'.body

theorem Grows.trans (first : e.Grows e') (second : e'.Grows e'') : e.Grows e'' where
  nextId := Nat.le_trans first.nextId second.nextId
  types ty id known := second.types ty id (first.types ty id known)
  results slot id found := second.results slot id (first.results slot id found)
  reached p member := second.reached p (first.reached p member)
  written k member := second.written k (first.written k member)
  literals literal id found := second.literals literal id (first.literals literal id found)
  declarations i member := second.declarations i (first.declarations i member)
  locals i member := second.locals i (first.locals i member)
  body i member := second.body i (first.body i member)

/-- A state of a compilation to which another one only adds: instructions at the end of each section,
and ids and marks where there were none. -/
structure Extends (e e' : Emission) : Prop where
  annotations : e.annotations.toList <+: e'.annotations.toList
  declarations : e.declarations.toList <+: e'.declarations.toList
  locals : e.locals.toList <+: e'.locals.toList
  body : e.body.toList <+: e'.body.toList
  results : ∀ slot id, e.results.find? slot = some id → e'.results.find? slot = some id
  types : ∀ ty known, e.types.find? ty = some known →
    ∃ later, e'.types.find? ty = some { known with decorated := known.decorated || later }
  constants : ∀ literal known, e.constants.find? literal = some known →
    ∃ later, e'.constants.find? literal = some { known with declared := known.declared || later }
  reached : e.reached ⊆ e'.reached
  written : e.written ⊆ e'.written

theorem Extends.refl (e : Emission) : e.Extends e where
  annotations := List.prefix_rfl
  declarations := List.prefix_rfl
  locals := List.prefix_rfl
  body := List.prefix_rfl
  results _ _ := id
  types _ _ found := ⟨false, by simp [found]⟩
  constants _ _ found := ⟨false, by simp [found]⟩
  reached _ := id
  written _ := id

theorem Extends.trans (first : e.Extends e') (second : e'.Extends e'') : e.Extends e'' where
  annotations := first.annotations.trans second.annotations
  declarations := first.declarations.trans second.declarations
  locals := first.locals.trans second.locals
  body := first.body.trans second.body
  results slot id found := second.results slot id (first.results slot id found)
  types ty known found := by
    obtain ⟨a, found⟩ := first.types ty known found
    obtain ⟨b, found⟩ := second.types ty _ found
    exact ⟨a || b, by rw [found, Bool.or_assoc]⟩
  constants literal known found := by
    obtain ⟨a, found⟩ := first.constants literal known found
    obtain ⟨b, found⟩ := second.constants literal _ found
    exact ⟨a || b, by rw [found, Bool.or_assoc]⟩
  reached := fun _ member => second.reached (first.reached member)
  written := fun _ member => second.written (first.written member)

section Extends

variable (further : e.Extends e')

include further

theorem Extends.isType (known : e.IsType ty id) : e'.IsType ty id := by
  obtain ⟨line, found, rfl⟩ := Option.map_eq_some_iff.mp known
  obtain ⟨_, found⟩ := further.types ty line found
  rw [IsType, TypeTable.id?, found]
  rfl

theorem Extends.isLiteral {literal : Literal} (known : e.IsLiteral literal id) :
    e'.IsLiteral literal id := by
  obtain ⟨_, found⟩ := further.constants literal _ known
  exact found

theorem Extends.grows (nextId : e.nextId ≤ e'.nextId) : e.Grows e' := by
  have kept : ∀ {items items' : Array Instruction}, items.toList <+: items'.toList →
      ∀ i ∈ items, i ∈ items' :=
    fun front i member => Array.mem_toList_iff.mp (front.subset (Array.mem_toList_iff.mpr member))
  exact
    { nextId
      types := fun _ _ => further.isType
      results := further.results
      reached := fun _ member => further.reached member
      written := fun _ member => further.written member
      literals := fun _ _ => further.isLiteral
      declarations := kept further.declarations
      locals := kept further.locals
      body := kept further.body }

end Extends

theorem Grows.refl (e : Emission) : e.Grows e := (Extends.refl e).grows (Nat.le_refl _)

theorem mem_push_of_mem {i : Instruction} {items : Array Instruction} (new : Instruction)
    (member : i ∈ items) : i ∈ items.push new :=
  Array.mem_push.mpr (.inl member)

section Grows

variable (grows : e.Grows e')

include grows

theorem Grows.isTypes {ids : List Id} (known : List.Forall₂ e.IsType tys ids) :
    List.Forall₂ e'.IsType tys ids :=
  known.imp fun ty id => grows.types ty id

theorem Grows.introduces (known : e.Introduces id) : e'.Introduces id := by
  obtain ⟨i, member, result⟩ := known
  exact ⟨i, member.imp (grows.declarations i) (grows.locals i), result⟩

theorem Grows.targets (known : e.Targets id) : e'.Targets id :=
  known.imp grows.introduces fun ⟨ty, known⟩ => ⟨ty, grows.types ty id known⟩

theorem Grows.forms (forms : e.Forms ty form) : e'.Forms ty form := by
  cases forms with
  | void => exact .void
  | bool => exact .bool
  | int signed => exact .int signed
  | float => exact .float
  | vector fine component => exact .vector fine (grows.types _ _ component)
  | matrix fine several column => exact .matrix fine several (grows.types _ _ column)
  | array element length => exact .array (grows.types _ _ element) (grows.literals _ _ length)
  | runtimeArray element => exact .runtimeArray (grows.types _ _ element)
  | pointer pointee => exact .pointer (grows.types _ _ pointee)
  | struct members => exact .struct (grows.isTypes members)
  | image sampled => exact .image (grows.types _ _ sampled)
  | texture isImage inner => exact .texture isImage (grows.types _ _ inner)

end Grows

/-- Nothing of the function body is written between two states. -/
structure Unbegun (e e' : Emission) : Prop where
  body : e'.body = e.body
  results : e'.results = e.results
  written : e'.written = e.written
  selectionPhases : e'.selectionPhases = e.selectionPhases
  loopPhases : e'.loopPhases = e.loopPhases

theorem Unbegun.trans (first : e.Unbegun e') (second : e'.Unbegun e'') : e.Unbegun e'' :=
  ⟨second.body.trans first.body, second.results.trans first.results,
    second.written.trans first.written, second.selectionPhases.trans first.selectionPhases,
    second.loopPhases.trans first.loopPhases⟩

structure Still (e e' : Emission) : Prop extends Unbegun e e' where
  reached : e'.reached = e.reached
  locals : e'.locals = e.locals

theorem Still.refl (e : Emission) : e.Still e := ⟨⟨rfl, rfl, rfl, rfl, rfl⟩, rfl, rfl⟩

section Step

variable {d : Draft}

theorem Quiet.still (step : Quiet d e e') : e.Still e' := by
  cases step <;> exact { Still.refl e with }

theorem Quiets.still (steps : Quiets d e e') : e.Still e' :=
  keeps_along (fun step before => ⟨before.toUnbegun.trans step.still.toUnbegun,
    step.still.reached.trans before.reached, step.still.locals.trans before.locals⟩) steps (.refl e)

theorem extends_register {literal : Literal} (free : e.constants.find? literal = none) (next id : Id) :
    e.Extends { e with nextId := next, constants := e.constants.register literal id } := by
  refine { Extends.refl e with constants := fun other known found => ⟨false, ?_⟩ }
  have differs : literal ≠ other := by
    rintro rfl
    rw [free] at found
    contradiction
  rw [ConstantTable.find?_register, if_neg differs, found, Bool.or_false]

theorem Quiet.extends (step : Quiet d e e') : e.Extends e' := by
  have same := Extends.refl e
  cases step with
  | fresh => exact { same with }
  | register free | name _ _ free => exact extends_register free _ _
  | annotate => exact { same with annotations := by simp }
  | @announce ty form missing =>
    refine { same with
      declarations := by simp
      types := fun other known found => ⟨false, ?_⟩ }
    have differs : ty ≠ other := by
      rintro rfl
      rw [TypeTable.id?, found] at missing
      contradiction
    rw [TypeTable.find?_declare, if_neg differs, found, Bool.or_false]
  | decorate ty =>
    refine { same with types := fun other known found => ⟨decide (ty = other), ?_⟩ }
    rw [TypeTable.find?_markDecorated, found]
    by_cases equal : ty = other <;> simp [equal]
  | @declare literal id type registered =>
    refine { same with
      declarations := by simp
      constants := fun other known found => ⟨decide (literal = other), ?_⟩ }
    rw [ConstantTable.find?_declare]
    by_cases equal : literal = other
    · subst equal
      rw [registered] at found
      simp [← Option.some.inj found]
    · simp [equal, found]

theorem Quiet.grows (step : Quiet d e e') : e.Grows e' :=
  step.extends.grows (by cases step <;> simp)

theorem Quiets.extends (steps : Quiets d e e') : e.Extends e' :=
  keeps_along (fun step before => before.trans step.extends) steps (.refl e)

theorem Quiets.grows (steps : Quiets d e e') : e.Grows e' :=
  keeps_along (fun step grows => grows.trans step.grows) steps (.refl e)

theorem Defines.before {literal : Literal} (defines : e.Defines) (grows : e.Grows e')
    (known : e.IsLiteral literal id) :
    ∃ type, e'.IsType literal.ty type ∧ .constant type id literal ∈ e'.declarations := by
  obtain ⟨type, typed, member⟩ := defines literal id known
  exact ⟨type, grows.types _ _ typed, grows.declarations _ member⟩

theorem Defines.same (defines : e.Defines) (grows : e.Grows e')
    (constants : e'.constants = e.constants) : e'.Defines :=
  fun _ _ known => defines.before grows (by rwa [IsLiteral, constants] at known)

theorem Quiet.defines (step : Quiet d e e') (defines : e.Defines) : e'.Defines := by
  have before {literal id} := @Defines.before e e' id literal defines step.grows
  intro other id known
  cases step with
  | fresh | annotate | decorate | announce => exact before known
  | register | name =>
    rw [IsLiteral, ConstantTable.find?_register] at known
    split at known
    · simp at known
    · exact before known
  | @declare literal id' type registered typed =>
    rw [IsLiteral, ConstantTable.find?_declare] at known
    split at known
    · rename_i same
      subst same
      simp only [Option.some.injEq, ConstantEntry.mk.injEq, and_true] at known
      subst known
      exact ⟨type, typed, Array.mem_push_self⟩
    · exact before known

/-- A step has to declare the types that it gives an id. -/
theorem Listed.grow (listed : e.Listed) (grows : e.Grows e')
    (types : ∀ ty id, e'.IsType ty id → e.IsType ty id ∨
      ∃ form, e'.Forms ty form ∧ Instruction.typeDecl id form ∈ e'.declarations)
    (constants : e'.Defines) : e'.Listed where
  types ty id known := by
    rcases types ty id known with before | now
    · obtain ⟨form, forms, member⟩ := listed.types ty id before
      exact ⟨form, grows.forms forms, grows.declarations _ member⟩
    · exact now
  constants := constants

theorem Listed.same (listed : e.Listed) (grows : e.Grows e') (types : e'.types = e.types)
    (constants : e'.constants = e.constants) : e'.Listed :=
  listed.grow grows (fun _ _ known => .inl (by rwa [IsType, types] at known))
    (listed.constants.same grows constants)

theorem Quiet.listed (step : Quiet d e e') (listed : e.Listed) : e'.Listed := by
  have grows := step.grows
  refine listed.grow grows (fun other id known => ?_) (step.defines listed.constants)
  cases step with
  | fresh | annotate | register | name | declare => exact .inl known
  | decorate ty => exact .inl (by rwa [IsType, TypeTable.id?_markDecorated] at known)
  | @announce ty form missing forms =>
    rw [IsType, TypeTable.id?_declare] at known
    split at known
    · rename_i same
      subst same
      obtain rfl := Option.some.inj known
      exact .inr ⟨form, grows.forms forms, Array.mem_push_self⟩
    · exact .inl known

theorem Quiets.listed (steps : Quiets d e e') (listed : e.Listed) : e'.Listed :=
  keeps_along (fun step => step.listed) steps listed

theorem Listed.introduces (listed : e.Listed) (known : e.IsType ty id) : e.Introduces id := by
  obtain ⟨form, _, member⟩ := listed.types ty id known
  exact ⟨_, .inl member, rfl⟩

theorem Listed.targets (listed : e.Listed) (known : e.Targets id) : e.Introduces id := by
  rcases known with introduced | ⟨ty, known⟩
  · exact introduced
  · exact listed.introduces known

def Ensures (e : Emission) (tys : List Ty) : Prop :=
  e.Listed ∧ ∀ ty ∈ tys, ∃ id, e.IsType ty id

theorem Ensures.grow (ensures : e.Ensures tys) (steps : Quiets d e e') : e'.Ensures tys := by
  refine ⟨steps.listed ensures.1, fun ty member => ?_⟩
  obtain ⟨id, known⟩ := ensures.2 ty member
  exact ⟨id, steps.grows.types ty id known⟩

end Step

def SameAbove (e : Emission) (rank : Nat) (e' : Emission) : Prop :=
  ∀ ty : Ty, rank < ty.rank → e'.types.id? ty = e.types.id? ty

theorem SameAbove.mono {rank' : Nat} (same : e.SameAbove rank e') (above : rank ≤ rank') :
    e.SameAbove rank' e' :=
  fun ty higher => same ty (Nat.lt_of_le_of_lt above higher)

theorem SameAbove.trans (first : e.SameAbove rank e') (second : e'.SameAbove rank e'') :
    e.SameAbove rank e'' :=
  fun ty higher => (second ty higher).trans (first ty higher)

/-- What declaring a type gives: its id, and no id for any type above it. -/
structure Declares (e : Emission) (ty : Ty) (id : Id) (e' : Emission) : Prop where
  known : e'.IsType ty id
  above : e.SameAbove ty.rank e'

end Emission

open Emission

/-- A part of a compilation that is made of quiet steps. It fails only for a type that no module can
declare, and only under a given condition. -/
def Quietly {α : Type} (d : Draft) (e : Emission) (rejected : Prop) (x : Emit α)
    (good : α → Emission → Prop) : Prop :=
  Outcome x e (fun a e' => Quiets d e e' ∧ good a e')
    fun f e' => Quiets d e e' ∧ f.Undeclarable ∧ rejected

namespace Emit

variable {d : Draft} {rejected rejected' : Prop} {α β : Type} {x : Emit α} {f : α → Emit β}
  {good : α → Emission → Prop}

theorem Quietly.bind {good' : β → Emission → Prop} (first : Quietly d e rejected x good)
    (rest : ∀ a e', Quiets d e e' → good a e' → Quietly d e' rejected (f a) good') :
    Quietly d e rejected (x >>= f) good' := by
  unfold Quietly
  rw [outcome_bind]
  refine Outcome.imp first ?_
  rintro a e' ⟨steps, holds⟩
  exact Outcome.mono (rest a e' steps holds) (fun _ _ done => ⟨steps.trans done.1, done.2⟩)
    fun _ _ failed => ⟨steps.trans failed.1, failed.2⟩

theorem Quietly.mono {good' : α → Emission → Prop} (quiet : Quietly d e rejected x good)
    (weaker : rejected → rejected') (onGood : ∀ a e', good a e' → good' a e') :
    Quietly d e rejected' x good' :=
  Outcome.mono quiet (fun a e' done => ⟨done.1, onGood a e' done.2⟩)
    fun _ _ failed => ⟨failed.1, failed.2.1, weaker failed.2.2⟩

theorem Quietly.reject (quiet : Quietly d e rejected x good) (weaker : rejected → rejected') :
    Quietly d e rejected' x good :=
  Quietly.mono quiet weaker fun _ _ => id

theorem quietly_pure {a : α} (holds : good a e) :
    Quietly d e rejected (pure a) good :=
  ⟨.refl, holds⟩

theorem quietly_refused (refused : ty.isRefused = true) (because : rejected) :
    Quietly d e rejected (throw (.unsupportedType ty)) good :=
  ⟨.refl, ⟨ty, rfl, refused⟩, because⟩

/-! Types and constants. -/

theorem quietly_onceType {declaring : Emit Id}
    (steps : e.types.id? ty = none → Quietly d e rejected declaring (e.Declares ty)) :
    Quietly d e rejected (onceType ty declaring) (e.Declares ty) := by
  unfold Quietly onceType
  rw [outcome_bind, outcome_get]
  cases found : e.types.id? ty with
  | none => exact steps found
  | some id => exact ⟨.refl, found, fun _ _ => rfl⟩

theorem announce_declares (parts : e₀.SameAbove ty.rank e) (missing : e.types.id? ty = none)
    (forms : e.Forms ty form) :
    Outcome (announce ty form) e (fun id e' => Quiets d e e' ∧ e₀.Declares ty id e')
      fun _ _ => False := by
  refine ⟨.single (.announce missing forms), ?_, fun other higher => ?_⟩
  · exact (TypeTable.id?_declare e.types ty ty e.nextId).trans (if_pos rfl)
  · have differs : ty ≠ other := by
      rintro rfl
      exact Nat.lt_irrefl _ higher
    refine (TypeTable.id?_declare e.types ty other e.nextId).trans ?_
    rw [if_neg differs]
    exact parts other higher

/-- A type is declared after everything it is built from, which has a lower rank. -/
theorem quietly_announce (parts : e₀.SameAbove rank e) (lower : rank < ty.rank)
    (free : e₀.types.id? ty = none) (forms : e.Forms ty form) :
    Quietly d e rejected (announce ty form) (e₀.Declares ty) :=
  (announce_declares (parts.mono (Nat.le_of_lt lower)) ((parts ty lower).trans free) forms).mono
    (fun _ _ done => done) fun _ _ => False.elim

theorem quietly_scalarType (scalar : ty.rank = 0) :
    Quietly d e (ty.isDeclarable = false) (scalarType ty) fun id e' =>
      e.Declares ty id e' ∧ e'.constants = e.constants := by
  unfold scalarType onceType Quietly
  rw [outcome_bind, outcome_get]
  cases found : e.types.id? ty with
  | some id => exact ⟨.refl, ⟨found, fun _ _ => rfl⟩, rfl⟩
  | none =>
    have announced : ∀ {form}, e.Forms ty form →
        Quietly d e (ty.isDeclarable = false) (announce ty form) fun id e' =>
          e.Declares ty id e' ∧ e'.constants = e.constants := by
      intro form forms
      obtain ⟨steps, declares⟩ := announce_declares (d := d) (fun _ _ => rfl) found forms
      exact ⟨steps, declares, rfl⟩
    cases ty with
    | void => exact announced .void
    | bool => exact announced .bool
    | int width signed | float width =>
      dsimp only
      split
      · rename_i fine
        subst fine
        exact announced (by constructor)
      · rename_i refused
        exact quietly_refused (by simpa [Ty.isRefused] using refused)
          (by simpa [Ty.isDeclarable, Ty.isRefused] using refused)
    | matrix component rows columns =>
      rw [Ty.rank] at scalar
      split at scalar <;> contradiction
    | _ => simp [Ty.rank] at scalar

theorem rank_literal (literal : Literal) : literal.ty.rank = 0 := by
  cases literal <;> rfl

theorem declarable_literal (literal : Literal) : literal.ty.isDeclarable = true := by
  cases literal <;> rfl

theorem quietly_finish {literal : Literal} (registered : e.constants.find? literal = some { id }) :
    Quietly d e rejected (constant.finish literal id) fun id' e' =>
      e'.IsLiteral literal id' ∧ e.SameAbove 0 e' := by
  refine Quietly.bind (Quietly.reject (quietly_scalarType (rank_literal literal))
    fun refused => ?_) fun type e' _ done => ?_
  · rw [declarable_literal] at refused
    contradiction
  · obtain ⟨⟨known, above⟩, same⟩ := done
    have registered' : e'.constants.find? literal = some { id } := by rw [same, registered]
    refine ⟨.single (.declare registered' known), ?_, ?_⟩
    · exact (ConstantTable.find?_declare e'.constants literal literal id).trans (if_pos rfl)
    · rw [← rank_literal literal]
      exact above

/-- A constant gets the id of a node only if the node stands for it. -/
theorem quietly_constant (literal : Literal) {proposed : Option Id}
    (named : ∀ id, proposed = some id →
      ∃ h n, d.graph.find? h = some n ∧ n.kind = .constant literal ∧ n.id = id) :
    Quietly d e rejected (constant literal proposed) fun id e' =>
      e'.IsLiteral literal id ∧ e.SameAbove 0 e' := by
  unfold Quietly constant
  rw [outcome_bind, outcome_get]
  cases found : e.constants.find? literal with
  | some entry =>
    obtain ⟨id, declared⟩ := entry
    cases declared with
    | true => exact ⟨.refl, found, fun _ _ => rfl⟩
    | false => exact quietly_finish found
  | none =>
    have finish : ∀ id next, Quiet d e { e with
          nextId := next, constants := e.constants.register literal id } →
        Outcome (constant.finish literal id)
          { e with nextId := next, constants := e.constants.register literal id }
          (fun id' e' => Quiets d e e' ∧ e'.IsLiteral literal id' ∧ e.SameAbove 0 e')
          fun f e' => Quiets d e e' ∧ f.Undeclarable ∧ rejected := by
      intro id next step
      refine Outcome.mono (quietly_finish (d := d) ?_) (fun _ _ done => ⟨.head step done.1, done.2⟩)
        fun _ _ failed => ⟨.head step failed.1, failed.2⟩
      exact (ConstantTable.find?_register e.constants literal literal id).trans (if_pos rfl)
    cases proposed with
    | none => exact finish e.nextId (e.nextId + 1) (.register found)
    | some id =>
      obtain ⟨h, n, known, kind, rfl⟩ := named id rfl
      exact finish n.id e.nextId (.name known kind found)

theorem quietly_vectorType {component : Ty} {rows : Word}
    (fine : (Ty.vector component rows).isRefused = false) :
    Quietly d e (component.isDeclarable = false) (vectorType component rows)
      (e.Declares (.vector component rows)) := by
  have scalar := Ty.rank_of_isScalar (Ty.isRefused_matrix.mp fine).1
  refine quietly_onceType fun free => ?_
  refine Quietly.bind (quietly_scalarType scalar) fun id e₁ _ done => ?_
  exact quietly_announce done.1.above (by rw [scalar, Ty.vector, Ty.rank]; decide) free
    (.vector fine done.1.known)

theorem quietly_matrixType (component : Ty) (rows columns : Word) :
    Quietly d e ((Ty.matrix component rows columns).isDeclarable = false)
      (matrixType component rows columns) (e.Declares (.matrix component rows columns)) := by
  refine quietly_onceType fun free => ?_
  have many : 1 < columns ↔ 2 ≤ columns := by
    rw [UInt32.lt_iff_toNat_lt, UInt32.le_iff_toNat_le]
    rfl
  have rejected : component.isDeclarable = false →
      (Ty.matrix component rows columns).isDeclarable = false := by
    intro part
    rw [Ty.isDeclarable, part, Bool.and_false]
  have refused : ((Ty.matrix component rows columns).isRefused = false → False) →
      Quietly d e ((Ty.matrix component rows columns).isDeclarable = false)
        (throw (.unsupportedType (.matrix component rows columns)))
        (e.Declares (.matrix component rows columns)) := by
    intro unaccepted
    have refused := eq_true_of_ne_false unaccepted
    exact quietly_refused refused (by rw [Ty.isDeclarable, refused]; rfl)
  split
  · rename_i wrong
    refine refused fun accepted => ?_
    obtain ⟨scalar, low, high, _, few, _⟩ := Ty.isRefused_matrix.mp accepted
    simp [← UInt32.not_le, scalar, low, high, few] at wrong
  · rename_i right
    simp only [not_or, UInt32.not_lt, Bool.not_eq_true', Bool.not_eq_false] at right
    obtain ⟨scalar, low, high, few⟩ := right
    have rank := Ty.rank_of_isScalar scalar
    have column : (Ty.vector component rows).isRefused = false :=
      Ty.isRefused_matrix.mpr ⟨scalar, low, high, by decide, by decide, by simp⟩
    split
    · rename_i single
      subst single
      refine Quietly.bind (Quietly.reject (quietly_scalarType rank) rejected)
        fun id e₁ _ done => ?_
      exact quietly_announce done.1.above (by rw [rank, Ty.rank]; decide) free
        (.vector column done.1.known)
    · rename_i several
      split
      · rename_i wrong
        refine refused fun accepted => ?_
        obtain ⟨_, _, _, some, _, float⟩ := Ty.isRefused_matrix.mp accepted
        have some := UInt32.lt_of_le_of_ne some (Ne.symm several)
        simp [← UInt32.not_le, float some, many.mp some] at wrong
      · rename_i right
        simp only [not_or, UInt32.not_lt, Bool.not_eq_true', Bool.not_eq_false] at right
        have some := many.mpr right.2
        refine Quietly.bind (Quietly.reject (quietly_vectorType column) rejected)
          fun id e₁ _ done => ?_
        refine quietly_announce done.above ?_ free (.matrix (Ty.isRefused_matrix.mpr
          ⟨scalar, low, high, UInt32.le_of_lt some, few, fun _ => right.1⟩) some done.known)
        rw [Ty.vector, Ty.rank, Ty.rank, if_neg several]
        decide

mutual

theorem quietly_type : ∀ (ty : Ty) (e : Emission),
    Quietly d e (ty.isDeclarable = false) (type ty) (e.Declares ty)
  | .matrix component rows columns, e => by
    rw [type]
    exact quietly_matrixType component rows columns
  | .array element length, e => by
    rw [type, Ty.isDeclarable]
    refine quietly_onceType fun free => ?_
    refine Quietly.bind (quietly_type element e) fun id e₁ _ done => ?_
    refine Quietly.bind (quietly_constant (.uint length) (by simp)) fun count e₂ steps known => ?_
    refine quietly_announce (done.above.trans (known.2.mono (Nat.zero_le _))) ?_ free
      (.array (steps.grows.types _ _ done.known) known.1)
    simp [Ty.rank]
  | .runtimeArray inner, e | .pointer _ inner, e => by
    rw [type, Ty.isDeclarable]
    refine quietly_onceType fun free => ?_
    refine Quietly.bind (quietly_type inner e) fun id e₁ _ done => ?_
    exact quietly_announce done.above (by simp [Ty.rank]) free (by constructor; exact done.known)
  | .struct members, e => by
    rw [type, Ty.isDeclarable]
    refine quietly_onceType fun free => ?_
    refine Quietly.bind (quietly_types members e) fun ids e₁ _ done => ?_
    exact quietly_announce done.2 (by simp [Ty.rank]) free (.struct done.1)
  | .image dim depth arrayed, e => by
    rw [type]
    refine quietly_onceType fun free => ?_
    refine Quietly.bind (Quietly.reject (quietly_scalarType (rank_literal .floatZero))
      fun refused => absurd refused (by decide)) fun id e₁ _ done => ?_
    exact quietly_announce done.1.above (by simp [Ty.single, Ty.rank]) free (.image done.1.known)
  | .texture inner, e => by
    rw [type, Ty.isDeclarable]
    refine quietly_onceType fun free => ?_
    split
    · rename_i isImage
      refine Quietly.bind (Quietly.reject (quietly_type inner e) fun part => ?_)
        fun id e₁ _ done => ?_
      · rw [part, Bool.and_false]
      · exact quietly_announce done.above (by simp [Ty.rank]) free (.texture isImage done.known)
    · rename_i noImage
      have refused : (Ty.texture inner).isRefused = true := by simpa [Ty.isRefused] using noImage
      exact quietly_refused refused (by rw [refused]; rfl)
  | .void, e | .bool, e | .int _ _, e | .float _, e => by
    rw [type]
    exact Quietly.mono (quietly_scalarType rfl) id fun _ _ => And.left

theorem quietly_types : ∀ (tys : List Ty) (e : Emission),
    Quietly d e (Ty.areDeclarable tys = false) (types tys) fun ids e' =>
      List.Forall₂ e'.IsType tys ids ∧ e.SameAbove (Ty.rankAll tys) e'
  | [], e => by
    rw [types]
    exact quietly_pure ⟨.nil, fun _ _ => rfl⟩
  | ty :: rest, e => by
    rw [types, Ty.areDeclarable, Ty.rankAll]
    have first : ty.isDeclarable = false → (ty.isDeclarable && Ty.areDeclarable rest) = false :=
      fun part => by rw [part, Bool.false_and]
    have others : Ty.areDeclarable rest = false →
        (ty.isDeclarable && Ty.areDeclarable rest) = false :=
      fun part => by rw [part, Bool.and_false]
    refine Quietly.bind (Quietly.reject (quietly_type ty e) first) fun id e₁ _ done => ?_
    refine Quietly.bind (Quietly.reject (quietly_types rest e₁) others) fun ids e₂ steps more => ?_
    refine quietly_pure ⟨.cons (steps.grows.types _ _ done.known) more.1, ?_⟩
    exact (done.above.mono (Nat.le_max_left _ _)).trans (more.2.mono (Nat.le_max_right _ _))

end

/-! Layouts. Everything that a declared type is built from is declared, unless the tables list what
is not there. -/

/-- A part of a compilation that annotates, and that fails only without what it relies on. -/
def Annotates (d : Draft) (e : Emission) (relies : Prop) (x : Emit α) : Prop :=
  Outcome x e (fun _ e' => Quiets d e e') fun f _ => f.Plain ∧ ¬relies

theorem Annotates.bind {relies' : Emission → Prop} (first : Annotates d e relies x)
    (rest : ∀ a e', Quiets d e e' → Annotates d e' (relies' e') (f a))
    (stays : ∀ e', Quiets d e e' → relies → relies' e') : Annotates d e relies (x >>= f) := by
  unfold Annotates
  rw [outcome_bind]
  refine Outcome.imp first fun a e₁ steps => ?_
  exact Outcome.mono (rest a e₁ steps) (fun _ _ more => steps.trans more)
    fun _ _ failed => failed.imp_right fun missing holds => missing (stays e₁ steps holds)

theorem annotates_annotate {instruction : Instruction} (part : instruction.part = .decoration)
    (targets : ∀ id ∈ instruction.refers, e.Targets id) :
    Annotates d e relies (annotate instruction) :=
  ReflTransGen.single (.annotate part targets)

theorem annotates_onceLayout {annotating : Emit Unit} (steps : Annotates d e relies annotating) :
    Annotates d e relies (onceLayout ty annotating) := by
  unfold Annotates onceLayout
  rw [outcome_bind, outcome_get]
  split
  · exact ReflTransGen.refl
  · exact Annotates.bind steps (fun _ _ _ => ReflTransGen.single (.decorate ty)) fun _ _ => id

theorem annotates_declared {f : Id → Emit Unit} (known : relies → ∃ id, e.IsType ty id)
    (rest : ∀ id, e.IsType ty id → Annotates d e relies (f id)) :
    Annotates d e relies (declaredType ty >>= f) := by
  unfold Annotates declaredType
  rw [outcome_bind, outcome_bind, outcome_get]
  cases typed : e.types.id? ty with
  | some id => exact rest id typed
  | none =>
    refine ⟨trivial, fun holds => ?_⟩
    obtain ⟨id, known⟩ := known holds
    rw [IsType, typed] at known
    contradiction

theorem annotates_matrixLayout {struct : Id} (index : Nat) (ty : Ty) (known : e.Targets struct) :
    Annotates d e relies (matrixLayout struct index ty) := by
  have target : ∀ (e : Emission) (decoration : Decoration), e.Targets struct →
      ∀ id ∈ (Instruction.decorateMember struct index decoration).refers, e.Targets id := by
    intro e decoration known id member
    rwa [List.mem_singleton.mp member]
  unfold matrixLayout
  split
  · split
    · exact Annotates.bind (annotates_annotate rfl (target e _ known)) (fun _ e₁ steps =>
        annotates_annotate rfl (target e₁ _ (steps.grows.targets known))) fun _ _ => id
    · exact ReflTransGen.refl
  · exact ReflTransGen.refl

/-- The layout of an array: its stride, and the layout of its elements. -/
theorem annotates_strided {ty element : Ty} {bytes : Word}
    (inner : e.Ensures [ty] → e.Ensures [element])
    (rest : ∀ e', Annotates d e' (e'.Ensures [element]) (layout element)) :
    Annotates d e (e.Ensures [ty])
      (onceLayout ty do
        let id ← declaredType ty
        annotate (.decorate id (.arrayStride bytes))
        layout element) := by
  refine annotates_onceLayout (annotates_declared (fun ensures => ensures.2 ty (by simp))
    fun id known => ?_)
  refine Annotates.bind (annotates_annotate rfl fun id' member => ?_) (fun _ e₁ _ => rest e₁)
    fun e₁ steps ensures => (inner ensures).grow steps
  rw [List.mem_singleton.mp member]
  exact .inr ⟨ty, known⟩

mutual

theorem annotates_layout : ∀ (ty : Ty) (e : Emission), Annotates d e (e.Ensures [ty]) (layout ty)
  | .struct members, e => by
    rw [layout]
    refine annotates_onceLayout (annotates_declared (fun ensures => ensures.2 _ (by simp))
      fun id known => ?_)
    refine Outcome.mono (annotates_memberLayouts id 0 0 members e (.inr ⟨_, known⟩))
      (fun _ _ steps => steps) fun _ _ failed => failed.imp_right fun missing ensures =>
        missing ⟨ensures.1, fun member inside => ?_⟩
    obtain ⟨_, forms, _⟩ := ensures.1.types _ _ known
    cases forms with
    | struct each =>
      obtain ⟨id, _, known⟩ := related_left each inside
      exact ⟨id, known⟩
  | .array element _, e | .runtimeArray element, e => by
    rw [layout]
    refine annotates_strided (fun ensures => ⟨ensures.1, ?_⟩) (annotates_layout element)
    obtain ⟨id, known⟩ := ensures.2 _ (List.mem_singleton_self _)
    obtain ⟨_, forms, _⟩ := ensures.1.types _ _ known
    cases forms
    exact List.forall_mem_singleton.mpr ⟨_, ‹_›⟩
  | .void, e | .bool, e | .int _ _, e | .float _, e | .matrix _ _ _, e | .pointer _ _, e
  | .image _ _ _, e | .texture _, e => by
    rw [layout]
    exact ReflTransGen.refl

theorem annotates_memberLayouts (struct : Id) (index : Nat) (offset : Word) :
    ∀ (members : List Ty) (e : Emission), e.Targets struct →
      Annotates d e (e.Ensures members) (memberLayouts struct index offset members)
  | [], e, _ => by
    rw [memberLayouts]
    exact ReflTransGen.refl
  | member :: rest, e, target => by
    rw [memberLayouts]
    have stays : ∀ {e : Emission} e', Quiets d e e' → e.Ensures (member :: rest) →
        e'.Ensures (member :: rest) := fun _ steps ensures => ensures.grow steps
    refine Annotates.bind (annotates_annotate rfl fun id inside => ?_) (fun _ e₁ steps₁ => ?_) stays
    · rwa [List.mem_singleton.mp inside]
    have target₁ := steps₁.grows.targets target
    refine Annotates.bind (annotates_matrixLayout index member target₁) (fun _ e₂ steps₂ => ?_) stays
    have first : Annotates d e₂ (e₂.Ensures (member :: rest)) (layout member) :=
      Outcome.mono (annotates_layout member e₂) (fun _ _ steps => steps)
        fun _ _ failed => failed.imp_right fun missing ensures =>
          missing ⟨ensures.1, by simp [ensures.2]⟩
    refine Annotates.bind first (fun _ e₃ steps₃ => annotates_memberLayouts struct (index + 1)
      (offset + member.sizeWord) rest e₃ ((steps₂.grows.trans steps₃.grows).targets target₁)) ?_
    exact fun e₃ steps ensures =>
      ⟨(ensures.grow steps).1, fun ty inside => (ensures.grow steps).2 ty (by simp [inside])⟩

end

end Emit

end ShaderIR
