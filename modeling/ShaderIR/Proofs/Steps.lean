import Mathlib.Logic.Relation
import ShaderIR.Proofs.Fitting
import ShaderIR.Proofs.Frames
import ShaderIR.Proofs.Session

/-! The steps that calls are made of. Many calls do the same thing to a draft, and a call that opens
a loop does several things in a row; here every call is taken apart into a few kinds of steps, so
that what holds of all drafts is proved once for each kind.

A program may be held to use values and locations only where they are in scope. The parameter
`strict` says whether it is. -/
namespace ShaderIR

open Relation (ReflTransGen)

variable {h value : Handle} {v : Node} {strict : Prop}

/-! What is in scope at an event. Constants and inputs always are. -/

def Node.Available (n : Node) (t : Trace) (event : Nat) : Prop :=
  (∃ literal, n.kind = .constant literal) ∨ (∃ slot, n.kind = .input slot) ∨
    t.OpenAt n.position.region event

def Node.Outermost (n : Node) : Prop :=
  (∃ literal, n.kind = .constant literal) ∨ (∃ slot, n.kind = .input slot) ∨
    n.position.region = none

def PlaceData.Available (data : PlaceData) (t : Trace) (event : Nat) : Prop :=
  data.origin = .root ∨ t.OpenAt data.position.region event

/-- A node that is computed from its operands alone, or is a constant. -/
def NodeKind.isComputed : NodeKind → Bool
  | .input _ | .load _ => false
  | _ => true

namespace Draft

def Live (d : Draft) (h : Handle) : Prop := (d.graph.find? h).isSome

variable (strict : Prop) (d : Draft)

def Usable (value : Handle) : Prop :=
  ∃ v, d.graph.find? value = some v ∧ (strict → v.Available d.trace d.trace.size)

def Held (value : Handle) : Prop :=
  ∃ v, d.graph.find? value = some v ∧ 0 < v.refs ∧ (strict → v.Available d.trace d.trace.size)

def Reachable (p : Place) (data : PlaceData) : Prop :=
  d.places.find? p = some data ∧ (strict → data.Available d.trace d.trace.size)

inductive Step : Draft → Prop where
  | node {ty : Ty} {kind : NodeKind} {operands : List Handle} : kind.isComputed = true →
      (∀ o ∈ operands, d.Usable strict o) → d.Fits ty kind operands →
      Step (d.withNode ty kind operands)
  | input (ty : Ty) : Step (d.withInput ty)
  | level : d.constants.find? .floatZero = none →
      Step { d with nextId := d.nextId + 1, constants := d.constants.register .floatZero d.nextId }
  | ref {value : Handle} : (d.graph.find? value).isSome → Step (d.withRef value)
  | binding (set binding : Word) (kind : BindingKind) (ty : Ty) (storage : Storage) :
      Step (d.withBinding set binding kind ty storage)
  | localVariable (ty : Ty) : Step (d.withLocal ty)
  | output {value : Handle} {v : Node} : d.graph.find? value = some v → (strict → v.Outermost) →
      Step (d.withOutput value v.ty)
  | builtin {b : Builtin} {value : Handle} {v : Node} : d.graph.find? value = some v →
      (strict → v.Outermost) → Step (d.withBuiltin b value v.ty)
  | chain {parent : Place} {data : PlaceData} {link : Link} (ty : Ty) :
      d.Reachable strict parent data → (∀ value, link = .index value → d.Held strict value) →
      d.Selects data.pointee ty link → Step (d.withPlace (d.chainData parent data link ty))
  | load {p : Place} {data : PlaceData} : d.Reachable strict p data →
      Step (d.withLoad p data.pointee)
  | store {p : Place} {data : PlaceData} {value : Handle} : d.Reachable strict p data →
      d.Usable strict value → d.Typed value data.pointee → Step (d.withStore p value)
  | beginIf {condition : Handle} : d.Held strict condition → d.Typed condition .bool →
      Step (d.openSelection condition)
  | beginElse {index : Nat} {outer : List Scope} {s : Selection} :
      d.scopes = .selection index :: outer → d.selections[index]? = some s → s.hasElse = false →
      Step (d.switchSelection index s)
  | endIf {index : Nat} {outer : List Scope} : d.scopes = .selection index :: outer →
      Step (d.closeBlock outer (.ifEnd index))
  | beginFor {first last step : Handle} {counter : Place} {data : PlaceData} :
      (∀ h ∈ [first, last, step], ∃ v literal, d.graph.find? h = some v ∧
        v.kind = .constant literal) →
      d.places.find? counter = some data → data.origin = .root →
      (∀ h ∈ [first, last, step], d.Typed h .sint) → data.pointee = .sint →
      Step (d.openLoop first last step counter)
  | endFor {index : Nat} {outer : List Scope} : d.scopes = .loop index :: outer →
      Step (d.closeBlock outer (.loopEnd index))
  | breakLoop {index : Nat} : innermostLoop? d.scopes = some index →
      Step (d.withJump (.leave index))
  | continueLoop {index : Nat} : innermostLoop? d.scopes = some index →
      Step (d.withJump (.next index))
  | release {g : Graph} : d.graph.Shrinks g → Step { d with graph := g }

abbrev Steps : Draft → Draft → Prop := ReflTransGen fun a b => Step strict a b

end Draft

def Call.InScope (d : Draft) : Call → Prop
  | .binary _ lhs rhs => d.Usable True lhs ∧ d.Usable True rhs
  | .negate value => d.Usable True value
  | .select condition accept reject =>
      d.Usable True condition ∧ d.Usable True accept ∧ d.Usable True reject
  | .construct _ parts => ∀ value ∈ parts, d.Usable True value
  | .member p _ => ∃ data, d.Reachable True p data
  | .index p value => (∃ data, d.Reachable True p data) ∧ d.Usable True value
  | .load p => ∃ data, d.Reachable True p data
  | .store p value => (∃ data, d.Reachable True p data) ∧ d.Usable True value
  | .beginIf condition => d.Usable True condition
  | .output value | .builtin _ value => ∃ v, d.graph.find? value = some v ∧ v.Outermost
  | _ => True

namespace Draft

variable {d : Draft}

theorem usable_of (found : d.graph.find? value = some v) (inScope : strict → d.Usable True value) :
    d.Usable strict value := by
  refine ⟨v, found, fun required => ?_⟩
  obtain ⟨v', found', available⟩ := inScope required
  obtain rfl := Option.mem_unique found found'
  exact available trivial

theorem reachable_of {p : Place} {data : PlaceData} (found : d.places.find? p = some data)
    (inScope : strict → ∃ data, d.Reachable True p data) : d.Reachable strict p data := by
  refine ⟨found, fun required => ?_⟩
  obtain ⟨data', found', available⟩ := inScope required
  obtain rfl := Option.mem_unique found found'
  exact available trivial

theorem outermost_of (found : d.graph.find? value = some v)
    (inScope : strict → ∃ v, d.graph.find? value = some v ∧ v.Outermost) :
    strict → v.Outermost := by
  intro required
  obtain ⟨v', found', outermost⟩ := inScope required
  obtain rfl := Option.mem_unique found found'
  exact outermost

theorem Usable.live (usable : d.Usable strict value) : (d.graph.find? value).isSome := by
  obtain ⟨v, found, _⟩ := usable
  rw [found]
  rfl

theorem Usable.held (usable : d.Usable strict value) : (d.withRef value).Held strict value := by
  obtain ⟨v, found, available⟩ := usable
  refine ⟨{ v with refs := v.refs + 1 }, ?_, Nat.succ_pos _, available⟩
  rw [find?_withRef, found, Option.map_some, if_pos rfl]

def Literally (d : Draft) (h : Handle) : Prop :=
  ∃ v literal, d.graph.find? h = some v ∧ v.kind = .constant literal ∧ v.ty = .sint

theorem Literally.live (known : d.Literally h) : (d.graph.find? h).isSome := by
  obtain ⟨v, _, found, _⟩ := known
  rw [found]
  rfl

theorem Literally.typed (known : d.Literally h) : d.Typed h .sint := by
  obtain ⟨v, _, found, _, typed⟩ := known
  exact typed_of found typed

theorem Literally.withRef (known : d.Literally h) (value : Handle) :
    (d.withRef value).Literally h := by
  obtain ⟨v, literal, found, kind, typed⟩ := known
  refine ⟨{ v with refs := v.refs + if value = h then 1 else 0 }, literal, ?_, kind, typed⟩
  rw [find?_withRef, found]
  rfl

theorem Literally.withNode (known : d.Literally h) (valid : d.graph.Valid) (ty : Ty)
    (kind : NodeKind) : (d.withNode ty kind []).Literally h := by
  obtain ⟨v, literal, found, isLiteral, typed⟩ := known
  refine ⟨_, literal, ?_, isLiteral, typed⟩
  have other : h ≠ d.graph.nextHandle := by
    intro same
    have := valid.serial_lt found
    rw [same] at this
    exact Nat.lt_irrefl _ this
  rw [find?_withNode valid (by simp), if_neg other, found]
  rfl

theorem Literally.withLocal (known : d.Literally h) (ty : Ty) :
    (d.withLocal ty).Literally h := known

theorem literally_new (valid : d.graph.Valid) (literal : Literal) :
    (d.withNode .sint (.constant literal) []).Literally d.graph.nextHandle :=
  ⟨_, literal, by rw [find?_withNode valid (by simp), if_pos rfl], rfl, rfl⟩

theorem step_integer (value : Int32) :
    Step strict d (d.withNode .sint (.constant (.int value)) []) :=
  .node rfl (by simp) (fits_constant (.int value))

section Bounds

variable (valid : d.graph.Valid) (low high : Int32)

include valid

theorem literally_bounds :
    ∀ h ∈ [d.graph.nextHandle,
        (d.withNode .sint (.constant (.int low)) []).graph.nextHandle,
        ((d.withNode .sint (.constant (.int low)) []).withNode .sint
          (.constant (.int high)) []).graph.nextHandle],
      (((d.withNode .sint (.constant (.int low)) []).withNode .sint
        (.constant (.int high)) []).withNode .sint (.constant (.int 1)) []).Literally h := by
  have valid₁ := valid_withNode valid .sint (.constant (.int low)) []
  have valid₂ := valid_withNode valid₁ .sint (.constant (.int high)) []
  simp only [List.mem_cons, List.not_mem_nil, or_false]
  rintro h (rfl | rfl | rfl)
  · exact ((literally_new valid _).withNode valid₁ _ _).withNode valid₂ _ _
  · exact (literally_new valid₁ _).withNode valid₂ _ _
  · exact literally_new valid₂ _

theorem steps_withBounds : d.Steps strict (d.withBounds low high) := by
  have known := literally_bounds valid low high
  refine .tail (.tail (.tail (.tail (.tail (.single (step_integer _)) (step_integer _))
    (step_integer _)) (.ref ?_)) (.ref ?_)) (.ref ?_)
  · exact (known _ (by simp)).live
  · exact ((known _ (by simp)).withRef _).live
  · exact (((known _ (by simp)).withRef _).withRef _).live

theorem steps_withLoop : d.Steps strict (d.withLoop low high) := by
  have counter : ((d.withBounds low high).withLocal .sint).places.find?
      (d.withBounds low high).places.next =
        some ((d.withBounds low high).variableData .function .sint true) := by
    simp only [withLocal, withVariable, withPlace, Places.find?_push, if_true]
  have bounds : d.Steps strict _ := steps_withBounds valid low high
  have known : ∀ h ∈ [d.graph.nextHandle, _, _],
      ((d.withBounds low high).withLocal .sint).Literally h := fun h member =>
    ((((literally_bounds valid low high h member).withRef _).withRef _).withRef _).withLocal .sint
  refine (bounds.tail (.localVariable .sint)).tail (.beginFor (fun h member => ?_) counter rfl
    (fun h member => (known h member).typed) rfl)
  obtain ⟨v, literal, found, kind, _⟩ := known h member
  exact ⟨v, literal, found, kind⟩

theorem steps_beginFor :
    d.Steps strict ((d.withLoop low high).withLoad (d.withBounds low high).places.next .sint) := by
  have counter := d.withLoop_counter low high
  have loops : d.Steps strict _ := steps_withLoop valid low high
  generalize d.withLoop low high = opened at counter loops
  generalize (d.withBounds low high).places.next = p at counter
  exact loops.tail (.load ⟨counter, fun _ => .inl rfl⟩)

end Bounds

end Draft

/-- Every call that succeeds is made of steps. Of a texture it has to be known that it is bound to a
variable. -/
theorem Effect.steps {d : Draft} {c : Call} {reply : Reply} {d' : Draft}
    (effect : Effect d c reply d') (valid : d.graph.Valid)
    (bindings : ∀ b ∈ d.bindings, ∀ data, d.places.find? b.place = some data → data.origin = .root)
    (inScope : strict → c.InScope d) : d.Steps strict d' := by
  have bound : ∀ {set binding kind ty p d'}, Bound d set binding kind ty p d' →
      d.Steps strict d' := by
    intro set binding kind ty p d' bound
    cases bound with
    | again => exact .refl
    | new => exact .single (.binding ..)
  have pair : ∀ {a b x y}, d.graph.find? a = some x → d.graph.find? b = some y →
      (strict → d.Usable True a ∧ d.Usable True b) → ∀ o ∈ [a, b], d.Usable strict o := by
    intro a b x y left right inScope
    simp only [List.mem_cons, List.not_mem_nil, or_false]
    rintro o (rfl | rfl)
    · exact Draft.usable_of left fun required => (inScope required).1
    · exact Draft.usable_of right fun required => (inScope required).2
  cases effect with
  | addInput ty => exact .single (.input ty)
  | input | pointee | typeOf => exact .refl
  | constant literal => exact .single (.node rfl (by simp) (Draft.fits_constant literal))
  | binary other left right lowered =>
    exact .single (.node rfl (pair left right inScope)
      (Draft.fits_pair left right (.binary other lowered)))
  | extract source index result notTexture checked =>
    exact .single (.node rfl (pair source index inScope)
      (Draft.fits_pair source index (.extract result notTexture checked)))
  | sample source index result texture =>
    have level : d.Steps strict d.withSampleLevel := by
      unfold Draft.withSampleLevel
      cases missing : (d.constants.find? .floatZero).isNone with
      | true => exact .single (.level (Option.isNone_iff_eq_none.mp missing))
      | false => exact .refl
    exact level.tail (.node rfl (pair source index inScope)
      (Draft.fits_pair (d := d.withSampleLevel) source index (.sample result texture)))
  | negate found lowered =>
    refine .single (.node rfl ?_ ⟨_, .cons (Draft.hasShape found) .nil, .unary lowered⟩)
    simp only [List.mem_singleton]
    rintro o rfl
    exact Draft.usable_of found inScope
  | select condition accept reject same chooses =>
    refine .single (.node rfl ?_ ⟨_, .cons (Draft.hasShape condition)
      (.cons (Draft.hasShape accept) (.cons (Draft.hasShape reject) .nil)),
      .select rfl same.symm chooses⟩)
    simp only [List.mem_cons, List.not_mem_nil, or_false]
    rintro o (rfl | rfl | rfl)
    · exact Draft.usable_of condition fun required => (inScope required).1
    · exact Draft.usable_of accept fun required => (inScope required).2.1
    · exact Draft.usable_of reject fun required => (inScope required).2.2
  | construct shape length typed =>
    refine .single (.node rfl (fun o member => ?_) (Draft.fits_construct shape length typed))
    obtain ⟨v, found, _⟩ := typed o member
    exact Draft.usable_of found fun required => inScope required o member
  | uniform b | storage b => exact bound b
  | texture b found =>
    refine (bound b).tail (.load ⟨found, fun _ => .inl ?_⟩)
    cases b with
    | again known _ _ => exact bindings _ (Array.mem_of_find?_eq_some known) _ found
    | new _ _ =>
      simp only [Draft.withBinding, Draft.withVariable, Draft.withPlace, Places.find?_push, if_true,
        Option.some.injEq] at found
      rw [← found]
      rfl
  | localVariable ty => exact .single (.localVariable ty)
  | member found selected =>
    exact .single (.chain _ (Draft.reachable_of found inScope) (by simp) selected)
  | @index p handle data v ty found value integer selected =>
    have usable := Draft.usable_of value fun required => (inScope required).2
    have reachable := Draft.reachable_of found fun required => (inScope required).1
    refine (ReflTransGen.single (.ref usable.live)).tail
      (.chain _ reachable ?_ ⟨selected, fun v' found' => ?_⟩)
    · rintro _ ⟨⟩
      exact usable.held
    · rw [Draft.find?_withRef, value] at found'
      obtain rfl := Option.some.inj found'
      exact integer
  | load found => exact .single (.load (Draft.reachable_of found inScope))
  | store found _ value typed =>
    exact .single (.store (Draft.reachable_of found fun required => (inScope required).1)
      (Draft.usable_of value fun required => (inScope required).2) (Draft.typed_of value typed))
  | beginIf found typed =>
    have usable := Draft.usable_of found inScope
    refine (ReflTransGen.single (.ref usable.live)).tail (.beginIf usable.held fun v' found' => ?_)
    rw [Draft.find?_withRef, found] at found'
    obtain rfl := Option.some.inj found'
    exact typed
  | beginElse opened found single => exact .single (.beginElse opened found single)
  | endIf opened => exact .single (.endIf opened)
  | beginFor _ => exact Draft.steps_beginFor valid _ _
  | endFor opened => exact .single (.endFor opened)
  | breakLoop inside => exact .single (.breakLoop inside)
  | continueLoop inside => exact .single (.continueLoop inside)
  | output found => exact .single (.output found (Draft.outermost_of found inScope))
  | builtin _ _ found _ => exact .single (.builtin found (Draft.outermost_of found inScope))
  | retain found => exact .single (.ref (by rw [found]; rfl))

theorem Draft.steps_withSlots (d : Draft) (slots : List Ty) :
    d.Steps strict (d.withSlots slots) := by
  induction slots generalizing d with
  | nil => exact .refl
  | cons ty rest ih => exact .head (.input ty) (ih (d.withInput ty))

end ShaderIR
