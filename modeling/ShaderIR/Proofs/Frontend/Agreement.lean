import ShaderIR.Proofs.Frontend.Log
import ShaderIR.Proofs.Frontend.Tables

/-! Plans against drafts. Once the arguments of a plan are brought into its shader and stand for
their static types, what it asks for is not refused for a type, and is answered with what is to be
given; only a member and an output that was not checked can turn out to be of another type. -/
namespace ShaderIR.Frontend

variable {a : Argument} {h : Handle} {v : Value} {arguments parts : List Argument}
  {handles : List Handle} {step : Step} {x : Build Place} {gift : Gift} {kind : Kind}
  {op : BinaryOp} {name : String} {p : Pointer} {plan : Plan}

variable {d d' : Draft} {w : World} {m : ShaderId}

/-! Arguments that were brought into a shader. -/

/-- A handle stands for an argument, if it stands for anything. A literal is the constant itself. -/
def Argument.Holds (d : Draft) (a : Argument) (h : Handle) : Prop :=
  match a with
  | .value v => d.Typed h v.kind.ty
  | .literal l => ∀ n, d.graph.find? h = some n → n.ty = l.ty ∧ n.kind = .constant l

namespace Argument

theorem Holds.typed (holds : a.Holds d h) : d.Typed h a.kind.ty := by
  cases a with
  | value v => exact holds
  | literal l =>
    intro n found
    rw [kind, Kind.ty_ofLiteral]
    exact (holds n found).1

theorem Holds.evolves (holds : a.Holds d h) (evolves : d.Evolves d')
    (given : h.serial < d.graph.nextSerial) : a.Holds d' h := by
  cases a with
  | value v => exact Draft.Typed.evolves holds evolves given
  | literal l =>
    intro n' found
    obtain ⟨n, before, kept⟩ := evolves.graph.old h n' given found
    rw [kept.same]
    exact holds n before

/-- A value of a shader that is not empty stands for its type. -/
def Stands (m : ShaderId) (d : Draft) (v : Value) : Prop :=
  v.shader = m → ∀ h, v.handle = some h → d.Typed h v.kind.ty ∧ h.serial < d.graph.nextSerial

theorem Stands.evolves (stands : Stands m d v) (evolves : d.Evolves d') : Stands m d' v := by
  intro own h full
  obtain ⟨typed, given⟩ := stands own h full
  exact ⟨typed.evolves evolves given, Nat.lt_of_lt_of_le given evolves.graph.nextSerial⟩

theorem handleIn_holds (issuing : d.Issuing) (stands : ∀ v, a = .value v → Stands m d v)
    (there : a.handleIn m d = some h) :
    a.Holds (d.after a.call?.toList) h ∧ h.serial < (d.after a.call?.toList).graph.nextSerial := by
  cases a with
  | value v =>
    rw [handleIn] at there
    split at there
    · rename_i own
      exact stands v rfl own h there
    · contradiction
  | literal l =>
    obtain rfl := Option.some.inj there
    have run := constant_ok d l
    have pushed : ShaderIR.Outcome (Draft.constant l) d
        (fun h d' => ∀ n, d'.graph.find? h = some n → n.ty = l.ty ∧ n.kind = .constant l)
        fun _ _ => False := by
      refine (Build.outcome_pushNode (by simp)).mpr fun n found => ?_
      rw [Draft.find?_withNode issuing.valid (by simp), if_pos rfl] at found
      rw [← Option.some.inj found]
      exact ⟨rfl, rfl⟩
    have answered : .ok (.value d.graph.nextHandle) ∈ d.answers [.constant l] := by
      simp [Draft.answers, Call.answer, Call.run, Functor.map, EStateM.map, run]
    exact ⟨pushed.ok run, issuing.serial_lt answered⟩

/-- Once all arguments are brought in, each handle stands for its argument. -/
theorem handlesIn_hold (issuing : d.Issuing) (stands : ∀ v, .value v ∈ arguments → Stands m d v)
    (all : (handlesIn m d arguments).mapM id = some handles) :
    List.Forall₂ (fun a h => a.Holds (d.after (calls arguments)) h) arguments handles := by
  induction arguments generalizing d handles with
  | nil =>
    obtain rfl := Option.some.inj all
    exact .nil
  | cons a rest ih =>
    have split : calls (a :: rest) = a.call?.toList ++ calls rest := by cases a <;> rfl
    simp only [handlesIn, List.mapM_cons, id_eq, Option.bind_eq_bind, Option.bind_eq_some_iff,
      Option.pure_def, Option.some.injEq] at all
    obtain ⟨h, here, others, later, rfl⟩ := all
    obtain ⟨holds, given⟩ := handleIn_holds issuing
      (fun v same => stands v (same ▸ List.mem_cons_self ..)) here
    -- the handle was given out before the other arguments are brought in, so it keeps its type
    obtain ⟨next, evolves⟩ := issuing.after a.call?.toList
    rw [split, Draft.after_append]
    refine .cons (holds.evolves (next.after (calls rest)).2 given)
      (ih next (fun v member => ?_) later)
    exact (stands v (List.mem_cons_of_mem a member)).evolves evolves

end Argument

def Gift.Holds (d : Draft) : Gift → Reply → Prop
  | .value kind, .value h => d.Typed h kind.ty
  | .pointer (.kind kind), .place p => d.PointsTo p kind.ty
  | .pointer .block, .place _ => True
  | .done, .done | .stored, .done => True
  | _, _ => False

def Step.isUnchecked : Step → Bool
  | .act (.member ..) | .act (.anyBuiltin ..) => true
  | _ => false

theorem Step.isUnchecked_cases (unchecked : step.isUnchecked = true) :
    (∃ p kind i, step = .act (.member p kind i)) ∨
      ∃ m role a, step = .act (.anyBuiltin m role a) := by
  unfold isUnchecked at unchecked
  split at unchecked
  · exact .inl ⟨_, _, _, rfl⟩
  · exact .inr ⟨_, _, _, rfl⟩
  · contradiction

/-- A fault that a step can run into: one that is not about types, or a mismatch in a step whose
types are checked by the draft alone. -/
def Step.Admits (step : Step) (fault : Fault) : Prop :=
  fault.isTyping = false ∨
    step.isUnchecked = true ∧ ∃ expected found, fault = .typeMismatch expected found

/-- What a step asks of a draft is answered with what is to be given, or refused for something that
the step admits. -/
abbrev Step.Meets (step : Step) (gift : Gift) (x : Build Reply) (d : Draft) : Prop :=
  ShaderIR.Outcome x d (fun reply d' => gift.Holds d' reply) fun fault _ => step.Admits fault

def Pointer.Stands (m : ShaderId) (d : Draft) (p : Pointer) : Prop :=
  p.shader = m → ∀ place kind, p.place = some place → p.target = .kind kind →
    d.PointsTo place kind.ty

/-- A plan that fits a world: it is made of what names are bound to, and once its arguments are
there, what it asks for is not refused for their types and is answered with what it is to give. -/
structure Plan.Apt (w : World) (step : Step) (plan : Plan) : Prop where
  bound : plan.Bound w
  agrees : ∀ {d : Draft} {handles : List Handle}, d.Led →
    (∀ name p, w.pointers.find? name = some p → p.Stands plan.request.shader d) →
    plan.request.arguments.any (Argument.isForeign plan.request.shader) = false →
    List.Forall₂ (fun a h => a.Holds d h) plan.request.arguments handles →
    plan.request.ready = true →
    step.Meets plan.gift (plan.request.ask handles).build d

/-! Replies of the right kind. -/

section Replies

variable {step : Step} {α : Type}

theorem meets_map {x : Build α} {good : α → Draft → Prop} {f : α → Reply}
    (agrees : Draft.Agrees x d good) (holds : ∀ a d', good a d' → gift.Holds d' (f a)) :
    step.Meets gift (f <$> x) d := by
  rw [Step.Meets, outcome_map]
  exact agrees.mono holds fun _ _ => .inl

theorem value_outcome {x : Build Handle} {ty : Ty} (same : ty = kind.ty)
    (agrees : Draft.Agrees x d fun h d' => d'.Typed h ty) :
    step.Meets (.value kind) (Reply.value <$> x) d := by
  subst same
  exact meets_map agrees fun _ _ typed => typed

theorem place_outcome (agrees : Draft.Agrees x d fun p d' => d'.PointsTo p kind.ty) :
    step.Meets (.pointer (.kind kind)) (Reply.place <$> x) d :=
  meets_map agrees fun _ _ points => points

theorem block_outcome {good : Place → Draft → Prop} (agrees : Draft.Agrees x d good) :
    step.Meets (.pointer .block) (Reply.place <$> x) d :=
  meets_map agrees fun _ _ _ => trivial

theorem done_outcome {x : Build α} (plain : gift = .done ∨ gift = .stored) {good : α → Draft → Prop}
    (agrees : Draft.Agrees x d good) : step.Meets gift ((fun _ => Reply.done) <$> x) d := by
  refine meets_map agrees fun _ _ _ => ?_
  rcases plain with rfl | rfl <;> exact trivial

/-- A value of any type is written to an output, or that is what is wrong with it. -/
theorem anyBuiltin_outcome {m : ShaderId} {a : Operand} (role : Builtin) (h : Handle) :
    (Step.act (.anyBuiltin m role a)).Meets .done (Call.builtin role h).run d := by
  rw [Step.Meets, Call.run, outcome_map]
  refine (Draft.builtin_outcome role h).mono (fun _ _ _ => trivial) ?_
  rintro fault _ (untyped | ⟨v, _, _, rfl⟩)
  · exact .inl untyped
  · exact .inr ⟨rfl, _, _, rfl⟩

/-- A member is of the type that was asked for, or that is what it is refused for. -/
theorem member_outcome {p : String} (place : Place) (i : Word) (kind : Kind) :
    (Step.act (.member p kind i)).Meets (.pointer (.kind kind))
      (Ask.member place i kind.ty).build d := by
  simp only [Step.Meets, Ask.build, outcome_bind]
  refine (Draft.agrees_member place i).mono (fun part d' _ => ?_) fun _ _ => .inl
  simp only [Draft.pointee, outcome_bind, Build.outcome_placeData, outcome_pure]
  refine ⟨fun data found => ?_, fun _ => .inl rfl⟩
  split
  · exact .inr ⟨rfl, _, _, rfl⟩
  · rename_i same
    intro data' found'
    rw [Option.mem_unique found' found]
    exact not_not.mp same

end Replies

/-! Plans that fit, by the shape of their request. -/

namespace Plan

variable {step : Step} {gift : Gift} {b : Argument}

theorem apt_plain {c : Call}
    (agrees : ∀ d : Draft, d.Led → step.Meets gift c.run d) : Apt w step ⟨.plain m c, gift⟩ where
  bound := bound_ready rfl (by simp [Request.plain])
  agrees led _ _ _ _ := agrees _ led

theorem apt_unary {call : Handle → Call} (bound : a.Bound w)
    (agrees : ∀ (d : Draft) h, d.Led → a.Holds d h →
      step.Meets gift (call h).run d) : Apt w step ⟨.unary m a call, gift⟩ where
  bound := bound_ready rfl (by simpa [Request.unary] using bound)
  agrees led _ _ holds _ := by
    obtain _ | ⟨first, _ | _⟩ := holds
    exact agrees _ _ led first

theorem apt_binary (left : a.Bound w) (right : b.Bound w)
    (agrees : ∀ (d : Draft) x y, d.Led → a.Holds d x → b.Holds d y →
      step.Meets gift (Call.binary op x y).run d) : Apt w step ⟨.binary m op a b, gift⟩ where
  bound := bound_ready rfl (by simpa [Request.binary] using ⟨left, right⟩)
  agrees led _ _ holds _ := by
    obtain _ | ⟨first, _ | ⟨second, _ | _⟩⟩ := holds
    exact agrees _ _ _ led first second

theorem apt_lowers (left : a.Bound w) (right : b.Bound w)
    (lowers : Kind.Lowers op a.kind.ty b.kind.ty kind.ty) :
    Apt w step ⟨.binary m op a b, .value kind⟩ := by
  obtain ⟨other, lowering, lowered, result⟩ := lowers
  exact apt_binary left right fun d x y led first second => value_outcome result
    (Draft.agrees_binary led.issuing.valid other first.typed second.typed lowered)

/-- A lookup whose operands fit. A column is taken at a literal. -/
theorem apt_lookup (left : a.Bound w) (right : b.Bound w)
    (fits : BinaryOp.lookupResult a.kind.ty b.kind.ty = .ok kind.ty)
    (steady : a.kind.ty.isMatrix = true → ∃ i, b = .literal (.int i)) :
    Apt w step ⟨.binary m .lookup a b, .value kind⟩ := by
  refine apt_binary left right fun d x y led first second => value_outcome rfl
    (Draft.agrees_lookup led.issuing.valid first.typed second.typed fits ?_)
  intro matrix n found
  obtain ⟨i, rfl⟩ := steady matrix
  rw [(second n found).2, NodeKind.constantIndex]
  split <;> simp

theorem apt_select {c : Value} (condition : (Argument.value c).Bound w) (left : a.Bound w)
    (right : b.Bound w) (bool : c.kind = .bool) (same : a.kind = b.kind) :
    Apt w step ⟨.select c a b, .value a.kind⟩ where
  bound := bound_ready rfl (by simpa [Request.select] using ⟨condition, left, right⟩)
  agrees led _ _ holds _ := by
    obtain _ | ⟨first, _ | ⟨second, _ | ⟨third, _ | _⟩⟩⟩ := holds
    have condition := first.typed
    rw [Argument.kind, bool] at condition
    have reject := third.typed
    rw [← same] at reject
    exact value_outcome rfl
      (Draft.agrees_select led.issuing.valid condition second.typed reject)

theorem construct_typed (holds : List.Forall₂ (fun a h => a.Holds d h) parts handles)
    (same : ∀ a ∈ parts, a.kind = kind) : ∀ h ∈ handles, d.Typed h kind.ty := by
  induction holds with
  | nil => simp
  | @cons a h parts handles first _ ih =>
    intro h' member
    rcases List.mem_cons.mp member with rfl | later
    · rw [← same a (by simp)]
      exact first.typed
    · exact ih (fun b member => same b (List.mem_cons_of_mem a member)) h' later

theorem apt_construct {part : Kind} {count : Nat} (bound : ∀ a ∈ parts, a.Bound w)
    (shaped : Draft.constructParts kind.ty = .ok (count, part.ty))
    (same : ∀ a ∈ parts, a.kind = part) : Apt w step ⟨.construct m kind.ty parts, .value kind⟩ where
  bound := bound_ready rfl bound
  agrees led _ _ holds _ := value_outcome rfl
    (Draft.agrees_construct led.issuing.valid shaped (construct_typed holds same))

/-- A value of another shader is never asked about. -/
theorem apt_foreign (bound : (Argument.value v).Bound w) (foreign : v.shader ≠ m) :
    Apt w step ⟨.bring m (.value v), gift⟩ where
  bound := bound_ready rfl (by simpa [Request.bring] using bound)
  agrees _ _ own _ _ := by simp [Request.bring, Argument.isForeign, foreign] at own

theorem apt_through (found : w.pointers.find? name = some p) {ask : Place → List Handle → Ask}
    (bound : ∀ a ∈ arguments, a.Bound w)
    (agrees : ∀ (d : Draft) place handles, d.Led → p.place = some place →
      (∀ kind, p.target = .kind kind → d.PointsTo place kind.ty) →
      List.Forall₂ (fun a h => a.Holds d h) arguments handles →
      step.Meets gift (ask place handles).build d) :
    Apt w step ⟨.through p arguments ask, gift⟩ where
  bound := bound_through found bound
  agrees {d handles} led pointers _ holds ready := by
    obtain ⟨place, full⟩ := Option.isSome_iff_exists.mp ready
    have asked : (Request.through p arguments ask).ask handles = ask place handles := by
      simp [Request.through, full]
    rw [asked]
    exact agrees d place handles led full
      (fun kind target => pointers name p found rfl place kind full target) holds

theorem apt_with (found : w.pointers.find? name = some p) {call : Place → Handle → Call}
    (bound : a.Bound w) (agrees : ∀ (d : Draft) place h, d.Led →
      (∀ kind, p.target = .kind kind → d.PointsTo place kind.ty) → a.Holds d h →
      step.Meets gift (call place h).run d) :
    Apt w step ⟨.through p [a] fun place => .one (call place), gift⟩ := by
  refine apt_through found (by simpa using bound) fun d place handles led full points holds => ?_
  obtain _ | ⟨first, _ | _⟩ := holds
  exact agrees d place _ led points first

end Plan

open Plan Operand Argument in
/-- Whatever an action plans fits. -/
theorem Action.plan_apt {action : Action} (planned : action.plan? w = some plan) :
    plan.Apt w (.act action) := by
  cases action <;>
    simp only [Action.plan?, Option.bind_eq_bind, Option.bind_eq_some_iff,
      Option.ite_none_right_eq_some, Option.some.injEq, reduceCtorEq] at planned
  case input m kind =>
    subst planned
    exact apt_plain fun d led => value_outcome rfl (Draft.agrees_addInput led.issuing.valid _)
  case texture m dim set binding =>
    subst planned
    exact apt_plain fun d led => value_outcome rfl (Draft.agrees_texture led ..)
  case uniform | storage =>
    subst planned
    exact apt_plain fun d led => block_outcome (Draft.agrees_bind ..)
  case localVariable m kind =>
    subst planned
    exact apt_plain fun d led => place_outcome (Draft.agrees_localVariable _)
  case breakLoop m =>
    subst planned
    exact apt_plain fun d led => done_outcome (.inl rfl) Draft.agrees_breakLoop
  case continueLoop m =>
    subst planned
    exact apt_plain fun d led => done_outcome (.inl rfl) Draft.agrees_continueLoop
  case output m a =>
    obtain ⟨a, found, rfl⟩ := planned
    exact apt_unary (argument_bound found) fun d h _ _ =>
      done_outcome (.inl rfl) (Draft.agrees_output h)
  case builtin m role a =>
    obtain ⟨a, found, fits, rfl⟩ := planned
    exact apt_unary (argument_bound found) fun d h _ holds => done_outcome (.inl rfl)
      (Draft.agrees_builtin holds.typed (accepts_of_fitsBuiltin fits))
  case anyBuiltin m role a =>
    obtain ⟨a, found, rfl⟩ := planned
    exact apt_unary (argument_bound found) fun d h _ _ => anyBuiltin_outcome role h
  case constant m a =>
    obtain ⟨a, found, planned⟩ := planned
    cases a with
    | literal l =>
      obtain rfl := Option.some.inj planned
      exact apt_plain fun d led =>
        value_outcome (Kind.ty_ofLiteral l).symm (Draft.agrees_constant led.issuing.valid l)
    | value v =>
      dsimp only at planned
      split at planned
      · contradiction
      · rename_i foreign
        obtain rfl := Option.some.inj planned
        exact apt_foreign (argument_bound found) foreign
  case vector m arity parts =>
    obtain ⟨parts, found, fits, rfl⟩ := planned
    simp only [Bool.and_eq_true, List.all_eq_true, beq_iff_eq] at fits
    exact apt_construct (mapM_each (fun _ _ => argument_bound) found) (Kind.parts_vec arity) fits.2
  case array m element length parts =>
    obtain ⟨parts, found, fits, rfl⟩ := planned
    simp only [List.all_eq_true, beq_iff_eq] at fits
    have bound := mapM_each (P := fun v => (Argument.value v).Bound w)
      (fun _ _ => bound_value) found
    refine apt_construct ?_ (Kind.parts_array element length) ?_
    · simpa using bound
    · simpa [Argument.kind] using fits
  case arithmetic op a b =>
    obtain ⟨a, foundA, b, foundB, ⟨op', kind⟩, found, planned⟩ := planned
    have left := argument_bound foundA
    have right := argument_bound foundB
    have lowers := Kind.lowers_arithmetic found
    cases a with
    | value v =>
      obtain rfl := Option.some.inj planned
      exact apt_lowers left right lowers
    | literal l =>
      cases b with
      | value v =>
        obtain rfl := Option.some.inj planned
        exact apt_lowers left right lowers
      | literal => contradiction
  case negate a =>
    obtain ⟨a, found, signed, rfl⟩ := planned
    obtain ⟨operation, lowered⟩ := Kind.lowers_negation signed
    exact apt_unary (bound_value found) fun d h led holds =>
      value_outcome rfl (Draft.agrees_negate led.issuing.valid holds.typed lowered)
  case dot a b =>
    obtain ⟨a, foundA, b, foundB, kind, found, rfl⟩ := planned
    exact apt_lowers (bound_value foundA) (argument_bound foundB) (Kind.lowers_dot found)
  case compare op a b =>
    obtain ⟨a, foundA, b, foundB, admitted, rfl⟩ := planned
    exact apt_lowers (bound_value foundA) (argument_bound foundB) (Kind.lowers_comparison admitted)
  case select c a b =>
    obtain ⟨c, foundC, a, foundA, b, foundB, fits, rfl⟩ := planned
    simp only [Bool.and_eq_true, beq_iff_eq] at fits
    exact apt_select (bound_value foundC) (argument_bound foundA) (argument_bound foundB)
      fits.1 fits.2
  case sample a b =>
    obtain ⟨a, foundA, b, foundB, coordinates, found, same, rfl⟩ := planned
    obtain ⟨fits, plain⟩ := Kind.lookup_sample found
    rw [← beq_iff_eq.mp same] at fits
    exact apt_lookup (bound_value foundA) (argument_bound foundB) fits
      fun matrix => by simp [Argument.kind, plain] at matrix
  case component a b =>
    obtain ⟨a, foundA, b, foundB, planned⟩ := planned
    split at planned
    · rename_i arity vector
      obtain ⟨same, planned⟩ := Option.ite_none_right_eq_some.mp planned
      obtain rfl := Option.some.inj planned
      obtain ⟨fits, plain⟩ := Kind.lookup_component arity
      rw [← beq_iff_eq.mp same, ← vector] at fits
      exact apt_lookup (bound_value foundA) (argument_bound foundB) fits
        fun matrix => by simp [Argument.kind, vector, plain] at matrix
    · contradiction
  case column a i =>
    obtain ⟨a, found, planned⟩ := planned
    split at planned
    · rename_i arity matrix
      obtain rfl := Option.some.inj planned
      have fits := Kind.lookup_column arity
      rw [← matrix] at fits
      exact apt_lookup (bound_value found) (bound_literal w _) fits fun _ => ⟨i, rfl⟩
    · contradiction
  case member p kind i =>
    obtain ⟨p, found, rfl⟩ := planned
    exact apt_through found (by simp) fun d place _ _ _ _ _ => member_outcome place i kind
  case index p a =>
    obtain ⟨p, found, a, foundA, planned⟩ := planned
    split at planned
    · rename_i kind target
      simp only [Option.bind_eq_some_iff, Option.ite_none_right_eq_some, Option.some.injEq]
        at planned
      obtain ⟨element, reached, integer, rfl⟩ := planned
      refine apt_with found (argument_bound foundA) fun d place h _ points holds => place_outcome ?_
      have typed := holds.typed
      rw [beq_iff_eq.mp integer] at typed
      exact Draft.agrees_index (points kind target) typed (Kind.element_ty reached)
    · contradiction
  case load p =>
    obtain ⟨p, found, planned⟩ := planned
    split at planned
    · rename_i kind target
      obtain rfl := Option.some.inj planned
      exact apt_through found (by simp) fun d place _ led _ points _ =>
        value_outcome rfl (Draft.agrees_load led.issuing.valid (points kind target))
    · contradiction
  case store p a =>
    obtain ⟨p, found, a, foundA, target, rfl⟩ := planned
    exact apt_with found (argument_bound foundA) fun d place h _ points holds =>
      done_outcome (.inr rfl)
        (Draft.agrees_store (points a.kind (beq_iff_eq.mp target)) holds.typed)

open Plan in
theorem Step.plan_apt (planned : step.plan? w = some plan) : plan.Apt w step := by
  cases step with
  | act action => exact Action.plan_apt planned
  | beginIf m condition =>
    simp only [Step.plan?, Option.bind_eq_bind, Option.bind_eq_some_iff,
      Option.ite_none_right_eq_some, Option.some.injEq] at planned
    obtain ⟨a, found, bool, rfl⟩ := planned
    refine apt_unary (Operand.argument_bound found) fun d h _ holds =>
      done_outcome (.inl rfl) (Draft.agrees_beginIf ?_)
    have typed := holds.typed
    rwa [bool] at typed
  | beginElse m =>
    obtain rfl := Option.some.inj planned
    exact apt_plain fun d led => done_outcome (.inl rfl) Draft.agrees_beginElse
  | endIf m =>
    obtain rfl := Option.some.inj planned
    exact apt_plain fun d led => done_outcome (.inl rfl) Draft.agrees_endIf
  | beginFor m first last =>
    obtain rfl := Option.some.inj planned
    exact apt_plain fun d led => value_outcome rfl (Draft.agrees_beginFor led.issuing.valid ..)
  | endFor m =>
    obtain rfl := Option.some.inj planned
    exact apt_plain fun d led => done_outcome (.inl rfl) Draft.agrees_endFor

end ShaderIR.Frontend
