import ShaderIR.Proofs.Enclosed
import ShaderIR.Proofs.Frontend.Soundness

/-! The open blocks of shaders. Actions leave them as they are, and so does a step that fails to
open a block; a block that is opened is there to be closed for as long as it is kept the innermost
one. -/
namespace ShaderIR.Frontend

variable {c : Call} {call : Handle → Call} {m n : ShaderId} {a : Argument} {reply : Reply}
  {d : Draft} {s : Shader}

/-! What steps ask for. -/

namespace Ask

def All (P : Call → Prop) (ask : Ask) : Prop := ∀ c ∈ ask.calls, P c

variable {P : Call → Prop}

theorem all_nothing : Ask.nothing.All P := by
  intro c member
  contradiction

theorem all_call (holds : P c) : (Ask.call c).All P := by
  intro c' member
  rwa [List.mem_singleton.mp member]

theorem all_one (holds : ∀ a, P (call a)) (handles : List Handle) :
    (Ask.one call handles).All P := by
  unfold one
  split
  · exact all_call (holds _)
  · exact all_nothing

theorem all_two {call : Handle → Handle → Call} (holds : ∀ a b, P (call a b))
    (handles : List Handle) : (Ask.two call handles).All P := by
  unfold two
  split
  · exact all_call (holds _ _)
  · exact all_nothing

theorem all_three {call : Handle → Handle → Handle → Call} (holds : ∀ a b c, P (call a b c))
    (handles : List Handle) : (Ask.three call handles).All P := by
  unfold three
  split
  · exact all_call (holds _ _ _)
  · exact all_nothing

/-- What is asked for by calls that neither switch nor close a block is not refused for unpaired
blocks. -/
theorem paired_build {ask : Ask} (plain : ask.All fun c => c.builds = true ∧ c.closes = false)
    (d : Draft) :
    ShaderIR.Outcome ask.build d (fun _ _ => True) fun fault _ => fault.isUnpaired = false := by
  cases ask with
  | nothing => trivial
  | call c =>
    obtain ⟨builds, other⟩ := plain c (List.mem_singleton_self c)
    have building : c.restarts = false := by
      cases c with
      | compile | reset => contradiction
      | _ => rfl
    exact (Call.carries_run building other).paired
  | member place index ty =>
    unfold build
    rw [outcome_bind]
    refine (Draft.carries_member place index).paired.imp fun part _ _ => ?_
    rw [outcome_bind]
    refine (Draft.carries_pointee part).paired.imp fun found _ _ => ?_
    split
    · exact rfl
    · trivial

end Ask

def Request.Calm (r : Request) : Prop := ∀ handles, (r.ask handles).All fun c => c.isCalm = true

namespace Request

theorem calm_plain (calm : c.isCalm = true) : (plain m c).Calm :=
  fun _ => Ask.all_call calm

theorem calm_unary (calm : ∀ h, (call h).isCalm = true) : (unary m a call).Calm :=
  Ask.all_one calm

theorem calm_binary {op : BinaryOp} {b : Argument} : (binary m op a b).Calm :=
  Ask.all_two fun _ _ => rfl

theorem calm_construct {ty : Ty} {parts : List Argument} : (construct m ty parts).Calm :=
  fun _ => Ask.all_call rfl

theorem calm_through {p : Pointer} {arguments : List Argument} {ask : Place → List Handle → Ask}
    (calm : ∀ place handles, (ask place handles).All fun c => c.isCalm = true) :
    (through p arguments ask).Calm := by
  intro handles
  show (p.place.elim .nothing fun place => ask place handles).All _
  cases p.place with
  | none => exact Ask.all_nothing
  | some place => exact calm place handles

end Request

open Request in
/-- Actions have nothing to do with blocks. -/
theorem Action.plan_calm {action : Action} {w : World} {plan : Plan}
    (planned : action.plan? w = some plan) : plan.request.Calm := by
  cases action <;>
    simp only [Action.plan?, Option.bind_eq_bind, Option.bind_eq_some_iff,
      Option.ite_none_right_eq_some, Option.some.injEq, reduceCtorEq] at planned
  case input | texture | uniform | storage | localVariable | breakLoop | continueLoop =>
    subst planned
    exact calm_plain rfl
  case output | anyBuiltin =>
    obtain ⟨a, _, rfl⟩ := planned
    exact calm_unary fun _ => rfl
  case builtin | negate =>
    obtain ⟨a, _, _, rfl⟩ := planned
    exact calm_unary fun _ => rfl
  case constant m a =>
    obtain ⟨a, _, planned⟩ := planned
    cases a with
    | literal l =>
      obtain rfl := Option.some.inj planned
      exact calm_plain rfl
    | value v =>
      obtain ⟨_, planned⟩ := Option.ite_none_left_eq_some.mp planned
      obtain rfl := Option.some.inj planned
      exact fun _ => Ask.all_nothing
  case vector | array =>
    obtain ⟨parts, _, _, rfl⟩ := planned
    exact calm_construct
  case arithmetic op a b =>
    obtain ⟨a, _, b, _, ⟨op', kind⟩, _, planned⟩ := planned
    cases a with
    | value v =>
      obtain rfl := Option.some.inj planned
      exact calm_binary
    | literal l =>
      cases b with
      | value v =>
        obtain rfl := Option.some.inj planned
        exact calm_binary
      | literal => contradiction
  case dot =>
    obtain ⟨a, _, b, _, kind, _, rfl⟩ := planned
    exact calm_binary
  case compare =>
    obtain ⟨a, _, b, _, _, rfl⟩ := planned
    exact calm_binary
  case sample =>
    obtain ⟨a, _, b, _, coordinates, _, _, rfl⟩ := planned
    exact calm_binary
  case component =>
    obtain ⟨a, _, b, _, planned⟩ := planned
    split at planned
    · obtain ⟨_, planned⟩ := Option.ite_none_right_eq_some.mp planned
      obtain rfl := Option.some.inj planned
      exact calm_binary
    · contradiction
  case column =>
    obtain ⟨a, _, planned⟩ := planned
    split at planned
    · obtain rfl := Option.some.inj planned
      exact calm_binary
    · contradiction
  case select =>
    obtain ⟨c, _, a, _, b, _, _, rfl⟩ := planned
    exact Ask.all_three fun _ _ _ => rfl
  case member =>
    obtain ⟨p, _, rfl⟩ := planned
    exact calm_through fun _ _ => Ask.all_call rfl
  case index =>
    obtain ⟨p, _, a, _, planned⟩ := planned
    split at planned
    · simp only [Option.bind_eq_some_iff, Option.ite_none_right_eq_some, Option.some.injEq]
        at planned
      obtain ⟨element, _, _, rfl⟩ := planned
      exact calm_through fun _ => Ask.all_one fun _ => rfl
    · contradiction
  case load =>
    obtain ⟨p, _, planned⟩ := planned
    split at planned
    · obtain rfl := Option.some.inj planned
      exact calm_through fun _ _ => Ask.all_call rfl
    · contradiction
  case store =>
    obtain ⟨p, _, a, _, _, rfl⟩ := planned
    exact calm_through fun _ => Ask.all_one fun _ => rfl

/-! What requests do to the blocks of a draft. -/

namespace Request

variable {r : Request} {d : Draft}

theorem calm_calls (arguments : List Argument) :
    ∀ c ∈ Argument.calls arguments, c.isCalm = true := by
  intro c member
  obtain ⟨a, _, call⟩ := List.mem_filterMap.mp member
  cases a with
  | value v => contradiction
  | literal l =>
    obtain rfl := Option.some.inj call
    rfl

theorem ground_undisturbed (r : Request) (issuing : d.Issuing) : d.Undisturbed (r.ground d) :=
  Draft.undisturbed_after issuing (calm_calls r.arguments)

theorem Calm.undisturbed (calm : r.Calm) (issuing : d.Issuing) : d.Undisturbed (r.leaves d) := by
  rw [leaves_eq]
  apply Draft.undisturbed_after issuing
  intro c member
  rcases List.mem_append.mp member with brings | asks
  · exact calm_calls _ c brings
  · cases asked : r.asked d with
    | none => simp [asked] at asks
    | some ask =>
      rw [asked] at asks
      obtain ⟨_, handles, _, rfl⟩ := asked_iff.mp asked
      exact calm handles c asks

/-- A request that is not carried out disturbs nothing. -/
theorem undone_undisturbed (issuing : d.Issuing)
    (builds : ∀ handles, (r.ask handles).All fun c => c.builds = true)
    (undone : (r.fate d).reply? = none) : d.Undisturbed (r.leaves d) := by
  have ground := r.ground_undisturbed issuing
  cases asked : r.asked d with
  | none => simpa only [leaves, asked] using ground
  | some ask =>
    obtain ⟨_, handles, all, rfl⟩ := asked_iff.mp asked
    have own := own_of_full all
    simp only [fate, own, asked, Bool.false_eq_true, if_false] at undone
    simp only [leaves, asked]
    cases run : (r.ask handles).build (r.ground d) with
    | ok reply d' =>
      rw [run] at undone
      contradiction
    | error fault d' =>
      have next : (r.ground d).Issuing := (issuing.after _).1
      cases what : r.ask handles with
      | nothing =>
        rw [what] at run
        contradiction
      | call c =>
        have builds := builds handles
        rw [what] at run builds
        have same : d' = r.ground d :=
          (Call.run_yields next.valid (builds c (List.mem_singleton_self c))).error run
        rwa [same]
      | member place index ty =>
        have left := (r.ask handles).leaves_build (r.ground d)
        rw [run, what] at left
        have left : d' = (r.ground d).after [.member place index] := left
        rw [left]
        exact ground.trans (Draft.undisturbed_after next (by simp [Call.isCalm, Call.builds,
          Call.opens, Call.closes]))

theorem done_run (done : r.fate d = .done reply) :
    ∃ ask, r.asked d = some ask ∧ ask.build (r.ground d) = .ok reply (r.leaves d) := by
  obtain ⟨ask, d', asked, run⟩ := done_iff.mp done
  refine ⟨ask, asked, ?_⟩
  simp only [leaves, asked, run]

end Request

namespace Moment

variable {t : Moment} {plan : Plan} {s : Shader}

/-! What a step does to the shader that it makes a request to, and to the others. -/

theorem others (planned : t.plan? = some plan) (other : n ≠ plan.request.shader) :
    t.after.shaders[n]? = t.world.shaders[n]? := by
  rw [after_planned planned]
  cases found : t.world.shaders[plan.request.shader]? with
  | none => rw [plan.request.perform_missing found]
  | some s =>
    rw [plan.request.perform_eq found]
    exact World.put_other other _

theorem target (planned : t.plan? = some plan)
    (found : t.world.shaders[plan.request.shader]? = some s) :
    t.after.shaders[plan.request.shader]? = some (s.serving (plan.request.leaves s.draft)
      (plan.request.fate s.draft).fault?) := by
  rw [after_planned planned, plan.request.perform_eq found]
  exact World.put_found found _

theorem isDone_found (planned : t.plan? = some plan)
    (found : t.world.shaders[plan.request.shader]? = some s) :
    t.isDone = (plan.request.fate s.draft).reply?.isSome := by
  rw [isDone_planned planned, plan.request.perform_eq found]

/-- A step that is done makes a request to a shader that exists. -/
theorem of_isDone (done : t.isDone = true) :
    ∃ plan s reply, t.plan? = some plan ∧ t.world.shaders[plan.request.shader]? = some s ∧
      plan.request.fate s.draft = .done reply := by
  cases planned : t.plan? with
  | none =>
    rw [isDone_unplanned planned] at done
    contradiction
  | some plan =>
    cases found : t.world.shaders[plan.request.shader]? with
    | none =>
      rw [isDone_planned planned, plan.request.perform_missing found] at done
      contradiction
    | some s =>
      rw [isDone_found planned found] at done
      obtain ⟨reply, replied⟩ := Option.isSome_iff_exists.mp done
      exact ⟨plan, s, reply, rfl, found, Fate.reply?_eq_some.mp replied⟩

theorem plain_done {gift : Gift} (planned : t.plan? = some ⟨.plain m c, gift⟩)
    (found : t.world.shaders[m]? = some s) (run : c.run s.draft = .ok reply d) :
    t.isDone = true ∧ ∃ s', t.after.shaders[m]? = some s' ∧ s'.draft = d := by
  have fate : (Request.plain m c).fate s.draft = .done reply := by
    rw [Request.done_iff]
    exact ⟨.call c, d, rfl, run⟩
  have left : (Request.plain m c).leaves s.draft = d := by
    obtain ⟨ask, asked, same⟩ := Request.done_run fate
    obtain rfl : Ask.call c = ask := Option.some.inj asked
    exact (EStateM.Result.ok.inj (same.symm.trans run)).2
  constructor
  · rw [isDone_found planned found, fate]
    rfl
  · exact ⟨_, target planned found, left⟩

end Moment

/-! Worlds whose open blocks are settled. -/

namespace World

def scopes (w : World) (m : ShaderId) : Option (List Scope) :=
  w.shaders[m]?.map fun s => s.draft.scopes

def Issued (w : World) : Prop := ∀ (m : ShaderId) s, w.shaders[m]? = some s → s.draft.Issuing

structure Level (within : List ShaderId) (w : World) : Prop where
  issued : w.Issued
  flat : ∀ m ∉ within, ∀ stack, w.scopes m = some stack → stack = []

/-- The open blocks of a shader are the same in two worlds. One of the given shaders has not started
over in between, so its blocks are the very same ones. -/
def Settled (within : List ShaderId) (w w' : World) (m : ShaderId) : Prop :=
  Option.Rel (fun s s' => s'.draft.scopes = s.draft.scopes ∧
    (m ∈ within → s.draft.Undisturbed s'.draft)) w.shaders[m]? w'.shaders[m]?

variable {within : List ShaderId} {w w₁ w₂ w₃ : World}

theorem settled_of_eq (same : w₁.shaders[m]? = w.shaders[m]?) : Settled within w w₁ m := by
  rw [Settled, same]
  cases w.shaders[m]? with
  | none => exact .none
  | some s => exact .some ⟨rfl, fun _ => .refl _⟩

theorem settled_of_undisturbed {s₁ : Shader} (found : w.shaders[m]? = some s)
    (found₁ : w₁.shaders[m]? = some s₁) (undisturbed : s.draft.Undisturbed s₁.draft) :
    Settled within w w₁ m := by
  rw [Settled, found, found₁]
  exact .some ⟨undisturbed.scopes, fun _ => undisturbed⟩

theorem Settled.trans (first : Settled within w w₁ m) (second : Settled within w₁ w₂ m) :
    Settled within w w₂ m := by
  unfold Settled at *
  generalize w.shaders[m]? = a, w₁.shaders[m]? = b, w₂.shaders[m]? = c at *
  cases first with
  | none => exact second
  | some first =>
    cases second with
    | some second =>
      refine .some ⟨second.1.trans first.1, fun inside => ?_⟩
      exact (first.2 inside).trans (second.2 inside)

theorem Settled.scopes (settled : Settled within w w₁ m) : w₁.scopes m = w.scopes m := by
  unfold Settled at settled
  unfold World.scopes
  generalize w.shaders[m]? = a, w₁.shaders[m]? = b at *
  cases settled with
  | none => rfl
  | some same => exact congrArg some same.1

theorem Settled.found (settled : Settled within w w₁ m) (found : w.shaders[m]? = some s)
    (inside : m ∈ within) : ∃ s₁, w₁.shaders[m]? = some s₁ ∧ s.draft.Undisturbed s₁.draft := by
  unfold Settled at settled
  rw [found] at settled
  generalize w₁.shaders[m]? = b at *
  cases settled with
  | some same => exact ⟨_, rfl, same.2 inside⟩

/-- What is settled inside of a block of one shader is settled outside of it for the others. -/
theorem Settled.outside (settled : Settled (n :: within) w w₁ m) : Settled within w w₁ m := by
  unfold Settled at *
  generalize w.shaders[m]? = a, w₁.shaders[m]? = b at *
  cases settled with
  | none => exact .none
  | some same => exact .some ⟨same.1, fun inside => same.2 (List.mem_cons_of_mem n inside)⟩

theorem Level.settled (level : w.Level within) (issued : w₁.Issued)
    (settled : ∀ m, Settled within w w₁ m) : w₁.Level within where
  issued := issued
  flat m outside stack there := level.flat m outside stack ((settled m).scopes ▸ there)

theorem Level.enter (level : w.Level within) (issued : w₁.Issued)
    (others : ∀ n, n ≠ m → Settled within w w₁ n) : w₁.Level (m :: within) where
  issued := issued
  flat n outside stack there := by
    rw [List.mem_cons, not_or] at outside
    rw [(others n outside.1).scopes] at there
    exact level.flat n outside.2 stack there

end World

namespace Moment

variable {t : Moment}

theorem next_shaders (t : Moment) (binder : Option String) :
    (t.next binder).shaders = t.after.shaders :=
  World.bind_shaders ..

theorem settled_next (within : List ShaderId) (t : Moment) (binder : Option String) (m : ShaderId) :
    World.Settled within t.after (t.next binder) m :=
  World.settled_of_eq (by rw [next_shaders])

theorem issued_next (issued : t.world.Issued) (binder : Option String) :
    (t.next binder).Issued := by
  intro m s' found'
  rw [next_shaders] at found'
  cases found : t.world.shaders[m]? with
  | none =>
    rw [missing_after found] at found'
    contradiction
  | some s =>
    obtain ⟨s₁, left, draft⟩ := draft_after found
    obtain rfl := Option.mem_unique found' left
    rw [draft]
    exact ((issued m s found).after _).1

theorem issued_after (issued : t.world.Issued) : t.after.Issued := by
  have next := issued_next issued none
  rwa [next_none] at next

/-- A step that is not done disturbs no shader, if all that it asks for builds. -/
theorem settled_undone {within : List ShaderId} (issued : t.world.Issued)
    (idle : ∀ m, t.step ≠ .act (.compile m))
    (builds : ∀ plan, t.plan? = some plan →
      ∀ handles, (plan.request.ask handles).All fun c => c.builds = true)
    (undone : t.isDone = false) (m : ShaderId) : World.Settled within t.world t.after m := by
  cases planned : t.plan? with
  | none =>
    rcases run_unplanned planned with ⟨n, s, compiles, _⟩ | ⟨outcome, run, _⟩
    · exact absurd compiles (idle n)
    · apply World.settled_of_eq
      rw [after, run]
  | some plan =>
    by_cases same : m = plan.request.shader
    · subst same
      cases found : t.world.shaders[plan.request.shader]? with
      | none => exact World.settled_of_eq ((missing_after found).trans found.symm)
      | some s =>
        rw [isDone_found planned found, Option.isSome_eq_false_iff, Option.isNone_iff_eq_none]
          at undone
        exact World.settled_of_undisturbed found (target planned found)
          (Request.undone_undisturbed (issued _ s found) (builds plan planned) undone)
    · exact World.settled_of_eq (others planned same)

end Moment

/-! Opening, switching and closing. -/

section Blocks

variable (within : List ShaderId) {w : World} {s : Shader}

theorem opens_selection {condition : Operand} (issued : w.Issued)
    (done : Moment.isDone ⟨w, .beginIf m condition⟩ = true) :
    (∀ n, n ≠ m → World.Settled within w (Moment.after ⟨w, .beginIf m condition⟩) n) ∧
      ∃ s s₁ index, w.shaders[m]? = some s ∧
        (Moment.after ⟨w, .beginIf m condition⟩).shaders[m]? = some s₁ ∧
        s.draft.Branches index s₁.draft := by
  obtain ⟨plan, s, reply, planned, found, fate⟩ := Moment.of_isDone done
  obtain ⟨a, _, rfl⟩ := condition_planned planned
  obtain ⟨ask, asked, run⟩ := Request.done_run fate
  obtain ⟨_, handles, all, rfl⟩ := Request.asked_iff.mp asked
  obtain ⟨h, rfl⟩ : ∃ h, handles = [h] := by
    simp only [Request.unary, Argument.handlesIn, List.mapM_cons, List.mapM_nil,
      Option.bind_eq_bind, Option.bind_eq_some_iff, Option.pure_def, Option.some.injEq] at all
    obtain ⟨h, _, _, rfl, rfl⟩ := all
    exact ⟨h, rfl⟩
  -- bringing the condition in disturbs nothing, and then the selection opens
  have ground := (Request.unary m a .beginIf).ground_undisturbed (issued m s found)
  have next : ((Request.unary m a .beginIf).ground s.draft).Issuing :=
    ((issued m s found).after _).1
  have effect := (Call.run_yields next.valid (c := .beginIf h) rfl).ok run
  exact ⟨fun n other => World.settled_of_eq (Moment.others planned other), s, _, _, found,
    Moment.target planned found, ground.branches effect.branches⟩

theorem opens_loop {first last : Int32} (issued : w.Issued)
    (done : Moment.isDone ⟨w, .beginFor m first last⟩ = true) :
    (∀ n, n ≠ m → World.Settled within w (Moment.after ⟨w, .beginFor m first last⟩) n) ∧
      ∃ s s₁ index, w.shaders[m]? = some s ∧
        (Moment.after ⟨w, .beginFor m first last⟩).shaders[m]? = some s₁ ∧
        s.draft.Encloses (.loop index) s₁.draft := by
  obtain ⟨plan, s, reply, planned, found, fate⟩ := Moment.of_isDone done
  obtain rfl := Option.some.inj planned
  obtain ⟨ask, asked, run⟩ := Request.done_run fate
  obtain ⟨_, handles, _, rfl⟩ := Request.asked_iff.mp asked
  have effect := (Call.run_yields (issued m s found).valid (c := .beginFor first last) rfl).ok run
  exact ⟨fun n other => World.settled_of_eq (Moment.others planned other), s, _, _, found,
    Moment.target planned found, effect.encloses⟩

def closing (m : ShaderId) : Scope → Step
  | .selection _ => .endIf m
  | .loop _ => .endFor m

theorem closes_block {block : Scope} (found : w.shaders[m]? = some s)
    (encloses : d.Encloses block s.draft) :
    Moment.isDone ⟨w, closing m block⟩ = true ∧
      (∀ n, n ≠ m → World.Settled within w (Moment.after ⟨w, closing m block⟩) n) ∧
      ∃ s₁, (Moment.after ⟨w, closing m block⟩).shaders[m]? = some s₁ ∧
        d.Undisturbed s₁.draft := by
  have planned : Moment.plan? ⟨w, closing m block⟩ = some ⟨.plain m block.close, .done⟩ := by
    cases block <;> rfl
  obtain ⟨d', run, undisturbed⟩ := encloses.close
  obtain ⟨done, s₁, left, rfl⟩ := Moment.plain_done planned found run
  exact ⟨done, fun n other => World.settled_of_eq (Moment.others planned other), s₁, left,
    undisturbed⟩

theorem switches_block {index : Nat} (found : w.shaders[m]? = some s)
    (branches : d.Branches index s.draft) :
    Moment.isDone ⟨w, .beginElse m⟩ = true ∧
      (∀ n, n ≠ m → World.Settled within w (Moment.after ⟨w, .beginElse m⟩) n) ∧
      ∃ s₁, (Moment.after ⟨w, .beginElse m⟩).shaders[m]? = some s₁ ∧
        d.Encloses (.selection index) s₁.draft := by
  obtain ⟨d', run, encloses⟩ := branches.switch
  obtain ⟨done, s₁, left, rfl⟩ := Moment.plain_done (t := ⟨w, .beginElse m⟩) rfl found run
  exact ⟨done, fun n other => World.settled_of_eq (Moment.others (t := ⟨w, .beginElse m⟩) rfl other),
    s₁, left, encloses⟩

end Blocks

end ShaderIR.Frontend
