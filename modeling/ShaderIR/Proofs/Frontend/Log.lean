import ShaderIR.Proofs.Frontend.Plans

/-! The log of a front-end program. Blocks are taken apart into the steps that open and close them,
so that a run is a list of steps, each made in the world that the one before it left. -/
namespace ShaderIR.Frontend

variable {w w' : World} {m : ShaderId} {s : Shader}

inductive Step where
  | act (action : Action)
  | beginIf (m : ShaderId) (condition : Operand)
  | beginElse (m : ShaderId)
  | endIf (m : ShaderId)
  | beginFor (m : ShaderId) (first last : Int32)
  | endFor (m : ShaderId)
deriving DecidableEq, Inhabited

namespace Step

def plan? (w : World) : Step → Option Plan
  | .act action => action.plan? w
  | .beginIf m condition => do
      let a ← condition.argument? w
      if a.kind = .bool then some ⟨.unary m a .beginIf, .done⟩ else none
  | .beginElse m => some ⟨.plain m .beginElse, .done⟩
  | .endIf m => some ⟨.plain m .endIf, .done⟩
  | .beginFor m first last => some ⟨.plain m (.beginFor first last), .value .int⟩
  | .endFor m => some ⟨.plain m .endFor, .done⟩

def run (step : Step) : Front Outcome :=
  match step with
  | .act action => action.outcome
  | block => fun w => (block.plan? w).elim (.illTyped, w) fun plan => plan.carry w

end Step

structure Moment where
  world : World
  step : Step

namespace Moment

variable (t : Moment)

def plan? : Option Plan := t.step.plan? t.world

def fate? : Option Fate := do
  let plan ← t.plan?
  let s ← t.world.shaders[plan.request.shader]?
  return plan.request.fate s.draft

def isDone : Bool := t.fate?.any fun fate => fate.reply?.isSome

/-- The calls that the step makes on the draft of a shader. A compilation that gives up a held fault
only starts over. -/
def calls (m : ShaderId) : List Call :=
  match t.world.shaders[m]? with
  | none => []
  | some s =>
      if t.step = .act (.compile m) then [if s.fault.isSome then .reset else .compile]
      else
        match t.plan? with
        | some plan => if plan.request.shader = m then plan.request.calls s.draft else []
        | none => []

def outcome : Outcome := (t.step.run t.world).1

def after : World := (t.step.run t.world).2

def next (binder : Option String) : World := t.after.bind binder t.outcome

end Moment

mutual

def Command.log (w : World) : Command → List Moment
  | .act _ action => [⟨w, .act action⟩]
  | .ifThen m condition body =>
      let start : Moment := ⟨w, .beginIf m condition⟩
      if start.isDone then
        start :: logAll start.after body ++ [⟨(runAll body start.after).2, .endIf m⟩]
      else [start]
  | .ifThenElse m condition body otherwise =>
      let start : Moment := ⟨w, .beginIf m condition⟩
      if start.isDone then
        let turn : Moment := ⟨(runAll body start.after).2, .beginElse m⟩
        start :: logAll start.after body ++ turn :: logAll turn.after otherwise ++
          [⟨(runAll otherwise turn.after).2, .endIf m⟩]
      else [start]
  | .forRange m first last counter body =>
      let start : Moment := ⟨w, .beginFor m first last⟩
      if start.isDone then
        start :: logAll (start.next counter) body ++
          [⟨(runAll body (start.next counter)).2, .endFor m⟩]
      else [start]

def logAll (w : World) : List Command → List Moment
  | [] => []
  | command :: rest => command.log w ++ logAll (command.run w).2 rest

end

/-- Steps that are made one after the other, each in the world that the one before left once its
outcome was bound. -/
inductive Chained : World → List Moment → World → Prop where
  | nil (w : World) : Chained w [] w
  | cons {t : Moment} {rest : List Moment} {w : World} (binder : Option String) :
      Chained (t.next binder) rest w → Chained t.world (t :: rest) w

namespace Chained

theorem append {w'' : World} {first second : List Moment} (before : Chained w first w')
    (after : Chained w' second w'') : Chained w (first ++ second) w'' := by
  induction before with
  | nil => exact after
  | cons binder _ ih => exact .cons binder (ih after)

theorem single (t : Moment) (binder : Option String) : Chained t.world [t] (t.next binder) :=
  .cons binder (.nil _)

/-- What holds of the steps so far and the world that they lead to holds at every step, if each step
keeps it. -/
theorem keeps {I : List Moment → World → Prop} {log : List Moment} (chained : Chained w log w')
    (step : ∀ past t binder, I past t.world → I (past ++ [t]) (t.next binder)) :
    ∀ past, I past w → I (past ++ log) w' ∧
      ∀ before t after, log = before ++ t :: after → I (past ++ before) t.world := by
  induction chained with
  | nil w =>
    intro past start
    constructor
    · simpa using start
    · intro before t after split
      simp at split
  | @cons t rest w binder _ ih =>
    intro past start
    -- the first step of the chain becomes the last one of the past
    obtain ⟨last, each⟩ := ih (past ++ [t]) (step past t binder start)
    constructor
    · simpa using last
    · intro before t' after split
      cases before with
      | nil =>
        obtain ⟨rfl, _⟩ := List.cons.inj split
        simpa using start
      | cons first others =>
        obtain ⟨rfl, onwards⟩ := List.cons.inj split
        simpa using each others t' after onwards

end Chained

theorem World.bind_none (w : World) (outcome : Outcome) : w.bind none outcome = w := by
  cases outcome <;> rfl

theorem World.bind_shaders (w : World) (binder : Option String) (outcome : Outcome) :
    (w.bind binder outcome).shaders = w.shaders := by
  cases binder <;> cases outcome <;> rfl

/-! Steps that have a plan carry it out. -/

namespace Moment

variable {t : Moment} {plan : Plan}

theorem run_planned (planned : t.plan? = some plan) : t.step.run t.world = plan.carry t.world := by
  have planned : t.step.plan? t.world = some plan := planned
  cases same : t.step with
  | act action =>
    rw [same] at planned
    exact Action.outcome_planned planned
  | beginIf | beginElse | endIf | beginFor | endFor =>
    rw [same] at planned
    simp only [Step.run, planned, Option.elim_some]

theorem after_planned (planned : t.plan? = some plan) :
    t.after = (plan.request.perform t.world).2 := by
  rw [after, run_planned planned, Plan.carry_apply]

theorem outcome_planned (planned : t.plan? = some plan) :
    t.outcome = plan.outcome (plan.request.perform t.world).1
      (t.after.isFaulty plan.request.shader) := by
  rw [outcome, after_planned planned, run_planned planned, Plan.carry_apply]

theorem isDone_planned (planned : t.plan? = some plan) :
    t.isDone = (plan.request.perform t.world).1.isSome := by
  simp only [isDone, fate?, planned, Option.bind_eq_bind, Option.bind_some]
  cases found : t.world.shaders[plan.request.shader]? with
  | none =>
    rw [plan.request.perform_missing found]
    rfl
  | some s =>
    rw [plan.request.perform_eq found]
    simp

theorem not_compile (planned : t.plan? = some plan) : t.step ≠ .act (.compile m) := by
  intro compiles
  rw [plan?, compiles] at planned
  contradiction

theorem isDone_unplanned (unplanned : t.plan? = none) : t.isDone = false := by
  simp [isDone, fate?, unplanned]

/-- A step without a plan is a compilation, or it does nothing. -/
theorem run_unplanned (unplanned : t.plan? = none) :
    (∃ m s, t.step = .act (.compile m) ∧ t.world.shaders[m]? = some s) ∨
      ∃ outcome, t.step.run t.world = (outcome, t.world) ∧ outcome.Known t.world := by
  have unplanned : t.step.plan? t.world = none := unplanned
  cases same : t.step with
  | act action =>
    rw [same] at unplanned
    by_cases compiles : ∃ m, action = .compile m
    · obtain ⟨m, rfl⟩ := compiles
      cases found : t.world.shaders[m]? with
      | some s => exact .inl ⟨m, s, rfl, found⟩
      | none => exact .inr ⟨.illTyped, Action.outcome_compile_missing found, trivial⟩
    · exact .inr (Action.outcome_idle unplanned fun m same => compiles ⟨m, same⟩)
  | beginIf | beginElse | endIf | beginFor | endFor =>
    rw [same] at unplanned
    refine .inr ⟨.illTyped, ?_, trivial⟩
    simp only [Step.run, unplanned, Option.elim_none]

theorem run_compile (compiles : t.step = .act (.compile m)) (found : t.world.shaders[m]? = some s) :
    t.step.run t.world = ((match s.compiled.result with
      | .ok compiled => .module compiled
      | .error fault => .fault fault), t.world.put m s.compiled.shader) := by
  rw [compiles]
  exact Action.outcome_compile found

theorem outcome_unplanned {P : Value → Prop} {Q : Pointer → Prop} (unplanned : t.plan? = none)
    (each : t.world.Each P Q) : t.outcome.Each P Q := by
  rcases run_unplanned unplanned with ⟨n, s, compiles, found⟩ | ⟨_, run, known⟩
  · rw [outcome, run_compile compiles found]
    cases s.compiled.result <;> trivial
  · rw [outcome, run]
    exact known.each each

/-- What a step does to a shader: it compiles the shader, or makes a request to it, or leaves it as
it is. -/
theorem serves (found : t.world.shaders[m]? = some s) :
    (t.step = .act (.compile m) ∧ t.after.shaders[m]? = some s.compiled.shader) ∨
      (∃ plan, t.plan? = some plan ∧ plan.request.shader = m ∧
        t.fate? = some (plan.request.fate s.draft) ∧
        t.after.shaders[m]? = some (s.serving (plan.request.leaves s.draft)
          (plan.request.fate s.draft).fault?)) ∨
      (t.step ≠ .act (.compile m) ∧ (∀ plan, t.plan? = some plan → plan.request.shader ≠ m) ∧
        t.after.shaders[m]? = some s) := by
  cases planned : t.plan? with
  | some plan =>
    rw [after_planned planned]
    by_cases same : plan.request.shader = m
    · subst same
      refine .inr (.inl ⟨plan, rfl, rfl, by simp [fate?, planned, found], ?_⟩)
      rw [plan.request.perform_eq found]
      exact World.put_found found _
    · refine .inr (.inr ⟨not_compile planned, fun plan' named => ?_, ?_⟩)
      · rwa [← Option.some.inj named]
      · cases missing : t.world.shaders[plan.request.shader]? with
        | none => rwa [plan.request.perform_missing missing]
        | some s' =>
          rw [plan.request.perform_eq missing]
          exact (World.put_other (Ne.symm same) _).trans found
  | none =>
    by_cases compiles : t.step = .act (.compile m)
    · refine .inl ⟨compiles, ?_⟩
      rw [after, run_compile compiles found]
      exact World.put_found found _
    · refine .inr (.inr ⟨compiles, nofun, ?_⟩)
      rcases run_unplanned planned with ⟨n, s', compiles', found'⟩ | ⟨outcome, run, _⟩
      · have other : m ≠ n := by
          rintro rfl
          exact compiles compiles'
        rw [after, run_compile compiles' found']
        exact (World.put_other other _).trans found
      · rwa [after, run]

theorem compiled_draft (s : Shader) : s.compiled.shader.draft =
    s.draft.after [if s.fault.isSome then .reset else .compile] := by
  unfold Shader.compiled
  cases s.fault with
  | some fault => rfl
  | none =>
    simp only [Option.isSome_none, Bool.false_eq_true, if_false, Draft.after, Call.leaves, Call.run,
      Draft.compile, Functor.map, EStateM.map]
    cases s.draft.compilation.result <;> rfl

theorem calls_planned (planned : t.plan? = some plan)
    (found : t.world.shaders[plan.request.shader]? = some s) :
    t.calls plan.request.shader = plan.request.calls s.draft := by
  have other : t.step ≠ .act (.compile plan.request.shader) := not_compile planned
  simp only [calls, found, other, planned, if_true, if_false]

/-- The draft of a shader after a step is what the calls of the step have made of it. -/
theorem draft_after (found : t.world.shaders[m]? = some s) :
    ∃ s', t.after.shaders[m]? = some s' ∧ s'.draft = s.draft.after (t.calls m) := by
  rcases serves found with ⟨compiles, left⟩ | ⟨plan, planned, same, _, left⟩ | ⟨other, others, left⟩
  · refine ⟨_, left, ?_⟩
    simp only [calls, found, compiles, if_true]
    exact compiled_draft s
  · subst same
    refine ⟨_, left, ?_⟩
    rw [calls_planned planned found]
    exact plan.request.leaves_eq s.draft
  · refine ⟨_, left, ?_⟩
    simp only [calls, found, other, if_false]
    cases planned : t.plan? with
    | none => rfl
    | some plan =>
      dsimp only
      rw [if_neg (others plan planned)]
      rfl

/-- A step replaces one shader at most. -/
theorem after_put (t : Moment) : t.after = t.world ∨ ∃ m s, t.after = t.world.put m s := by
  cases planned : t.plan? with
  | some plan =>
    rw [after_planned planned]
    cases found : t.world.shaders[plan.request.shader]? with
    | none =>
      rw [plan.request.perform_missing found]
      exact .inl rfl
    | some s =>
      rw [plan.request.perform_eq found]
      exact .inr ⟨_, _, rfl⟩
  | none =>
    rcases run_unplanned planned with ⟨n, s, compiles, found⟩ | ⟨outcome, run, _⟩
    · rw [after, run_compile compiles found]
      exact .inr ⟨_, _, rfl⟩
    · rw [after, run]
      exact .inl rfl

/-- A step binds no names by itself, and there are as many shaders after it. -/
theorem after_frame (t : Moment) : t.after.values = t.world.values ∧
    t.after.pointers = t.world.pointers ∧ t.after.shaders.size = t.world.shaders.size := by
  rcases t.after_put with same | ⟨m, s, same⟩
  · rw [same]
    exact ⟨rfl, rfl, rfl⟩
  · rw [same]
    exact ⟨rfl, rfl, Array.size_setIfInBounds⟩

theorem missing_after (missing : t.world.shaders[m]? = none) : t.after.shaders[m]? = none := by
  rw [Array.getElem?_eq_none_iff, t.after_frame.2.2]
  exact Array.getElem?_eq_none_iff.mp missing

theorem each_next {P : Value → Prop} {Q : Pointer → Prop} (each : t.world.Each P Q)
    (given : t.outcome.Each P Q) (binder : Option String) : (t.next binder).Each P Q := by
  obtain ⟨values, pointers, _⟩ := t.after_frame
  refine World.Each.bind ⟨?_, ?_⟩ given binder
  · rw [values]
    exact each.values
  · rw [pointers]
    exact each.pointers

theorem next_none (t : Moment) : t.next none = t.after := World.bind_none ..

end Moment

theorem Chained.step (w : World) (step : Step) :
    Chained w [⟨w, step⟩] (Moment.after ⟨w, step⟩) := by
  have single := Chained.single ⟨w, step⟩ none
  rwa [Moment.next_none] at single

/-! Conditions. -/

section Conditions

variable {operand : Operand}

theorem condition_apply (operand : Operand) (w : World) :
    condition operand w = (match ((Acting.argument operand).run w).1 with
      | .ok a => if a.kind = .bool then .ok a else .error .illTyped
      | .error outcome => .error outcome, ((Acting.argument operand).run w).2) := by
  rw [condition, Front.bind_apply]
  rcases (Acting.argument operand).run w with ⟨result, w'⟩
  cases result <;> rfl

theorem condition_planned {plan : Plan} (planned : (Step.beginIf m operand).plan? w = some plan) :
    ∃ a, condition operand w = (.ok a, w) ∧ plan = ⟨.unary m a .beginIf, .done⟩ := by
  simp only [Step.plan?, Option.bind_eq_bind, Option.bind_eq_some_iff] at planned
  obtain ⟨a, found, planned⟩ := planned
  have reads := Acting.reads_argument operand w
  rw [found] at reads
  split at planned
  · rename_i bool
    refine ⟨a, ?_, (Option.some.inj planned).symm⟩
    rw [condition_apply, show (Acting.argument operand).run w = _ from reads]
    simp [bool]
  · contradiction

theorem condition_unplanned (unplanned : (Step.beginIf m operand).plan? w = none) :
    ∃ outcome, condition operand w = (.error outcome, w) := by
  have reads := Acting.reads_argument operand w
  simp only [Step.plan?, Option.bind_eq_bind] at unplanned
  cases found : operand.argument? w with
  | none =>
    rw [found] at reads
    obtain ⟨outcome, run, _⟩ := reads
    exact ⟨outcome, by rw [condition_apply, run]⟩
  | some a =>
    rw [found] at reads unplanned
    have other : a.kind ≠ .bool := by simpa using unplanned
    refine ⟨.illTyped, ?_⟩
    rw [condition_apply, show (Acting.argument operand).run w = _ from reads]
    simp [other]

end Conditions

/-! What commands leave. -/

theorem run_act (binder : Option String) (action : Action) (w : World) :
    ((Command.act binder action).run w).2 = Moment.next ⟨w, .act action⟩ binder := rfl

/-- The block that a condition opens, with what runs in it. -/
theorem ifThen_apply {α : Type} (a : Argument) (body : Front α) (w : World) :
    (Front.ifThen m a body w).2 =
      let start := (Request.unary m a .beginIf).perform w
      if start.1.isSome then ((Request.plain m .endIf).perform (body start.2).2).2
      else start.2 := by
  rw [Front.ifThen_eq, Front.bind_apply]
  dsimp only
  cases ((Request.unary m a .beginIf).perform w).1 <;> rfl

theorem forRange_apply {α : Type} (first last : Int32) (body : Value → Front α) (w : World) :
    (Front.forRange m first last body w).2 =
      let start := (Request.plain m (.beginFor first last)).perform w
      if start.1.isSome then
        ((Request.plain m .endFor).perform
          (body { kind := .int, shader := m, handle := start.1.bind Reply.value? } start.2).2).2
      else start.2 := by
  have counts : ((Request.plain m (.beginFor first last)).perform w).1 =
      (((Request.plain m (.beginFor first last)).perform w).1.bind Reply.value?).map .value := by
    rw [Front.perform_plain, Call.run, Front.attempt_map]
    show ((Front.attempt m (Draft.beginFor first last) w).1.map Reply.value) =
      (((Front.attempt m (Draft.beginFor first last) w).1.map Reply.value).bind
        Reply.value?).map .value
    cases (Front.attempt m (Draft.beginFor first last) w).1 <;> rfl
  rw [Front.forRange_eq, Front.bind_apply]
  dsimp only
  rw [counts]
  cases ((Request.plain m (.beginFor first last)).perform w).1.bind Reply.value? <;> rfl

theorem glance_apply {α β : Type} (x : Front α) (f : α → Bool → β) (w : World) :
    ((do
      let a ← x
      return f a (← Front.hasFault m) : Front β) w).2 = (x w).2 := by
  show (Front.hasFault m (x w).2).2 = (x w).2
  rw [Front.hasFault_apply]

/-- A command that opens a selection: its condition ends it, or opens the selection in which what is
nested runs. -/
theorem selection_apply {α : Type} (operand : Operand) (body : Front α)
    (report : Option α → Bool → Report) (w : World) :
    ((do
      match ← condition operand with
      | .error outcome => return .action outcome []
      | .ok a =>
          let reports ← Front.ifThen m a body
          return report reports (← Front.hasFault m) : Front Report) w).2 =
      let start : Moment := ⟨w, .beginIf m operand⟩
      if start.isDone then Moment.after ⟨(body start.after).2, .endIf m⟩ else start.after := by
  rw [Front.bind_apply]
  dsimp only
  cases planned : (Step.beginIf m operand).plan? w with
  | none =>
    obtain ⟨outcome, failed⟩ := condition_unplanned planned
    rw [failed, Moment.isDone_unplanned (t := ⟨w, .beginIf m operand⟩) planned]
    simp only [Moment.after, Step.run, planned]
    rfl
  | some plan =>
    obtain ⟨a, opened, rfl⟩ := condition_planned planned
    rw [opened, Moment.isDone_planned (t := ⟨w, .beginIf m operand⟩) planned,
      Moment.after_planned (t := ⟨w, .beginIf m operand⟩) planned, Moment.after_planned rfl]
    exact (glance_apply (Front.ifThen m a body) report w).trans (ifThen_apply a body w)

theorem run_ifThen (operand : Operand) (body : List Command) (w : World) :
    ((Command.ifThen m operand body).run w).2 =
      let start : Moment := ⟨w, .beginIf m operand⟩
      if start.isDone then Moment.after ⟨(runAll body start.after).2, .endIf m⟩
      else start.after := by
  rw [Command.run]
  exact selection_apply operand (runAll body) .ifThen w

theorem run_ifThenElse (operand : Operand) (body otherwise : List Command) (w : World) :
    ((Command.ifThenElse m operand body otherwise).run w).2 =
      let start : Moment := ⟨w, .beginIf m operand⟩
      let turn : Moment := ⟨(runAll body start.after).2, .beginElse m⟩
      if start.isDone then Moment.after ⟨(runAll otherwise turn.after).2, .endIf m⟩
      else start.after := by
  simp only [Command.run, Front.ifThenElse_eq]
  refine (selection_apply operand _ .ifThenElse w).trans ?_
  dsimp only
  rw [Moment.after_planned (t := ⟨(runAll body _).2, .beginElse m⟩) rfl]
  rfl

theorem notices_apply (call : Call) (w : World) : (Front.notices m call w).2 = w := by
  rw [Front.notices, Front.get_apply]
  cases w.shaders[m]? <;> rfl

theorem run_forRange (first last : Int32) (counter : Option String) (body : List Command)
    (w : World) :
    ((Command.forRange m first last counter body).run w).2 =
      let start : Moment := ⟨w, .beginFor m first last⟩
      if start.isDone then Moment.after ⟨(runAll body (start.next counter)).2, .endFor m⟩
      else start.after := by
  have unfolded : ((Command.forRange m first last counter body).run w).2 =
      (Front.hasFault m (Front.forRange m first last (fun v => do
        let outcome := .value v (← Front.hasFault m)
        modify fun w => w.bind counter outcome
        return (outcome, ← runAll body)) (Front.notices m (.beginFor first last) w).2).2).2 := by
    rw [Command.run]
    rfl
  have entered : ∀ (v : Value) (w : World), ((do
        let outcome := .value v (← Front.hasFault m)
        modify fun w => w.bind counter outcome
        return (outcome, ← runAll body) : Front (Outcome × List Report)) w).2 =
      (runAll body (w.bind counter (.value v (w.isFaulty m)))).2 := by
    intro v w
    show (runAll body ((Front.hasFault m w).2.bind counter (.value v (Front.hasFault m w).1))).2 = _
    rw [Front.hasFault_apply]
  rw [unfolded, Front.hasFault_apply, notices_apply, forRange_apply]
  dsimp only
  rw [entered, Moment.isDone_planned (t := ⟨w, .beginFor m first last⟩) rfl,
    Moment.after_planned rfl, Moment.next,
    Moment.outcome_planned (t := ⟨w, .beginFor m first last⟩) rfl,
    Moment.after_planned (t := ⟨w, .beginFor m first last⟩) rfl]
  rfl

theorem runAll_cons (command : Command) (rest : List Command) (w : World) :
    (runAll (command :: rest) w).2 = (runAll rest (command.run w).2).2 := by
  rw [runAll]
  rfl

theorem logAll_append (first second : List Command) (w : World) :
    logAll w (first ++ second) = logAll w first ++ logAll (runAll first w).2 second := by
  induction first generalizing w with
  | nil => rfl
  | cons command rest ih =>
    rw [List.cons_append, logAll, ih, logAll, runAll_cons, List.append_assoc]

/-! The log of a run is a chain of steps from its start to its end. -/

mutual

theorem Command.log_chained (command : Command) (w : World) :
    Chained w (command.log w) (command.run w).2 := by
  cases command with
  | act binder action =>
    rw [run_act, Command.log]
    exact .single ⟨w, .act action⟩ binder
  | ifThen m condition body =>
    rw [run_ifThen, Command.log]
    dsimp only
    split
    · exact ((Chained.step w (.beginIf m condition)).append (logAll_chained body _)).append
        (.step ..)
    · exact .step ..
  | ifThenElse m condition body otherwise =>
    rw [run_ifThenElse, Command.log]
    dsimp only
    split
    · exact (((Chained.step w (.beginIf m condition)).append (logAll_chained body _)).append
        ((Chained.step _ (.beginElse m)).append (logAll_chained otherwise _))).append (.step ..)
    · exact .step ..
  | forRange m first last counter body =>
    rw [run_forRange, Command.log]
    dsimp only
    split
    · exact ((Chained.single ⟨w, .beginFor m first last⟩ counter).append
        (logAll_chained body _)).append (.step ..)
    · exact .step ..

theorem logAll_chained (commands : List Command) (w : World) :
    Chained w (logAll w commands) (runAll commands w).2 := by
  cases commands with
  | nil => exact .nil w
  | cons command rest =>
    rw [runAll_cons, logAll]
    exact (command.log_chained w).append (logAll_chained rest _)

end

end ShaderIR.Frontend
