import ShaderIR.Proofs.Frontend.Scopes

/-! Blocks of front-end programs. A block that cannot be opened has no end; one that is opened is
closed after what runs in it, whatever becomes of that. So every run of a command leaves the open
blocks of all shaders as they were, unless a shader is compiled inside of one of its own blocks. -/
namespace ShaderIR.Frontend

variable {log : List Moment} {t : Moment} {action : Action} {plan : Plan} {w : World}
  {fault : Fault} {m : ShaderId}

/-! Where commands are run. -/

/-- A command that is run, with the world in which it is run and the shaders whose blocks it is in,
innermost first. -/
structure Site where
  within : List ShaderId
  world : World
  command : Command

mutual

def Command.nested (within : List ShaderId) (w : World) : Command → List Site
  | .act _ _ => []
  | .ifThen m condition body =>
      let start : Moment := ⟨w, .beginIf m condition⟩
      if start.isDone then sitesAll (m :: within) start.after body else []
  | .ifThenElse m condition body otherwise =>
      let start : Moment := ⟨w, .beginIf m condition⟩
      let turn : Moment := ⟨(runAll body start.after).2, .beginElse m⟩
      if start.isDone then
        sitesAll (m :: within) start.after body ++ sitesAll (m :: within) turn.after otherwise
      else []
  | .forRange m first last counter body =>
      let start : Moment := ⟨w, .beginFor m first last⟩
      if start.isDone then sitesAll (m :: within) (start.next counter) body else []

def sitesAll (within : List ShaderId) (w : World) : List Command → List Site
  | [] => []
  | command :: rest =>
      ⟨within, w, command⟩ :: command.nested within w ++ sitesAll within (command.run w).2 rest

end

def Command.compiled? : Command → Option ShaderId
  | .act _ (.compile m) => some m
  | _ => none

/-- Whether a command does not compile a shader inside of one of its own blocks. -/
def Site.isOutside (site : Site) : Bool := site.command.compiled?.all fun m => m ∉ site.within

def Step.closes : Step → Bool
  | .beginElse _ | .endIf _ | .endFor _ => true
  | _ => false

/-- A step finds the blocks that it needs: what it switches or closes is open, and a shader that it
compiles has no open block. -/
structure Moment.Paired (t : Moment) : Prop where
  closes : t.step.closes = true → t.isDone = true
  compiles : ∀ m, t.step = .act (.compile m) → ∀ stack, t.world.scopes m = some stack → stack = []

/-- A run leaves the open blocks of all shaders as they were, and so does every command that is run
in it; and all its steps find the blocks that they need. -/
structure Balanced (within : List ShaderId) (w w' : World) (sites : List Site) (log : List Moment) :
    Prop where
  settled : ∀ m, World.Settled within w w' m
  sites : ∀ site ∈ sites, ∀ m, (site.command.run site.world).2.scopes m = site.world.scopes m
  log : ∀ t ∈ log, t.Paired

section Balance

variable {within : List ShaderId} {w₁ w₂ : World} {m : ShaderId} {s s₁ : Shader}

theorem Balanced.append {sites sites' : List Site} {log' : List Moment}
    (first : Balanced within w w₁ sites log) (second : Balanced within w₁ w₂ sites' log') :
    Balanced within w w₂ (sites ++ sites') (log ++ log') where
  settled m := (first.settled m).trans (second.settled m)
  sites := List.forall_mem_append.mpr ⟨first.sites, second.sites⟩
  log := List.forall_mem_append.mpr ⟨first.log, second.log⟩

/-- A step that opens a block needs none. -/
theorem paired_of_plain (other : t.step.closes = false) (idle : ∀ m, t.step ≠ .act (.compile m)) :
    t.Paired where
  closes closes := absurd closes (by simp [other])
  compiles m compiles := absurd compiles (idle m)

/-- A block is balanced if what runs in it keeps the blocks of the other shaders, and keeps it the
innermost one of its own shader. -/
theorem balanced_block (start : Moment) {block : Scope} {sites : List Site} (opens : start.Paired)
    (found : start.world.shaders[m]? = some s)
    (others : ∀ n, n ≠ m → World.Settled within start.world w n) (found₁ : w.shaders[m]? = some s₁)
    (encloses : s.draft.Encloses block s₁.draft)
    (inner : ∀ site ∈ sites, ∀ m, (site.command.run site.world).2.scopes m = site.world.scopes m)
    (paired : ∀ t ∈ log, t.Paired) :
    Balanced within start.world (Moment.after ⟨w, closing m block⟩) sites
      (start :: log ++ [⟨w, closing m block⟩]) := by
  obtain ⟨done, kept, s₂, found₂, undisturbed⟩ := closes_block within found₁ encloses
  constructor
  · intro n
    by_cases same : n = m
    · subst same
      exact World.settled_of_undisturbed found found₂ undisturbed
    · exact (others n same).trans (kept n same)
  · exact inner
  · have last : Moment.Paired ⟨w, closing m block⟩ :=
      ⟨fun _ => done, fun n compiles => by cases block <;> contradiction⟩
    rw [List.cons_append, List.forall_mem_cons, List.forall_mem_append, List.forall_mem_singleton]
    exact ⟨opens, paired, last⟩

theorem Chained.issued (chained : Chained w log w₁) (issued : w.Issued) : w₁.Issued :=
  (chained.keeps (I := fun _ w => w.Issued)
    (fun _ _ binder issued => Moment.issued_next issued binder) [] issued).1

theorem Shader.compiled_scopes (s : Shader) : s.compiled.shader.draft.scopes = [] := by
  unfold Shader.compiled
  split
  · exact Draft.restart_scopes ..
  · dsimp only
    unfold Draft.compilation
    dsimp only
    split <;> exact Draft.restart_scopes ..

theorem settled_compile (level : w.Level within) (outside : m ∉ within) (n : ShaderId) :
    World.Settled within w (Moment.after ⟨w, .act (.compile m)⟩) n := by
  cases found : w.shaders[m]? with
  | none =>
    apply World.settled_of_eq
    rw [Moment.after,
      show Step.run (.act (.compile m)) w = _ from Action.outcome_compile_missing found]
  | some s =>
    have left : Moment.after ⟨w, .act (.compile m)⟩ = w.put m s.compiled.shader :=
      congrArg Prod.snd (Moment.run_compile (t := ⟨w, .act (.compile m)⟩) rfl found)
    by_cases other : n = m
    · subst other
      have flat : s.draft.scopes = [] := by
        apply level.flat n outside
        rw [World.scopes, found, Option.map_some]
      rw [World.Settled, found, left, World.put_found found]
      exact .some ⟨s.compiled_scopes.trans flat.symm, fun inside => absurd inside outside⟩
    · apply World.settled_of_eq
      rw [left, World.put_other other]

theorem settled_act (issued : w.Issued) (idle : ∀ m, action ≠ .compile m) (n : ShaderId) :
    World.Settled within w (Moment.after ⟨w, .act action⟩) n := by
  cases planned : Moment.plan? ⟨w, .act action⟩ with
  | none =>
    rcases Moment.run_unplanned planned with ⟨m, s, compiles, _⟩ | ⟨outcome, run, _⟩
    · exact absurd (Step.act.inj compiles) (idle m)
    · apply World.settled_of_eq
      rw [Moment.after, run]
  | some plan =>
    by_cases other : n = plan.request.shader
    · subst other
      cases found : w.shaders[plan.request.shader]? with
      | none => exact World.settled_of_eq ((Moment.missing_after found).trans found.symm)
      | some s =>
        exact World.settled_of_undisturbed found (Moment.target planned found)
          ((Action.plan_calm planned).undisturbed (issued _ s found))
    · exact World.settled_of_eq (Moment.others planned other)

theorem balanced_act {binder : Option String} (level : w.Level within)
    (outside : Site.isOutside ⟨within, w, .act binder action⟩ = true) :
    Balanced within w (Moment.next ⟨w, .act action⟩ binder) [] [⟨w, .act action⟩] := by
  have binds := fun n => Moment.settled_next within ⟨w, .act action⟩ binder n
  by_cases compiles : ∃ m, action = .compile m
  · obtain ⟨m, rfl⟩ := compiles
    have outside : m ∉ within := by simpa [Site.isOutside, Command.compiled?] using outside
    refine ⟨fun n => (settled_compile level outside n).trans (binds n), by simp, ?_⟩
    rw [List.forall_mem_singleton]
    refine ⟨nofun, fun n same => ?_⟩
    obtain rfl := Action.compile.inj (Step.act.inj same)
    exact level.flat m outside
  · have idle : ∀ m, action ≠ .compile m := fun m same => compiles ⟨m, same⟩
    refine ⟨fun n => (settled_act level.issued idle n).trans (binds n), by simp, ?_⟩
    rw [List.forall_mem_singleton]
    exact paired_of_plain rfl fun m same => idle m (Step.act.inj same)

/-- A step that cannot open a block leaves all blocks as they were. -/
theorem balanced_undone (issued : t.world.Issued) (opens : t.Paired)
    (idle : ∀ m, t.step ≠ .act (.compile m)) (builds : ∀ plan, t.plan? = some plan →
      ∀ handles, (plan.request.ask handles).All fun c => c.builds = true)
    (undone : t.isDone = false) : Balanced within t.world t.after [] [t] where
  settled := Moment.settled_undone issued idle builds undone
  sites := by simp
  log := by simpa using opens

theorem selection_builds {condition : Operand}
    (planned : (Step.beginIf m condition).plan? w = some plan) (handles : List Handle) :
    (plan.request.ask handles).All fun c => c.builds = true := by
  obtain ⟨a, _, rfl⟩ := condition_planned planned
  exact @Ask.all_one .beginIf _ (fun _ => rfl) handles

theorem loop_builds {first last : Int32}
    (planned : (Step.beginFor m first last).plan? w = some plan) (handles : List Handle) :
    (plan.request.ask handles).All fun c => c.builds = true := by
  obtain rfl := Option.some.inj planned
  exact Ask.all_call rfl

end Balance

mutual

/-- Running a command is balanced if no shader is compiled inside of one of its own blocks. -/
theorem Command.balanced (command : Command) {within : List ShaderId} {w : World}
    (level : w.Level within)
    (outside : ∀ site ∈ ⟨within, w, command⟩ :: command.nested within w, site.isOutside = true) :
    Balanced within w (command.run w).2 (command.nested within w) (command.log w) := by
  have own := outside _ List.mem_cons_self
  have inner := fun site member => outside site (List.mem_cons_of_mem _ member)
  cases command with
  | act binder action =>
    rw [run_act, Command.log, Command.nested]
    exact balanced_act level own
  | ifThen m condition body =>
    rw [run_ifThen, Command.log]
    rw [Command.nested] at inner ⊢
    dsimp only at inner ⊢
    have opens : Moment.Paired ⟨w, .beginIf m condition⟩ := paired_of_plain rfl (by simp)
    split
    · rename_i done
      rw [if_pos done] at inner
      obtain ⟨others, s, s₁, index, found, found₁, branches⟩ :=
        opens_selection within level.issued done
      have nested := runAll_balanced body
        (level.enter (Moment.issued_after level.issued) others) inner
      obtain ⟨s₂, found₂, undisturbed⟩ := (nested.settled m).found found₁ List.mem_cons_self
      exact balanced_block ⟨w, .beginIf m condition⟩ opens found
        (fun n other => (others n other).trans (nested.settled n).outside)
        found₂ (branches.undisturbed undisturbed).toEncloses nested.sites nested.log
    · rename_i undone
      exact balanced_undone level.issued opens (by simp) (fun _ => selection_builds)
        (Bool.eq_false_iff.mpr undone)
  | ifThenElse m condition body otherwise =>
    rw [run_ifThenElse, Command.log]
    rw [Command.nested] at inner ⊢
    dsimp only at inner ⊢
    have opens : Moment.Paired ⟨w, .beginIf m condition⟩ := paired_of_plain rfl (by simp)
    split
    · rename_i done
      rw [if_pos done, List.forall_mem_append] at inner
      obtain ⟨others, s, s₁, index, found, found₁, branches⟩ :=
        opens_selection within level.issued done
      have enter := level.enter (Moment.issued_after level.issued) others
      have first := runAll_balanced body enter inner.1
      obtain ⟨s₂, found₂, undisturbed⟩ := (first.settled m).found found₁ List.mem_cons_self
      -- the first branch is still the innermost block, so that there is one to go over from
      obtain ⟨turns, kept, s₃, found₃, encloses⟩ :=
        switches_block within found₂ (branches.undisturbed undisturbed)
      have others := fun n (other : n ≠ m) =>
        ((others n other).trans (first.settled n).outside).trans (kept n other)
      have issued := (logAll_chained body _).issued enter.issued
      have second := runAll_balanced otherwise
        (level.enter (Moment.issued_after issued) others) inner.2
      obtain ⟨s₄, found₄, undisturbed⟩ := (second.settled m).found found₃ List.mem_cons_self
      rw [List.cons_append]
      exact balanced_block ⟨w, .beginIf m condition⟩ opens found
        (fun n other => (others n other).trans (second.settled n).outside)
        found₄ (encloses.undisturbed undisturbed)
        (List.forall_mem_append.mpr ⟨first.sites, second.sites⟩)
        (List.forall_mem_append.mpr ⟨first.log, List.forall_mem_cons.mpr
          ⟨⟨fun _ => turns, by simp⟩, second.log⟩⟩)
    · rename_i undone
      exact balanced_undone level.issued opens (by simp) (fun _ => selection_builds)
        (Bool.eq_false_iff.mpr undone)
  | forRange m first last counter body =>
    rw [run_forRange, Command.log]
    rw [Command.nested] at inner ⊢
    dsimp only at inner ⊢
    have opens : Moment.Paired ⟨w, .beginFor m first last⟩ := paired_of_plain rfl (by simp)
    split
    · rename_i done
      rw [if_pos done] at inner
      obtain ⟨others, s, s₁, index, found, found₁, encloses⟩ := opens_loop within level.issued done
      rw [← Moment.next_shaders _ counter] at found₁
      have others := fun n (other : n ≠ m) =>
        (others n other).trans (Moment.settled_next within _ counter n)
      have nested := runAll_balanced body
        (level.enter (Moment.issued_next level.issued counter) others) inner
      obtain ⟨s₂, found₂, undisturbed⟩ := (nested.settled m).found found₁ List.mem_cons_self
      exact balanced_block ⟨w, .beginFor m first last⟩ opens found
        (fun n other => (others n other).trans (nested.settled n).outside)
        found₂ (encloses.undisturbed undisturbed) nested.sites nested.log
    · rename_i undone
      exact balanced_undone level.issued opens (by simp) (fun _ => loop_builds)
        (Bool.eq_false_iff.mpr undone)

theorem runAll_balanced (commands : List Command) {within : List ShaderId} {w : World}
    (level : w.Level within)
    (outside : ∀ site ∈ sitesAll within w commands, site.isOutside = true) :
    Balanced within w (runAll commands w).2 (sitesAll within w commands) (logAll w commands) := by
  cases commands with
  | nil => exact ⟨fun m => World.settled_of_eq rfl, by simp [sitesAll], by simp [logAll]⟩
  | cons command rest =>
    rw [runAll_cons, logAll]
    rw [sitesAll, List.forall_mem_append] at *
    have first := command.balanced level outside.1
    have issued := (command.log_chained w).issued level.issued
    have second := runAll_balanced rest (level.settled issued first.settled) outside.2
    have head : Balanced within w (command.run w).2
        (⟨within, w, command⟩ :: command.nested within w) (command.log w) :=
      ⟨first.settled, List.forall_mem_cons.mpr
        ⟨fun m => (first.settled m).scopes, first.sites⟩, first.log⟩
    exact head.append second

end

/-! What is refused, and what is held as a fault. -/

/-- Steps that neither go over to a second branch nor close a block ask for nothing of that kind. -/
theorem Step.plan_plain {step : Step} (other : step.closes = false)
    (planned : step.plan? w = some plan) (handles : List Handle) :
    (plan.request.ask handles).All fun c => c.builds = true ∧ c.closes = false := by
  cases step with
  | act action =>
    intro c member
    have calm := Action.plan_calm planned handles c member
    simp only [Call.isCalm, Bool.and_eq_true, Bool.not_eq_true'] at calm
    exact ⟨calm.1.1, calm.2⟩
  | beginIf m condition =>
    obtain ⟨a, _, rfl⟩ := condition_planned planned
    exact @Ask.all_one .beginIf _ (fun _ => ⟨rfl, rfl⟩) handles
  | beginFor m first last =>
    obtain rfl := Option.some.inj planned
    exact Ask.all_call ⟨rfl, rfl⟩
  | beginElse | endIf | endFor => contradiction

namespace Moment

theorem Paired.refused (paired : t.Paired) (refused : t.fate? = some (.refused fault)) :
    fault.isUnpaired = false := by
  have undone : t.isDone = false := by
    rw [isDone, refused]
    rfl
  have other : t.step.closes = false := by
    by_contra closes
    rw [paired.closes (Bool.not_eq_false _ ▸ closes)] at undone
    contradiction
  simp only [fate?, Option.bind_eq_bind, Option.bind_eq_some_iff, Option.pure_def,
    Option.some.injEq] at refused
  obtain ⟨plan, planned, s, _, refused⟩ := refused
  rcases Request.refused_cases refused with rfl | ⟨ask, d', asked, run⟩
  · rfl
  · obtain ⟨_, handles, _, rfl⟩ := Request.asked_iff.mp asked
    exact (Ask.paired_build (Step.plan_plain other planned handles) _).error run

end Moment

def World.Clean (w : World) : Prop :=
  ∀ (m : ShaderId) s fault, w.shaders[m]? = some s → s.fault = some fault → fault.isUnpaired = false

namespace Moment

theorem Paired.clean (paired : t.Paired) (clean : t.world.Clean) : t.after.Clean := by
  intro m s' fault found' held
  cases found : t.world.shaders[m]? with
  | none =>
    rw [missing_after found] at found'
    contradiction
  | some s =>
    rcases fault_after found found' held with before | refused
    · exact clean m s fault found before
    · exact paired.refused refused

theorem Paired.compiled (paired : t.Paired) (clean : t.world.Clean)
    (compiles : t.step = .act (.compile m)) (failed : t.outcome = .fault fault) :
    fault.isUnpaired = false := by
  cases found : t.world.shaders[m]? with
  | none =>
    rw [outcome, compiles,
      show Step.run (.act (.compile m)) _ = _ from Action.outcome_compile_missing found] at failed
    contradiction
  | some s =>
    have result : s.compiled.result = .error fault := by
      rw [outcome, run_compile compiles found] at failed
      cases given : s.compiled.result with
      | ok compiled =>
        rw [given] at failed
        contradiction
      | error fault' =>
        rw [given] at failed
        rw [Outcome.fault.inj failed]
    unfold Shader.compiled at result
    cases held : s.fault with
    | some fault' =>
      rw [held] at result
      obtain rfl := Except.error.inj result
      exact clean m s _ found held
    | none =>
      rw [held] at result
      have closed : s.draft.scopes = [] := by
        apply paired.compiles m compiles
        rw [World.scopes, found, Option.map_some]
      exact Draft.compilation_paired closed result

end Moment

theorem Chained.clean {w' : World} (chained : Chained w log w') (clean : w.Clean)
    (paired : ∀ t ∈ log, t.Paired) : ∀ t ∈ log, t.world.Clean := by
  have kept := (chained.keeps (I := fun past w => (∀ t ∈ past, t.Paired) → w.Clean)
    (fun past t binder clean paired => by
      rw [List.forall_mem_append, List.forall_mem_singleton] at paired
      intro m s fault found
      rw [Moment.next_shaders] at found
      exact paired.2.clean (clean paired.1) m s fault found) [] fun _ => clean).2
  intro t member
  obtain ⟨before, after, rfl⟩ := List.append_of_mem member
  apply kept before t after rfl
  rw [List.forall_mem_append] at paired
  exact paired.1

theorem World.found_new {settings : List Settings} {s : Shader}
    (found : (World.new settings).shaders[m]? = some s) : ∃ st, s = Shader.new st := by
  simp only [World.new, List.getElem?_toArray, List.getElem?_map, Option.map_eq_some_iff] at found
  obtain ⟨st, _, rfl⟩ := found
  exact ⟨st, rfl⟩

theorem World.level_new (settings : List Settings) : (World.new settings).Level [] := by
  constructor
  · intro m s found
    obtain ⟨st, rfl⟩ := found_new found
    exact Draft.issuing_begun st []
  · intro m _ stack there
    obtain ⟨s, found, rfl⟩ := Option.map_eq_some_iff.mp there
    obtain ⟨st, rfl⟩ := found_new found
    rfl

theorem World.clean_new (settings : List Settings) : (World.new settings).Clean := by
  intro m s fault found held
  obtain ⟨st, rfl⟩ := found_new found
  contradiction

/-- Blocks balance. Let a program be run in which no shader is compiled inside of one of its own
blocks. Every command that is run, in whatever blocks, leaves the stack of open blocks of every
shader as it found it, whether or not its own block could be opened and whatever became of the steps
in it. Every step that goes over to a second branch or closes a block is carried out. So no shader
ever holds a fault that comes from unpaired blocks, and no compilation gives one; in particular none
gives up because a block is open. -/
theorem blocks_balance (settings : List Settings) (program : List Command)
    (outside : ∀ site ∈ sitesAll [] (World.new settings) program, site.isOutside = true) :
    FlowFault.openAtCompile.message = "a block is still open at compile time" ∧
      (∀ site ∈ sitesAll [] (World.new settings) program, ∀ m,
        (site.command.run site.world).2.scopes m = site.world.scopes m) ∧
      ∀ t ∈ logAll (World.new settings) program,
        (t.step.closes = true → t.isDone = true) ∧ t.after.Clean ∧
          ∀ m fault, t.step = .act (.compile m) → t.outcome = .fault fault →
            fault.isUnpaired = false := by
  have balanced := runAll_balanced program (World.level_new settings) outside
  have clean := (logAll_chained program _).clean (World.clean_new settings) balanced.log
  refine ⟨rfl, balanced.sites, fun t member => ?_⟩
  have paired := balanced.log t member
  exact ⟨paired.closes, paired.clean (clean t member),
    fun m fault => paired.compiled (clean t member)⟩

/-- Blocks of two shaders in each other. In a loop of the first shader, a selection of the second is
left by a step that needs a loop, and the second is compiled; after that, its old condition opens no
block of either shader. -/
def tangled : List Command :=
  [.act (some "a") (.constant 0 (.literal (.int 1))),
    .act (some "below") (.compare .less "a" (.literal (.int 2))),
    .act (some "b") (.constant 1 (.literal (.int 3))),
    .act (some "above") (.compare .greater "b" (.literal (.int 2))),
    .ifThenElse 0 (.name "below")
      [.forRange 0 0 4 (some "i")
        [.ifThen 0 (.name "below") [.act none (.continueLoop 0)],
          .ifThen 1 (.name "above") [.act none (.breakLoop 1)],
          .act none (.compile 1)]]
      [.ifThen 1 (.name "above") [.act none (.compile 1)],
        .ifThen 0 (.name "above") [.act none (.compile 0)]],
    .act none (.compile 1), .act none (.compile 0)]

/-- Four blocks are opened and two are not; three steps are refused, none of them for its blocks. -/
theorem tangled_balances :
    (∀ site ∈ sitesAll [] (World.new [{ stage := .vertex }, { stage := .fragment }]) tangled,
        site.isOutside = true) ∧
      (logAll (World.new [{ stage := .vertex }, { stage := .fragment }]) tangled).filterMap
          (fun t => t.fate?.bind Fate.fault?) =
        [.controlFlow .breakOutsideLoop, .staleValue 2, .foreignValue] ∧
      (∀ site ∈ sitesAll [] (World.new [{ stage := .vertex }, { stage := .fragment }]) tangled,
        ∀ m, (site.command.run site.world).2.scopes m = site.world.scopes m) ∧
      ∀ t ∈ logAll (World.new [{ stage := .vertex }, { stage := .fragment }]) tangled,
        (t.step.closes = true → t.isDone = true) ∧ t.after.Clean := by
  have outside : ∀ site ∈ sitesAll [] (World.new [{ stage := .vertex }, { stage := .fragment }])
      tangled, site.isOutside = true :=
    List.all_eq_true.mp (by decide +kernel)
  obtain ⟨_, sites, log⟩ := blocks_balance _ _ outside
  exact ⟨outside, by decide +kernel, sites, fun t member => ⟨(log t member).1, (log t member).2.1⟩⟩

end ShaderIR.Frontend
