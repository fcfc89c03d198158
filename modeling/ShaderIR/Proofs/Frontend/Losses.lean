import ShaderIR.Proofs.Frontend.Soundness

/-! Calls that are lost. An operation on an empty value makes no call and records no fault; a
compilation gives up the fault that made the value empty, but the value stays empty and its name
stays bound. So between two compilations of a shader nothing is lost, unless something is used that
was empty before the first of them. -/
namespace ShaderIR.Frontend

variable {plan : Plan} {d : Draft} {reply : Reply}

/-- A value or a pointer of a shader is empty, and has a name. -/
def World.HasEmpty (w : World) (m : ShaderId) : Value ⊕ Pointer → Prop
  | .inl v => v.shader = m ∧ v.handle = none ∧ ∃ name, w.values.find? name = some v
  | .inr p => p.shader = m ∧ p.place = none ∧ ∃ name, w.pointers.find? name = some p

def Moment.fateOn? (t : Moment) (m : ShaderId) : Option Fate :=
  if t.plan?.any fun plan => plan.request.shader = m then t.fate? else none

def Moment.compiles (m : ShaderId) (t : Moment) : Bool := decide (t.step = .act (.compile m))

def lastCompiled? (m : ShaderId) (past : List Moment) : Option Moment :=
  past.reverse.find? (Moment.compiles m)

def sinceCompiled (m : ShaderId) (past : List Moment) : List Moment :=
  (past.reverse.takeWhile fun t => !t.compiles m).reverse

def fates (m : ShaderId) (past : List Moment) : List Fate :=
  (sinceCompiled m past).filterMap fun t => t.fateOn? m

def firstFault? (m : ShaderId) (past : List Moment) : Option Fault :=
  ((fates m past).filterMap Fate.fault?).head?

/-- The first request to a shader since it was last compiled that was not carried out was skipped,
for something empty that it used; and whatever was empty by then had been so when the shader was
compiled. -/
def UsesLeftover (m : ShaderId) (past : List Moment) : Prop :=
  ∃ before t after compiled, sinceCompiled m past = before ++ t :: after ∧
    lastCompiled? m past = some compiled ∧
    (∀ fate ∈ before.filterMap fun t => t.fateOn? m, ∃ reply, fate = .done reply) ∧
    t.fateOn? m = some .skipped ∧ (∃ x, t.world.HasEmpty m x) ∧
    ∀ x, t.world.HasEmpty m x → compiled.world.HasEmpty m x

section Steps

variable {w : World} {m : ShaderId} {past : List Moment} {t : Moment}

/-! One more step. -/

theorem sinceCompiled_compiled (compiles : t.step = .act (.compile m)) :
    sinceCompiled m (past ++ [t]) = [] := by
  simp [sinceCompiled, Moment.compiles, compiles]

theorem lastCompiled_compiled (compiles : t.step = .act (.compile m)) :
    lastCompiled? m (past ++ [t]) = some t := by
  simp [lastCompiled?, Moment.compiles, compiles]

theorem sinceCompiled_other (other : t.step ≠ .act (.compile m)) :
    sinceCompiled m (past ++ [t]) = sinceCompiled m past ++ [t] := by
  simp [sinceCompiled, Moment.compiles, other]

theorem lastCompiled_other (other : t.step ≠ .act (.compile m)) :
    lastCompiled? m (past ++ [t]) = lastCompiled? m past := by
  simp [lastCompiled?, Moment.compiles, other]

theorem fates_other (other : t.step ≠ .act (.compile m)) :
    fates m (past ++ [t]) = fates m past ++ (t.fateOn? m).toList := by
  rw [fates, sinceCompiled_other other, List.filterMap_append]
  cases fate : t.fateOn? m <;> simp [fates, fate]

theorem firstFault_other (other : t.step ≠ .act (.compile m)) :
    firstFault? m (past ++ [t]) = (firstFault? m past).or ((t.fateOn? m).bind Fate.fault?) := by
  rw [firstFault?, fates_other other, List.filterMap_append, List.head?_append]
  cases t.fateOn? m with
  | none => simp [firstFault?]
  | some fate => cases fate <;> simp [firstFault?, Fate.fault?]

theorem UsesLeftover.extend (uses : UsesLeftover m past) (other : t.step ≠ .act (.compile m)) :
    UsesLeftover m (past ++ [t]) := by
  obtain ⟨before, u, after, compiled, split, last, rest⟩ := uses
  refine ⟨before, u, after ++ [t], compiled, ?_, ?_, rest⟩
  · rw [sinceCompiled_other other, split]
    simp
  · rw [lastCompiled_other other, last]

theorem fateOn_other (others : ∀ plan, t.plan? = some plan → plan.request.shader ≠ m) :
    t.fateOn? m = none := by
  unfold Moment.fateOn?
  cases planned : t.plan? with
  | none => rfl
  | some plan => simp [others plan planned]

theorem fateOn_planned (planned : t.plan? = some plan) (same : plan.request.shader = m) :
    t.fateOn? m = t.fate? := by
  simp [Moment.fateOn?, planned, same]

/-! What is empty. -/

theorem World.hasEmpty_iff {R : Value ⊕ Pointer → Prop} : (∀ x, w.HasEmpty m x → R x) ↔
    w.Each (fun v => v.shader = m → v.handle = none → R (.inl v))
      fun p => p.shader = m → p.place = none → R (.inr p) := by
  constructor
  · intro each
    exact ⟨fun name v bound own empty => each (.inl v) ⟨own, empty, name, bound⟩,
      fun name p bound own empty => each (.inr p) ⟨own, empty, name, bound⟩⟩
  · rintro each (v | p) ⟨own, empty, name, bound⟩
    · exact each.values name v bound own empty
    · exact each.pointers name p bound own empty

/-- A request that is skipped uses something empty of its own shader. -/
theorem Plan.Bound.hasEmpty (bound : plan.Bound w) (skipped : plan.request.fate d = .skipped) :
    ∃ x, w.HasEmpty plan.request.shader x := by
  rcases Request.skipped_lacks skipped with unready | ⟨v, member, own, empty⟩
  · obtain ⟨name, p, there, own, empty⟩ := bound.ready unready
    exact ⟨.inr p, own, empty, name, there⟩
  · exact ⟨.inl v, own, empty, bound.arguments _ member v rfl⟩

theorem Plan.outcome_shader (plan : Plan) (reply : Option Reply) (faulty : Bool) :
    (plan.outcome reply faulty).Each (fun v => v.shader = plan.request.shader)
      fun p => p.shader = plan.request.shader := by
  unfold Plan.outcome
  cases plan.gift with
  | value | pointer => rfl
  | done | stored => trivial

/-- What a plan gives for a reply of the right kind is not empty. -/
theorem Gift.Holds.full (holds : plan.gift.Holds d reply) (faulty : Bool) :
    (plan.outcome (some reply) faulty).Each (fun v => v.handle ≠ none)
      fun p => p.place ≠ none := by
  unfold Plan.outcome
  cases gift : plan.gift with
  | value kind =>
    rw [gift] at holds
    cases reply with
    | value h => exact nofun
    | _ => contradiction
  | pointer target =>
    rw [gift] at holds
    cases reply with
    | place p => exact nofun
    | _ => cases target <;> contradiction
  | done | stored => trivial

/-- What is empty after a step that makes no request to a shader was empty before. -/
theorem Moment.hasEmpty_idle {R : Value ⊕ Pointer → Prop}
    (others : ∀ plan, t.plan? = some plan → plan.request.shader ≠ m)
    (before : ∀ x, t.world.HasEmpty m x → R x) (binder : Option String) :
    ∀ x, (t.next binder).HasEmpty m x → R x := by
  rw [World.hasEmpty_iff] at before ⊢
  refine Moment.each_next before ?_ binder
  cases planned : t.plan? with
  | some plan =>
    rw [Moment.outcome_planned planned]
    refine (plan.outcome_shader _ _).imp (fun v foreign own => ?_) fun p foreign own => ?_
    · exact absurd (foreign.symm.trans own) (others plan planned)
    · exact absurd (foreign.symm.trans own) (others plan planned)
  | none => exact Moment.outcome_unplanned planned before

/-- What is empty after a request that is carried out in a sound world was empty before. -/
theorem Moment.hasEmpty_done {settings : List Settings} {session : Sessions} {s : Shader}
    {R : Value ⊕ Pointer → Prop} (sound : t.world.Sound settings session)
    (planned : t.plan? = some plan) (found : t.world.shaders[plan.request.shader]? = some s)
    (done : plan.request.fate s.draft = .done reply) (before : ∀ x, t.world.HasEmpty m x → R x)
    (binder : Option String) : ∀ x, (t.next binder).HasEmpty m x → R x := by
  rw [World.hasEmpty_iff] at before ⊢
  refine Moment.each_next before ?_ binder
  obtain ⟨ask, d', asked, run⟩ := Request.done_iff.mp done
  have holds : plan.gift.Holds d' reply := (sound.agrees planned found asked).ok run
  rw [Moment.outcome_planned planned, plan.request.perform_eq found, done]
  exact (holds.full _).imp (fun v full _ empty => absurd empty full)
    fun p full _ empty => absurd empty full

end Steps

/-- What is known of a shader from the steps so far: the fault that it holds, and, if it holds none,
what has become of the requests since it was last compiled. -/
structure Shader.Accounts (m : ShaderId) (past : List Moment) (w : World) (s : Shader) : Prop where
  fault : s.fault = firstFault? m past
  requests : s.fault = none →
    ((∀ fate ∈ fates m past, ∃ reply, fate = .done reply) ∧
      ∀ x, w.HasEmpty m x →
        ∃ compiled, lastCompiled? m past = some compiled ∧ compiled.world.HasEmpty m x) ∨
    UsesLeftover m past

section Accounts

variable {settings : List Settings} {session : Sessions} {m : ShaderId} {past : List Moment}
  {t : Moment} {s : Shader}

theorem Shader.fault_compiled (s : Shader) : s.compiled.shader.fault = none := by
  unfold Shader.compiled
  split <;> rfl

/-- A compilation of a shader starts its accounts over. -/
theorem Shader.accounts_compile (compiles : t.step = .act (.compile m)) (binder : Option String) :
    s.compiled.shader.Accounts m (past ++ [t]) (t.next binder) where
  fault := by
    rw [s.fault_compiled, firstFault?, fates, sinceCompiled_compiled compiles]
    rfl
  requests _ := by
    refine .inl ⟨by simp [fates, sinceCompiled_compiled compiles], ?_⟩
    refine Moment.hasEmpty_idle (fun plan planned => ?_) (fun x empty => ?_) binder
    · exact absurd compiles (Moment.not_compile planned)
    · exact ⟨t, lastCompiled_compiled compiles, empty⟩

theorem Shader.Accounts.idle (accounts : s.Accounts m past t.world)
    (other : t.step ≠ .act (.compile m))
    (others : ∀ plan, t.plan? = some plan → plan.request.shader ≠ m) (binder : Option String) :
    s.Accounts m (past ++ [t]) (t.next binder) where
  fault := by
    rw [firstFault_other other, fateOn_other others, ← accounts.fault]
    simp
  requests faultless := by
    refine (accounts.requests faultless).imp ?_ fun uses => uses.extend other
    rintro ⟨done, kept⟩
    rw [fates_other other, fateOn_other others, lastCompiled_other other]
    exact ⟨by simpa using done, Moment.hasEmpty_idle others kept binder⟩

theorem Shader.Accounts.serves (sound : t.world.Sound settings session)
    (found : t.world.shaders[m]? = some s) (accounts : s.Accounts m past t.world)
    (planned : t.plan? = some plan) (same : plan.request.shader = m)
    (fate : t.fate? = some (plan.request.fate s.draft)) (binder : Option String) :
    (s.serving (plan.request.leaves s.draft) (plan.request.fate s.draft).fault?).Accounts m
      (past ++ [t]) (t.next binder) where
  fault := by
    rw [firstFault_other (Moment.not_compile planned), fateOn_planned planned same, fate,
      ← accounts.fault]
    rfl
  requests faultless := by
    have other : t.step ≠ .act (.compile m) := Moment.not_compile planned
    have fateOn : t.fateOn? m = some (plan.request.fate s.draft) :=
      (fateOn_planned planned same).trans fate
    obtain ⟨clean, accepted⟩ := Option.or_eq_none_iff.mp faultless
    rcases accounts.requests clean with ⟨done, kept⟩ | uses
    · subst same
      cases this : plan.request.fate s.draft with
      | done reply =>
        rw [fates_other other, fateOn, lastCompiled_other other, this]
        refine .inl ⟨fun fate member => ?_, ?_⟩
        · rcases List.mem_append.mp member with earlier | now
          · exact done fate earlier
          · exact ⟨reply, List.mem_singleton.mp now⟩
        · exact Moment.hasEmpty_done sound planned found this kept binder
      | refused fault =>
        rw [this] at accepted
        contradiction
      | skipped =>
        -- the first request that is not carried out: all that is empty is from before
        obtain ⟨x, empty⟩ := (Step.plan_apt planned).bound.hasEmpty this
        obtain ⟨compiled, last, _⟩ := kept x empty
        refine .inr ⟨sinceCompiled _ past, t, [], compiled, sinceCompiled_other other, ?_, done,
          this ▸ fateOn, ⟨x, empty⟩, fun x empty => ?_⟩
        · rw [lastCompiled_other other, last]
        · obtain ⟨compiled', last', was⟩ := kept x empty
          rwa [Option.mem_unique last last']
    · exact .inr (uses.extend other)

/-- Every step keeps the accounts of every shader. -/
theorem Shader.accounts_next (sound : t.world.Sound settings session)
    (accounts : ∀ (m : ShaderId) (s : Shader), t.world.shaders[m]? = some s →
      s.Accounts m past t.world)
    (binder : Option String) (m : ShaderId) {s' : Shader}
    (left : (t.next binder).shaders[m]? = some s') :
    s'.Accounts m (past ++ [t]) (t.next binder) := by
  have left : t.after.shaders[m]? = some s' := by rwa [Moment.next, World.bind_shaders] at left
  cases found : t.world.shaders[m]? with
  | none =>
    rw [Moment.missing_after found] at left
    contradiction
  | some s =>
    have before := accounts m s found
    rcases Moment.serves found with
      ⟨compiles, after⟩ | ⟨plan, planned, same, fate, after⟩ | ⟨other, others, after⟩
    · obtain rfl := Option.mem_unique left after
      exact Shader.accounts_compile compiles binder
    · obtain rfl := Option.mem_unique left after
      exact before.serves sound found planned same fate binder
    · obtain rfl := Option.mem_unique left after
      exact before.idle other others binder

theorem World.accounts_new {s : Shader} (found : (World.new settings).shaders[m]? = some s) :
    s.Accounts m [] (World.new settings) := by
  have faultless : s.fault = none := by
    simp only [World.new, List.getElem?_toArray, List.getElem?_map, Option.map_eq_some_iff] at found
    obtain ⟨_, _, rfl⟩ := found
    rfl
  refine ⟨faultless, fun _ => .inl ⟨by simp [fates, sinceCompiled], fun x empty => ?_⟩⟩
  cases x <;> simp [World.HasEmpty, World.new] at empty

end Accounts

/-- Compilations and lost calls. Whatever a program has done, a compilation of a shader gives up the
first fault that a request to it was refused for since it was last compiled, or else compiles its
draft; the shader holds no fault afterwards. If a module is given, no request since was refused, and
all were carried out, unless the first of them that was not used something empty that was left over
from before the shader was last compiled. -/
theorem compile_gives_first_fault (settings : List Settings) (program : List Command)
    {past later : List Moment} {t : Moment}
    (split : logAll (World.new settings) program = past ++ t :: later) {m : ShaderId} {s : Shader}
    (compiles : t.step = .act (.compile m)) (found : t.world.shaders[m]? = some s) :
    t.outcome = (match firstFault? m past with
      | some fault => .fault fault
      | none => match s.draft.compilation.result with
        | .ok compiled => .module compiled
        | .error fault => .fault fault) ∧
    (∃ s', t.after.shaders[m]? = some s' ∧ s'.fault = none) ∧
    ∀ compiled, t.outcome = .module compiled →
      (∀ fate ∈ fates m past, (∃ reply, fate = .done reply) ∨ fate = .skipped) ∧
        ((∀ fate ∈ fates m past, ∃ reply, fate = .done reply) ∨ UsesLeftover m past) := by
  have each := ((logAll_chained program (World.new settings)).keeps
    (I := fun past w => w.Sound settings (sessions past) ∧
      ∀ (m : ShaderId) (s : Shader), w.shaders[m]? = some s → s.Accounts m past w)
    (fun _ _ binder ⟨sound, accounts⟩ => ⟨Moment.sound_next sound binder,
      fun m _ left => Shader.accounts_next sound accounts binder m left⟩)
    [] ⟨World.sound_new settings, fun _ _ found => World.accounts_new found⟩).2
  have accounts : s.Accounts m past t.world := (each past t later split).2 m s found
  have outcome : t.outcome = _ := congrArg Prod.fst (Moment.run_compile compiles found)
  have compiled : s.compiled.result = (match firstFault? m past with
      | some fault => .error fault
      | none => s.draft.compilation.result) := by
    rw [← accounts.fault, Shader.compiled]
    cases s.fault <;> rfl
  rw [compiled] at outcome
  refine ⟨?_, ⟨s.compiled.shader, ?_, s.fault_compiled⟩, fun module given => ?_⟩
  · rw [outcome]
    cases firstFault? m past <;> rfl
  · exact (congrArg (·.shaders[m]?) (congrArg Prod.snd (Moment.run_compile compiles found))).trans
      (World.put_found found _)
  · have clean : firstFault? m past = none := by
      cases first : firstFault? m past with
      | none => rfl
      | some fault =>
        rw [first] at outcome
        rw [outcome] at given
        contradiction
    refine ⟨fun fate member => ?_, ?_⟩
    · cases fate with
      | done reply => exact .inl ⟨reply, rfl⟩
      | skipped => exact .inr rfl
      | refused fault =>
        have none_refused := List.filterMap_eq_nil_iff.mp (List.head?_eq_none_iff.mp clean)
        exact absurd (none_refused _ member) nofun
    · exact (accounts.requests (accounts.fault.trans clean)).imp_left And.left

/-- A column that does not exist is asked for, and a compilation gives up the fault. Then an output
is declared with what was given for the column. -/
def lateOutput : List Command :=
  [.act (some "m") (.input 0 (.mat .three)), .act (some "c") (.column "m" 3),
    .act none (.compile 0), .act none (.output 0 (.name "c"))]

/-- The output is lost: a second compilation gives a module without it, and no fault. -/
theorem lateOutput_is_lost :
    ∃ past t s compiled,
      logAll (World.new [{ stage := .fragment }]) (lateOutput ++ [.act none (.compile 0)]) =
          past ++ [t] ∧
        t.step = .act (.compile 0) ∧ t.world.shaders[0]? = some s ∧ s.draft.outputs = #[] ∧
        t.outcome = .module compiled ∧ fates 0 past = [.skipped] ∧ UsesLeftover 0 past := by
  have lost : fates 0 (logAll (World.new [{ stage := .fragment }]) lateOutput) = [.skipped] := by
    decide +kernel
  have there : ((runAll lateOutput (World.new [{ stage := .fragment }])).2.shaders[0]?.any
      fun s => s.draft.outputs.isEmpty && s.draft.compilation.result.toBool) = true := by
    decide +kernel
  have split : logAll (World.new [{ stage := .fragment }])
      (lateOutput ++ [.act none (.compile 0)]) =
      logAll (World.new [{ stage := .fragment }]) lateOutput ++
        [⟨(runAll lateOutput (World.new [{ stage := .fragment }])).2, .act (.compile 0)⟩] :=
    logAll_append ..
  generalize (runAll lateOutput (World.new [{ stage := .fragment }])).2 = w at there split
  obtain ⟨s, found, holds⟩ := (Option.any_eq_true _ _).mp there
  obtain ⟨bare, compiles⟩ := (Bool.and_eq_true _ _).mp holds
  obtain ⟨compiled, result⟩ := exists_of_toBool compiles
  obtain ⟨outcome, _, accounts⟩ := compile_gives_first_fault _ _ split rfl found
  rw [firstFault?, lost, result] at outcome
  refine ⟨_, _, s, compiled, split, rfl, found, Array.isEmpty_iff.mp bare, outcome, lost, ?_⟩
  refine (accounts compiled outcome).2.resolve_left fun done => ?_
  rw [lost] at done
  simp at done

end ShaderIR.Frontend
