import ShaderIR.Proofs.Frontend.Agreement

/-! Static types are kept. Every value and every pointer that a front-end program holds was given
out in the session of its own shader, and stands for something of its static type for as long as it
stands for anything; so no step is refused for the types of its operands, unless it leaves a type to
be checked by the draft. -/
namespace ShaderIR.Frontend

variable {s : Shader} {v : Value} {p : Pointer} {plan : Plan} {t : Moment} {fault : Fault}

/-- The calls that have been made on the draft of each shader, from the new one on. -/
abbrev Sessions := ShaderId → List Call

def sessions (log : List Moment) : Sessions := fun m => log.flatMap fun t => t.calls m

/-- A value that is not empty was given out by a call on its own shader, and has its static type
there if it is still live. -/
def Value.Sound (settings : List Settings) (session : Sessions) (v : Value) : Prop :=
  ∀ h, v.handle = some h → ∃ st, settings[v.shader]? = some st ∧
    .ok (.value h) ∈ (Draft.new st).answers (session v.shader) ∧
    ((Draft.new st).after (session v.shader)).Typed h v.kind.ty

/-- A pointer that is not empty was given out by a call on its own shader, and points to its static
type there, unless that is a block, if it is still known. -/
def Pointer.Sound (settings : List Settings) (session : Sessions) (p : Pointer) : Prop :=
  ∀ place, p.place = some place → ∃ st, settings[p.shader]? = some st ∧
    .ok (.place place) ∈ (Draft.new st).answers (session p.shader) ∧
    ∀ kind, p.target = .kind kind →
      ((Draft.new st).after (session p.shader)).PointsTo place kind.ty

/-- The shaders of a world are what their sessions have made of new ones, and all values and
pointers that names are bound to are sound. -/
structure World.Sound (settings : List Settings) (session : Sessions) (w : World) : Prop where
  drafts : ∀ m, w.shaders[m]?.map Shader.draft =
    settings[m]?.map fun st => (Draft.new st).after (session m)
  names : w.Each (Value.Sound settings session) (Pointer.Sound settings session)

abbrev Outcome.Sound (settings : List Settings) (session : Sessions) : Outcome → Prop :=
  Outcome.Each (Value.Sound settings session) (Pointer.Sound settings session)

section Sound

variable {settings : List Settings} {session more : Sessions} {w w' : World} {m : ShaderId}

theorem World.Sound.draft (sound : w.Sound settings session) (found : w.shaders[m]? = some s) :
    ∃ st, settings[m]? = some st ∧ s.draft = (Draft.new st).after (session m) := by
  have same := sound.drafts m
  rw [found, Option.map_some] at same
  obtain ⟨st, there, after⟩ := Option.map_eq_some_iff.mp same.symm
  exact ⟨st, there, after.symm⟩

theorem World.Sound.led (sound : w.Sound settings session) (found : w.shaders[m]? = some s) :
    s.draft.Led := by
  obtain ⟨st, _, draft⟩ := sound.draft found
  rw [draft]
  exact (Draft.led_new st).after _

/-! Sessions go on. -/

theorem Value.Sound.extend (sound : v.Sound settings session) (more : Sessions) :
    v.Sound settings fun m => session m ++ more m := by
  intro h full
  obtain ⟨st, there, answered, typed⟩ := sound h full
  have led := Draft.led_new st
  refine ⟨st, there, ?_, ?_⟩
  · rw [Draft.answers_append]
    exact List.mem_append_left _ answered
  · rw [Draft.after_append]
    exact typed.evolves ((led.after _).issuing.after _).2 (led.issuing.serial_lt answered)

theorem Pointer.Sound.extend (sound : p.Sound settings session) (more : Sessions) :
    p.Sound settings fun m => session m ++ more m := by
  intro place full
  obtain ⟨st, there, answered, points⟩ := sound place full
  have led := Draft.led_new st
  refine ⟨st, there, ?_, fun kind target => ?_⟩
  · rw [Draft.answers_append]
    exact List.mem_append_left _ answered
  · rw [Draft.after_append]
    exact (points kind target).evolves ((led.after _).issuing.after _).2
      (led.issuing.index_lt answered)

/-! What stands in a sound world. -/

theorem Value.Sound.stands (sound : w.Sound settings session) (found : w.shaders[m]? = some s)
    (holds : v.Sound settings session) : Argument.Stands m s.draft v := by
  rintro rfl h full
  obtain ⟨st, there, draft⟩ := sound.draft found
  obtain ⟨st', there', answered, typed⟩ := holds h full
  obtain rfl := Option.mem_unique there' there
  rw [draft]
  exact ⟨typed, (Draft.led_new st').issuing.serial_lt answered⟩

theorem Pointer.Sound.stands (sound : w.Sound settings session) (found : w.shaders[m]? = some s)
    (holds : p.Sound settings session) (calls : List Call) : p.Stands m (s.draft.after calls) := by
  rintro rfl place kind full target
  obtain ⟨st, there, draft⟩ := sound.draft found
  obtain ⟨st', there', answered, points⟩ := holds place full
  obtain rfl := Option.mem_unique there' there
  have led := Draft.led_new st'
  rw [draft]
  exact (points kind target).evolves ((led.after _).issuing.after calls).2
    (led.issuing.index_lt answered)

/-- In a sound world, what a step asks for is not refused for the types of its operands. -/
theorem World.Sound.agrees {step : Step} {ask : Ask} (sound : w.Sound settings session)
    (planned : step.plan? w = some plan) (found : w.shaders[plan.request.shader]? = some s)
    (asked : plan.request.asked s.draft = some ask) :
    step.Meets plan.gift ask.build (plan.request.ground s.draft) := by
  have apt := Step.plan_apt planned
  have led := sound.led found
  obtain ⟨ready, handles, all, rfl⟩ := Request.asked_iff.mp asked
  refine apt.agrees (led.after _) (fun name p there => ?_) (Request.own_of_full all) ?_ ready
  · exact (sound.names.pointers name p there).stands sound found _
  · refine Argument.handlesIn_hold led.issuing (fun v member => ?_) all
    obtain ⟨name, there⟩ := apt.bound.arguments _ member v rfl
    exact (sound.names.values name v there).stands sound found

/-! One step. -/

theorem Plan.outcome_sound {reply : Option Reply} {st : Settings} (faulty : Bool)
    (there : settings[plan.request.shader]? = some st) (holds : ∀ r, reply = some r →
      plan.gift.Holds ((Draft.new st).after (session plan.request.shader)) r ∧
        (r = .done ∨ .ok r ∈ (Draft.new st).answers (session plan.request.shader))) :
    (plan.outcome reply faulty).Sound settings session := by
  unfold Plan.outcome
  cases gift : plan.gift with
  | done | stored => trivial
  | value kind =>
    intro h full
    obtain ⟨r, given, value⟩ := Option.bind_eq_some_iff.mp full
    obtain ⟨typed, answered⟩ := holds r given
    cases r with
    | value h' =>
      obtain rfl := Option.some.inj value
      rw [gift] at typed
      exact ⟨st, there, answered.resolve_left nofun, typed⟩
    | _ => contradiction
  | pointer target =>
    intro place full
    obtain ⟨r, given, value⟩ := Option.bind_eq_some_iff.mp full
    obtain ⟨points, answered⟩ := holds r given
    cases r with
    | place place' =>
      obtain rfl := Option.some.inj value
      rw [gift] at points
      refine ⟨st, there, answered.resolve_left nofun, ?_⟩
      rintro kind ⟨⟩
      exact points
    | _ => contradiction

theorem Plan.outcome_empty (plan : Plan) (faulty : Bool) :
    (plan.outcome none faulty).Sound settings session := by
  unfold Plan.outcome
  cases plan.gift with
  | done | stored => trivial
  | value | pointer => exact nofun

/-- What a step gives is sound in the sessions that the step leaves. -/
theorem Moment.outcome_sound (sound : t.world.Sound settings session) :
    t.outcome.Sound settings fun m => session m ++ t.calls m := by
  cases planned : t.plan? with
  | some plan =>
    rw [Moment.outcome_planned planned]
    cases found : t.world.shaders[plan.request.shader]? with
    | none =>
      rw [plan.request.perform_missing found]
      exact plan.outcome_empty _
    | some s =>
      obtain ⟨st, there, draft⟩ := sound.draft found
      rw [plan.request.perform_eq found]
      refine Plan.outcome_sound _ there fun r given => ?_
      obtain ⟨ask, d', asked, run⟩ := Request.done_iff.mp (Fate.reply?_eq_some.mp given)
      have left : plan.request.leaves s.draft = d' := by
        rw [Request.leaves, asked]
        dsimp only
        rw [run]
      -- the session of the shader goes on by the calls of the request, and the reply is among the
      -- answers to them
      rw [Moment.calls_planned planned found]
      constructor
      · rw [Draft.after_append, ← draft, ← Request.leaves_eq, left]
        exact (sound.agrees planned found asked).ok run
      · refine (Ask.build_answers run).imp_right fun answered => ?_
        rw [Draft.answers_append, ← draft, Request.calls, asked, Option.elim_some,
          Draft.answers_append]
        exact List.mem_append_right _ (List.mem_append_right _ answered)
  | none =>
    exact (Moment.outcome_unplanned planned sound.names).imp
      (fun _ given => given.extend t.calls) fun _ given => given.extend t.calls

/-- Sessions go on by the calls of each step, and the world stays sound whatever name its outcome is
bound to. -/
theorem Moment.sound_next {past : List Moment} (sound : t.world.Sound settings (sessions past))
    (binder : Option String) : (t.next binder).Sound settings (sessions (past ++ [t])) := by
  have same : sessions (past ++ [t]) = fun m => sessions past m ++ t.calls m := by
    funext m
    simp [sessions]
  rw [same]
  constructor
  · intro m
    have drafts := sound.drafts m
    rw [Moment.next, World.bind_shaders]
    cases found : t.world.shaders[m]? with
    | none =>
      rw [found] at drafts
      rw [Moment.missing_after found, Option.map_eq_none_iff.mp drafts.symm]
      rfl
    | some s =>
      obtain ⟨st, there, draft⟩ := sound.draft found
      obtain ⟨s', left, made⟩ := Moment.draft_after found
      rw [left, there, Option.map_some, Option.map_some, Draft.after_append, ← draft, made]
  · refine Moment.each_next ?_ (Moment.outcome_sound sound) binder
    exact sound.names.imp (fun _ known => known.extend t.calls) fun _ known => known.extend t.calls

theorem World.sound_new (settings : List Settings) :
    (World.new settings).Sound settings (sessions []) := by
  refine ⟨fun m => ?_, by simp [World.new], by simp [World.new]⟩
  simp [World.new, Shader.new, sessions, Draft.after, Function.comp_def]

/-- In a sound world, a step is refused for a type only if it leaves a type to be checked. -/
theorem Moment.admits (sound : t.world.Sound settings session)
    (refused : t.fate? = some (.refused fault)) : t.step.Admits fault := by
  simp only [Moment.fate?, Option.bind_eq_bind, Option.bind_eq_some_iff, Option.pure_def,
    Option.some.injEq] at refused
  obtain ⟨plan, planned, s, found, refused⟩ := refused
  rcases Request.refused_cases refused with rfl | ⟨ask, d', asked, run⟩
  · exact .inl rfl
  · exact (sound.agrees planned found asked).error run

end Sound

/-- A fault that a shader holds after a step was held before, or is what the step was refused for.
-/
theorem Moment.fault_after {m : ShaderId} {s' : Shader} (before : t.world.shaders[m]? = some s)
    (after : t.after.shaders[m]? = some s') (held : s'.fault = some fault) :
    s.fault = some fault ∨ t.fate? = some (.refused fault) := by
  rcases Moment.serves before with ⟨_, compiled⟩ | ⟨plan, _, _, fate, left⟩ | ⟨_, _, left⟩
  · obtain rfl := Option.mem_unique after compiled
    unfold Shader.compiled at held
    split at held <;> contradiction
  · obtain rfl := Option.mem_unique after left
    simp only [Shader.serving, Option.or_eq_some_iff] at held
    rcases held with held | ⟨_, refused⟩
    · exact .inl held
    · rw [fate, Fate.fault?_eq_some.mp refused]
      exact .inr rfl
  · obtain rfl := Option.mem_unique after left
    exact .inl held

/-- Static types are sound. A program is a chain of steps, and each shader has a session: the calls
that the steps so far have made on it since it was created, through all its compilations. At every
step, every value and every pointer that a name is bound to, and what the step gives besides, was
given out in the session of its own shader, and is of its static type for as long as it is known
there. So no step is refused for the types of its operands; only a member can turn out to have
another type than was asked for, and a value the wrong type for an output for which none was asked.
What a shader holds as its fault is what a step was refused for. -/
theorem static_types_sound (settings : List Settings) (program : List Command) :
    Chained (World.new settings) (logAll (World.new settings) program)
        (runAll program (World.new settings)).2 ∧
      (∀ past t later, logAll (World.new settings) program = past ++ t :: later →
        t.world.Sound settings (sessions past) ∧
        (∀ binder, (t.next binder).Sound settings (sessions (past ++ [t]))) ∧
        (∀ fault, t.fate? = some (.refused fault) →
          (∀ op types, fault ≠ .invalidOperands op types) ∧
          (∀ op types, fault ≠ .unsupportedOperation op types) ∧
          ∀ expected found, fault = .typeMismatch expected found →
            (∃ p kind i, t.step = .act (.member p kind i)) ∨
              ∃ m role a, t.step = .act (.anyBuiltin m role a)) ∧
        ∀ (m : ShaderId) (s s' : Shader) fault, t.world.shaders[m]? = some s →
          t.after.shaders[m]? = some s' → s'.fault = some fault →
          s.fault = some fault ∨ t.fate? = some (.refused fault)) ∧
      (runAll program (World.new settings)).2.Sound settings
        (sessions (logAll (World.new settings) program)) := by
  have chained := logAll_chained program (World.new settings)
  obtain ⟨last, each⟩ := chained.keeps (I := fun past w => w.Sound settings (sessions past))
    (fun _ _ binder sound => Moment.sound_next sound binder) [] (World.sound_new settings)
  refine ⟨chained, fun past t later split => ?_, last⟩
  have sound : t.world.Sound settings (sessions past) := each past t later split
  refine ⟨sound, Moment.sound_next sound, fun fault refused => ?_,
    fun m s s' fault before after held => Moment.fault_after before after held⟩
  rcases Moment.admits sound refused with untyped | ⟨unchecked, expected, found, rfl⟩
  · refine ⟨?_, ?_, ?_⟩
    all_goals
      rintro _ _ rfl
      contradiction
  · exact ⟨nofun, nofun, fun _ _ _ => Step.isUnchecked_cases unchecked⟩

/-- Two shaders. The first is compiled while a name stands for an input of it, goes on with a loop
in which the name is used, and is given a block with a matrix. -/
def matrixBlock : List Command :=
  [.act (some "old") (.input 0 (.vec .three)), .act none (.compile 0),
    .act (some "v") (.input 1 (.vec .three)),
    .forRange 0 0 4 (some "i") [.act (some "w") (.arithmetic .add (.name "old") (.name "old"))],
    .act (some "b") (.uniform 0 0 0 [.mat 4 4])]

/-- A member that is a matrix is asked for as a vector: its type is found to be another one, and all
else is as it should be. -/
theorem matrixBlock_sound :
    ∃ past t,
      logAll (World.new [{ stage := .vertex }, { stage := .fragment }])
          (matrixBlock ++ [.act (some "p") (.member "b" (.vec .four) 0)]) = past ++ [t] ∧
        t.fate? = some (.refused (.typeMismatch (.vec 4) (.mat 4 4))) ∧
        t.world.Sound [{ stage := .vertex }, { stage := .fragment }] (sessions past) ∧
        (t.next (some "p")).Sound [{ stage := .vertex }, { stage := .fragment }]
          (sessions (past ++ [t])) := by
  have refused : Moment.fate? ⟨(runAll matrixBlock (World.new [{ stage := .vertex },
      { stage := .fragment }])).2, .act (.member "b" (.vec .four) 0)⟩ =
        some (.refused (.typeMismatch (.vec 4) (.mat 4 4))) := by
    decide +kernel
  have split := logAll_append matrixBlock [.act (some "p") (.member "b" (.vec .four) 0)]
    (World.new [{ stage := .vertex }, { stage := .fragment }])
  obtain ⟨_, each, _⟩ := static_types_sound [{ stage := .vertex }, { stage := .fragment }]
    (matrixBlock ++ [.act (some "p") (.member "b" (.vec .four) 0)])
  generalize (runAll matrixBlock (World.new [{ stage := .vertex }, { stage := .fragment }])).2 = w
    at refused split
  obtain ⟨sound, next, _⟩ := each _ ⟨w, .act (.member "b" (.vec .four) 0)⟩ [] split
  exact ⟨_, _, split, refused, sound, next _⟩

end ShaderIR.Frontend
