import ShaderIR.Proofs.CallEffect

/-! Histories of calls on a draft. Every call leaves a draft, whether it succeeds or is refused, and
gives an answer; a history is a list of calls, each made on what the one before left. -/
namespace ShaderIR

variable {d d' : Draft} {c : Call} {reply : Reply}

namespace Call

def leaves (c : Call) (d : Draft) : Draft :=
  match c.run d with
  | .ok _ d' => d'
  | .error _ d' => d'

def answer (c : Call) (d : Draft) : Except Fault Reply :=
  match c.run d with
  | .ok reply _ => .ok reply
  | .error fault _ => .error fault

/-- The calls after which a draft starts over. -/
def restarts : Call → Bool
  | .compile | .reset => true
  | _ => false

end Call

namespace Draft

def after (d : Draft) : List Call → Draft
  | [] => d
  | c :: rest => (c.leaves d).after rest

def answers (d : Draft) : List Call → List (Except Fault Reply)
  | [] => []
  | c :: rest => c.answer d :: (c.leaves d).answers rest

theorem after_append (d : Draft) (calls more : List Call) :
    d.after (calls ++ more) = (d.after calls).after more := by
  induction calls generalizing d with
  | nil => rfl
  | cons c rest ih => exact ih (c.leaves d)

theorem after_keeps {P : Draft → Prop} {calls : List Call}
    (step : ∀ c ∈ calls, ∀ d, P d → P (c.leaves d)) (start : P d) : P (d.after calls) := by
  induction calls generalizing d with
  | nil => exact start
  | cons c rest ih =>
    exact ih (fun b member => step b (List.mem_cons_of_mem c member)) (step c (by simp) d start)

end Draft

theorem Call.leaves_cases (valid : d.graph.Valid) (builds : c.builds = true) :
    (∃ reply, c.answer d = .ok reply ∧ Effect d c reply (c.leaves d)) ∨
      (∃ fault, c.answer d = .error fault) ∧ c.leaves d = d := by
  have yields := Call.run_yields valid builds
  cases run : c.run d with
  | ok reply d' =>
    refine .inl ⟨reply, by simp only [answer, run], ?_⟩
    simpa only [leaves, run] using yields.ok run
  | error fault d' =>
    refine .inr ⟨⟨fault, by simp only [answer, run]⟩, ?_⟩
    simpa only [leaves, run] using yields.error run

theorem Draft.leaves_release (value : Handle) :
    ∃ g, d.graph.Shrinks g ∧ (Call.release value).leaves d = { d with graph := g } := by
  have shrinks := Graph.releaseAll_shrinks (d.graph.operandCount + 1) [value] d.graph
  cases run : d.graph.release value with
  | ok u g =>
    refine ⟨g, shrinks.1 g run, ?_⟩
    simp only [Call.leaves, Call.run, Draft.release, run, Functor.map, EStateM.map]
  | error fault g =>
    refine ⟨g, shrinks.2 fault g run, ?_⟩
    simp only [Call.leaves, Call.run, Draft.release, run, Functor.map, EStateM.map]

/-- A call that does not start over has its effect, changes nothing or releases a value. -/
theorem Call.building_cases (valid : d.graph.Valid) (building : c.restarts = false) :
    (∃ reply, c.answer d = .ok reply ∧ Effect d c reply (c.leaves d)) ∨
      ((∃ fault, c.answer d = .error fault) ∧ c.builds = true ∧ c.leaves d = d) ∨
      ∃ value g, c = .release value ∧ d.graph.Shrinks g ∧ c.leaves d = { d with graph := g } := by
  by_cases builds : c.builds = true
  · exact (leaves_cases valid builds).imp_right fun refused => .inl ⟨refused.1, builds, refused.2⟩
  · cases c with
    | release value =>
      obtain ⟨g, left⟩ := Draft.leaves_release (d := d) value
      exact .inr (.inr ⟨value, g, rfl, left⟩)
    | compile | reset => contradiction
    | _ => exact absurd rfl builds

theorem Draft.valid_withNode (valid : d.graph.Valid) (ty : Ty) (kind : NodeKind)
    (operands : List Handle) (live : ∀ o ∈ operands, (d.graph.find? o).isSome := by simp) :
    (d.withNode ty kind operands).graph.Valid :=
  valid.added _ live

theorem Draft.valid_withRef (valid : d.graph.Valid) (value : Handle) :
    (d.withRef value).graph.Valid :=
  valid.addRef value

theorem Effect.valid (effect : Effect d c reply d') (valid : d.graph.Valid) : d'.graph.Valid := by
  cases effect with
  | addInput => exact (valid.added _).addRef _
  | constant | load => exact valid.added _
  | binary _ left right | extract left right | sample left right =>
    exact valid.added _ (by simp [left, right])
  | negate value => exact valid.added _ (by simp [value])
  | select condition accept reject => exact valid.added _ (by simp [condition, accept, reject])
  | construct _ _ each =>
    refine valid.added _ fun o member => ?_
    obtain ⟨v, found, _⟩ := each o member
    exact Option.isSome_of_eq_some found
  | uniform b | storage b => cases b <;> exact valid
  | texture b => cases b <;> exact valid.added _
  | index | store | beginIf | output | builtin | retain => exact valid.addRef _
  | beginFor =>
    exact ((((((valid.added _).added _).added _).addRef _).addRef _).addRef _).added _
  | input | localVariable | member | pointee | beginElse | endIf | endFor | breakLoop
  | continueLoop | typeOf => exact valid

/-- What no call that builds touches: the settings and the type table. -/
theorem Effect.frame (effect : Effect d c reply d') :
    d'.settings = d.settings ∧ d'.types = d.types := by
  cases effect with
  | uniform b | storage b | texture b => cases b <;> exact ⟨rfl, rfl⟩
  | _ => exact ⟨rfl, rfl⟩

/-! Starting over. -/

namespace Draft

theorem addInput_ok (valid : d.graph.Valid) (ty : Ty) :
    addInput ty d = .ok d.graph.nextHandle (d.withInput ty) := by
  have yields : Outcome (addInput ty) d
      (fun h d' => h = d.graph.nextHandle ∧ d' = d.withInput ty) fun _ _ => False := by
    simp only [addInput, outcome_bind, outcome_get, Build.outcome_pushVariable]
    refine (Build.outcome_pushNode (by simp)).mpr ?_
    exact (Build.outcome_retain (nextHandle_live (d := d.withVariable .input ty false) valid)).mpr
      ⟨rfl, rfl⟩
  obtain ⟨_, _, run, rfl, rfl⟩ := yields.exists_ok
  exact run

def withSlots (d : Draft) (types : List Ty) : Draft := types.foldl withInput d

/-- A vertex shader just begun, with input slots of the given types. -/
abbrev vertex (types : List Ty) : Draft := (new { stage := .vertex }).withSlots types

/-- A fragment shader just begun, with input slots of the given types. -/
abbrev fragment (types : List Ty) : Draft := (new { stage := .fragment }).withSlots types

theorem valid_withInput (valid : d.graph.Valid) (ty : Ty) : (d.withInput ty).graph.Valid :=
  (Effect.addInput ty).valid valid

theorem forM_addInput (valid : d.graph.Valid) (types : List Ty) :
    (types.forM fun ty => do let _ ← addInput ty : Build PUnit) d = .ok ⟨⟩ (d.withSlots types) := by
  induction types generalizing d with
  | nil => rfl
  | cons ty rest ih =>
    rw [List.forM_eq_forM, List.forM_cons, ← List.forM_eq_forM]
    have first := addInput_ok valid ty
    show EStateM.bind (EStateM.bind (addInput ty) fun _ => pure ()) _ d = _
    simp only [EStateM.bind, first]
    exact ih (valid_withInput valid ty)

theorem valid_new (settings : Settings) : (new settings).graph.Valid := Graph.valid_empty 0

theorem valid_cleared (d : Draft) (types : TypeTable) : (d.cleared types).graph.Valid :=
  Graph.valid_empty _

theorem withInputs_eq (settings : Settings) (types : List Ty) :
    withInputs settings types = .ok () ((new settings).withSlots types) :=
  forM_addInput (valid_new settings) types

theorem eq_of_withInputs {settings : Settings} {types : List Ty} {first : Draft}
    (begun : withInputs settings types = .ok () first) : first = (new settings).withSlots types := by
  rw [withInputs_eq] at begun
  exact (EStateM.Result.ok.inj begun).2.symm

theorem restart_eq (d : Draft) (types : TypeTable) :
    d.restart types = (d.cleared types).withSlots (d.inputs.toList.map Input.ty) := by
  have slots := forM_addInput (valid_cleared d types) (d.inputs.toList.map Input.ty)
  rw [List.forM_eq_forM, List.forM_map, ← List.forM_eq_forM] at slots
  simp only [restart, EStateM.run, slots]

theorem withSlots_frame (d : Draft) (slots : List Ty) :
    (d.withSlots slots).settings = d.settings ∧ (d.withSlots slots).types = d.types := by
  induction slots generalizing d with
  | nil => exact ⟨rfl, rfl⟩
  | cons ty rest ih => exact ih (d.withInput ty)

theorem valid_withSlots (valid : d.graph.Valid) (slots : List Ty) :
    (d.withSlots slots).graph.Valid := by
  induction slots generalizing d with
  | nil => exact valid
  | cons ty rest ih => exact ih (valid_withInput valid ty)

theorem valid_restart (d : Draft) (types : TypeTable) : (d.restart types).graph.Valid := by
  rw [restart_eq]
  exact valid_withSlots (valid_cleared d types) _

theorem restart_frame (d : Draft) (types : TypeTable) :
    (d.restart types).settings = d.settings ∧ (d.restart types).types = types.forget := by
  rw [restart_eq]
  exact withSlots_frame _ _

end Draft

end ShaderIR
