import ShaderIR.Proofs.Constants
import ShaderIR.Proofs.Dominance
import ShaderIR.Proofs.Semantics

/-! Executing modules with branches. The code that comes next is the rest of the module from some
point on; a branch goes on with the code that follows a label. However an execution goes, constants
keep their values from their declaration on, and the id of a variable names the whole of it. -/
namespace ShaderIR

variable {m : ShaderModule} {before : List Instruction}

structure Configuration (S : Semantics) where
  code : List Instruction
  state : Machine S

namespace ShaderModule

def after (m : ShaderModule) (label : Id) : List Instruction :=
  (m.instructions.dropWhile fun i => decide (i ≠ .label label)).tail

section Execution

variable {S : Semantics} (m : ShaderModule) (truth : S.Value → Bool)

/-- One step. A conditional branch asks for the truth of a value. Merges say how blocks are nested
and do nothing. -/
def step (c : Configuration S) : Option (Configuration S) :=
  match c.code with
  | [] => none
  | .branch target :: _ => some { c with code := m.after target }
  | .branchConditional condition accept reject :: _ =>
      some { c with code := m.after (if truth (c.state.values condition) then accept else reject) }
  | .selectionMerge _ :: rest | .loopMerge _ _ :: rest => some { c with code := rest }
  | i :: rest => (c.state.execute i).map fun state => { code := rest, state }

inductive Run : Configuration S → List (Configuration S) → Configuration S → Prop where
  | stay (c : Configuration S) : Run c [] c
  | step {c c' c'' : Configuration S} {visited : List (Configuration S)} :
      m.step truth c = some c' → Run c' visited c'' → Run c (c :: visited) c''

def Reaches (memory : S.Memory) (c : Configuration S) : Prop :=
  ∃ visited, m.Run truth ⟨m.instructions, .start memory⟩ visited c

variable {m truth} {c c' c'' : Configuration S} {visited more : List (Configuration S)}

theorem Run.append (run : m.Run truth c visited c') (further : m.Run truth c' more c'') :
    m.Run truth c (visited ++ more) c'' := by
  induction run with
  | stay => exact further
  | step first _ ih => exact .step first (ih further)

theorem Run.single (first : m.step truth c = some c') : m.Run truth c [c] c' :=
  .step first (.stay c')

theorem Reaches.run {memory : S.Memory} (reaches : m.Reaches truth memory c)
    (run : m.Run truth c visited c') : m.Reaches truth memory c' := by
  obtain ⟨before, first⟩ := reaches
  exact ⟨before ++ visited, first.append run⟩

/-- Where a stretch of points with some property ends is determined by where it begins. -/
theorem Run.unique {inside : Configuration S → Prop} (run : m.Run truth c visited c')
    (run' : m.Run truth c more c'') (within : ∀ v ∈ visited, inside v) (left : ¬ inside c')
    (within' : ∀ v ∈ more, inside v) (left' : ¬ inside c'') : c' = c'' := by
  induction run generalizing more with
  | stay c =>
    cases run' with
    | stay => rfl
    | step => exact absurd (within' c List.mem_cons_self) left
  | step first _ ih =>
    cases run' with
    | stay => exact absurd (within _ List.mem_cons_self) left'
    | step first' rest' =>
      obtain rfl := Option.mem_unique first first'
      exact ih rest' (fun v member => within v (List.mem_cons_of_mem _ member)) left
        fun v member => within' v (List.mem_cons_of_mem _ member)

end Execution

/-- What executions rely on: no id has two meanings, and constants come before all branches. -/
structure Sequenced (m : ShaderModule) : Prop where
  distinct : (m.instructions.filterMap Instruction.result?).Nodup
  declared : ∀ i rest, (i :: rest) <:+ m.instructions → i.targets ≠ [] →
    ∀ type id literal, .constant type id literal ∉ rest

theorem Sequenced.after_eq (sequenced : m.Sequenced) {label : Id} {rest : List Instruction}
    (code : m.instructions = before ++ .label label :: rest) : m.after label = rest := by
  have own : (Instruction.label label).result? = some label := rfl
  have distinct := sequenced.distinct
  rw [code, List.filterMap_append, List.filterMap_cons_some own] at distinct
  have absent : ∀ i ∈ before, decide (i ≠ .label label) = true := by
    intro i member
    rw [decide_eq_true_iff]
    rintro rfl
    exact (List.nodup_append.mp distinct).2.2 label
      (List.mem_filterMap.mpr ⟨_, member, rfl⟩) label List.mem_cons_self rfl
  rw [after, code, List.dropWhile_append_of_pos absent, List.dropWhile_cons_of_neg (by simp)]
  rfl

structure Steady {S : Semantics} (m : ShaderModule) (c : Configuration S) : Prop where
  suffix : c.code <:+ m.instructions
  constants : ∀ type id literal, .constant type id literal ∈ m.instructions →
    .constant type id literal ∈ c.code ∨ c.state.values id = S.literal literal
  pointers : ∀ type id storage, .variableDecl type id storage ∈ m.instructions →
    c.state.pointers id = { root := id, indices := [] }

end ShaderModule

namespace Machine

variable {S : Semantics} {s t : Machine S} {i : Instruction}

/-- An instruction changes what its own id stands for only. -/
theorem execute_other (executed : s.execute i = some t) {id : Id} (other : i.result? ≠ some id) :
    t.values id = s.values id ∧ t.pointers id = s.pointers id := by
  have held : ∀ {result v}, s.hold result v = t → result ≠ id →
      t.values id = s.values id ∧ t.pointers id = s.pointers id := by
    rintro result v rfl differs
    exact ⟨if_neg differs.symm, rfl⟩
  have pointed : ∀ {result a}, s.point result a = t → result ≠ id →
      t.values id = s.values id ∧ t.pointers id = s.pointers id := by
    rintro result a rfl differs
    exact ⟨rfl, if_neg differs.symm⟩
  cases i with
  | constant | load | compute | select | construct | extract | extractDynamic | sample =>
    exact held (Option.some.inj executed) fun same => other (congrArg some same)
  | variableDecl | accessChain =>
    exact pointed (Option.some.inj executed) fun same => other (congrArg some same)
  | store =>
    obtain rfl := Option.some.inj executed
    exact ⟨rfl, rfl⟩
  | branch | branchConditional | selectionMerge | loopMerge | returnVoid => contradiction
  | _ =>
    obtain rfl := Option.some.inj executed
    exact ⟨rfl, rfl⟩

end Machine

namespace ShaderModule

variable {S : Semantics} {truth : S.Value → Bool} {c c' : Configuration S}

/-- What a step can do: jump to a label that the instruction names, or go on behind it. -/
theorem step_cases (stepped : m.step truth c = some c') :
    ∃ i rest, c.code = i :: rest ∧
      ((∃ target ∈ i.targets, c' = ⟨m.after target, c.state⟩) ∨
        i.targets = [] ∧ ∃ state, c' = ⟨rest, state⟩ ∧
          (i.result? = none ∧ state = c.state ∨ c.state.execute i = some state)) := by
  obtain ⟨code, state⟩ := c
  cases code with
  | nil => contradiction
  | cons i rest =>
    refine ⟨i, rest, rfl, ?_⟩
    have executes : ∀ j : Instruction, j.targets = [] →
        ((state.execute j).map fun state => (⟨rest, state⟩ : Configuration S)) = some c' →
        j.targets = [] ∧ ∃ state', c' = ⟨rest, state'⟩ ∧
          (j.result? = none ∧ state' = state ∨ state.execute j = some state') := by
      intro j plain executed
      obtain ⟨state', run, rfl⟩ := Option.map_eq_some_iff.mp executed
      exact ⟨plain, state', rfl, .inr run⟩
    cases i with
    | branch target => exact .inl ⟨target, by simp [Instruction.targets],
        (Option.some.inj stepped).symm⟩
    | branchConditional condition accept reject =>
      refine .inl ⟨_, ?_, (Option.some.inj stepped).symm⟩
      simp only [Instruction.targets]
      split <;> simp
    | selectionMerge | loopMerge =>
      exact .inr ⟨rfl, state, (Option.some.inj stepped).symm, .inl ⟨rfl, rfl⟩⟩
    | _ => exact .inr (executes _ rfl stepped)

/-- Code without branches is executed to its end. -/
theorem run_straight (m : ShaderModule) (truth : S.Value → Bool)
    (straight : ∀ i ∈ before, i.isTerminator = false) (code : List Instruction) (state : Machine S)
    : ∃ visited state', m.Run truth ⟨before ++ code, state⟩ visited ⟨code, state'⟩ := by
  induction before generalizing state with
  | nil => exact ⟨[], state, .stay _⟩
  | cons i rest ih =>
    obtain ⟨first, others⟩ := List.forall_mem_cons.mp straight
    obtain ⟨next, stepped⟩ : ∃ next, m.step truth ⟨i :: rest ++ code, state⟩ =
        some ⟨rest ++ code, next⟩ := by
      cases i <;> first | contradiction | exact ⟨_, rfl⟩
    obtain ⟨visited, state', run⟩ := ih others next
    exact ⟨_, state', .step stepped run⟩

theorem after_suffix (m : ShaderModule) (label : Id) : m.after label <:+ m.instructions :=
  (List.tail_suffix _).trans (List.dropWhile_suffix _)

theorem steady_start (m : ShaderModule) (memory : S.Memory) :
    m.Steady (⟨m.instructions, .start memory⟩ : Configuration S) :=
  ⟨List.suffix_refl _, fun _ _ _ => .inl, fun _ _ _ _ => rfl⟩

theorem Steady.step (sequenced : m.Sequenced) (steady : m.Steady c)
    (stepped : m.step truth c = some c') : m.Steady c' := by
  obtain ⟨i, rest, code, ⟨target, member, rfl⟩ | ⟨_, state, rfl, executed⟩⟩ := step_cases stepped
  · have branches : i.targets ≠ [] := List.ne_nil_of_mem member
    refine ⟨m.after_suffix target, fun type id literal listed => .inr ?_, steady.pointers⟩
    have done := sequenced.declared i rest (code ▸ steady.suffix) branches type id literal
    refine (steady.constants type id literal listed).resolve_left fun inside => ?_
    rcases List.mem_cons.mp (code ▸ inside) with rfl | later
    · exact branches rfl
    · exact done later
  · have within : i ∈ m.instructions := steady.suffix.subset (code ▸ List.mem_cons_self)
    -- What another instruction stands for is not changed by this one.
    have kept : ∀ {j id}, j ∈ m.instructions → j.result? = some id → j ≠ i →
        state.values id = c.state.values id ∧ state.pointers id = c.state.pointers id := by
      intro j id member result differs
      rcases executed with ⟨_, rfl⟩ | executed
      · exact ⟨rfl, rfl⟩
      · refine Machine.execute_other executed fun same => differs ?_
        exact result_unique sequenced.distinct member within result same
    refine ⟨(List.suffix_cons i rest).trans (code ▸ steady.suffix), ?_, ?_⟩
    · intro type id literal listed
      by_cases now : Instruction.constant type id literal = i
      · subst now
        rcases executed with ⟨absent, _⟩ | executed
        · contradiction
        · obtain rfl := Option.some.inj executed
          exact .inr (if_pos rfl)
      · refine (steady.constants type id literal listed).imp (fun inside => ?_) fun held => ?_
        · exact (List.mem_cons.mp (code ▸ inside)).resolve_left now
        · rw [(kept listed rfl now).1, held]
    · intro type id storage listed
      by_cases now : Instruction.variableDecl type id storage = i
      · subst now
        rcases executed with ⟨absent, _⟩ | executed
        · contradiction
        · obtain rfl := Option.some.inj executed
          exact if_pos rfl
      · rw [(kept listed rfl now).2, steady.pointers type id storage listed]

theorem Reaches.steady {memory : S.Memory} (sequenced : m.Sequenced)
    (reaches : m.Reaches truth memory c) : m.Steady c := by
  obtain ⟨visited, run⟩ := reaches
  have start := m.steady_start memory
  generalize (⟨m.instructions, .start memory⟩ : Configuration S) = c₀ at run start
  induction run with
  | stay => exact start
  | step first _ ih => exact ih (start.step sequenced first)

end ShaderModule

/-- A module that was compiled can be executed. -/
theorem Emission.Compiled.sequenced {strict : Prop} {d : Draft} {ids : EntryIds}
    {interface : List Id} {e : Emission} {stages : Stages} (proper : d.Proper strict)
    (compiled : Compiled strict d ids interface e stages)
    (put : m.instructions = e.instructions d ids interface) : m.Sequenced where
  distinct := put ▸ compiled.distinct proper
  declared i rest suffix branches type id literal := by
    have sections := (compiled.sections proper.sound)
    have isBody : i.part = .body := by
      cases i <;> first | rfl | exact absurd rfl branches
    rw [put, instructions_eq] at suffix
    rcases suffix_append_cases suffix with inside | ⟨front, filled, before, same⟩
    · intro constant
      have member := inside.subset (List.mem_cons_of_mem i constant)
      simp only [List.mem_cons, List.mem_append, List.not_mem_nil, or_false,
        Array.mem_toList_iff] at member
      rcases member with same | (same | (own | body) | same) | same
      · contradiction
      · contradiction
      · obtain ⟨_, _, same⟩ := sections.locals _ own
        contradiction
      · have part := sections.body _ body
        contradiction
      · contradiction
      · contradiction
    · obtain ⟨j, more, rfl⟩ := List.exists_cons_of_ne_nil filled
      obtain ⟨rfl, _⟩ := List.cons.inj same
      have outside := sections.preamble d ids interface i (before.subset List.mem_cons_self)
      simp [isBody] at outside

end ShaderIR
