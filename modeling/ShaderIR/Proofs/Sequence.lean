import Mathlib.Data.List.Forall2
import ShaderIR.Proofs.Owners
import ShaderIR.Proofs.Recorded
import ShaderIR.Proofs.Sections

/-! Program order. The loads, stores and blocks of a function are those of the recorded actions, each
written once and in the order of the calls; what the compilation adds in between computes only. -/
namespace ShaderIR

variable {a : Action} {group : List Instruction} {h : Handle} {ids : EntryIds} {interface : List Id}

/-- The instructions that the order of the program decides: memory accesses, and those that begin or
end a block. -/
def Instruction.isSequenced : Instruction → Bool
  | .load _ _ _ | .store _ _ | .label _ | .branch _ | .branchConditional _ _ _ | .selectionMerge _
  | .loopMerge _ _ | .returnVoid => true
  | _ => false

/-- The id that holds a value in a module: that of its literal for a constant, its own otherwise. -/
def ShaderModule.Holds (m : ShaderModule) (d : Draft) (h : Handle) (id : Id) : Prop :=
  ∃ n, d.graph.find? h = some n ∧
    ((∃ literal type, n.kind = .constant literal ∧ .constant type id literal ∈ m.instructions) ∨
      (∀ literal, n.kind ≠ .constant literal) ∧ id = n.id)

namespace Draft

inductive Reads (d : Draft) (i : Input) : List Instruction → Prop where
  | load {n : Node} {data : PlaceData} (type : Id) : d.graph.find? i.value = some n →
      d.places.find? i.place = some data → Reads d i [.load type n.id data.id]

/-- The instructions of an action, given the ids that hold values. The load of a value that was
released has none. -/
inductive Turn (d : Draft) (holds : Handle → Id → Prop) : Action → List Instruction → Prop where
  | released {p : Place} {h : Handle} {lastStore : Option Nat} : d.graph.find? h = none →
      Turn d holds (.load p h lastStore) []
  | load {p : Place} {h : Handle} {lastStore : Option Nat} {n : Node} {data : PlaceData} (type : Id) :
      d.graph.find? h = some n → d.places.find? p = some data →
      Turn d holds (.load p h lastStore) [.load type n.id data.id]
  | store {p : Place} {h : Handle} {data : PlaceData} {x : Id} : d.places.find? p = some data →
      holds h x → Turn d holds (.store p h) [.store data.id x]
  | ifBegin {index : Nat} {s : Selection} {condition : Id} : d.selections[index]? = some s →
      holds s.condition condition → Turn d holds (.boundary (.ifBegin index)) (s.beginGroup condition)
  | ifElse {index : Nat} {s : Selection} : d.selections[index]? = some s →
      Turn d holds (.boundary (.ifElse index)) s.elseGroup
  | ifEnd {index : Nat} {s : Selection} : d.selections[index]? = some s →
      Turn d holds (.boundary (.ifEnd index)) s.endGroup
  | loopBegin {index : Nat} {l : CountedLoop} {counter : PlaceData} {first last : Id}
      (int bool current computed : Id) : d.loops[index]? = some l →
      d.places.find? l.counter = some counter → holds l.first first → holds l.last last →
      Turn d holds (.boundary (.loopBegin index))
        ((l.beginGroup { int, counter := counter.id, current, computed } bool first last).filter
          Instruction.isSequenced)
  | loopEnd {index : Nat} {l : CountedLoop} {counter : PlaceData} {step : Id}
      (int current computed : Id) : d.loops[index]? = some l →
      d.places.find? l.counter = some counter → holds l.step step →
      Turn d holds (.boundary (.loopEnd index))
        ((l.endGroup { int, counter := counter.id, current, computed } step).filter
          Instruction.isSequenced)
  | leave {index : Nat} {l : CountedLoop} {label : Id} : d.loops[index]? = some l →
      Turn d holds (.boundary (.leave index label)) (l.leaveGroup label)
  | next {index : Nat} {l : CountedLoop} {label : Id} : d.loops[index]? = some l →
      Turn d holds (.boundary (.next index label)) (l.nextGroup label)

theorem Turn.mono {d : Draft} {holds holds' : Handle → Id → Prop} (turn : d.Turn holds a group)
    (more : ∀ h id, holds h id → holds' h id) : d.Turn holds' a group := by
  cases turn with
  | released dead => exact .released dead
  | load type found known => exact .load type found known
  | store known held => exact .store known (more _ _ held)
  | ifBegin found held => exact .ifBegin found (more _ _ held)
  | ifElse found => exact .ifElse found
  | ifEnd found => exact .ifEnd found
  | loopBegin int bool current computed found known first last =>
    exact .loopBegin int bool current computed found known (more _ _ first) (more _ _ last)
  | loopEnd int current computed found known step =>
    exact .loopEnd int current computed found known (more _ _ step)
  | leave found => exact .leave found
  | next found => exact .next found

end Draft

namespace Emission

def sequence (e : Emission) : List Instruction := e.body.toList.filter Instruction.isSequenced

section Step

variable {strict : Prop} {d : Draft} {k : Nat} {bound : Id} {e e' : Emission}

theorem Computes.not_sequenced {n : Node} {type : Id} {i : Instruction}
    (computes : e.Computes d n type i) : i.isSequenced = false := by
  cases computes <;> rfl

theorem Ask.sequence (step : Ask strict d k bound e e') : e'.sequence = e.sequence := by
  cases step with
  | quiet step => rw [Emission.sequence, step.still.body, Emission.sequence]
  | literal => rfl
  | compute _ _ _ _ _ computes => simp [Emission.sequence, computes.not_sequenced]
  | chain => simp [Emission.sequence, Instruction.isSequenced]

theorem Asks.sequence (steps : Asks strict d k bound e e') : e'.sequence = e.sequence := by
  induction steps with
  | refl => rfl
  | tail _ step ih => exact step.sequence.trans ih

theorem Loads.sequence {i : Input} (loads : Loads d i e e') :
    ∃ group, d.Reads i group ∧ e'.sequence = e.sequence ++ group := by
  obtain ⟨n, data, type, e₁, found, known, steps, _, _, _, rfl⟩ := loads
  refine ⟨_, .load type found known, ?_⟩
  simp [Emission.sequence, steps.still.body, Instruction.isSequenced]

theorem Stored.sequence {p : Place} (stored : Stored strict d k p h e e') :
    ∃ group, d.Turn (e'.Held d) (.store p h) group ∧ e'.sequence = e.sequence ++ group := by
  obtain ⟨n, data, x, e₁, found, known, steps, held, _, rfl⟩ := stored
  refine ⟨_, .store known ⟨held, by rw [found]; rfl⟩, ?_⟩
  rw [← steps.sequence]
  simp [Emission.sequence, Instruction.isSequenced]

/-- A boundary writes its group, of which all but the arithmetic of the counter is sequenced. -/
theorem Group.sequence {b : Boundary} {fresh : Nat} (written : e.Group d b fresh group) :
    d.Turn (e.Held d) (.boundary b) (group.filter Instruction.isSequenced) := by
  cases written with
  | ifBegin found held => exact .ifBegin found held
  | ifElse found => exact .ifElse found
  | ifEnd found => exact .ifEnd found
  | loopBegin found known _ _ _ first last => exact .loopBegin _ _ _ _ found known first last
  | loopEnd found known _ _ step => exact .loopEnd _ _ _ found known step
  | leave found => exact .leave found
  | next found => exact .next found

theorem Replays.sequence (replays : Replays strict d k e e') :
    ∃ action group, d.trace.action? k = some action ∧ d.Turn (e'.Held d) action group ∧
      e'.sequence = e.sequence ++ group := by
  have marked : (e.mark k).sequence = e.sequence := rfl
  cases replays with
  | released recorded dead => exact ⟨_, [], recorded, .released dead, (List.append_nil _).symm⟩
  | @load p h lastStore n data type e₁ recorded found known steps =>
    refine ⟨_, _, recorded, .load type found known, ?_⟩
    rw [← marked, ← steps.sequence]
    simp [Emission.sequence, Instruction.isSequenced]
  | store recorded stored =>
    obtain ⟨group, turn, same⟩ := stored.sequence
    exact ⟨_, group, recorded, turn, same⟩
  | boundary recorded steps _ written =>
    refine ⟨_, _, recorded, written.sequence, ?_⟩
    rw [← marked, ← steps.sequence]
    simp [Emission.sequence]

end Step

/-- What the rounds of a chain write: one group for each item, in their order. -/
theorem chain_sequence {α : Type} {R : α → Emission → Emission → Prop}
    {G : Emission → α → List Instruction → Prop}
    (mono : ∀ {s t : Emission} {a : α} {group}, s.Grows t → G s a group → G t a group)
    {items : List α} {s t : Emission} (chain : Chain R items s t)
    (step : ∀ a s t, R a s t → s.Grows t ∧ ∃ group, G t a group ∧ t.sequence = s.sequence ++ group) :
    s.Grows t ∧ ∃ groups, List.Forall₂ (G t) items groups ∧
      t.sequence = s.sequence ++ groups.flatten := by
  induction chain with
  | nil s => exact ⟨.refl s, [], .nil, (List.append_nil _).symm⟩
  | @cons a rest s t u first _ ih =>
    obtain ⟨grows, group, written, here⟩ := step a s t first
    obtain ⟨grows', groups, others, later⟩ := ih
    exact ⟨grows.trans grows', group :: groups, .cons (mono grows' written) others,
      by rw [later, here, List.flatten_cons, List.append_assoc]⟩

end Emission

theorem Trace.forall₂_actions {t : Trace} {β : Type} {P : Action → β → Prop} {bs : List β}
    (all : List.Forall₂ (fun k b => ∃ a, t.action? k = some a ∧ P a b) (List.range t.size) bs) :
    List.Forall₂ P t.actions bs := by
  rw [List.forall₂_iff_get] at all ⊢
  obtain ⟨lengths, each⟩ := all
  refine ⟨by simpa [actions, size] using lengths, fun i left right => ?_⟩
  obtain ⟨a, recorded, holds⟩ := each i (by rw [lengths]; exact right) right
  have same : t.actions.get ⟨i, left⟩ = a := by
    have bound : i < t.events.size := by simpa [actions] using left
    rw [List.get_eq_getElem, List.getElem_range] at recorded
    simpa [action?, bound, actions] using recorded
  rw [same]
  exact holds

namespace Emission

variable {strict : Prop} {d : Draft} {e : Emission}

theorem Turn.grow {e' : Emission} (grows : e.Grows e') (turn : d.Turn (e.Held d) a group) :
    d.Turn (e'.Held d) a group :=
  turn.mono fun _ _ => grows.held

/-- The sequenced instructions of a compilation: the inputs are read, the recorded actions have their
turns, and the outputs are stored. -/
theorem Compiled.sequence (sound : d.Sound strict) {stages : Stages}
    (compiled : Compiled strict d ids interface e stages) :
    ∃ loads turns stores, List.Forall₂ d.Reads d.inputs.toList loads ∧
      List.Forall₂ (d.Turn (e.Held d)) d.trace.actions turns ∧
      List.Forall₂ (fun s => d.Turn (e.Held d) (.store s.1 s.2)) (Emit.finalStores d) stores ∧
      e.sequence = loads.flatten ++ turns.flatten ++ stores.flatten := by
  obtain ⟨_, loads, reads, first⟩ := chain_sequence (G := fun _ => d.Reads) (fun _ same => same)
    compiled.inputs fun i s t step => ⟨step.grows, step.sequence⟩
  obtain ⟨_, turns, written, second⟩ := chain_sequence
    (G := fun e k group => ∃ a, d.trace.action? k = some a ∧ d.Turn (e.Held d) a group)
    (fun grows ⟨a, recorded, turn⟩ => ⟨a, recorded, Turn.grow grows turn⟩) compiled.events
    fun k s t ⟨ready, replays⟩ => by
      obtain ⟨a, group, recorded, turn, same⟩ := replays.sequence
      exact ⟨replays.grows sound ready, group, ⟨a, recorded, turn⟩, same⟩
  obtain ⟨grows, stores, stored, third⟩ := chain_sequence
    (G := fun e (s : Place × Handle) group => d.Turn (e.Held d) (.store s.1 s.2) group)
    Turn.grow compiled.stores fun s e e' step => ⟨step.2.grows, step.2.sequence⟩
  refine ⟨loads, turns, stores, reads, ?_, stored, ?_⟩
  · refine (Trace.forall₂_actions written).imp fun a group turn => Turn.grow grows turn
  · have empty : stages.prepared.sequence = [] := by
      rw [Emission.sequence, compiled.unbegun.body]
      rfl
    rw [third, second, first, empty, List.nil_append]

theorem Held.holds {m : ShaderModule} (purposeful : e.Purposeful d ids) (defines : e.Defines)
    (put : m.instructions = e.instructions d ids interface) {id : Id} (held : e.Held d h id) :
    m.Holds d h id := by
  obtain ⟨n, found⟩ := Option.isSome_iff_exists.mp held.2
  refine ⟨n, found, ?_⟩
  rcases (purposeful.values h n id found held.1).placed with ⟨literal, kind, known⟩ | plain
  · obtain ⟨type, _, member⟩ := defines literal id known
    refine .inl ⟨literal, type, kind, ?_⟩
    rw [put, instructions]
    simp [member]
  · exact .inr plain

end Emission

/-- In the function of a module the loads, stores, labels, branches and merges are, in this order:
one load for each input slot, the instructions of every action that the program recorded, in the
order of the calls, one store for each output and then for each output with a fixed role, in the
order of the calls, and the return. -/
theorem Draft.replayed_in_program_order (settings : Settings) (slots : List Ty) {first : Draft}
    (begun : withInputs settings slots = .ok () first) {program : List Call}
    (building : ∀ c ∈ program, c.restarts = false) {m : ShaderModule}
    (compiled : (first.after program).compilation.result = .ok m) :
    ∃ entry body loads turns stores,
      m.function = .label entry :: body ∧
      body.filter Instruction.isSequenced =
        loads.flatten ++ turns.flatten ++ stores.flatten ++ [.returnVoid] ∧
      List.Forall₂ (first.after program).Reads (first.after program).inputs.toList loads ∧
      List.Forall₂ ((first.after program).Turn (m.Holds (first.after program)))
        (first.recorded program) turns ∧
      List.Forall₂
        (fun s => (first.after program).Turn (m.Holds (first.after program)) (.store s.1 s.2))
        (Emit.finalStores (first.after program)) stores ∧
      (first.after program).outputs.toList.map Output.value =
        (first.accepted program).filterMap Call.output? ∧
      (first.after program).builtins.toList.map (fun o => (o.builtin, o.value)) =
        (first.accepted program).filterMap Call.builtin? := by
  obtain rfl := eq_of_withInputs begun
  have start := proper_begun False settings slots
  have proper := start.after building
  obtain ⟨trace, noOutputs, noBuiltins⟩ := withSlots_records (new settings) slots
  obtain ⟨actions, outputs, builtins⟩ := after_records building start.sound.valid
  rw [trace] at actions
  rw [noOutputs] at outputs
  rw [noBuiltins] at builtins
  obtain ⟨e, _, ids, interface, _, parts, put, _⟩ := proper.assemble_ok compiled
  obtain ⟨loads, turns, stores, reads, written, stored, order⟩ := parts.sequence proper.sound
  have holds : ∀ h id, e.Held _ h id → m.Holds _ h id := fun _ _ =>
    (·.holds (parts.purposeful proper.sound) (parts.listed proper).constants put)
  refine ⟨ids.label, _, loads, turns, stores, (parts.sections proper.sound).function put, ?_,
    reads, ?_, ?_, outputs, builtins⟩
  · have computing : e.locals.toList.filter Instruction.isSequenced = [] := by
      rw [List.filter_eq_nil_iff]
      intro i member
      obtain ⟨_, _, rfl⟩ := (parts.sections proper.sound).locals i (Array.mem_toList_iff.mp member)
      simp [Instruction.isSequenced]
    rw [List.filter_append, List.filter_append, computing, List.nil_append,
      show e.body.toList.filter Instruction.isSequenced = e.sequence from rfl, order]
    rfl
  · rw [actions] at written
    exact written.imp fun _ _ turn => turn.mono holds
  · exact stored.imp fun _ _ turn => turn.mono holds

/-- A program that stores under a condition, and loads a value that it then releases. -/
def Draft.storesUnderCondition : List Call :=
  [.localVariable .single, .store ⟨1⟩ ⟨0, 0⟩, .load ⟨1⟩, .binary .less ⟨0, 0⟩ ⟨1, 1⟩,
    .beginIf ⟨2, 2⟩, .load ⟨1⟩, .store ⟨1⟩ ⟨3, 3⟩, .endIf, .load ⟨1⟩, .retain ⟨4, 4⟩,
    .release ⟨4, 4⟩, .output ⟨1, 1⟩]

theorem Draft.storesUnderCondition_in_program_order :
    withInputs { stage := .vertex } [.single] = .ok () (vertex [.single]) ∧
      (∀ c ∈ storesUnderCondition, c.restarts = false) ∧
      ∃ (d : Draft) (m : ShaderModule) (entry : Id) (body : List Instruction)
        (loads turns stores : List (List Instruction)),
        d = (vertex [.single]).after storesUnderCondition ∧
        d.compilation.result = .ok m ∧
        m.function = .label entry :: body ∧
        body.filter Instruction.isSequenced =
          loads.flatten ++ turns.flatten ++ stores.flatten ++ [.returnVoid] ∧
        List.Forall₂ (d.Turn (m.Holds d))
          [.store ⟨1⟩ ⟨0, 0⟩, .load ⟨1⟩ ⟨1, 1⟩ (some 0), .boundary (.ifBegin 0),
            .load ⟨1⟩ ⟨3, 3⟩ (some 0), .store ⟨1⟩ ⟨3, 3⟩, .boundary (.ifEnd 0),
            .load ⟨1⟩ ⟨4, 4⟩ (some 4)] turns := by
  have building : ∀ c ∈ storesUnderCondition, c.restarts = false := by decide
  obtain ⟨m, compiled⟩ := exists_of_toBool (show ((vertex [.single]).after storesUnderCondition).compilation.result.toBool = true by decide +kernel)
  have recorded : (vertex [.single]).recorded storesUnderCondition =
      [.store ⟨1⟩ ⟨0, 0⟩, .load ⟨1⟩ ⟨1, 1⟩ (some 0), .boundary (.ifBegin 0),
        .load ⟨1⟩ ⟨3, 3⟩ (some 0), .store ⟨1⟩ ⟨3, 3⟩, .boundary (.ifEnd 0),
        .load ⟨1⟩ ⟨4, 4⟩ (some 4)] := by
    decide +kernel
  obtain ⟨entry, body, loads, turns, stores, function, order, _, written, _⟩ :=
    replayed_in_program_order { stage := .vertex } [.single] (withInputs_eq _ _) building compiled
  rw [recorded] at written
  exact ⟨withInputs_eq _ _, building, _, m, entry, body, loads, turns, stores, rfl, compiled,
    function, order, written⟩

end ShaderIR
