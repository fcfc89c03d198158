import ShaderIR.Proofs.Moves
import ShaderIR.Proofs.Pacing
import ShaderIR.Proofs.WordStream

/-! What ids stand for. Every id that a draft has given out stands for one thing: a value, a
location, a literal or a label. -/
namespace ShaderIR

variable {id : Id} {event : Nat} {b : Boundary} {strict : Prop} {d : Draft}

/-- What an id can stand for. A label is one of those that an event takes. -/
inductive Owner where
  | value (h : Handle)
  | place (p : Place)
  | literal (l : Literal)
  | label (event part : Nat)

def Selection.labels (s : Selection) : List Id := [s.thenLabel, s.elseLabel, s.mergeLabel]

def CountedLoop.labels (l : CountedLoop) : List Id :=
  [l.header, l.check, l.body, l.increment, l.post]

namespace Draft

def labels (d : Draft) : Boundary → List Id
  | .ifBegin s => (d.selections[s]?.map Selection.labels).getD []
  | .loopBegin l => (d.loops[l]?.map CountedLoop.labels).getD []
  | .leave _ label | .next _ label => [label]
  | .ifElse _ | .ifEnd _ | .loopEnd _ => []

def Owns (d : Draft) (id : Id) : Owner → Prop
  | .value h => ∃ n, d.graph.find? h = some n ∧ n.id = id
  | .place p => ∃ data, d.places.find? p = some data ∧ data.id = id
  | .literal l => ∃ entry, d.constants.find? l = some entry ∧ entry.id = id
  | .label event part =>
      ∃ b, d.trace.action? event = some (.boundary b) ∧ (d.labels b)[part]? = some id

/-- Every id stands for one thing, and no constant is declared yet. -/
structure Owned (d : Draft) : Prop where
  first : 0 < d.nextId
  positive : ∀ id o, d.Owns id o → 0 < id
  bound : ∀ id o, d.Owns id o → id < d.nextId
  unique : ∀ id o o', d.Owns id o → d.Owns id o' → o = o'
  constants : ∀ l entry, d.constants.find? l = some entry → entry.declared = false

/-- What a new id can stand for. A node takes the last of the new ids, a location the first, and the
labels of an event follow each other. -/
def Comes (d d' : Draft) (id : Id) : Owner → Prop
  | .value h => h = d.graph.nextHandle ∧ id + 1 = d'.nextId ∧
      d.graph.nextSerial < d'.graph.nextSerial
  | .place p => p = d.places.next ∧ id = d.nextId ∧ d'.places ≠ d.places ∧
      (d.nextId + 1 = d'.nextId → d'.graph.nextSerial = d.graph.nextSerial)
  | .literal l => l = .floatZero ∧ d'.graph = d.graph ∧ d'.places = d.places ∧
      d'.trace.size = d.trace.size
  | .label event part => event = d.trace.size ∧ id = d.nextId + part ∧ d'.graph = d.graph ∧
      d'.places = d.places ∧ d.trace.size < d'.trace.size

section Step

variable {d' : Draft}

theorem Comes.unique {o o' : Owner} (comes : Comes d d' id o) (comes' : Comes d d' id o') :
    o = o' := by
  cases o <;> cases o' <;> grind [Comes]

/-- What the draft had keeps its ids, and what is new has new ones. -/
theorem Owned.extend (owned : d.Owned) (later : d.nextId ≤ d'.nextId)
    (constants : ∀ l entry, d'.constants.find? l = some entry → entry.declared = false)
    (owns : ∀ id o, d'.Owns id o →
      d.Owns id o ∨ d.nextId ≤ id ∧ id < d'.nextId ∧ Comes d d' id o) : d'.Owned where
  first := Nat.lt_of_lt_of_le owned.first later
  positive id o held := by
    rcases owns id o held with before | new
    · exact owned.positive id o before
    · exact Nat.lt_of_lt_of_le owned.first new.1
  bound id o held := by
    rcases owns id o held with before | new
    · exact Nat.lt_of_lt_of_le (owned.bound id o before) later
    · exact new.2.1
  unique id o o' held held' := by
    rcases owns id o held with before | new <;> rcases owns id o' held' with before' | new'
    · exact owned.unique id o o' before before'
    · exact absurd (owned.bound id o before) (Nat.not_lt.mpr new'.1)
    · exact absurd (owned.bound id o' before') (Nat.not_lt.mpr new.1)
    · exact new.2.2.unique new'.2.2
  constants := constants

theorem Sound.labels_kept (sound : d.Sound strict) (extended : d.Extends d')
    (recorded : d.trace.action? event = some (.boundary b)) : d'.labels b = d.labels b := by
  have action := sound.actions event _ recorded
  cases b with
  | ifBegin s =>
    obtain ⟨x, found, _⟩ := action
    obtain ⟨_, found'⟩ := extended.selections s x found
    simp only [labels, found, found', Option.map_some, Selection.labels]
  | loopBegin l =>
    have found := Array.getElem?_eq_getElem (show l < d.loops.size from action)
    simp only [labels, found, extended.loops l _ found]
  | _ => rfl

section Comes

variable (step : Step strict d d')

include step

theorem Step.new_label (found : d'.trace.action? event = some (.boundary b))
    (late : d.trace.size ≤ event) :
    ∃ count, d'.nextId = d.nextId + count ∧ d'.labels b = List.range' d.nextId count ∧
      d'.graph = d.graph ∧ d'.places = d.places := by
  have last : ∀ {b'}, (d.trace.pushBoundary b').action? event = some (.boundary b) → b = b' :=
    fun found => Action.boundary.inj (recorded_last (Trace.grows_pushBoundary _) found late).2
  cases step with
  | load => exact absurd (recorded_last (Trace.grows_pushLoad ..) found late).2 nofun
  | store => exact absurd (recorded_last (Trace.grows_pushStore ..) found late).2 nofun
  | beginIf =>
    obtain rfl := last found
    refine ⟨3, rfl, ?_, rfl, rfl⟩
    simp [labels, openSelection, Selection.labels, nextSelection, List.range']
  | beginFor =>
    obtain rfl := last found
    refine ⟨5, rfl, ?_, rfl, rfl⟩
    simp [labels, openLoop, CountedLoop.labels, nextLoop, List.range']
  | beginElse | endIf | endFor =>
    obtain rfl := last found
    exact ⟨0, rfl, rfl, rfl, rfl⟩
  | breakLoop | continueLoop =>
    obtain rfl := last found
    exact ⟨1, rfl, rfl, rfl, rfl⟩
  | _ => exact absurd (Trace.action?_lt found) (Nat.not_lt.mpr late)

theorem Step.new_literal {l : Literal} {entry : ConstantEntry}
    (found : d'.constants.find? l = some entry) : d.constants.find? l = some entry ∨
      l = .floatZero ∧ entry = { id := d.nextId } ∧ d'.nextId = d.nextId + 1 ∧
        d'.graph = d.graph ∧ d'.places = d.places ∧ d'.trace = d.trace := by
  cases step with
  | level =>
    rw [ConstantTable.find?_register] at found
    split at found
    · exact .inr ⟨Eq.symm ‹_›, (Option.some.inj found).symm, rfl, rfl, rfl, rfl⟩
    · exact .inl found
  | _ => exact .inl found

theorem Step.owns (sound : d.Sound strict) (id : Id) (o : Owner) (held : d'.Owns id o) :
    d.Owns id o ∨ d.nextId ≤ id ∧ id < d'.nextId ∧ Comes d d' id o := by
  have extended := step.extends sound.valid
  cases o with
  | value h =>
    obtain ⟨n, found, rfl⟩ := held
    refine extended.each_node (P := fun h n => d.Owns n.id (.value h) ∨ d.nextId ≤ n.id ∧
      n.id < d'.nextId ∧ Comes d d' n.id (.value h))
      (fun h n _ before => .inl ⟨n, before, rfl⟩) (fun h n found late => .inr ?_) h n found
    have new := step.new_node sound.valid found late
    have bound := (step.valid sound.valid).serial_lt found
    obtain rfl := new.handle
    exact ⟨new.later, Nat.lt_of_lt_of_eq (Nat.lt_succ_self _) new.last, rfl, new.last, bound⟩
  | place p =>
    obtain ⟨data, found, rfl⟩ := held
    refine extended.each_place (P := fun p data => d.Owns data.id (.place p) ∨ d.nextId ≤ data.id ∧
      data.id < d'.nextId ∧ Comes d d' data.id (.place p))
      (fun p data data' before kept => .inl ⟨data, before, by rw [kept.same]⟩)
      (fun p data found missing => .inr ?_) p data found
    obtain ⟨rfl, new, later, alone⟩ := step.new_place found missing
    have changed : d'.places ≠ d.places := fun same => by simp [same, missing] at found
    cases new <;> exact ⟨Nat.le_refl _, later, rfl, rfl, changed, alone⟩
  | literal l =>
    obtain ⟨entry, found, rfl⟩ := held
    rcases step.new_literal found with before | ⟨rfl, rfl, nextId, graph, places, trace⟩
    · exact .inl ⟨entry, before, rfl⟩
    · exact .inr ⟨Nat.le_refl _, nextId ▸ Nat.lt_succ_self _, rfl, graph, places, by rw [trace]⟩
  | label event part =>
    obtain ⟨b, found, taken⟩ := held
    by_cases before : event < d.trace.size
    · rw [extended.actions event before] at found
      exact .inl ⟨b, found, sound.labels_kept extended found ▸ taken⟩
    · obtain ⟨rfl, _⟩ := step.new_action sound.valid found (Nat.le_of_not_lt before)
      obtain ⟨count, nextId, labels, graph, places⟩ := step.new_label found (Nat.le_refl _)
      rw [labels] at taken
      obtain ⟨within, rfl⟩ := List.getElem?_eq_some_iff.mp taken
      rw [List.length_range'] at within
      rw [List.getElem_range', Nat.one_mul]
      exact .inr ⟨Nat.le_add_right _ _, nextId ▸ Nat.add_lt_add_left within _,
        rfl, rfl, graph, places, Trace.action?_lt found⟩

theorem Step.owned (sound : d.Sound strict) (owned : d.Owned) : d'.Owned := by
  refine owned.extend (step.extends sound.valid).nextId (fun l entry found => ?_)
    (step.owns sound)
  rcases step.new_literal found with before | ⟨_, rfl, _⟩
  · exact owned.constants l entry before
  · rfl

end Comes

end Step

theorem owned_cleared (d : Draft) (types : TypeTable) : (d.cleared types).Owned := by
  have none : ∀ id o, ¬(d.cleared types).Owns id o := by
    rintro id o held
    cases o with
    | value h => simp [Owns, cleared, Graph.clear, Graph.find?] at held
    | place p => simp [Owns, cleared, Places.clear, Places.find?] at held
    | literal l => simp [Owns, cleared, ConstantTable.find?] at held
    | label => simp [Owns, cleared, Trace.action?] at held
  exact ⟨Nat.zero_lt_one, fun id o held => absurd held (none id o),
    fun id o held => absurd held (none id o), fun id o _ held => absurd held (none id o),
    by simp [cleared, ConstantTable.find?]⟩

inductive Dated (d : Draft) : Id → Nat → Prop where
  | value {h : Handle} {n : Node} : d.graph.find? h = some n → Dated d n.id n.position.event
  | chain {p : Place} {data : PlaceData} : d.places.find? p = some data → data.isChain = true →
      Dated d data.id data.position.event

/-- Of everything that is built up to a load, the load has the last id. -/
def Timely (d : Draft) : Prop :=
  ∀ h n k, d.graph.find? h = some n → n.kind = .load k →
    ∀ id event, d.Dated id event → event ≤ k → id ≤ n.id

theorem Dated.bound (sound : d.Sound strict) (dated : d.Dated id event) : id < d.nextId := by
  cases dated with
  | value found => exact (sound.nodes _ _ found).id
  | chain found => exact (sound.places _ _ found).id

section Timely

variable {d' : Draft} (step : Step strict d d') (sound : d.Sound strict)

include step sound

/-- What is new is built where the record ends. -/
theorem Step.dated (dated : d'.Dated id event) : d.Dated id event ∨ event = d.trace.size := by
  have extended := step.extends sound.valid
  cases dated with
  | @value h n found =>
    refine extended.each_node (P := fun _ n => d.Dated n.id n.position.event ∨
      n.position.event = d.trace.size) (fun h n _ before => .inl (.value (n := n) before))
      (fun h n found late => .inr ?_) h n found
    rw [(step.new_node sound.valid found late).position]
    rfl
  | @chain p data found isChain =>
    revert isChain
    refine extended.each_place (P := fun _ data => data.isChain = true →
      d.Dated data.id data.position.event ∨ data.position.event = d.trace.size)
      (fun p data data' before kept isChain => .inl ?_) (fun p data found missing isChain => .inr ?_)
      p data found
    · rw [kept.same] at isChain ⊢
      exact (.chain before isChain : d.Dated data.id data.position.event)
    · obtain ⟨_, new, _⟩ := step.new_place found missing
      cases new with
      | root => contradiction
      | chain => rfl

/-- What one step keeps. A new load has the last of all ids. -/
theorem Step.timely (timely : d.Timely) : d'.Timely := by
  intro h n k found isLoad id event dated before
  by_cases given : h.serial < d.graph.nextSerial
  · obtain ⟨n, _, known, rfl, _⟩ := (step.extends sound.valid).old given found
    obtain ⟨_, _, _, recorded⟩ := (sound.nodes h n known).load k isLoad
    rcases step.dated sound dated with old | rfl
    · exact timely h n k known isLoad id event old before
    · exact absurd (Trace.action?_lt recorded) (Nat.not_lt.mpr before)
  · have new := step.new_node sound.valid found (Nat.le_of_not_lt given)
    exact Nat.le_of_lt_add_one (Nat.lt_of_lt_of_eq (dated.bound (step.sound sound)) new.last.symm)

end Timely

theorem timely_cleared (d : Draft) (types : TypeTable) : (d.cleared types).Timely := by
  simp [Timely, cleared, Graph.clear, Graph.find?]

structure Steady (strict : Prop) (d : Draft) : Prop where
  sound : d.Sound strict
  owned : d.Owned
  enlisted : d.Enlisted
  orderly : d.Orderly
  timely : d.Timely

/-- What is known of a draft whose session was never compiled or reset. -/
structure Proper (strict : Prop) (d : Draft) : Prop extends Steady strict d where
  types : ∀ ty, d.types.id? ty = none

section Steady

variable {d' : Draft}

theorem Step.types (step : Step strict d d') : d'.types = d.types := by
  cases step <;> rfl

theorem Steps.steady (steps : Steps strict d d') (steady : d.Steady strict) : d'.Steady strict :=
  keeps_along (fun step steady => ⟨step.sound steady.sound, step.owned steady.sound steady.owned,
    step.enlisted steady.sound.valid steady.enlisted, step.orderly steady.sound steady.orderly,
    step.timely steady.sound steady.timely⟩) steps steady

theorem Steps.proper (steps : Steps strict d d') (proper : d.Proper strict) : d'.Proper strict where
  toSteady := steps.steady proper.toSteady
  types := keeps_along (P := fun d => ∀ ty, d.types.id? ty = none)
    (fun step types => step.types ▸ types) steps proper.types

theorem steady_cleared (strict : Prop) (d : Draft) (types : TypeTable) :
    (d.cleared types).Steady strict :=
  ⟨sound_cleared strict d types, owned_cleared d types, enlisted_cleared d types,
    orderly_cleared d types, timely_cleared d types⟩

theorem proper_begun (strict : Prop) (settings : Settings) (slots : List Ty) :
    ((new settings).withSlots slots).Proper strict :=
  (steps_withSlots (new settings) slots).proper
    { toSteady := steady_cleared strict (new settings) {}, types := fun _ => rfl }

theorem Proper.after {d : Draft} (proper : d.Proper False) {calls : List Call}
    (building : ∀ c ∈ calls, c.restarts = false) : (d.after calls).Proper False :=
  after_keeps (P := fun d => d.Proper False)
    (fun c member _ proper =>
      (Call.leaves_steps proper.sound (building c member) False.elim).proper proper) proper

theorem Owned.defines (owned : d.Owned) : (Emission.start d).Defines := by
  intro literal id found
  have undeclared := owned.constants literal _ found
  contradiction

theorem Proper.listed (proper : d.Proper strict) : (Emission.start d).Listed where
  types ty id found := by
    rw [Emission.IsType, Emission.start, proper.types] at found
    contradiction
  constants := proper.owned.defines

theorem Steady.refuses (steady : d.Steady strict) {fault : Fault}
    (refused : d.compilation.result = .error fault) :
    fault.Plain ∧ ((Emission.start d).Listed → Emit.Refuses d fault) := by
  unfold compilation at refused
  cases run : d.assemble with
  | ok m e =>
    rw [run] at refused
    contradiction
  | error fault' e =>
    rw [run] at refused
    obtain rfl := Except.error.inj refused
    exact assemble_refuses steady.sound steady.enlisted.distinct run

variable (steady : d.Steady strict) {m : ShaderModule} (done : d.compilation.result = .ok m)

include steady done

theorem Steady.assemble_ok :
    ∃ e, d.assemble = .ok m e ∧ ∃ ids interface stages,
      Emission.Compiled strict d ids interface e stages ∧
        m.instructions = e.instructions d ids interface ∧ m.bound = e.nextId := by
  obtain ⟨e, run⟩ := result_eq_ok done
  exact ⟨e, run, assemble_compiled steady.sound steady.enlisted.distinct run⟩

end Steady

end Draft

theorem Emission.Compiled.listed (proper : d.Proper strict) {ids : EntryIds} {interface : List Id}
    {e : Emission} {stages : Stages}
    (compiled : Compiled strict d ids interface e stages) : e.Listed :=
  compiled.keeps (P := fun _ e => e.Listed) (fun move => move.listed) proper.sound
    fun _ enters => enters.listed proper.listed

end ShaderIR
