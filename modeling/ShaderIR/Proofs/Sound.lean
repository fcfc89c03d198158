import ShaderIR.Proofs.Steps

/-! What holds of every draft, whatever calls built it. Everything that a draft refers to was there
before what refers to it: operands before nodes, parents before chains, values and locations before
the events that use them. These facts are what makes a compilation replay a program in order. -/
namespace ShaderIR

variable {event : Nat} {n : Node} {p : Place} {h : Handle} {data : PlaceData}

/-- From which event on a value can be written: constants and inputs at once, a load after its own
event, anything else from where it was built. -/
def Node.ready (n : Node) : Nat :=
  match n.kind with
  | .constant _ | .input _ => 0
  | .load event => event + 1
  | _ => n.position.event

/-- A location at a later time: only the mark that it is accessed may be set. -/
structure PlaceData.Keeps (data data' : PlaceData) : Prop where
  same : data' = { data with accessed := data'.accessed }
  accessed : data.accessed = true → data'.accessed = true

namespace Draft

section Facts

variable (strict : Prop) (d : Draft)

/-- A value that something with the given id uses at the given event. It may have been released
since. -/
structure Uses (h : Handle) (id : Id) (event : Nat) : Prop where
  given : h.serial < d.graph.nextSerial
  earlier : ∀ n, d.graph.find? h = some n → n.id < id
  built : ∀ n, d.graph.find? h = some n → n.position.event ≤ event
  ready : ∀ n, d.graph.find? h = some n → n.ready ≤ event
  held : ∀ n, d.graph.find? h = some n → 0 < n.refs
  available : ∀ n, d.graph.find? h = some n → strict → n.Available d.trace event

structure Touches (p : Place) (data : PlaceData) (event : Nat) : Prop where
  known : d.places.find? p = some data
  ready : data.position.event ≤ event
  accessed : data.accessed = true
  available : strict → data.Available d.trace event

def Passed (position : Position) : Prop :=
  position.event ≤ d.trace.size ∧
    position.region = Trace.innermost (d.trace.framesAt position.event)

def Rooted (p : Place) : Prop := ∃ data, d.places.find? p = some data ∧ data.origin = .root

structure NodeSound (h : Handle) (n : Node) : Prop where
  id : n.id < d.nextId
  passed : d.Passed n.position
  operands : ∀ o ∈ n.operands, d.Uses strict o n.id n.position.event
  load : ∀ event, n.kind = .load event → n.position.event = event ∧
    ∃ p lastStore, d.trace.action? event = some (.load p h lastStore)
  input : ∀ slot, n.kind = .input slot → ∃ i, d.inputs[slot]? = some i ∧ i.value = h

structure PlaceSound (p : Place) (data : PlaceData) : Prop where
  id : data.id < d.nextId
  passed : d.Passed data.position
  root : data.origin = .root → data.depth = 1
  chain : ∀ parent link, data.origin = .chain parent link → ∃ above,
    d.places.find? parent = some above ∧ above.id < data.id ∧ data.depth = above.depth + 1 ∧
      above.position.event ≤ data.position.event ∧
      (strict → above.Available d.trace data.position.event)
  index : ∀ parent value, data.origin = .chain parent (.index value) →
    d.Uses strict value data.id data.position.event

def StoresAt (p : Place) (event : Nat) : Prop :=
  ∃ h, d.trace.action? event = some (.store p h)

/-- What an event refers to was there before it, and boundaries match the blocks that are open. -/
def ActionSound (event : Nat) : Action → Prop
  | .load p h lastStore =>
      (∃ data, d.Touches strict p data event) ∧ h.serial < d.graph.nextSerial ∧
        (∀ n, d.graph.find? h = some n → n.kind = .load event) ∧
        ∀ store, lastStore = some store → store < event ∧ d.StoresAt p store
  | .store p h => (∃ data, d.Touches strict p data event) ∧ d.Uses strict h d.nextId event
  | .boundary (.ifBegin s) =>
      ∃ x, d.selections[s]? = some x ∧ d.Uses strict x.condition d.nextId event
  | .boundary (.ifElse s) | .boundary (.ifEnd s) =>
      s < d.selections.size ∧
        (d.trace.framesAt event).head?.map Frame.scope = some (.selection s)
  | .boundary (.loopBegin l) => l < d.loops.size
  | .boundary (.loopEnd l) =>
      l < d.loops.size ∧ (d.trace.framesAt event).head?.map Frame.scope = some (.loop l)
  | .boundary (.leave l _) | .boundary (.next l _) =>
      l < d.loops.size ∧ innermostLoop? ((d.trace.framesAt event).map Frame.scope) = some l

structure LoopSound (l : CountedLoop) : Prop where
  bounds : ∀ h ∈ [l.first, l.last, l.step], h.serial < d.graph.nextSerial ∧
    ∀ n, d.graph.find? h = some n → ∃ literal, n.kind = .constant literal
  counter : d.Rooted l.counter

structure Written (h : Handle) : Prop where
  given : h.serial < d.graph.nextSerial
  ready : ∀ n, d.graph.find? h = some n → n.ready ≤ d.trace.size
  held : ∀ n, d.graph.find? h = some n → 0 < n.refs
  outermost : ∀ n, d.graph.find? h = some n → strict → n.Outermost

def Opened : Scope → Prop
  | .selection s => s < d.selections.size
  | .loop l => l < d.loops.size

structure FlowSound : Prop where
  trace : d.trace.Valid
  stores : ∀ p event, d.trace.stores.find? p = some event → d.StoresAt p event
  scopes : d.scopes = (d.trace.framesAt d.trace.size).map Frame.scope
  opened : ∀ scope ∈ d.scopes, d.Opened scope

structure InputSound (slot : Nat) (i : Input) : Prop where
  place : d.Rooted i.place
  given : i.value.serial < d.graph.nextSerial
  kind : ∀ n, d.graph.find? i.value = some n → n.kind = .input slot

structure ListSound : Prop where
  loops : ∀ (index : Nat) l, d.loops[index]? = some l → d.LoopSound l
  inputs : ∀ (slot : Nat) i, d.inputs[slot]? = some i → d.InputSound slot i
  outputs : ∀ o ∈ d.outputs, d.Rooted o.place ∧ d.Written strict o.value
  builtins : ∀ o ∈ d.builtins, d.Rooted o.place ∧ d.Written strict o.value
  bindings : ∀ b ∈ d.bindings, d.Rooted b.place
  locals : ∀ p ∈ d.locals, d.Rooted p

structure Sound : Prop where
  first : 0 < d.nextId
  valid : d.graph.Valid
  flow : d.FlowSound
  nodes : ∀ h n, d.graph.find? h = some n → d.NodeSound strict h n
  places : ∀ p data, d.places.find? p = some data → d.PlaceSound strict p data
  actions : ∀ event action, d.trace.action? event = some action → d.ActionSound strict event action
  lists : d.ListSound strict

end Facts

structure Extends (d d' : Draft) : Prop where
  graph : d.graph.Evolves d'.graph
  nextId : d.nextId ≤ d'.nextId
  places : ∀ p data, d.places.find? p = some data →
    ∃ data', d'.places.find? p = some data' ∧ data.Keeps data'
  size : d.trace.size ≤ d'.trace.size
  actions : ∀ event < d.trace.size, d'.trace.action? event = d.trace.action? event
  selections : ∀ (s : Nat) x, d.selections[s]? = some x →
    ∃ hasElse, d'.selections[s]? = some { x with hasElse }
  loops : ∀ (index : Nat) l, d.loops[index]? = some l → d'.loops[index]? = some l
  inputs : ∀ (slot : Nat) i, d.inputs[slot]? = some i → d'.inputs[slot]? = some i

section Mono

variable {strict : Prop} {d d' : Draft} (extended : d.Extends d')

include extended

theorem Extends.framesAt (bound : event ≤ d.trace.size) :
    d'.trace.framesAt event = d.trace.framesAt event :=
  Trace.framesAt_congr fun k below => extended.actions k (by omega)

theorem Extends.openAt {region : Option Nat} (bound : event ≤ d.trace.size) :
    d'.trace.OpenAt region event ↔ d.trace.OpenAt region event := by
  simp only [Trace.OpenAt, extended.framesAt bound]

theorem Extends.available (bound : event ≤ d.trace.size) (available : n.Available d.trace event) :
    n.Available d'.trace event :=
  available.imp_right fun rest => rest.imp_right (extended.openAt bound).mpr

theorem Extends.passed {position : Position} (passed : d.Passed position) :
    d'.Passed position :=
  ⟨Nat.le_trans passed.1 extended.size, by rw [extended.framesAt passed.1]; exact passed.2⟩

theorem Extends.rooted (rooted : d.Rooted p) : d'.Rooted p := by
  obtain ⟨data, found, root⟩ := rooted
  obtain ⟨data', found', kept⟩ := extended.places p data found
  exact ⟨data', found', by rw [kept.same]; exact root⟩

/-- A handle given out before names a node with the same contents. -/
theorem Extends.old {n' : Node} (given : h.serial < d.graph.nextSerial)
    (found : d'.graph.find? h = some n') :
    ∃ n refs, d.graph.find? h = some n ∧ n' = { n with refs } ∧ (0 < n.refs → 0 < refs) := by
  obtain ⟨n, before, kept⟩ := extended.graph.old h n' given found
  exact ⟨n, n'.refs, before, kept.same, kept.refs⟩

theorem Extends.uses {id id' : Id} (bound : event ≤ d.trace.size) (later : id ≤ id')
    (uses : d.Uses strict h id event) : d'.Uses strict h id' event := by
  refine ⟨Nat.lt_of_lt_of_le uses.given extended.graph.nextSerial, ?_, ?_, ?_, ?_, ?_⟩ <;>
    intro n' found <;> obtain ⟨n, refs, before, rfl, held⟩ := extended.old uses.given found
  · exact Nat.lt_of_lt_of_le (uses.earlier n before) later
  · exact uses.built n before
  · exact uses.ready n before
  · exact held (uses.held n before)
  · exact fun required => extended.available bound (uses.available n before required)

theorem Extends.touches (bound : event ≤ d.trace.size) (touches : d.Touches strict p data event) :
    ∃ data', d'.Touches strict p data' event := by
  obtain ⟨data', found, kept⟩ := extended.places p data touches.known
  refine ⟨data', found, ?_, kept.accessed touches.accessed, fun required => ?_⟩
  · rw [kept.same]
    exact touches.ready
  · rw [kept.same]
    exact (touches.available required).imp_right (extended.openAt bound).mpr

theorem Extends.written (written : d.Written strict h) : d'.Written strict h := by
  refine ⟨Nat.lt_of_lt_of_le written.given extended.graph.nextSerial, ?_, ?_, ?_⟩ <;>
    intro n' found <;> obtain ⟨n, refs, before, rfl, held⟩ := extended.old written.given found
  · exact Nat.le_trans (written.ready n before) extended.size
  · exact held (written.held n before)
  · exact written.outermost n before

theorem Extends.storesAt (stores : d.StoresAt p event) : d'.StoresAt p event := by
  obtain ⟨h, recorded⟩ := stores
  exact ⟨h, (extended.actions event (Trace.action?_lt recorded)).trans recorded⟩

theorem Extends.loopSound {l : CountedLoop} (sound : d.LoopSound l) : d'.LoopSound l := by
  refine ⟨fun h member => ?_, extended.rooted sound.counter⟩
  obtain ⟨given, constant⟩ := sound.bounds h member
  refine ⟨Nat.lt_of_lt_of_le given extended.graph.nextSerial, fun n' found => ?_⟩
  obtain ⟨n, refs, before, rfl, _⟩ := extended.old given found
  exact constant n before

theorem Extends.nodeSound (sound : d.NodeSound strict h n) (refs : Nat) :
    d'.NodeSound strict h { n with refs } where
  id := Nat.lt_of_lt_of_le sound.id extended.nextId
  passed := extended.passed sound.passed
  operands o member := extended.uses sound.passed.1 (Nat.le_refl _) (sound.operands o member)
  load event isLoad := by
    obtain ⟨position, p, lastStore, found⟩ := sound.load event isLoad
    exact ⟨position, p, lastStore, by rw [extended.actions event (Trace.action?_lt found), found]⟩
  input slot isInput := by
    obtain ⟨i, found, same⟩ := sound.input slot isInput
    exact ⟨i, extended.inputs slot i found, same⟩

theorem Extends.placeSound {data' : PlaceData} (sound : d.PlaceSound strict p data)
    (kept : data.Keeps data') : d'.PlaceSound strict p data' := by
  rw [kept.same]
  refine ⟨Nat.lt_of_lt_of_le sound.id extended.nextId, extended.passed sound.passed, sound.root,
    fun parent link origin => ?_, fun parent value origin =>
      extended.uses sound.passed.1 (Nat.le_refl _) (sound.index parent value origin)⟩
  obtain ⟨above, found, earlier, depth, before, available⟩ := sound.chain parent link origin
  obtain ⟨above', found', same⟩ := extended.places parent above found
  refine ⟨above', found', ?_, ?_, ?_, fun required => ?_⟩ <;> rw [same.same]
  · exact earlier
  · exact depth
  · exact before
  · exact (available required).imp_right (extended.openAt sound.passed.1).mpr

theorem Extends.selections_lt {s : Nat} (bound : s < d.selections.size) :
    s < d'.selections.size := by
  obtain ⟨_, found⟩ := extended.selections s _ (Array.getElem?_eq_getElem bound)
  exact (Array.getElem?_eq_some_iff.mp found).1

theorem Extends.loops_lt {l : Nat} (bound : l < d.loops.size) : l < d'.loops.size :=
  (Array.getElem?_eq_some_iff.mp
    (extended.loops l _ (Array.getElem?_eq_getElem bound))).1

theorem Extends.actionSound {action : Action} (bound : event ≤ d.trace.size)
    (sound : d.ActionSound strict event action) : d'.ActionSound strict event action := by
  cases action with
  | load p h lastStore =>
    obtain ⟨⟨data, touches⟩, given, kind, before⟩ := sound
    refine ⟨extended.touches bound touches,
      Nat.lt_of_lt_of_le given extended.graph.nextSerial, fun n' found => ?_,
      fun store last => (before store last).imp_right extended.storesAt⟩
    obtain ⟨n, refs, old, rfl, _⟩ := extended.old given found
    exact kind n old
  | store p h =>
    obtain ⟨⟨data, touches⟩, uses⟩ := sound
    exact ⟨extended.touches bound touches, extended.uses bound extended.nextId uses⟩
  | boundary b =>
    cases b with
    | ifBegin s =>
      obtain ⟨x, found, uses⟩ := sound
      obtain ⟨_, found'⟩ := extended.selections s x found
      exact ⟨_, found', extended.uses bound extended.nextId uses⟩
    | ifElse s | ifEnd s =>
      exact ⟨extended.selections_lt sound.1, by rw [extended.framesAt bound]; exact sound.2⟩
    | loopBegin l => exact extended.loops_lt sound
    | loopEnd l => exact ⟨extended.loops_lt sound.1, by rw [extended.framesAt bound]; exact sound.2⟩
    | leave l label | next l label =>
      exact ⟨extended.loops_lt sound.1, by rw [extended.framesAt bound]; exact sound.2⟩

theorem Extends.inputSound {slot : Nat} {i : Input} (sound : d.InputSound slot i) :
    d'.InputSound slot i := by
  refine ⟨extended.rooted sound.place, Nat.lt_of_lt_of_le sound.given extended.graph.nextSerial,
    fun n' found => ?_⟩
  obtain ⟨n, refs, before, rfl, _⟩ := extended.old sound.given found
  exact sound.kind n before

theorem Extends.opened {scope : Scope} (opened : d.Opened scope) : d'.Opened scope := by
  cases scope with
  | selection s => exact extended.selections_lt opened
  | loop l => exact extended.loops_lt opened

/-! What holds of all that was there, and of all that is new, holds of everything. -/

theorem Extends.each_node {P : Handle → Node → Prop}
    (old : ∀ h n refs, d.graph.find? h = some n → P h { n with refs })
    (new : ∀ h n, d'.graph.find? h = some n → d.graph.nextSerial ≤ h.serial → P h n) (h : Handle)
    (n : Node) (found : d'.graph.find? h = some n) : P h n := by
  by_cases given : h.serial < d.graph.nextSerial
  · obtain ⟨n, refs, before, rfl, _⟩ := extended.old given found
    exact old h n refs before
  · exact new h n found (Nat.le_of_not_lt given)

theorem Extends.each_place {P : Place → PlaceData → Prop}
    (old : ∀ p data data', d.places.find? p = some data → data.Keeps data' → P p data')
    (new : ∀ p data, d'.places.find? p = some data → d.places.find? p = none → P p data) (p : Place)
    (data : PlaceData) (found : d'.places.find? p = some data) : P p data := by
  cases before : d.places.find? p with
  | none => exact new p data found before
  | some first =>
    obtain ⟨data', found', kept⟩ := extended.places p first before
    obtain rfl := Option.mem_unique found found'
    exact old p first data before kept

theorem Extends.each_action {P : Nat → Action → Prop}
    (old : ∀ event action, event ≤ d.trace.size → d.trace.action? event = some action →
      P event action)
    (new : ∀ event action, d'.trace.action? event = some action → d.trace.size ≤ event →
      P event action) (event : Nat) (action : Action)
    (found : d'.trace.action? event = some action) : P event action := by
  by_cases before : event < d.trace.size
  · rw [extended.actions event before] at found
    exact old event action (Nat.le_of_lt before) found
  · exact new event action found (Nat.le_of_not_lt before)

end Mono

end Draft

end ShaderIR
