import ShaderIR.Proofs.Compiling

/-! The moves of a compilation. From its entry on, a compilation is a row of small moves, some of
which lead on to the next event; what every move keeps holds at the end. -/
namespace ShaderIR

open Relation (ReflTransGen)

variable {strict : Prop} {d : Draft} {p : Place} {h : Handle} {ids : EntryIds} {interface : List Id}
  {e : Emission} {stages : Emission.Stages}

/-- A value that is to be stored at a location, by an event or at the end. -/
def Draft.Stores (d : Draft) (p : Place) (h : Handle) : Prop :=
  (∃ k, d.trace.action? k = some (.store p h)) ∨ (p, h) ∈ Emit.finalStores d

def Draft.Fetches (d : Draft) (p : Place) (h : Handle) : Prop :=
  (∃ k lastStore, d.trace.action? k = some (.load p h lastStore)) ∨
    ∃ i ∈ d.inputs, i.place = p ∧ i.value = h

def NodeKind.IsFetched (kind : NodeKind) : Prop :=
  (∃ slot, kind = .input slot) ∨ ∃ event, kind = .load event

theorem NodeKind.IsFetched.not_constant {kind : NodeKind} (fetched : kind.IsFetched)
    (literal : Literal) : kind ≠ .constant literal := by
  rcases fetched with ⟨_, rfl⟩ | ⟨_, rfl⟩ <;> simp

theorem Draft.Sound.isFetched (sound : d.Sound strict) {n : Node} (fetches : d.Fetches p h)
    (found : d.graph.find? h = some n) : n.kind.IsFetched := by
  rcases fetches with ⟨k, lastStore, recorded⟩ | ⟨i, member, _, rfl⟩
  · exact .inr ⟨k, (sound.actions k _ recorded).2.2.1 n found⟩
  · obtain ⟨slot, listed⟩ := Array.mem_iff_getElem?.mp member
    exact .inl ⟨slot, (sound.lists.inputs slot i listed).kind n found⟩

namespace Emission

inductive Move (strict : Prop) (d : Draft) (k : Nat) (e : Emission) : Nat → Emission → Prop where
  | prepare {e' : Emission} : Prepare d e e' → Move strict d k e k e'
  | ask {bound : Id} {e' : Emission} : Ask strict d k bound e e' → Move strict d k e k e'
  | mark : Move strict d k e k (e.mark k)
  | load {p : Place} {h : Handle} {n : Node} {data : PlaceData} {type : Id} : d.Fetches p h →
      d.graph.find? h = some n → n.kind.IsFetched → d.places.find? p = some data →
      p ∈ e.reached → e.IsType n.ty type → e.results.find? h.slot = none →
      Move strict d k e k
        { e with
          body := e.body.push (.load type n.id data.id)
          results := e.results.insert h.slot n.id }
  | store {p : Place} {h : Handle} {n : Node} {data : PlaceData} {x : Id} : d.Stores p h →
      d.graph.find? h = some n → d.places.find? p = some data → e.Holds h x → p ∈ e.reached →
      Move strict d k e k { e with body := e.body.push (.store data.id x) }
  | boundary {b : Boundary} {fresh : Nat} {group : List Instruction} :
      d.trace.action? k = some (.boundary b) → e.Group d b fresh group →
      Move strict d k e (k + 1)
        { e.advance b with nextId := e.nextId + fresh, body := e.body ++ group.toArray }
  | pass {action : Action} : d.trace.action? k = some action → (∀ b, action ≠ .boundary b) →
      Move strict d k e (k + 1) e

section Moves

variable {k k' : Nat} {e e' : Emission}

theorem Move.grows (move : Move strict d k e k' e') : e.Grows e' := by
  cases move with
  | prepare step => exact step.grows
  | ask step => exact step.grows
  | mark => exact grows_mark e k
  | load _ _ _ _ _ _ free => exact grows_hold free _
  | store => exact grows_push e _
  | boundary => exact grows_boundary e _ _ _
  | pass => exact .refl e

theorem Move.listed (move : Move strict d k e k' e') (listed : e.Listed) : e'.Listed := by
  have grows := move.grows
  cases move with
  | prepare step => exact step.listed listed
  | ask step =>
    cases step with
    | quiet step => exact step.listed listed
    | literal | compute | chain => exact listed.same grows rfl rfl
  | mark | load | store | boundary | pass => exact listed.same grows rfl rfl

theorem Move.defines (move : Move strict d k e k' e') (defines : e.Defines) : e'.Defines := by
  have grows := move.grows
  cases move with
  | prepare step =>
    cases step with
    | quiet step => exact step.defines defines
    | shared | own => exact defines.same grows rfl
  | ask step =>
    cases step with
    | quiet step => exact step.defines defines
    | literal | compute | chain => exact defines.same grows rfl
  | mark | load | store | boundary | pass => exact defines.same grows rfl

variable {P : Nat → Emission → Prop}
  (move : ∀ {k e k' e'}, Move strict d k e k' e' → P k e → P k' e') (sound : d.Sound strict)

include move

theorem Quiets.keeps (steps : Quiets d e e') (before : P k e) : P k e' :=
  keeps_along (P := P k) (fun step => move (.prepare (.quiet step))) steps before

theorem Asks.keeps {bound : Id} (steps : Asks strict d k bound e e') (before : P k e) : P k e' :=
  keeps_along (P := P k) (fun step => move (.ask step)) steps before

theorem Stored.keeps (stores : d.Stores p h) (stored : Stored strict d k p h e e') (before : P k e)
    : P k e' := by
  obtain ⟨n, data, x, e₁, found, known, steps, holds, reached, rfl⟩ := stored
  exact move (.store stores found known holds reached) (Asks.keeps move steps before)

include sound

theorem Loads.keeps {i : Input} (member : i ∈ d.inputs.toList) (loads : Loads d i e e')
    (before : P k e) : P k e' := by
  obtain ⟨n, data, type, e₁, found, known, steps, reached, typed, free, rfl⟩ := loads
  have fetches : d.Fetches i.place i.value := .inr ⟨i, Array.mem_toList_iff.mp member, rfl, rfl⟩
  exact move (.load fetches found (sound.isFetched fetches found) known reached typed free)
    (Quiets.keeps move steps before)

theorem Replays.keeps (replays : Replays strict d k e e') (ready : e.Ready d k)
    (before : P k e) : P (k + 1) e' := by
  have marked := move .mark before
  cases replays with
  | released recorded => exact move (.pass recorded (by simp)) marked
  | @load p h lastStore n data type e₁ recorded found known steps reached typed =>
    obtain ⟨kind, free⟩ := (steps.ready ready.mark).unloaded sound recorded found
    exact move (.pass recorded (by simp)) (move (.load (.inl ⟨k, lastStore, recorded⟩) found
      (.inr ⟨k, kind⟩) known reached typed free) (Asks.keeps move steps marked))
  | store recorded stored =>
    exact move (.pass recorded (by simp)) (Stored.keeps move (.inl ⟨k, recorded⟩) stored marked)
  | boundary recorded steps _ written =>
    exact move (.boundary recorded written) (Asks.keeps move steps marked)

/-- What the entry leads to and every move keeps holds at the end. -/
theorem Compiled.keeps (compiled : Compiled strict d ids interface e stages)
    (entered : ∀ begun, Enters d ids begun → P 0 begun) : P d.trace.size e := by
  obtain ⟨begun, enters, steps⟩ := compiled.prepare
  have start : P 0 stages.prepared :=
    keeps_along (P := P 0) (fun step => move (.prepare step)) steps (entered begun enters)
  have inputs := compiled.inputs.keeps
    (fun _ member _ _ loads => Loads.keeps move sound member loads) start
  have events := compiled.events.advances
    (fun _ _ _ turn => Replays.keeps move sound turn.2 turn.1) inputs
  exact compiled.stores.keeps
    (fun _ member _ _ stored => Stored.keeps move (.inr member) stored.2) events

end Moves

/-- Where a row of steps leads on to a last state, every step does. -/
theorem chain_within {α : Type} {R : α → Emission → Emission → Prop} {items : List α}
    {e' final : Emission} (chain : Chain R items e e') (grows : ∀ a e e', R a e e' → e.Grows e')
    (last : e'.Grows final) :
    e.Grows final ∧ Chain (fun a e e' => R a e e' ∧ e'.Grows final) items e e' := by
  induction chain with
  | nil e => exact ⟨last, .nil e⟩
  | cons first _ ih =>
    obtain ⟨later, rest⟩ := ih last
    exact ⟨(grows _ _ _ first).trans later, .cons ⟨first, later⟩ rest⟩

structure Compiled.Within (strict : Prop) (d : Draft) (e : Emission) (stages : Stages) : Prop where
  prepared : stages.prepared.Grows e
  inputs : Chain (fun i a b => Loads d i a b ∧ b.Grows e) d.inputs.toList stages.prepared
    stages.loaded
  events : Chain (fun k a b => (a.Ready d k ∧ Replays strict d k a b) ∧ b.Grows e)
    (List.range d.trace.size) stages.loaded stages.replayed
  stores : Chain (fun s a b => (a.Ready d d.trace.size ∧
    Stored strict d d.trace.size s.1 s.2 a b) ∧ b.Grows e) (Emit.finalStores d) stages.replayed e

theorem Compiled.within (sound : d.Sound strict)
    (compiled : Compiled strict d ids interface e stages) :
    Compiled.Within strict d e stages := by
  obtain ⟨replayed, stores⟩ := chain_within compiled.stores (fun _ _ _ step => step.2.grows) (.refl e)
  obtain ⟨loaded, events⟩ := chain_within compiled.events
    (fun _ _ _ turn => turn.2.grows sound turn.1) replayed
  obtain ⟨prepared, inputs⟩ := chain_within compiled.inputs (fun _ _ _ loads => loads.grows) loaded
  exact ⟨prepared, inputs, events, stores⟩

/-- Only variables are declared before the body. -/
theorem Compiled.roots (compiled : Compiled strict d ids interface e stages) :
    ∀ p ∈ stages.prepared.reached, d.Rooted p := by
  obtain ⟨begun, enters, steps⟩ := compiled.prepare
  refine keeps_along (P := fun e => ∀ p ∈ e.reached, d.Rooted p) (fun step roots p member => ?_)
    steps fun p member => ?_
  · cases step with
    | quiet step => exact roots p (step.still.reached ▸ member)
    | shared found root | own found root =>
      rcases List.mem_cons.mp member with rfl | before
      · exact ⟨_, found, root⟩
      · exact roots p before
  · rw [enters.still.reached] at member
    simp [start] at member

end Emission

end ShaderIR
