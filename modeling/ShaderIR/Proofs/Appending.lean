import ShaderIR.Proofs.StepwiseDemand
import ShaderIR.Proofs.Writable

/-! What a compilation has written stays as it is. Types, constants, values, locations and events are
noted at different moments: before, while or after they are written. Yet whatever is asked for, and
whether or not it succeeds, only appends; and what was answered once is answered in the same way ever
after, without another step. -/
namespace ShaderIR

variable {id : Id} {literal : Literal} {n : Node} {k : Nat}

/-- The id that the value of a node is written under: its own, or the one that its literal has. -/
def Node.resultIn (n : Node) (e : Emission) : Option Id :=
  match n.kind with
  | .constant literal => (e.constants.find? literal).map ConstantEntry.id
  | _ => some n.id

namespace Emission

/-- Every id that is noted for a node is the one that its value is written under. -/
def Faithful (d : Draft) (e : Emission) : Prop :=
  ∀ h n id, d.graph.find? h = some n → e.results.find? h.slot = some id → n.resultIn e = some id

def Appends (d : Draft) (e e' : Emission) : Prop := e.Faithful d → e'.Faithful d ∧ e.Extends e'

variable {d : Draft} {e e₁ e' : Emission}

section Extends

variable (further : e.Extends e')

include further

theorem Extends.resultIn (known : n.resultIn e = some id) : n.resultIn e' = some id := by
  unfold Node.resultIn at known ⊢
  split at known
  · obtain ⟨entry, found, rfl⟩ := Option.map_eq_some_iff.mp known
    obtain ⟨_, found⟩ := further.constants _ entry found
    rw [found]
    rfl
  · exact known

theorem Extends.appends (same : e'.results = e.results) : Appends d e e' := by
  refine fun faithful => ⟨fun h n id found noted => further.resultIn ?_, further⟩
  exact faithful h n id found (same ▸ noted)

end Extends

theorem Appends.refl (e : Emission) : Appends d e e := fun faithful => ⟨faithful, .refl e⟩

theorem Appends.trans (first : Appends d e e₁) (second : Appends d e₁ e') : Appends d e e' :=
  fun faithful => (second (first faithful).1).imp_right (first faithful).2.trans

/-- A node gets the id that its value is written under, and never another one. -/
theorem appends_result {h : Handle} (found : d.graph.find? h = some n)
    (right : n.resultIn e = some id) :
    Appends d e { e with results := e.results.insert h.slot id } := by
  refine fun faithful => ⟨fun h' n' id' found' noted => ?_, { Extends.refl e with
    results := fun slot id' noted => ?_ }⟩
  · rw [Assoc.find?_insert] at noted
    split at noted
    · rename_i same
      obtain ⟨rfl, rfl⟩ := Graph.handle_unique found found' same
      rw [← noted]
      exact right
    · exact faithful h' n' id' found' noted
  · rw [Assoc.find?_insert]
    split
    · rename_i same
      subst same
      rw [← right]
      exact faithful h n id' found noted
    · exact noted

theorem Quiets.appends {d' : Draft} (steps : Quiets d' e e') : Appends d e e' :=
  steps.extends.appends steps.still.results

end Emission

open Emission

namespace Emit

variable {d : Draft} {e : Emission}

theorem appends_constant (literal : Literal) (proposed : Option Id) :
    Outcome (constant literal proposed) e (fun id e' => Appends d e e' ∧ e'.IsLiteral literal id)
      fun _ => Appends d e := by
  -- Any id is that of a constant in some draft.
  let n : Node :=
    { (default : Node) with id := proposed.getD 0, kind := .constant literal, serial := 0 }
  let d' : Draft := { (default : Draft) with graph := { slots := #[some n] } }
  have named : ∀ id, proposed = some id →
      ∃ h n, d'.graph.find? h = some n ∧ n.kind = .constant literal ∧ n.id = id :=
    fun id given => ⟨⟨0, 0⟩, n, rfl, rfl, by simp [n, given]⟩
  have quiet : Quietly d' e True _ _ := quietly_constant literal named
  exact quiet.mono (fun _ _ done => ⟨done.1.appends, done.2.1⟩) fun _ _ failed => failed.1.appends

theorem stepwise_appends : Stepwise .still (Alone (Leads (Appends d))) := by
  refine stepwise_leads .refl .trans (fun e => ?_) (fun e i _ => ?_) fun e e' onward => ?_
  · exact Extends.appends { Extends.refl e with } rfl
  · exact Extends.appends { Extends.refl e with declarations := by simp } rfl
  · refine Extends.appends ?_ onward.results
    exact { Extends.refl e with
      annotations := onward.annotations ▸ List.prefix_rfl
      declarations := onward.declarations ▸ List.prefix_rfl
      locals := onward.locals
      body := onward.body
      results := onward.results ▸ fun _ _ => id
      types := onward.types ▸ (Extends.refl e).types
      constants := onward.constants ▸ (Extends.refl e).constants
      reached := onward.reached
      written := onward.written }

theorem leads_constant (literal : Literal) (proposed : Option Id) :
    Leads (Appends d) (constant literal proposed) :=
  fun _ => (appends_constant literal proposed).imp fun _ _ => And.left

theorem declaring_appends : Declaring .still (Alone (Leads (Appends d))) where
  core := stepwise_appends
  type ty e := (quietly_type (d := d) ty e).mono (fun _ _ done => done.1.appends)
    fun _ _ failed => failed.1.appends
  constant literal := leads_constant literal none

theorem whole_appends : Whole .still (Alone (Leads (Appends d))) where
  inner := declaring_appends
  variableDecl _ _ _ e := Extends.appends { Extends.refl e with declarations := by simp } rfl
  locate _ _ _ e := Extends.appends { Extends.refl e with annotations := by simp } rfl
  annotate _ e := Extends.appends { Extends.refl e with annotations := by simp } rfl
  note ty _ := (Quiet.extends (d := d) (.decorate ty)).appends rfl

/-! Values, events and locations. -/

def Ends {α : Type} (good : α → Emission → Prop) (x : Emit α) : Prop :=
  ∀ e, Outcome x e good fun _ _ => True

theorem Ends.last {α β : Type} {good : β → Emission → Prop} {x : Emit α} {f : α → Emit β}
    (rest : ∀ a, Ends good (f a)) : Ends good (x >>= f) := by
  intro e
  rw [outcome_bind]
  cases run : x e with
  | ok a e₁ => exact (Outcome.of_ok run).mpr (rest a e₁)
  | error f e₁ => exact (Outcome.of_error run).mpr trivial

theorem ends_computedValue (below : Demand) (n : Node) (arguments : List Handle) :
    Ends (fun id _ => id = n.id) (computedValue d below n arguments) := by
  unfold computedValue
  split
  · exact .last fun _ => .last fun _ => .last fun _ => .last fun _ => .last fun _ _ => rfl
  · refine .last fun ty => .last fun _ => ?_
    dsimp only
    split
    · exact .last fun _ => .last fun _ => .last fun _ => .last fun _ _ => rfl
    · split
      · refine .last fun _ => .last fun column => ?_
        cases column with
        | none => exact .last fun _ _ => rfl
        | some column => exact .last fun _ => .last fun _ _ => rfl
      · exact .last fun _ => .last fun _ => .last fun _ _ => rfl
  · exact .last fun _ => .last fun _ => .last fun _ => .last fun _ => .last fun _ => .last fun _ =>
      .last fun _ _ => rfl
  · exact .last fun _ => .last fun _ => .last fun _ => .last fun _ => .last fun _ _ => rfl
  all_goals exact fun _ => trivial

/-- What is written for a node has the id that its value is to be written under. -/
theorem nodeValue_right (below : Demand) {h : Handle} {n : Node} (found : d.graph.find? h = some n) :
    Ends (fun id e => e.Faithful d → n.resultIn e = some id) (nodeValue d below h.slot n) := by
  have own : ∀ {x : Emit Id}, (∀ literal, n.kind ≠ .constant literal) →
      Ends (fun id _ => id = n.id) x →
      Ends (fun id e => e.Faithful d → n.resultIn e = some id) x := by
    intro x other ends e
    refine (ends e).imp fun id e' same _ => ?_
    unfold Node.resultIn
    split
    · exact absurd ‹_› (other _)
    · rw [same]
  unfold nodeValue
  cases kind : n.kind with
  | constant literal =>
    intro e
    refine (appends_constant (d := d) literal (some n.id)).mono (fun id e' done _ => ?_)
      fun _ _ _ => trivial
    rw [Node.resultIn, kind]
    exact congrArg (Option.map _) done.2
  | load k =>
    refine .last fun _ e => ?_
    rw [outcome_bind, outcome_get]
    cases noted : e.results.find? h.slot with
    | none => exact trivial
    | some id => exact fun faithful => faithful h n id found noted
  | input slot =>
    refine own (by simp [kind]) ?_
    dsimp only [inputValue]
    split
    · exact fun _ => trivial
    · exact .last fun _ => .last fun _ => .last fun _ _ => rfl
  | construct =>
    exact own (by simp [kind]) (.last fun _ => .last fun _ => .last fun _ _ => rfl)
  | unary | binary | select => exact own (by simp [kind]) (ends_computedValue below n _)

section Asking

variable {below other : Demand} (asking : below.Stepwise .still (Alone (Leads (Appends d))) other)

include asking

theorem leads_value (h : Handle) : Leads (Appends d) (value d below h) := by
  intro e
  rw [value, outcome_bind, outcome_emitCheck]
  refine ⟨fun n known => ?_, fun _ _ => .refl e⟩
  have found := Graph.node_eq_ok.mp known
  rw [outcome_bind, outcome_get]
  cases e.results.find? h.slot with
  | some id => exact .refl e
  | none =>
    have written := walk_nodeValue declaring_appends d.types d asking h.slot n
      (fun literal _ => leads_constant literal _) e
    have right := nodeValue_right below found e
    dsimp only
    rw [outcome_bind]
    cases run : nodeValue d below h.slot n e with
    | error f e₁ => exact (Outcome.of_error run).mpr (written.error run)
    | ok id e₁ =>
      refine (Outcome.of_ok run).mpr fun faithful => ?_
      have before := written.ok run
      exact before.trans (appends_result found (right.ok run (before faithful).1)) faithful

/-- An event is noted before it is written. The value of a load belongs to no constant. -/
theorem appends_event (loads : ∀ p h lastStore n,
      d.trace.action? k = some (.load p h lastStore) → d.graph.find? h = some n → n.kind = .load k)
    : Outcome (event d below k) e
      (fun _ e' => Appends d e e' ∧ (e.Faithful d → k ∈ e'.written)) fun _ => Appends d e := by
  unfold event
  cases recorded : d.trace.action? k with
  | none => exact .refl e
  | some action =>
    dsimp only
    rw [outcome_bind, outcome_get]
    split
    · rename_i member
      exact ⟨.refl e, fun _ => member⟩
    · have noted : Appends d e { e with written := k :: e.written } :=
        Extends.appends { Extends.refl e with written := List.subset_cons_self k e.written } rfl
      have replay : ∀ {x : Emit Unit}, Leads (Appends d) x →
          Outcome x { e with written := k :: e.written }
            (fun _ e' => Appends d e e' ∧ (e.Faithful d → k ∈ e'.written)) fun _ => Appends d e := by
        refine fun leads => (leads _).mono (fun _ e' after => ⟨noted.trans after, fun faithful => ?_⟩)
          fun _ _ => noted.trans
        exact (after (noted faithful).1).2.written (List.mem_cons_self ..)
      rw [outcome_bind, outcome_modify]
      cases action with
      | store p h => exact replay (walk_storeEvent declaring_appends asking p h)
      | boundary b => exact replay (walk_boundaryEvent declaring_appends d.types d asking k b)
      | load p h lastStore =>
        refine replay (walk_loadEvent declaring_appends d.types d asking (fun n found _ =>
          appends_result found ?_) p lastStore)
        rw [Node.resultIn, loads p h lastStore n recorded found]

end Asking

/-- In a state with the right ids, the one only adds, and if it succeeds, then the other gives the
same in every later state and does nothing else. -/
def Settles (d : Draft) {α : Type} (x again : Emit α) : Prop :=
  ∀ e, e.Faithful d → Outcome x e
    (fun a e₁ => e₁.Faithful d ∧ e.Extends e₁ ∧ ∀ e₂, e₁.Extends e₂ → again e₂ = .ok a e₂)
    fun _ e₁ => e₁.Faithful d ∧ e.Extends e₁

theorem Leads.settles {α : Type} {x again : Emit α} (leads : Leads (Appends d) x)
    (ends : ∀ e, e.Faithful d → Outcome x e
      (fun a e₁ => ∀ e₂, e₁.Extends e₂ → again e₂ = .ok a e₂) fun _ _ => True) :
    Settles d x again := by
  intro e faithful
  cases run : x e with
  | error f e₁ => exact (Outcome.of_error run).mpr ((leads e).error run faithful)
  | ok a e₁ =>
    obtain ⟨right, further⟩ := (leads e).ok run faithful
    exact (Outcome.of_ok run).mpr ⟨right, further, (ends e faithful).ok run⟩

theorem run_get {α : Type} (f : Emission → Emit α) : (get >>= f) e = f e e := rfl

theorem settles_type (ty : Ty) : Settles d (type ty) (type ty) := by
  refine Leads.settles (declaring_appends.type ty) fun e _ => ?_
  refine (quietly_type (d := d) ty e).mono (fun id e₁ done e₂ further => ?_) fun _ _ _ => trivial
  have known : e₂.types.id? ty = some id := further.isType done.2.known
  have once : ∀ declaring, onceType ty declaring e₂ = .ok id e₂ := by
    intro declaring
    rw [onceType, run_get, known]
    rfl
  cases ty <;> (rw [type]; exact once _)

theorem settles_constant (literal : Literal) (proposed proposed' : Option Id) :
    Settles d (constant literal proposed) (constant literal proposed') := by
  refine Leads.settles (leads_constant literal proposed) fun e _ => ?_
  refine (appends_constant (d := d) literal proposed).mono (fun id e₁ done e₂ further => ?_)
    fun _ _ _ => trivial
  rw [constant, run_get, show e₂.constants.find? literal = _ from further.isLiteral done.2]
  rfl

section Asking

variable {below other : Demand} (asking : below.Stepwise .still (Alone (Leads (Appends d))) other)
  (below' : Demand)

include asking

theorem settles_value (h : Handle) : Settles d (value d below h) (value d below' h) := by
  refine Leads.settles (leads_value asking h) fun e _ => ?_
  rw [value, outcome_bind, outcome_emitCheck]
  refine ⟨fun n known => ?_, fun _ _ => trivial⟩
  have again : ∀ {id e₂}, e₂.results.find? h.slot = some id → value d below' h e₂ = .ok id e₂ := by
    intro id e₂ noted
    rw [value, known, check, pure_bind, run_get, noted]
    rfl
  rw [outcome_bind, outcome_get]
  cases noted : e.results.find? h.slot with
  | some id => exact fun e₂ further => again (further.results _ _ noted)
  | none =>
    refine Ends.last (fun id => ?_) e
    exact fun e₁ e₂ further => again (further.results _ _ (Assoc.find?_insert_self ..))

theorem settles_place (p : Place) : Settles d (place d below p) (place d below' p) := by
  refine Leads.settles (walk_place declaring_appends d.types d asking p) fun e _ => ?_
  rw [place, outcome_bind, outcome_emitCheck]
  refine ⟨fun data known => ?_, fun _ _ => trivial⟩
  have again : ∀ {e₂}, p ∈ e₂.reached → place d below' p e₂ = .ok data.id e₂ := by
    intro e₂ member
    rw [place, known, check, pure_bind, run_get, if_pos member]
    rfl
  rw [outcome_bind, outcome_get]
  split
  · rename_i member
    exact fun e₂ further => again (further.reached member)
  · refine Ends.last (fun path => ?_) e
    have chain : Ends (fun id e₁ => ∀ e₂, e₁.Extends e₂ → place d below' p e₂ = .ok id e₂) (do
        let base ← below.place path.1
        let type ← type data.ty
        let indices ← path.2.mapM (linkIndex below)
        write (.accessChain type data.id base indices)
        markReached p
        return data.id) :=
      .last fun _ => .last fun _ => .last fun _ => .last fun _ _ _ further =>
        again (further.reached (List.mem_cons_self ..))
    dsimp only
    split
    · exact .last fun _ => chain
    · exact chain

theorem settles_event (loads : ∀ p h lastStore n,
      d.trace.action? k = some (.load p h lastStore) → d.graph.find? h = some n → n.kind = .load k)
    : Settles d (event d below k) (event d below' k) := by
  have outcome := fun e => appends_event asking (e := e) loads
  refine Leads.settles (fun e => (outcome e).imp fun _ _ => And.left) fun e faithful => ?_
  cases recorded : d.trace.action? k with
  | none =>
    rw [event, recorded]
    exact trivial
  | some action =>
    refine (outcome e).mono (fun _ e₁ done e₂ further => ?_) fun _ _ _ => trivial
    rw [event, recorded]
    dsimp only
    rw [run_get, if_pos (further.written (done.2 faithful))]
    rfl

end Asking

end Emit

open Emit

/-- The loads of a draft are recorded for values that stand for them. -/
def Draft.LoadsOwn (d : Draft) : Prop := ∀ k p h lastStore n,
  d.trace.action? k = some (.load p h lastStore) → d.graph.find? h = some n → n.kind = .load k

theorem demand_appends {d : Draft} (loads : d.LoadsOwn) (levels : Nat) (other : Demand) :
    (demand d levels).Stepwise .still (Alone (Leads (Appends d))) other := by
  induction levels with
  | zero => exact ⟨fun _ => Appends.refl, fun _ => Appends.refl, fun _ => Appends.refl⟩
  | succ levels below =>
    exact ⟨leads_value below,
      fun k e => (appends_event below (loads k)).imp fun _ _ => And.left,
      walk_place declaring_appends d.types d below⟩

/-- Whatever was built and released: from every state in which the ids of values are right, as they
are at the start, asking for a type, a constant, a value, a location or an event only adds to the
sections, the ids and the marks, and leads to such a state, also if it fails. If it succeeds, then
asking again in any later state, from whichever level and with whichever id proposed, gives the same
and changes nothing. A whole compilation only adds, too. -/
theorem Draft.answers_kept (settings : Settings) (slots : List Ty) (history : List Call) :
    let d := ((new settings).withSlots slots).after history
    (Emission.start d).Faithful d ∧
      (∀ ty, Settles d (type ty) (type ty)) ∧
      (∀ literal proposed proposed',
        Settles d (Emit.constant literal proposed) (Emit.constant literal proposed')) ∧
      (∀ n m h, Settles d ((demand d n).value h) ((demand d (m + 1)).value h)) ∧
      (∀ n m p, Settles d ((demand d n).place p) ((demand d (m + 1)).place p)) ∧
      (∀ n m k, Settles d ((demand d n).event k) ((demand d (m + 1)).event k)) ∧
      ∀ e, e.Faithful d → Outcome (everything d) e (fun _ e' => e'.Faithful d ∧ e.Extends e')
        fun _ e' => e'.Faithful d ∧ e.Extends e' := by
  intro d
  have loads : d.LoadsOwn := fun k p h lastStore n recorded found =>
    ((lasting_after settings slots history).sound.actions k _ recorded).2.2.1 n found
  have asking := fun n => demand_appends loads n .bottom
  refine ⟨fun h n id _ noted => ?_, settles_type, settles_constant, fun n m h => ?_, fun n m p => ?_,
    fun n m k => ?_, fun e faithful => ?_⟩
  · simp [Emission.start] at noted
  · cases n with
    | zero => exact fun e faithful => ⟨faithful, .refl e⟩
    | succ n => exact settles_value (asking n) (demand d m) h
  · cases n with
    | zero => exact fun e faithful => ⟨faithful, .refl e⟩
    | succ n => exact settles_place (asking n) (demand d m) p
  · cases n with
    | zero => exact fun e faithful => ⟨faithful, .refl e⟩
    | succ n => exact settles_event (asking n) (demand d m) (loads k)
  · by_cases closed : d.scopes = []
    · exact (walk_everything whole_appends d.types d closed (demand_appends loads ..) e).mono
        (fun _ _ appends => appends faithful) fun _ _ appends => appends faithful
    · rw [everything, if_pos (by simpa using closed)]
      exact ⟨faithful, .refl e⟩

/-- A sum of two equal constants, asked for twice. -/
theorem Draft.addsEqual_answered_again :
    let d := (vertex []).after [.constant (.int 3), .constant (.int 3), .binary .add ⟨0, 0⟩ ⟨1, 1⟩]
    (Emission.start d).Faithful d ∧ ∃ id e,
      (demand d d.levels).value ⟨2, 2⟩ (Emission.start d) = .ok id e ∧
        (Emission.start d).Extends e ∧ (demand d d.levels).value ⟨2, 2⟩ e = .ok id e := by
  intro d
  obtain ⟨faithful, _, _, values, _⟩ := answers_kept { stage := .vertex } []
    [.constant (.int 3), .constant (.int 3), .binary .add ⟨0, 0⟩ ⟨1, 1⟩]
  have given : ((demand d d.levels).value ⟨2, 2⟩).run' (Emission.start d) = some 3 := by
    decide +kernel
  have outcome := values d.levels (d.levels - 1) ⟨2, 2⟩ _ faithful
  refine ⟨faithful, ?_⟩
  cases run : (demand d d.levels).value ⟨2, 2⟩ (Emission.start d) with
  | error f e =>
    delta EStateM.run' EStateM.run at given
    rw [run] at given
    contradiction
  | ok id e =>
    obtain ⟨_, further, again⟩ := outcome.ok run
    exact ⟨id, e, rfl, further, again e (.refl e)⟩

end ShaderIR
