import ShaderIR.Proofs.Serving

/-! What a compilation writes for each recorded event: first what the event needs and is not there
yet, then the group of the event itself. -/
namespace ShaderIR

open Relation (ReflTransGen)

variable {d : Draft} {k : Nat} {h : Handle} {e e' e₀ : Emission} {p : Place} {n : Node}
  {b : Boundary} {data : PlaceData} {bad : Fault → Emission → Prop}

def Boundary.opens : Boundary → Bool
  | .ifBegin _ | .loopBegin _ => true
  | _ => false

namespace Emission

/-- A value that was built in a block around an event, and that something uses, is written. -/
def HoistsValue (e : Emission) (d : Draft) (k : Nat) (h : Handle) : Prop :=
  ∀ n, d.graph.find? h = some n → 0 < n.refs → n.kind.isLoad = false →
    d.trace.dominates n.position k = true → (e.results.find? h.slot).isSome

def HoistsChain (e : Emission) (d : Draft) (k : Nat) (p : Place) : Prop :=
  ∀ data, d.places.find? p = some data → data.isChain = true → data.accessed = true →
    d.trace.dominates data.position k = true → p ∈ e.reached

structure Hoisted (e : Emission) (d : Draft) (k : Nat) : Prop where
  values : ∀ h, e.HoistsValue d k h
  chains : ∀ p, e.HoistsChain d k p

theorem HoistsValue.grow (hoists : e.HoistsValue d k h) (grows : e.Grows e') :
    e'.HoistsValue d k h :=
  fun n found held notLoad dominates => grows.result (hoists n found held notLoad dominates)

theorem HoistsChain.grow (hoists : e.HoistsChain d k p) (grows : e.Grows e') :
    e'.HoistsChain d k p :=
  fun data found isChain accessed dominates =>
    grows.reached p (hoists data found isChain accessed dominates)

theorem Hoisted.grow (hoisted : e.Hoisted d k) (grows : e.Grows e') : e'.Hoisted d k :=
  ⟨fun h => (hoisted.values h).grow grows, fun p => (hoisted.chains p).grow grows⟩

inductive Group (e : Emission) (d : Draft) : Boundary → Nat → List Instruction → Prop where
  | ifBegin {index : Nat} {s : Selection} {condition : Id} : d.selections[index]? = some s →
      e.Held d s.condition condition → Group e d (.ifBegin index) 0 (s.beginGroup condition)
  | ifElse {index : Nat} {s : Selection} : d.selections[index]? = some s →
      Group e d (.ifElse index) 0 s.elseGroup
  | ifEnd {index : Nat} {s : Selection} : d.selections[index]? = some s →
      Group e d (.ifEnd index) 0 s.endGroup
  | loopBegin {index : Nat} {l : CountedLoop} {counter : PlaceData} {int bool first last : Id} :
      d.loops[index]? = some l → d.places.find? l.counter = some counter →
      l.counter ∈ e.reached → e.IsType .sint int → e.IsType .bool bool →
      e.Held d l.first first → e.Held d l.last last →
      Group e d (.loopBegin index) 2 (l.beginGroup
        { int, counter := counter.id, current := e.nextId, computed := e.nextId + 1 } bool first last)
  | loopEnd {index : Nat} {l : CountedLoop} {counter : PlaceData} {int step : Id} :
      d.loops[index]? = some l → d.places.find? l.counter = some counter →
      l.counter ∈ e.reached → e.IsType .sint int → e.Held d l.step step →
      Group e d (.loopEnd index) 2 (l.endGroup
        { int, counter := counter.id, current := e.nextId, computed := e.nextId + 1 } step)
  | leave {index : Nat} {l : CountedLoop} {label : Id} : d.loops[index]? = some l →
      Group e d (.leave index label) 0 (l.leaveGroup label)
  | next {index : Nat} {l : CountedLoop} {label : Id} : d.loops[index]? = some l →
      Group e d (.next index label) 0 (l.nextGroup label)

def phase (e : Emission) : Scope → Phase
  | .selection s => (e.selectionPhases.find? s).getD .built
  | .loop l => (e.loopPhases.find? l).getD .built

def advance (e : Emission) (b : Boundary) : Emission :=
  { e with
    selectionPhases :=
      match b.scope with
      | .selection s => e.selectionPhases.insert s b.phase
      | .loop _ => e.selectionPhases
    loopPhases :=
      match b.scope with
      | .selection _ => e.loopPhases
      | .loop l => e.loopPhases.insert l b.phase }

def mark (e : Emission) (k : Nat) : Emission := { e with written := k :: e.written }

def Stored (strict : Prop) (d : Draft) (k : Nat) (p : Place) (h : Handle) (e e' : Emission) : Prop :=
  ∃ n data x e₁, d.graph.find? h = some n ∧ d.places.find? p = some data ∧
    Asks strict d k d.nextId e e₁ ∧ e₁.Holds h x ∧ p ∈ e₁.reached ∧
    e' = { e₁ with body := e₁.body.push (.store data.id x) }

/-- Writing an event. The load of a value that was released writes nothing. -/
inductive Replays (strict : Prop) (d : Draft) (k : Nat) (e : Emission) : Emission → Prop where
  | released {p : Place} {h : Handle} {lastStore : Option Nat} :
      d.trace.action? k = some (.load p h lastStore) → d.graph.find? h = none →
      Replays strict d k e (e.mark k)
  | load {p : Place} {h : Handle} {lastStore : Option Nat} {n : Node} {data : PlaceData} {type : Id}
      {e₁ : Emission} :
      d.trace.action? k = some (.load p h lastStore) → d.graph.find? h = some n →
      d.places.find? p = some data → Asks strict d k d.nextId (e.mark k) e₁ → p ∈ e₁.reached →
      e₁.IsType n.ty type →
      Replays strict d k e
        { e₁ with
          body := e₁.body.push (.load type n.id data.id)
          results := e₁.results.insert h.slot n.id }
  | store {p : Place} {h : Handle} {e' : Emission} :
      d.trace.action? k = some (.store p h) → Stored strict d k p h (e.mark k) e' →
      Replays strict d k e e'
  | boundary {b : Boundary} {fresh : Nat} {group : List Instruction} {e₁ : Emission} :
      d.trace.action? k = some (.boundary b) → Asks strict d k d.nextId (e.mark k) e₁ →
      (b.opens = true → e₁.Hoisted d k) → e₁.Group d b fresh group →
      Replays strict d k e
        { e₁.advance b with nextId := e₁.nextId + fresh, body := e₁.body ++ group.toArray }

/-- A compilation in which every block is in the phase that its boundaries so far lead to. -/
def Paced (e : Emission) (d : Draft) (k : Nat) : Prop :=
  ∀ scope, e.phase scope = d.trace.phaseAt scope k

section Phases

variable {strict : Prop} {bound : Id}

theorem phase_advance (e : Emission) (b : Boundary) (scope : Scope) :
    (e.advance b).phase scope = if b.scope = scope then b.phase else e.phase scope := by
  unfold phase advance
  cases scope with
  | selection s =>
    cases same : b.scope with
    | selection s' =>
      simp only [Assoc.find?_insert, Scope.selection.injEq]
      split <;> rfl
    | loop l => simp
  | loop l =>
    cases same : b.scope with
    | selection s => simp
    | loop l' =>
      simp only [Assoc.find?_insert, Scope.loop.injEq]
      split <;> rfl

theorem phase_congr (same : e'.selectionPhases = e.selectionPhases ∧ e'.loopPhases = e.loopPhases)
    (scope : Scope) : e'.phase scope = e.phase scope := by
  cases scope <;> simp only [phase, same.1, same.2]

theorem Computes.grow {type : Id} {i : Instruction} (computes : e.Computes d n type i)
    (grows : e.Grows e') : e'.Computes d n type i :=
  computes.imp (fun _ => grows.holds) (grows.literals _ _)

def withPhases (e : Emission) (selectionPhases loopPhases : Assoc Nat Phase) : Emission :=
  { e with selectionPhases, loopPhases }

theorem Quiet.withPhases (step : Quiet d e e') (s l : Assoc Nat Phase) :
    Quiet d (e.withPhases s l) (e'.withPhases s l) := by
  have grows : e.Grows (e.withPhases s l) := { Grows.refl e with }
  cases step with
  | fresh => exact .fresh
  | announce missing forms => exact .announce missing (grows.forms forms)
  | register missing => exact .register missing
  | name found kind missing => exact .name found kind missing
  | declare registered typed => exact .declare registered typed
  | annotate annotates targets => exact .annotate annotates targets
  | decorate ty => exact .decorate ty

theorem Ask.withPhases (step : Ask strict d k bound e e') (s l : Assoc Nat Phase) :
    Ask strict d k bound (e.withPhases s l) (e'.withPhases s l) := by
  have grows : e.Grows (e.withPhases s l) := { Grows.refl e with }
  cases step with
  | quiet step => exact .quiet (step.withPhases s l)
  | literal found kind below free known => exact .literal found kind below free known
  | compute found due below free known computes =>
    exact .compute found due below free known (computes.grow grows)
  | chain found due below free path links rootReached rootFound known indices =>
    exact .chain found due below free path links rootReached rootFound known
      (indices.imp fun _ _ => grows.indexes)

/-- What is asked for after a block has moved on could have been asked for before. -/
theorem Asks.before_advance (steps : Asks strict d k bound (e.advance b) e') :
    ∃ e₁, Asks strict d k bound e e₁ ∧ e' = e₁.advance b := by
  have same := steps.phases
  refine ⟨e'.withPhases e.selectionPhases e.loopPhases, ?_, ?_⟩
  · exact ReflTransGen.lift (fun e₁ : Emission => e₁.withPhases e.selectionPhases e.loopPhases)
      (fun _ _ step => Ask.withPhases step _ _) (e.advance b) e' steps
  · show e' = { e' with
      selectionPhases := (e.advance b).selectionPhases, loopPhases := (e.advance b).loopPhases }
    rw [← same.1, ← same.2]

end Phases

section Ready

variable {strict : Prop}

theorem grows_mark (e : Emission) (k : Nat) : e.Grows (e.mark k) :=
  { Grows.refl e with written := fun _ member => List.mem_cons_of_mem _ member }

theorem grows_boundary (e : Emission) (b : Boundary) (fresh : Nat) (group : List Instruction) :
    e.Grows { e.advance b with nextId := e.nextId + fresh, body := e.body ++ group.toArray } :=
  { Grows.refl e with
    nextId := Nat.le_add_right _ fresh
    body := fun _ member => Array.mem_append.mpr (.inl member) }

theorem Ready.mark (ready : e.Ready d k) : (e.mark k).Ready d k :=
  { ready with
    written := fun j before => List.mem_cons_of_mem _ (ready.written j before) }

theorem Ready.advance (ready : e.Ready d k) (b : Boundary) : (e.advance b).Ready d k :=
  { ready with }

/-- What has to be seen to so that the next event can be written. -/
theorem Ready.next (ready : e.Ready d k) (marked : k ∈ e.written) (grows : e.Grows e')
    (now : ∀ h n, d.graph.find? h = some n → n.kind = .load k → (e'.results.find? h.slot).isSome)
    (later : ∀ h n j, d.graph.find? h = some n → n.kind = .load j → k < j →
      e'.results.find? h.slot = none) : e'.Ready d (k + 1) where
  written j before := by
    rcases Nat.lt_succ_iff_lt_or_eq.mp before with before | rfl
    · exact grows.written j (ready.written j before)
    · exact grows.written j marked
  loads h n j found isLoad before := by
    rcases Nat.lt_succ_iff_lt_or_eq.mp before with before | rfl
    · exact grows.result (ready.loads h n j found isLoad before)
    · exact now h n found isLoad
  pending := later
  inputs h n slot found isInput := grows.result (ready.inputs h n slot found isInput)
  roots p member := grows.reached p (ready.roots p member)

variable (sound : d.Sound strict)

include sound

/-- No value is loaded by an event that is not its own. -/
theorem loaded_by (found : d.graph.find? h = some n) {j : Nat} (isLoad : n.kind = .load j) :
    ∃ p lastStore, d.trace.action? j = some (.load p h lastStore) :=
  ((sound.nodes h n found).load j isLoad).2

theorem Ready.unloaded (ready : e.Ready d k) {lastStore : Option Nat}
    (recorded : d.trace.action? k = some (.load p h lastStore)) (found : d.graph.find? h = some n) :
    n.kind = .load k ∧ e.results.find? h.slot = none := by
  have kind := (sound.actions k _ recorded).2.2.1 n found
  exact ⟨kind, ready.pending h n k found kind (Nat.le_refl k)⟩

/-- What is written for an event itself, once all that it needs is there: nothing gets lost, and the
values that the event loads are the only ones that are written. -/
theorem Replays.last (replays : Replays strict d k e e') (ready : e.Ready d k) :
    ∃ e₁, Asks strict d k d.nextId (e.mark k) e₁ ∧ e₁.Grows e' ∧
      (∀ h n, d.graph.find? h = some n → n.kind = .load k → (e'.results.find? h.slot).isSome) ∧
      ∀ h n j, d.graph.find? h = some n → n.kind = .load j → k < j →
        e'.results.find? h.slot = e₁.results.find? h.slot := by
  -- A value that the event would have loaded is the one it names.
  have named : ∀ {action}, d.trace.action? k = some action → ∀ h n, d.graph.find? h = some n →
      n.kind = .load k → ∃ p lastStore, action = .load p h lastStore := by
    intro action recorded h n found isLoad
    obtain ⟨p, lastStore, recorded'⟩ := loaded_by sound found isLoad
    rw [recorded] at recorded'
    exact ⟨p, lastStore, Option.some.inj recorded'⟩
  cases replays with
  | @released p h lastStore recorded dead =>
    refine ⟨_, .refl, .refl _, fun h' n found isLoad => ?_, fun _ _ _ _ _ _ => rfl⟩
    obtain ⟨_, _, same⟩ := named recorded h' n found isLoad
    obtain ⟨_, rfl, _⟩ := Action.load.inj same
    rw [dead] at found
    contradiction
  | @load p h lastStore n data type e₁ recorded found known steps =>
    obtain ⟨kind, free⟩ := (steps.ready ready.mark).unloaded sound recorded found
    refine ⟨e₁, steps, grows_hold free _, fun h' n' found' isLoad => ?_,
      fun h' n' j found' isLoad after => ?_⟩
    · obtain ⟨_, _, same⟩ := named recorded h' n' found' isLoad
      obtain ⟨_, rfl, _⟩ := Action.load.inj same
      rw [Assoc.find?_insert_self]
      rfl
    · refine Assoc.find?_insert_of_ne _ _ fun same => ?_
      obtain ⟨_, rfl⟩ := Graph.handle_unique found found' same
      rw [kind, NodeKind.load.injEq] at isLoad
      omega
  | store recorded stored =>
    obtain ⟨n, data, x, e₁, _, _, steps, _, _, rfl⟩ := stored
    refine ⟨e₁, steps, grows_push e₁ _, fun h' n found isLoad => ?_, fun _ _ _ _ _ _ => rfl⟩
    obtain ⟨_, _, same⟩ := named recorded h' n found isLoad
    contradiction
  | @boundary b fresh group e₁ recorded steps =>
    refine ⟨e₁, steps, grows_boundary e₁ b fresh group, fun h' n found isLoad => ?_,
      fun _ _ _ _ _ _ => rfl⟩
    obtain ⟨_, _, same⟩ := named recorded h' n found isLoad
    contradiction

theorem Replays.grows (replays : Replays strict d k e e') (ready : e.Ready d k) : e.Grows e' := by
  obtain ⟨e₁, steps, grows, _⟩ := replays.last sound ready
  exact ((grows_mark e k).trans steps.grows).trans grows

theorem Replays.ready (replays : Replays strict d k e e') (ready : e.Ready d k) :
    e'.Ready d (k + 1) := by
  obtain ⟨e₁, steps, grows, now, same⟩ := replays.last sound ready
  have ready₁ := steps.ready ready.mark
  refine ready₁.next (steps.grows.written k (List.mem_cons_self ..)) grows now ?_
  intro h n j found isLoad after
  exact (same h n j found isLoad after).trans (ready₁.pending h n j found isLoad (Nat.le_of_lt after))

omit sound in
theorem Replays.paced (replays : Replays strict d k e e') (paced : e.Paced d k) :
    e'.Paced d (k + 1) := by
  intro scope
  cases replays with
  | released recorded =>
    rw [Trace.phaseAt, recorded]
    exact paced scope
  | load recorded _ _ steps =>
    rw [Trace.phaseAt, recorded]
    exact (phase_congr steps.phases scope).trans (paced scope)
  | store recorded stored =>
    obtain ⟨n, data, x, e₁, _, _, steps, _, _, rfl⟩ := stored
    rw [Trace.phaseAt, recorded]
    exact (phase_congr steps.phases scope).trans (paced scope)
  | @boundary b fresh group e₁ recorded steps =>
    rw [Trace.phaseAt, recorded]
    refine (phase_advance e₁ b scope).trans ?_
    rw [phase_congr steps.phases scope]
    show (if b.scope = scope then b.phase else e.phase scope) = _
    rw [paced scope]

end Ready

end Emission

open Emission

/-! Everything that is live is in the lists that are searched for values to be hoisted. -/

theorem Graph.mem_handles {g : Graph} (found : g.find? h = some n) : h ∈ g.handles := by
  obtain ⟨stored, serial⟩ := find?_eq_some.mp found
  refine List.mem_filterMap.mpr ⟨(some n, h.slot), ?_, ?_⟩
  · exact List.mem_zipIdx_iff_getElem?.mpr (by simpa using stored)
  · dsimp only
    rw [Option.map_some, serial]

theorem Places.mem_chains {ps : Places} (found : ps.find? p = some data)
    (isChain : data.isChain = true) : p ∈ ps.chains := by
  unfold find? at found
  split at found
  · contradiction
  · rename_i above
    refine List.mem_filterMap.mpr ⟨(data, p.index - ps.base), ?_, ?_⟩
    · exact List.mem_zipIdx_iff_getElem?.mpr (by simpa using found)
    · obtain ⟨index⟩ := p
      dsimp only at above ⊢
      rw [if_pos isChain]
      congr 2
      omega

namespace Emit

variable {strict : Prop} {levels : Nat} {below : Demand}

theorem outcome_writeAll (group : List Instruction) {post : PUnit → Emission → Prop}
    (last : post ⟨⟩ { e with body := e.body ++ group.toArray }) :
    Outcome (writeAll group) e post bad := by
  unfold writeAll
  induction group generalizing e with
  | nil => simpa using last
  | cons i rest ih =>
    rw [List.forM_eq_forM, List.forM_cons, outcome_bind]
    refine ih (e := { e with body := e.body.push i }) ?_
    simpa using last

theorem outcome_freshId {α : Type} {f : Id → Emit α} {post : α → Emission → Prop}
    (rest : Outcome (f e.nextId) { e with nextId := e.nextId + 1 } post bad) :
    Outcome (freshId >>= f) e post bad := by
  rw [outcome_bind]
  exact rest

section Advance

variable {β : Type} {b : Boundary} {index : Nat} {fault : FlowFault}
  {post : β → Emission → Prop} (paced : d.Whole → e.phase b.scope ∈ b.expects)
  (plain : (Fault.controlFlow fault).Plain)

include paced plain

theorem outcome_advanceSelection {s : Selection} {f : Selection → Emit β}
    (known : d.selections[index]? = some s) (scope : b.scope = .selection index)
    (rest : Outcome (f s) (e.advance b) post fun f _ => d.Allows f) :
    Outcome (advanceSelection d index b.expects b.phase fault >>= f) e post
      fun f _ => d.Allows f := by
  unfold advanceSelection
  rw [known, outcome_bind]
  dsimp only
  rw [outcome_bind, outcome_get]
  split
  · rename_i wrong
    refine Draft.allows_broken plain fun whole => wrong ?_
    have expected := paced whole
    rwa [scope] at expected
  · have moved : e.advance b =
        { e with selectionPhases := e.selectionPhases.insert index b.phase } := by
      rw [advance, scope]
    rw [moved] at rest
    exact rest

theorem outcome_advanceLoop {l : CountedLoop} {expected : Phase} {f : CountedLoop → Emit β}
    (known : d.loops[index]? = some l) (scope : b.scope = .loop index)
    (only : b.expects = [expected])
    (rest : Outcome (f l) (e.advance b) post fun f _ => d.Allows f) :
    Outcome (advanceLoop d index expected b.phase fault >>= f) e post fun f _ => d.Allows f := by
  unfold advanceLoop
  rw [known, outcome_bind]
  dsimp only
  rw [outcome_bind, outcome_get]
  split
  · rename_i wrong
    refine Draft.allows_broken plain fun whole => wrong ?_
    have expected := paced whole
    rw [scope, only] at expected
    exact List.mem_singleton.mp expected
  · have moved : e.advance b = { e with loopPhases := e.loopPhases.insert index b.phase } := by
      rw [advance, scope]
    rw [moved] at rest
    exact rest

end Advance

theorem asking_forM {α : Type} {bound : Id} {f : α → Emit PUnit} {items : List α}
    (done : α → Emission → Prop)
    (step : ∀ a ∈ items, ∀ e, e.Ready d k → Asking strict d k bound e (f a) fun _ e' => done a e')
    (keep : ∀ a e e', done a e → Emission.Grows e e' → done a e') (ready : e.Ready d k) :
    Asking strict d k bound e (items.forM f) fun _ e' => ∀ a ∈ items, done a e' := by
  induction items generalizing e with
  | nil => exact ⟨.refl, by simp⟩
  | cons a rest ih =>
    rw [List.forM_eq_forM, List.forM_cons, ← List.forM_eq_forM]
    refine Asking.bind ready (step a (by simp) e ready) fun _ e₁ _ ready₁ first => ?_
    refine Outcome.imp (ih (fun b member => step b (by simp [member])) ready₁) ?_
    rintro _ e₂ ⟨steps, others⟩
    refine ⟨steps, fun b member => ?_⟩
    rcases List.mem_cons.mp member with rfl | member
    · exact keep b e₁ e₂ first steps.grows
    · exact others b member

section Events

variable (sound : d.Sound strict) (serves : below.Serves strict d k levels)
  (enough : d.nextId ≤ levels) {e : Emission} (ready : e.Ready d k)

include sound serves enough ready

theorem asking_hoistValue (within : k < d.trace.size) (h : Handle) :
    Asking strict d k d.nextId e
      (do
        if let some node := d.graph.find? h then
          let pending := 0 < node.refs && !node.kind.isLoad && ((← get).results.find? h.slot).isNone
          if pending && d.trace.dominates node.position k then
            let _ ← below.value h)
      fun _ e' => e'.HoistsValue d k h := by
  cases found : d.graph.find? h with
  | none => exact ⟨.refl, fun n present => by rw [found] at present; contradiction⟩
  | some n =>
    unfold Asking
    dsimp only
    rw [outcome_bind, outcome_get]
    split
    · rename_i pending
      simp only [Bool.and_eq_true, decide_eq_true_eq, Bool.not_eq_true'] at pending
      obtain ⟨⟨⟨held, notLoad⟩, _⟩, dominates⟩ := pending
      have opened := (sound.flow.trace.dominates_iff within).mp dominates
      have due : n.Due strict d.trace k := by
        refine ⟨?_, .inr held, fun _ => .inr (.inr opened.2)⟩
        cases kind : n.kind with
        | load event => simp [kind, NodeKind.isLoad] at notLoad
        | constant | input => simp only [Node.ready, kind, Nat.zero_le]
        | _ => simpa only [Node.ready, kind] using opened.1
      refine Asking.next ready (serves.value h n e ready found due
        (Nat.lt_of_lt_of_le (sound.nodes h n found).id enough)) fun id e₁ steps _ holds => ?_
      refine ⟨steps.mono (sound.nodes h n found).id, fun _ _ _ _ _ => ?_⟩
      rw [holds]
      rfl
    · rename_i settled
      refine ⟨.refl, fun n' present held notLoad dominates => ?_⟩
      obtain rfl := Option.mem_unique found present
      rw [Option.isSome_iff_ne_none]
      intro missing
      apply settled
      simp [held, notLoad, dominates, missing]

theorem asking_hoistChain (within : k < d.trace.size) (p : Place) :
    Asking strict d k d.nextId e
      (do
        if let some data := d.places.find? p then
          let pending := data.accessed && decide (p ∉ (← get).reached)
          if pending && d.trace.dominates data.position k then
            let _ ← below.place p)
      fun _ e' => e'.HoistsChain d k p := by
  cases found : d.places.find? p with
  | none => exact ⟨.refl, fun n present => by rw [found] at present; contradiction⟩
  | some data =>
    unfold Asking
    dsimp only
    rw [outcome_bind, outcome_get]
    split
    · rename_i pending
      simp only [Bool.and_eq_true, decide_eq_true_eq] at pending
      obtain ⟨⟨accessed, _⟩, dominates⟩ := pending
      have opened := (sound.flow.trace.dominates_iff within).mp dominates
      have due : data.Due strict d.trace k := ⟨opened.1, accessed, fun _ => .inr opened.2⟩
      refine Asking.next ready (serves.place p data e ready found (.inr due)
          (Nat.lt_of_lt_of_le (sound.places p data found).id enough))
        fun id e₁ steps _ reached => ?_
      exact ⟨steps.mono (sound.places p data found).id, fun _ _ _ _ _ => reached.2⟩
    · rename_i settled
      refine ⟨.refl, fun data' present isChain accessed dominates => ?_⟩
      obtain rfl := Option.mem_unique found present
      by_contra missing
      apply settled
      simp [accessed, dominates, missing]

theorem asking_defineDominating (within : k < d.trace.size) :
    Asking strict d k d.nextId e (defineDominating d below k) fun _ e' => e'.Hoisted d k := by
  have values := asking_forM (fun h e' => e'.HoistsValue d k h)
    (fun h (_ : h ∈ d.graph.handles) e ready => asking_hoistValue sound serves enough ready
      within h)
    (fun _ _ _ => HoistsValue.grow) ready
  refine Asking.bind ready values fun _ e₁ _ ready₁ values => ?_
  have chains := asking_forM (fun p e' => e'.HoistsChain d k p)
    (fun p (_ : p ∈ d.places.chains) e ready => asking_hoistChain sound serves enough ready
      within p)
    (fun _ _ _ => HoistsChain.grow) ready₁
  refine Outcome.imp chains ?_
  rintro _ e₂ ⟨steps, chains⟩
  refine ⟨steps, fun h n found => ?_, fun p data found isChain => ?_⟩
  · exact (values h (Graph.mem_handles found)).grow steps.grows n found
  · exact chains p (Places.mem_chains found isChain) data found isChain

theorem outcome_storeEvent (found : d.places.find? p = some data)
    (place : data.origin = .root ∨ data.Due strict d.trace k) (live : d.Whole → d.Live h)
    (due : ∀ n, d.graph.find? h = some n → n.Due strict d.trace k) :
    Outcome (storeEvent below p h) e (fun _ e' => Stored strict d k p h e e')
      fun f _ => d.Allows f := by
  refine Asking.next ready (serves.ask enough ready (.inr ⟨sound.first, live⟩) fun n live =>
    ⟨due n live, (sound.nodes h n live).id⟩) fun x e₁ steps₁ ready₁ held => ?_
  obtain ⟨held, live⟩ := held
  obtain ⟨n, live⟩ := Option.isSome_iff_exists.mp live
  have below := (sound.places p data found).id
  refine Asking.next ready₁ (serves.place p data e₁ ready₁ found place
    (Nat.lt_of_lt_of_le below enough)) fun target e₂ steps₂ _ reached => ?_
  obtain ⟨rfl, reached⟩ := reached
  have later := steps₂.mono below
  exact ⟨n, data, x, e₂, live, found, steps₁.trans later, later.grows.holds held, reached, rfl⟩

theorem outcome_loadEvent {lastStore : Option Nat}
    (recorded : d.trace.action? k = some (.load p h lastStore)) (marked : e = e₀.mark k) :
    Outcome (loadEvent d below p h lastStore) e (fun _ e' => Replays strict d k e₀ e')
      fun f _ => d.Allows f := by
  obtain ⟨⟨data, touches⟩, _, kind, before⟩ := sound.actions k _ recorded
  have below_ := (sound.places p data touches.known).id
  have load : Outcome (do
      if let some node := d.graph.find? h then
        let source ← below.place p
        let type ← type node.ty
        write (.load type node.id source)
        setResult h.slot node.id) e (fun _ e' => Replays strict d k e₀ e')
      fun f _ => d.Allows f := by
    cases found : d.graph.find? h with
    | none =>
      rw [marked]
      exact .released recorded found
    | some n =>
      refine Asking.next ready (serves.place p data e ready touches.known (.inr touches.due)
        (Nat.lt_of_lt_of_le below_ enough)) fun source e₁ steps₁ ready₁ reached => ?_
      obtain ⟨rfl, reached⟩ := reached
      refine Asking.next ready₁ (asking_type strict k d.nextId fun whole => whole.values h n found)
        fun type e₂ steps₂ _ known => ?_
      have steps := (steps₁.mono below_).trans steps₂
      rw [marked] at steps
      exact .load recorded found touches.known steps (steps₂.grows.reached p reached) known
  cases lastStore with
  | none => exact load
  | some store =>
    show Outcome (below.event store >>= fun _ => _) e _ _
    rw [outcome_bind]
    refine (serves.event store e (before store rfl).1 ready ?_).imp fun _ e' same => ?_
    · exact Nat.lt_of_lt_of_le (Nat.zero_lt_of_lt below_) enough
    · rw [same]
      exact load

theorem outcome_boundaryEvent (within : k < d.trace.size)
    (recorded : d.trace.action? k = some (.boundary b)) (marked : e = e₀.mark k)
    (paced : e.Paced d k) :
    Outcome (boundaryEvent d below k b) e (fun _ e' => Replays strict d k e₀ e')
      fun f _ => d.Allows f := by
  -- Bounds of loops are constants and counters are variables, so they can always be asked for.
  have literal : ∀ {index : Nat} {l : CountedLoop}, d.loops[index]? = some l →
      ∀ h ∈ [l.first, l.last, l.step], ∀ {e : Emission}, e.Ready d k →
        Asking strict d k d.nextId e (below.value h) fun id e' => e'.Held d h id := by
    intro index l found h member e ready
    refine serves.ask enough ready
      (.inr ⟨sound.first, fun whole => whole.bounds index l found h member⟩) fun n live => ?_
    obtain ⟨literal, kind⟩ := ((sound.lists.loops index l found).bounds h member).2 n live
    exact ⟨⟨by simp only [Node.ready, kind, Nat.zero_le], .inl ⟨literal, kind⟩,
      fun _ => .inl ⟨literal, kind⟩⟩, (sound.nodes h n live).id⟩
  have counter : ∀ {index : Nat} {l : CountedLoop}, d.loops[index]? = some l → ∃ data,
      d.places.find? l.counter = some data ∧ ∀ e, e.Ready d k →
        Asking strict d k d.nextId e (below.place l.counter) fun id e' =>
          id = data.id ∧ l.counter ∈ e'.reached := by
    intro index l found
    obtain ⟨data, known, root⟩ := (sound.lists.loops index l found).counter
    have below := (sound.places _ data known).id
    refine ⟨data, known, fun e ready => Outcome.imp (serves.place _ data e ready known (.inl root)
      (Nat.lt_of_lt_of_le below enough)) ?_⟩
    rintro id e' ⟨steps, done⟩
    exact ⟨steps.mono below, done⟩
  have turn : ∀ {e₁}, Asks strict d k d.nextId e e₁ → d.Whole → e₁.phase b.scope ∈ b.expects := by
    intro e₁ steps whole
    rw [phase_congr steps.phases, paced]
    exact whole.paced k b recorded
  have closed {P : Prop} (opens : false = true) : P := absurd opens Bool.false_ne_true
  have stored : ∀ {α : Type} {items : Array α} {index}, index < items.size →
      ∃ a, items[index]? = some a := fun bound => ⟨_, Array.getElem?_eq_getElem bound⟩
  subst marked
  cases b with
  | ifBegin index =>
    refine Asking.next ready (asking_defineDominating sound serves enough ready within)
      fun _ e₁ steps₁ ready₁ hoisted => ?_
    obtain ⟨s, found, uses⟩ := sound.actions k _ recorded
    refine outcome_advanceSelection (turn steps₁) (by trivial) found rfl ?_
    have ready₂ := ready₁.advance (.ifBegin index)
    refine Asking.next ready₂ (serves.ask enough ready₂
      (.inr ⟨sound.first, fun whole => whole.conditions index s found⟩)
      fun n live => ⟨uses.due live, uses.earlier n live⟩) fun condition _ steps₂ _ held => ?_
    obtain ⟨e₃, steps₃, rfl⟩ := steps₂.before_advance
    exact outcome_writeAll _ (.boundary recorded (steps₁.trans steps₃)
      (fun _ => hoisted.grow steps₃.grows) (.ifBegin found held))
  | ifElse index | ifEnd index =>
    obtain ⟨s, found⟩ := stored (sound.actions k _ recorded).1
    refine outcome_advanceSelection (turn .refl) (by trivial) found rfl ?_
    exact outcome_writeAll _ (.boundary recorded .refl closed (by constructor; exact found))
  | loopBegin index =>
    refine Asking.next ready (asking_defineDominating sound serves enough ready within)
      fun _ e₁ steps₁ ready₁ hoisted => ?_
    obtain ⟨l, found⟩ := stored (sound.actions k _ recorded)
    refine outcome_advanceLoop (turn steps₁) (by trivial) found rfl rfl ?_
    have ready₂ := ready₁.advance (.loopBegin index)
    obtain ⟨data, known, reach⟩ := counter found
    refine Asking.next ready₂ (literal found l.first (by simp) ready₂)
      fun first e₃ steps₃ ready₃ heldFirst => ?_
    refine Asking.next ready₃ (literal found l.last (by simp) ready₃)
      fun last e₄ steps₄ ready₄ heldLast => ?_
    refine Asking.next ready₄ (reach e₄ ready₄) fun counter e₅ steps₅ ready₅ reached => ?_
    obtain ⟨rfl, reached⟩ := reached
    refine Asking.next ready₅ (asking_type strict k d.nextId fun _ => Ty.isDeclarable_sint)
      fun int e₆ steps₆ ready₆ isInt => ?_
    refine Asking.next ready₆ (asking_type strict k d.nextId fun _ => Ty.isDeclarable_bool)
      fun bool e₇ steps₇ _ isBool => ?_
    have late := ((steps₄.grows.trans steps₅.grows).trans steps₆.grows).trans steps₇.grows
    have heldFirst := late.held heldFirst
    have heldLast := ((steps₅.grows.trans steps₆.grows).trans steps₇.grows).held heldLast
    have reached := (steps₆.grows.trans steps₇.grows).reached _ reached
    have isInt := steps₇.grows.types _ _ isInt
    have asked := (((steps₃.trans steps₄).trans steps₅).trans steps₆).trans steps₇
    obtain ⟨e₈, steps₈, rfl⟩ := Asks.before_advance asked
    have replayed := Replays.boundary recorded (steps₁.trans steps₈)
      (fun _ => hoisted.grow steps₈.grows)
      (.loopBegin found known reached isInt isBool heldFirst heldLast)
    exact outcome_freshId (outcome_freshId (outcome_writeAll _ replayed))
  | loopEnd index =>
    obtain ⟨l, found⟩ := stored (sound.actions k _ recorded).1
    refine outcome_advanceLoop (turn .refl) (by trivial) found rfl rfl ?_
    have ready₁ := ready.advance (.loopEnd index)
    obtain ⟨data, known, reach⟩ := counter found
    refine Asking.next ready₁ (literal found l.step (by simp) ready₁)
      fun step e₂ steps₂ ready₂ held => ?_
    refine Asking.next ready₂ (reach e₂ ready₂) fun counter e₃ steps₃ ready₃ reached => ?_
    obtain ⟨rfl, reached⟩ := reached
    refine Asking.next ready₃ (asking_type strict k d.nextId fun _ => Ty.isDeclarable_sint)
      fun int e₄ steps₄ _ isInt => ?_
    have held := (steps₃.grows.trans steps₄.grows).held held
    have reached := steps₄.grows.reached _ reached
    have asked := (steps₂.trans steps₃).trans steps₄
    obtain ⟨e₅, steps₅, rfl⟩ := Asks.before_advance asked
    have replayed := Replays.boundary recorded steps₅ closed
      (.loopEnd found known reached isInt held)
    exact outcome_freshId (outcome_freshId (outcome_writeAll _ replayed))
  | leave index label | next index label =>
    obtain ⟨l, found⟩ := stored (sound.actions k _ recorded).1
    refine outcome_advanceLoop (turn .refl) (by trivial) found rfl rfl ?_
    exact outcome_writeAll _ (.boundary recorded .refl closed (by constructor; exact found))

theorem outcome_turn (within : k < d.trace.size) (paced : e.Paced d k) :
    Outcome (event d below k) e (fun _ e' => k ∈ e.written ∨ Replays strict d k e e')
      fun f _ => d.Allows f := by
  obtain ⟨action, recorded⟩ := Trace.action?_isSome within
  unfold event
  rw [recorded]
  dsimp only
  rw [outcome_bind, outcome_get]
  split
  · exact .inl ‹_›
  · have marked : ∀ {x : Emit Unit},
        Outcome x (e.mark k) (fun _ e' => Replays strict d k e e') (fun f _ => d.Allows f) →
        Outcome (do modify fun e => { e with written := k :: e.written }; x) e
          (fun _ e' => k ∈ e.written ∨ Replays strict d k e e') fun f _ => d.Allows f := by
      intro x replays
      rw [outcome_bind, outcome_modify]
      exact Outcome.imp replays fun _ _ done => .inr done
    cases action with
    | load p h lastStore =>
      exact marked (outcome_loadEvent sound serves enough ready.mark recorded rfl)
    | store p h =>
      obtain ⟨⟨data, touches⟩, uses⟩ := sound.actions k _ recorded
      refine marked (Outcome.imp (outcome_storeEvent sound serves enough ready.mark touches.known
        (.inr touches.due) (fun whole => whole.stores k p h recorded) fun n live => uses.due live)
        fun _ _ stored => ?_)
      exact .store recorded stored
    | boundary b =>
      exact marked (outcome_boundaryEvent sound serves enough ready.mark within recorded rfl paced)

end Events

end Emit

end ShaderIR
