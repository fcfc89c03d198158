import ShaderIR.Proofs.Quiet
import ShaderIR.Proofs.Whole

/-! What asking for a value or a location writes. While an event is written, everything recorded
before it is already there; so what is asked for adds computations and access chains only, each once,
and never a load, a store or a boundary. -/
namespace ShaderIR

open Relation (ReflTransGen)

variable {slot : Nat} {id : Id} {n : Node} {h : Handle} {d : Draft} {e e' : Emission}

section Computes

variable (d : Draft) (holds : Handle → Id → Prop) (literal : Literal → Id → Prop) (n : Node)
  (type : Id)

/-- The instruction of a node that is computed from other values, with the ids that hold values and
literals. -/
inductive Draft.Computes : Instruction → Prop where
  | unary {op : UnaryOp} {a : Handle} {v : Node} {operation : Operation} {ty : Ty} {x : Id} :
      n.kind = .unary op → d.graph.arguments n = [a] → d.graph.find? a = some v →
      op.lower v.ty = .ok (operation, ty) → holds a x →
      Computes (.compute operation type n.id [x])
  | binary {op : BinaryOp} {a b : Handle} {v w : Node} {lowering : Lowering} {x y : Id} :
      n.kind = .binary op → op ≠ .lookup → d.graph.arguments n = [a, b] →
      d.graph.find? a = some v → d.graph.find? b = some w →
      op.lower v.ty w.ty = .ok lowering → holds a x → holds b y →
      Computes (.compute lowering.operation type n.id (if lowering.swap then [y, x] else [x, y]))
  | sample {a b : Handle} {v : Node} {x y lod : Id} :
      n.kind = .binary .lookup → d.graph.arguments n = [a, b] → d.graph.find? a = some v →
      v.ty.isTexture = true → holds a x → holds b y → literal .floatZero lod →
      Computes (.sample type n.id x y lod)
  | column {a b : Handle} {v w : Node} {column : Word} {x : Id} :
      n.kind = .binary .lookup → d.graph.arguments n = [a, b] → d.graph.find? a = some v →
      d.graph.find? b = some w → v.ty.isTexture = false → v.ty.isMatrix = true →
      w.kind.constantIndex = .ok (some column) → holds a x →
      Computes (.extract type n.id x column)
  | component {a b : Handle} {v : Node} {x y : Id} :
      n.kind = .binary .lookup → d.graph.arguments n = [a, b] → d.graph.find? a = some v →
      v.ty.isTexture = false → v.ty.isMatrix = false → holds a x → holds b y →
      Computes (.extractDynamic type n.id x y)
  | select {a b c : Handle} {x y z : Id} :
      n.kind = .select → d.graph.arguments n = [a, b, c] → holds a x → holds b y →
      holds c z → Computes (.select type n.id x y z)
  | construct {ids : List Id} :
      n.kind = .construct → List.Forall₂ holds (d.graph.arguments n) ids →
      Computes (.construct type n.id ids)

end Computes

theorem Draft.Computes.imp {holds holds' : Handle → Id → Prop}
    {literal literal' : Literal → Id → Prop} {type : Id} {i : Instruction} (computes : d.Computes holds literal n type i)
    (values : ∀ {a x}, a ∈ d.graph.arguments n → holds a x → holds' a x)
    (literals : ∀ {l x}, literal l x → literal' l x) : d.Computes holds' literal' n type i := by
  cases computes with
  | unary kind arguments found lower a =>
    exact .unary kind arguments found lower (values (by simp [arguments]) a)
  | binary kind other arguments left right lower a b =>
    exact .binary kind other arguments left right lower (values (by simp [arguments]) a)
      (values (by simp [arguments]) b)
  | sample kind arguments found texture a b lod =>
    exact .sample kind arguments found texture (values (by simp [arguments]) a)
      (values (by simp [arguments]) b) (literals lod)
  | column kind arguments left right notTexture matrix constant a =>
    exact .column kind arguments left right notTexture matrix constant
      (values (by simp [arguments]) a)
  | component kind arguments found notTexture notMatrix a b =>
    exact .component kind arguments found notTexture notMatrix (values (by simp [arguments]) a)
      (values (by simp [arguments]) b)
  | select kind arguments a b c =>
    exact .select kind arguments (values (by simp [arguments]) a) (values (by simp [arguments]) b)
      (values (by simp [arguments]) c)
  | construct kind parts =>
    exact .construct kind ((List.forall₂_and_left ..).mpr ⟨fun _ => id, parts⟩ |>.imp
      fun _ _ ⟨member, held⟩ => values member held)

namespace Emission

def Holds (e : Emission) (h : Handle) (id : Id) : Prop := e.results.find? h.slot = some id

def Held (e : Emission) (d : Draft) (h : Handle) (id : Id) : Prop :=
  e.Holds h id ∧ (d.graph.find? h).isSome

def Indexes (e : Emission) (d : Draft) : Link → Id → Prop
  | .member index, id => e.IsLiteral (.int index.toInt32) id
  | .index value, id => e.Held d value id

abbrev Computes (e : Emission) (d : Draft) : Node → Id → Instruction → Prop :=
  d.Computes e.Holds e.IsLiteral

/-- One step of asking at an event: a quiet step, the id of a constant, a computation or an access
chain. Only what was built under an id below the bound is touched. -/
inductive Ask (strict : Prop) (d : Draft) (k : Nat) (bound : Id) (e : Emission) :
    Emission → Prop where
  | quiet {e' : Emission} : Quiet d e e' → Ask strict d k bound e e'
  | literal {h : Handle} {n : Node} {literal : Literal} {id : Id} : d.graph.find? h = some n →
      n.kind = .constant literal → n.id < bound → e.results.find? h.slot = none →
      e.IsLiteral literal id → Ask strict d k bound e { e with results := e.results.insert h.slot id }
  | compute {h : Handle} {n : Node} {type : Id} {i : Instruction} : d.graph.find? h = some n →
      n.Due strict d.trace k → n.id < bound → e.results.find? h.slot = none → e.IsType n.ty type →
      e.Computes d n type i →
      Ask strict d k bound e
        { e with body := e.body.push i, results := e.results.insert h.slot n.id }
  | chain {p root : Place} {data base : PlaceData} {links : List Link} {indices : List Id}
      {type : Id} : d.places.find? p = some data → data.Due strict d.trace k → data.id < bound →
      p ∉ e.reached → d.places.Path p root links → links ≠ [] → root ∈ e.reached →
      d.places.find? root = some base → e.IsType data.ty type →
      List.Forall₂ (e.Indexes d) links indices →
      Ask strict d k bound e
        { e with
          body := e.body.push (.accessChain type data.id base.id indices)
          reached := p :: e.reached }

abbrev Asks (strict : Prop) (d : Draft) (k : Nat) (bound : Id) : Emission → Emission → Prop :=
  ReflTransGen fun a b => Ask strict d k bound a b

/-- A compilation that has come to an event: everything recorded before is written, and no load
recorded later. -/
structure Ready (d : Draft) (k : Nat) (e : Emission) : Prop where
  written : ∀ j < k, j ∈ e.written
  loads : ∀ h n j, d.graph.find? h = some n → n.kind = .load j → j < k →
    (e.results.find? h.slot).isSome
  pending : ∀ h n j, d.graph.find? h = some n → n.kind = .load j → k ≤ j →
    e.results.find? h.slot = none
  inputs : ∀ h n slot, d.graph.find? h = some n → n.kind = .input slot →
    (e.results.find? h.slot).isSome
  roots : ∀ p ∈ d.variableList, p ∈ e.reached

section Steps

variable {strict : Prop} {k : Nat} {bound bound' : Id}

theorem insert_grows {results : Assoc Nat Id} (free : results.find? slot = none) (other : Nat)
    (id' : Id) (found : results.find? other = some id') :
    (results.insert slot id).find? other = some id' := by
  rw [Assoc.find?_insert_of_ne, found]
  rintro rfl
  rw [free] at found
  contradiction

theorem grows_push (e : Emission) (i : Instruction) : e.Grows { e with body := e.body.push i } :=
  { Grows.refl e with body := fun _ => mem_push_of_mem i }

theorem grows_hold (free : e.results.find? slot = none) (i : Instruction) :
    e.Grows { e with body := e.body.push i, results := e.results.insert slot id } :=
  { grows_push e i with results := insert_grows free }

theorem Ask.grows (step : Ask strict d k bound e e') : e.Grows e' := by
  have same := Grows.refl e
  cases step with
  | quiet step => exact step.grows
  | literal _ _ _ free => exact { same with results := insert_grows free }
  | compute _ _ _ free => exact grows_hold free _
  | chain =>
    exact { same with
      reached := fun p member => List.mem_cons_of_mem _ member
      body := fun i => mem_push_of_mem _ }

theorem Asks.grows (steps : Asks strict d k bound e e') : e.Grows e' :=
  keeps_along (fun step grows => grows.trans step.grows) steps (.refl e)

theorem Ask.phases (step : Ask strict d k bound e e') :
    e'.selectionPhases = e.selectionPhases ∧ e'.loopPhases = e.loopPhases := by
  cases step with
  | quiet step => exact ⟨step.still.selectionPhases, step.still.loopPhases⟩
  | literal | compute | chain => exact ⟨rfl, rfl⟩

theorem Asks.phases (steps : Asks strict d k bound e e') :
    e'.selectionPhases = e.selectionPhases ∧ e'.loopPhases = e.loopPhases := by
  induction steps with
  | refl => exact ⟨rfl, rfl⟩
  | tail _ step ih => exact ⟨step.phases.1.trans ih.1, step.phases.2.trans ih.2⟩

theorem Grows.result (grows : e.Grows e') (known : (e.results.find? slot).isSome) :
    (e'.results.find? slot).isSome := by
  obtain ⟨id, found⟩ := Option.isSome_iff_exists.mp known
  rw [grows.results slot id found]
  rfl

theorem Computes.not_load {type : Id} {i : Instruction} (computes : e.Computes d n type i)
    (event : Nat) : n.kind ≠ .load event := by
  cases computes with
  | unary kind | binary kind | sample kind | column kind | component kind | select kind
  | construct kind => simp [kind]

theorem Ask.ready (step : Ask strict d k bound e e') (ready : e.Ready d k) : e'.Ready d k := by
  have grows := step.grows
  refine ⟨fun j before => grows.written j (ready.written j before),
    fun h n j found isLoad before => grows.result (ready.loads h n j found isLoad before),
    fun h n j found isLoad later => ?_,
    fun h n slot found isInput => grows.result (ready.inputs h n slot found isInput),
    fun p member => grows.reached p (ready.roots p member)⟩
  have free := ready.pending h n j found isLoad later
  have other : ∀ {h' n'}, d.graph.find? h' = some n' → (∀ event, n'.kind ≠ .load event) →
      h'.slot ≠ h.slot := by
    intro h' n' found' notLoad same
    obtain ⟨_, rfl⟩ := Graph.handle_unique found' found same
    exact notLoad j isLoad
  cases step with
  | quiet step => rw [step.still.results, free]
  | literal found' kind =>
    rw [Assoc.find?_insert_of_ne _ _ (other found' (by simp [kind])), free]
  | compute found' _ _ _ _ computes =>
    rw [Assoc.find?_insert_of_ne _ _ (other found' computes.not_load), free]
  | chain => exact free

theorem Asks.ready (steps : Asks strict d k bound e e') (ready : e.Ready d k) : e'.Ready d k :=
  keeps_along (fun step => step.ready) steps ready

theorem Ask.mono (step : Ask strict d k bound e e') (above : bound ≤ bound') :
    Ask strict d k bound' e e' := by
  cases step with
  | quiet step => exact .quiet step
  | literal found kind below free known =>
    exact .literal found kind (Nat.lt_of_lt_of_le below above) free known
  | compute found due below free known computes =>
    exact .compute found due (Nat.lt_of_lt_of_le below above) free known computes
  | chain found due below free path links rootReached rootFound known indices =>
    exact .chain found due (Nat.lt_of_lt_of_le below above) free path links rootReached rootFound
      known indices

theorem Asks.mono (steps : Asks strict d k bound e e') (above : bound ≤ bound') :
    Asks strict d k bound' e e' :=
  ReflTransGen.mono (fun _ _ step => Ask.mono step above) _ _ steps

theorem Quiets.asks (steps : Quiets d e e') : Asks strict d k bound e e' :=
  ReflTransGen.mono (fun _ _ step => Ask.quiet step) _ _ steps

/-- Values built under later ids are left alone. -/
theorem Asks.free (steps : Asks strict d k bound e e') (found : d.graph.find? h = some n)
    (above : bound ≤ n.id) (free : e.results.find? h.slot = none) :
    e'.results.find? h.slot = none := by
  have other : ∀ {h' n'}, d.graph.find? h' = some n' → n'.id < bound → h'.slot ≠ h.slot := by
    intro h' n' found' below same
    obtain ⟨_, rfl⟩ := Graph.handle_unique found' found same
    exact absurd above (Nat.not_le.mpr below)
  induction steps with
  | refl => exact free
  | tail _ step ih =>
    cases step with
    | quiet step => rw [step.still.results, ih]
    | literal found' _ below => rw [Assoc.find?_insert_of_ne _ _ (other found' below), ih]
    | compute found' _ below => rw [Assoc.find?_insert_of_ne _ _ (other found' below), ih]
    | chain => exact ih

/-- Chains built under later ids are left alone. -/
theorem Asks.unreached (steps : Asks strict d k bound e e') {p : Place} {data : PlaceData}
    (found : d.places.find? p = some data) (above : bound ≤ data.id)
    (free : p ∉ e.reached) : p ∉ e'.reached := by
  induction steps with
  | refl => exact free
  | tail _ step ih =>
    cases step with
    | quiet step => rwa [step.still.reached]
    | literal => exact ih
    | compute => exact ih
    | chain found' _ below =>
      rw [List.mem_cons, not_or]
      refine ⟨?_, ih⟩
      rintro rfl
      obtain rfl := Option.mem_unique found found'
      exact absurd above (Nat.not_le.mpr below)

end Steps

theorem holds_insert {h' : Handle} {n' : Node} {id' : Id} (found : d.graph.find? h = some n)
    (found' : d.graph.find? h' = some n') (results : e'.results = e.results.insert h.slot id)
    (held : e'.Holds h' id') : e.Holds h' id' ∨ n' = n ∧ id' = id := by
  rw [Holds, results, Assoc.find?_insert] at held
  split at held
  · rename_i same
    exact .inr ⟨(Graph.handle_unique found found' same).2.symm, (Option.some.inj held).symm⟩
  · exact .inl held

theorem Grows.holds (grows : e.Grows e') (known : e.Holds h id) : e'.Holds h id :=
  grows.results h.slot id known

theorem Grows.held (grows : e.Grows e') (held : e.Held d h id) : e'.Held d h id :=
  held.imp_left grows.holds

theorem Grows.indexes (grows : e.Grows e') {link : Link} (known : e.Indexes d link id) :
    e'.Indexes d link id := by
  cases link with
  | member index => exact grows.literals _ _ known
  | index value => exact grows.held known

end Emission

open Emission

def Asking {α : Type} (strict : Prop) (d : Draft) (k : Nat) (bound : Id) (e : Emission)
    (x : Emit α) (good : α → Emission → Prop) : Prop :=
  Outcome x e (fun a e' => Asks strict d k bound e e' ∧ good a e') fun f _ => d.Allows f

section Asking

variable {α β : Type} {strict : Prop} {k : Nat} {bound : Id} {x : Emit α} {f : α → Emit β}
  {good : α → Emission → Prop} {good' post : β → Emission → Prop}

theorem Asking.next (ready : e.Ready d k) (first : Asking strict d k bound e x good)
    (rest : ∀ a e', Asks strict d k bound e e' → e'.Ready d k → good a e' →
      Outcome (f a) e' post fun f _ => d.Allows f) :
    Outcome (x >>= f) e post fun f _ => d.Allows f := by
  rw [outcome_bind]
  refine Outcome.imp first ?_
  rintro a e' ⟨steps, holds⟩
  exact rest a e' steps (steps.ready ready) holds

theorem Asking.bind (ready : e.Ready d k) (first : Asking strict d k bound e x good)
    (rest : ∀ a e', Asks strict d k bound e e' → e'.Ready d k → good a e' →
      Asking strict d k bound e' (f a) good') :
    Asking strict d k bound e (x >>= f) good' :=
  Asking.next ready first fun a e' steps ready' holds =>
    Outcome.imp (rest a e' steps ready' holds) fun _ _ done => ⟨steps.trans done.1, done.2⟩

theorem Quietly.asking {ty : Ty}
    (quiet : Quietly d e (ty.isDeclarable = false) x good)
    (used : d.Declarable → ty.isDeclarable = true) : Asking strict d k bound e x good :=
  Outcome.mono quiet (fun _ _ done => ⟨done.1.asks, done.2⟩)
    fun _ _ failed => Draft.allows_undeclarable failed.2.1 failed.2.2 used

theorem outcome_check {x : Except Fault α}
    (modest : Modest x) (accepted : d.Whole → ∃ a, x = .ok a)
    (rest : ∀ a, x = .ok a → Outcome (f a) e post fun f _ => d.Allows f) :
    Outcome (Emit.check x >>= f) e post fun f _ => d.Allows f := by
  rw [outcome_bind, outcome_emitCheck]
  refine ⟨fun a accepted => rest a accepted, fun fault refused => ?_⟩
  refine Draft.allows_broken (modest.plain refused) fun whole => ?_
  obtain ⟨a, same⟩ := accepted whole
  rw [refused] at same
  contradiction

theorem outcome_known {x : Except Fault α} {a : α} {bad : Fault → Emission → Prop}
    (known : x = .ok a) (rest : Outcome (f a) e post bad) :
    Outcome (Emit.check x >>= f) e post bad := by
  subst known
  exact rest

end Asking

/-- A way of asking at an event that adds only what is asked for and what that needs. A number of
levels is enough for what was built under an id below it. -/
structure Demand.Serves (below : Demand) (strict : Prop) (d : Draft) (k levels : Nat) : Prop where
  value : ∀ h n e, e.Ready d k → d.graph.find? h = some n → n.Due strict d.trace k →
    n.id < levels → Asking strict d k (n.id + 1) e (below.value h) fun id e' => e'.Holds h id
  stale : ∀ h e, d.graph.find? h = none → 0 < levels →
    Outcome (below.value h) e (fun _ _ => False) fun f _ => f.Plain
  event : ∀ j e, j < k → e.Ready d k → 0 < levels →
    Outcome (below.event j) e (fun _ e' => e' = e) fun f _ => d.Allows f
  place : ∀ p data e, e.Ready d k → d.places.find? p = some data →
    data.origin = .root ∨ data.Due strict d.trace k → data.id < levels →
    Asking strict d k (data.id + 1) e (below.place p) fun id e' => id = data.id ∧ p ∈ e'.reached

namespace Demand

variable {strict : Prop} {k levels : Nat} {below : Demand}
  (serves : below.Serves strict d k levels) {bound : Id} (enough : bound ≤ levels) {e : Emission}

include serves enough

theorem Serves.ask (ready : e.Ready d k) (live : d.Live h ∨ 0 < bound ∧ (d.Whole → d.Live h))
    (due : ∀ n, d.graph.find? h = some n → n.Due strict d.trace k ∧ n.id < bound) :
    Asking strict d k bound e (below.value h) fun id e' => e'.Held d h id := by
  cases found : d.graph.find? h with
  | none =>
    have dead : ¬d.Live h := by simp [Draft.Live, found]
    obtain ⟨positive, live⟩ := live.resolve_left dead
    exact (serves.stale h e found (Nat.lt_of_lt_of_le positive enough)).mono
      (fun _ _ => False.elim) fun f _ plain =>
        Draft.allows_broken plain fun whole => dead (live whole)
  | some n =>
    obtain ⟨due, earlier⟩ := due n found
    refine Outcome.imp (serves.value h n e ready found due (Nat.lt_of_lt_of_le earlier enough)) ?_
    rintro id e' ⟨steps, holds⟩
    exact ⟨steps.mono earlier, holds, by rw [found]; rfl⟩

theorem Serves.askAll {items : List Handle} (ready : e.Ready d k)
    (live : ∀ h ∈ items, d.Live h)
    (due : ∀ h ∈ items, ∀ n, d.graph.find? h = some n → n.Due strict d.trace k ∧ n.id < bound) :
    Asking strict d k bound e (items.mapM below.value) fun ids e' =>
      List.Forall₂ e'.Holds items ids := by
  induction items generalizing e with
  | nil => exact ⟨.refl, .nil⟩
  | cons h rest ih =>
    rw [List.mapM_cons]
    refine Asking.bind ready (serves.ask enough ready (.inl (live h (by simp)))
      (due h (by simp))) fun id e₁ _ ready₁ held => ?_
    refine Asking.bind ready₁ (ih ready₁ (fun h member => live h (by simp [member]))
      fun h member => due h (by simp [member])) fun ids e₂ steps _ others => ?_
    exact ⟨.refl, .cons (steps.grows.holds held.1) others⟩

end Demand

end ShaderIR
