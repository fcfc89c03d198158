import ShaderIR.Proofs.Asking

/-! Every level of asking serves: what it is asked for is written once, after what it needs. -/
namespace ShaderIR

open Emission

namespace Emit

variable {strict : Prop} {d : Draft} {k levels : Nat} {below : Demand}

/-- The instruction of a node is written, after everything it needs, and its id not noted yet. -/
def Wrote (strict : Prop) (d : Draft) (k : Nat) (n : Node) (e : Emission) (id : Id)
    (e' : Emission) : Prop :=
  ∃ e₁ type i, Asks strict d k n.id e e₁ ∧ e₁.IsType n.ty type ∧ e₁.Computes d n type i ∧
    e' = { e₁ with body := e₁.body.push i } ∧ id = n.id

theorem wrote {n : Node} {e e₁ : Emission} {type : Id} {i : Instruction}
    (steps : Asks strict d k n.id e e₁) (known : e₁.IsType n.ty type)
    (computes : e₁.Computes d n type i) :
    Outcome (do write i; return n.id) e₁ (Wrote strict d k n e) fun f _ => d.Allows f :=
  ⟨e₁, type, i, steps, known, computes, rfl, rfl⟩

section Quiet

variable (strict) (k) (bound : Id) {e : Emission}

theorem asking_type {ty : Ty} (used : d.Declarable → ty.isDeclarable = true) :
    Asking strict d k bound e (type ty) fun id e' => e'.IsType ty id :=
  Outcome.imp ((quietly_type ty e).asking used) fun _ _ done => ⟨done.1, done.2.known⟩

theorem asking_constant (literal : Literal) {proposed : Option Id}
    (named : ∀ id, proposed = some id →
      ∃ h n, d.graph.find? h = some n ∧ n.kind = .constant literal ∧ n.id = id) :
    Asking strict d k bound e (constant literal proposed) fun id e' => e'.IsLiteral literal id :=
  Outcome.imp (Quietly.asking (quietly_constant literal named) fun _ => declarable_literal literal)
    fun _ _ done => ⟨done.1, done.2.1⟩

end Quiet

section Node

variable (serves : below.Serves strict d k levels) {h : Handle} {n : Node} {e : Emission}
  (ready : e.Ready d k) (found : d.graph.find? h = some n) (enough : n.id ≤ levels)
  (due : ∀ h ∈ d.graph.arguments n, ∀ v, d.graph.find? h = some v →
    v.Due strict d.trace k ∧ v.id < n.id)

include serves ready found enough due

omit ready found in
theorem asking_argument {e : Emission} (ready : e.Ready d k) {o : Handle}
    (member : o ∈ d.graph.arguments n) :
    Asking strict d k n.id e (below.value o) fun id e' => e'.Held d o id :=
  serves.ask enough ready (.inl (Draft.live_argument member)) (due o member)

theorem wrote_constructedValue (kind : n.kind = .construct) :
    Outcome (constructedValue below n (d.graph.arguments n)) e (Wrote strict d k n e)
      fun f _ => d.Allows f := by
  refine Asking.next ready (asking_type strict k n.id fun whole => whole.values h n found)
    fun type e₁ steps₁ ready₁ known => ?_
  refine Asking.next ready₁ (serves.askAll enough ready₁ (fun _ => Draft.live_argument) due)
    fun ids e₂ steps₂ _ held => ?_
  exact wrote (steps₁.trans steps₂) (steps₂.grows.types _ _ known) (.construct kind held)

theorem wrote_lookupValue {source index : Handle} (kind : n.kind = .binary .lookup)
    (arguments : d.graph.arguments n = [source, index]) :
    Outcome (lookupValue d below n source index) e (Wrote strict d k n e)
      fun f _ => d.Allows f := by
  have ask {e : Emission} := @asking_argument strict d k levels below serves n enough due e
  have inSource : source ∈ d.graph.arguments n := by simp [arguments]
  have inIndex : index ∈ d.graph.arguments n := by simp [arguments]
  obtain ⟨v, foundSource⟩ := Option.isSome_iff_exists.mp (Draft.live_argument inSource)
  obtain ⟨w, foundIndex⟩ := Option.isSome_iff_exists.mp (Draft.live_argument inIndex)
  refine outcome_known (Graph.typeOf_ok foundSource) ?_
  refine Asking.next ready (asking_type strict k n.id fun whole => whole.values h n found)
    fun type e₁ steps₁ ready₁ known₁ => ?_
  dsimp only
  split
  · rename_i texture
    refine Asking.next ready₁ (ask ready₁ inSource) fun x e₂ steps₂ ready₂ held₂ => ?_
    refine Asking.next ready₂ (ask ready₂ inIndex) fun y e₃ steps₃ ready₃ held₃ => ?_
    refine Asking.next ready₃ (asking_constant strict k n.id .floatZero (by simp))
      fun lod e₄ steps₄ _ literal => ?_
    have grows := steps₃.grows.trans steps₄.grows
    exact wrote (((steps₁.trans steps₂).trans steps₃).trans steps₄)
      (grows.types _ _ (steps₂.grows.types _ _ known₁))
      (.sample kind arguments foundSource texture (grows.holds held₂.1)
        (steps₄.grows.holds held₃.1) literal)
  · rename_i notTexture
    have notTexture : v.ty.isTexture = false := by simpa using notTexture
    split
    · rename_i matrix
      refine outcome_known (Graph.node_eq_ok.mpr foundIndex) ?_
      have column : d.Whole → ∃ column, w.kind.constantIndex = .ok (some column) := by
        intro whole
        obtain ⟨column, constant, _⟩ := whole.column found kind arguments foundSource foundIndex
          notTexture matrix
        exact ⟨column, constant⟩
      refine outcome_check (modest_constantIndex w.kind)
        (fun whole => (column whole).imp' some fun _ => id) fun constant isConstant => ?_
      cases constant with
      | none =>
        refine outcome_check (f := fun _ => pure n.id) (modest_error.mpr rfl) (fun whole => ?_)
          fun u refused => ?_
        · obtain ⟨column, constant⟩ := column whole
          simp [isConstant] at constant
        · simp [BinaryOp.refuseUnsupported] at refused
      | some column =>
        refine Asking.next ready₁ (ask ready₁ inSource) fun x e₂ steps₂ _ held₂ => ?_
        exact wrote (steps₁.trans steps₂) (steps₂.grows.types _ _ known₁)
          (.column kind arguments foundSource foundIndex notTexture matrix isConstant held₂.1)
    · rename_i notMatrix
      refine Asking.next ready₁ (ask ready₁ inSource) fun x e₂ steps₂ ready₂ held₂ => ?_
      refine Asking.next ready₂ (ask ready₂ inIndex) fun y e₃ steps₃ _ held₃ => ?_
      exact wrote ((steps₁.trans steps₂).trans steps₃)
        ((steps₂.grows.trans steps₃.grows).types _ _ known₁)
        (.component kind arguments foundSource notTexture (by simpa using notMatrix)
          (steps₃.grows.holds held₂.1) held₃.1)

theorem wrote_unaryValue {op : UnaryOp} {a : Handle} (kind : n.kind = .unary op)
    (arguments : d.graph.arguments n = [a]) :
    Outcome (do
      let (operation, _) ← check (op.lower (← check (d.graph.typeOf a)))
      let operand ← below.value a
      let type ← type n.ty
      write (.compute operation type n.id [operand])
      return n.id) e (Wrote strict d k n e) fun f _ => d.Allows f := by
  have member : a ∈ d.graph.arguments n := by simp [arguments]
  obtain ⟨v, known⟩ := Option.isSome_iff_exists.mp (Draft.live_argument member)
  refine outcome_known (Graph.typeOf_ok known) ?_
  refine outcome_check (modest_negate v.ty) (fun whole => ?_) fun lowered lower => ?_
  · obtain ⟨operation, lower⟩ := whole.unary found kind arguments known
    exact ⟨_, lower⟩
  refine Asking.next ready (asking_argument serves enough due ready member)
    fun x e₁ steps₁ ready₁ held₁ => ?_
  refine Asking.next ready₁ (asking_type strict k n.id fun whole => whole.values h n found)
    fun type e₂ steps₂ _ isType => ?_
  exact wrote (steps₁.trans steps₂) isType
    (.unary kind arguments known lower (steps₂.grows.holds held₁.1))

theorem wrote_binaryValue {op : BinaryOp} {a b : Handle} (kind : n.kind = .binary op)
    (other : op ≠ .lookup) (arguments : d.graph.arguments n = [a, b]) :
    Outcome (do
      let lhsTy ← check (d.graph.typeOf a)
      let rhsTy ← check (d.graph.typeOf b)
      let lowering ← check (op.lower lhsTy rhsTy)
      let lhsId ← below.value a
      let rhsId ← below.value b
      let type ← type n.ty
      write (.compute lowering.operation type n.id
        (if lowering.swap then [rhsId, lhsId] else [lhsId, rhsId]))
      return n.id) e (Wrote strict d k n e) fun f _ => d.Allows f := by
  have inLeft : a ∈ d.graph.arguments n := by simp [arguments]
  have inRight : b ∈ d.graph.arguments n := by simp [arguments]
  obtain ⟨v, left⟩ := Option.isSome_iff_exists.mp (Draft.live_argument inLeft)
  obtain ⟨w, right⟩ := Option.isSome_iff_exists.mp (Draft.live_argument inRight)
  refine outcome_known (Graph.typeOf_ok left) (outcome_known (Graph.typeOf_ok right) ?_)
  refine outcome_check (modest_lower op v.ty w.ty) (fun whole => ?_) fun lowering lower => ?_
  · obtain ⟨lowering, lower, _⟩ := whole.binary found kind other arguments left right
    exact ⟨lowering, lower⟩
  refine Asking.next ready (asking_argument serves enough due ready inLeft)
    fun x e₁ steps₁ ready₁ held₁ => ?_
  refine Asking.next ready₁ (asking_argument serves enough due ready₁ inRight)
    fun y e₂ steps₂ ready₂ held₂ => ?_
  refine Asking.next ready₂ (asking_type strict k n.id fun whole => whole.values h n found)
    fun type e₃ steps₃ _ isType => ?_
  exact wrote ((steps₁.trans steps₂).trans steps₃) isType
    (.binary kind other arguments left right lower
      ((steps₂.grows.trans steps₃.grows).holds held₁.1) (steps₃.grows.holds held₂.1))

theorem wrote_selectedValue {a b c : Handle} (kind : n.kind = .select)
    (arguments : d.graph.arguments n = [a, b, c]) :
    Outcome (do
      let condition ← below.value a
      let accept ← below.value b
      let reject ← below.value c
      let type ← type n.ty
      write (.select type n.id condition accept reject)
      return n.id) e (Wrote strict d k n e) fun f _ => d.Allows f := by
  have ask {e : Emission} := @asking_argument strict d k levels below serves n enough due e
  refine Asking.next ready (ask ready (by simp [arguments])) fun x e₁ steps₁ ready₁ held₁ => ?_
  refine Asking.next ready₁ (ask ready₁ (by simp [arguments]))
    fun y e₂ steps₂ ready₂ held₂ => ?_
  refine Asking.next ready₂ (ask ready₂ (by simp [arguments]))
    fun z e₃ steps₃ ready₃ held₃ => ?_
  refine Asking.next ready₃ (asking_type strict k n.id fun whole => whole.values h n found)
    fun type e₄ steps₄ _ isType => ?_
  have late := steps₃.grows.trans steps₄.grows
  exact wrote (((steps₁.trans steps₂).trans steps₃).trans steps₄) isType
    (.select kind arguments (late.holds (steps₂.grows.holds held₁.1)) (late.holds held₂.1)
      (steps₄.grows.holds held₃.1))

theorem wrote_computedValue {count : Nat} (arity : n.kind.arity? = some (count + 1)) :
    Outcome (computedValue d below n (d.graph.arguments n)) e (Wrote strict d k n e)
      fun f _ => d.Allows f := by
  have computed : n.kind.isComputed = true := by
    cases kind : n.kind <;> first | rfl | simp [kind, NodeKind.arity?] at arity
  -- A node of a draft that is whole has as many arguments as its kind asks for.
  have refused : ∀ {actual expected}, (d.graph.arguments n).length ≠ count + 1 →
      Outcome (throw (.wrongArgumentCount actual expected) : Emit Id) e (Wrote strict d k n e)
        fun f _ => d.Allows f := fun wrong =>
    Draft.allows_broken trivial fun whole =>
      wrong (whole.arity found computed arity)
  unfold computedValue
  cases kind : n.kind with
  | constant | input | load | construct => simp [kind, NodeKind.arity?] at arity
  | unary op =>
    obtain rfl : count = 0 := by simpa [kind, NodeKind.arity?] using arity
    rcases arguments : d.graph.arguments n with _ | ⟨a, _ | ⟨other, rest⟩⟩
    · exact refused (by simp [arguments])
    · exact wrote_unaryValue serves ready found enough due kind arguments
    · exact refused (by simp [arguments])
  | select =>
    obtain rfl : count = 2 := by simpa [kind, NodeKind.arity?] using arity
    rcases arguments : d.graph.arguments n with _ | ⟨a, _ | ⟨b, _ | ⟨c, _ | ⟨other, rest⟩⟩⟩⟩
    · exact refused (by simp [arguments])
    · exact refused (by simp [arguments])
    · exact refused (by simp [arguments])
    · exact wrote_selectedValue serves ready found enough due kind arguments
    · exact refused (by simp [arguments])
  | binary op =>
    obtain rfl : count = 1 := by simpa [kind, NodeKind.arity?] using arity
    rcases arguments : d.graph.arguments n with _ | ⟨a, _ | ⟨b, _ | ⟨other, rest⟩⟩⟩
    · cases op <;> exact refused (by simp [arguments])
    · cases op <;> exact refused (by simp [arguments])
    · by_cases isLookup : op = .lookup
      · subst isLookup
        exact wrote_lookupValue serves ready found enough due kind arguments
      · have arithmetic := wrote_binaryValue serves ready found enough due kind isLookup arguments
        cases op with
        | lookup => contradiction
        | _ => exact arithmetic
    · cases op <;> exact refused (by simp [arguments])

end Node

variable (sound : d.Sound strict) (within : k ≤ d.trace.size)
  (serves : below.Serves strict d k levels)

include sound within serves

theorem asking_value {h : Handle} {n : Node} {e : Emission} (ready : e.Ready d k)
    (found : d.graph.find? h = some n) (due : n.Due strict d.trace k) (enough : n.id ≤ levels) :
    Asking strict d k (n.id + 1) e (value d below h) fun id e' => e'.Holds h id := by
  refine outcome_known (Graph.node_eq_ok.mpr found) ?_
  rw [outcome_bind, outcome_get]
  cases free : e.results.find? h.slot with
  | some id => exact ⟨.refl, free⟩
  | none =>
    -- What is left is a constant or a computation: inputs and loads are written before.
    have computes : ∀ {x : Emit Id}, Outcome x e (Wrote strict d k n e) (fun f _ => d.Allows f) →
        Outcome (do let id ← x; setResult h.slot id; return id) e
          (fun id e' => Asks strict d k (n.id + 1) e e' ∧ e'.Holds h id) fun f _ => d.Allows f := by
      intro x written
      rw [outcome_bind]
      refine written.imp ?_
      rintro id _ ⟨e₁, type, i, steps, known, computed, rfl, rfl⟩
      refine ⟨(steps.mono (Nat.le_succ _)).tail
        (.compute found due (Nat.lt_succ_self _) (steps.free found (Nat.le_refl _) free) known
          computed), ?_⟩
      exact Assoc.find?_insert_self e₁.results h.slot n.id
    have arguments : (∀ literal, n.kind ≠ .constant literal) → (∀ slot, n.kind ≠ .input slot) →
        (∀ event, n.kind ≠ .load event) → ∀ o ∈ d.graph.arguments n, ∀ v,
        d.graph.find? o = some v → v.Due strict d.trace k ∧ v.id < n.id := by
      intro notLiteral notInput notLoad o member v known
      refine sound.operand_due within found due ?_ notInput notLiteral (List.mem_filter.mp member).1
        known
      cases kind : n.kind with
      | constant literal => exact absurd kind (notLiteral literal)
      | input slot => exact absurd kind (notInput slot)
      | load event => exact absurd kind (notLoad event)
      | _ => simp only [Node.ready, kind]
    dsimp only
    unfold nodeValue
    rw [sound.valid.operandsAt_eq found]
    cases kind : n.kind with
    | constant literal =>
      refine Asking.next ready
        (asking_constant strict k n.id literal fun id proposed =>
          ⟨h, n, found, kind, Option.some.inj proposed⟩) fun id e₁ steps _ known => ?_
      refine ⟨(steps.mono (Nat.le_succ _)).tail
        (.literal found kind (Nat.lt_succ_self _) (steps.free found (Nat.le_refl _) free) known), ?_⟩
      exact Assoc.find?_insert_self e₁.results h.slot id
    | input slot =>
      have written := ready.inputs h n slot found kind
      rw [free] at written
      contradiction
    | load event =>
      have before : event < k := by
        have := due.ready
        simp only [Node.ready, kind] at this
        exact this
      have written := ready.loads h n event found kind before
      rw [free] at written
      contradiction
    | construct =>
      exact computes (wrote_constructedValue serves ready found enough
        (arguments (by simp [kind]) (by simp [kind]) (by simp [kind])) kind)
    | unary | binary | select =>
      have computed := computes (wrote_computedValue serves ready found enough
        (arguments (by simp [kind]) (by simp [kind]) (by simp [kind])) (by rw [kind]; rfl))
      exact computed

omit sound within in
theorem asking_links {links : List Link} {bound : Id} (positive : 0 < bound)
    (enough : bound ≤ levels) {e : Emission} (ready : e.Ready d k)
    (live : d.Whole → ∀ value, .index value ∈ links → d.Live value)
    (due : ∀ value, .index value ∈ links → ∀ v, d.graph.find? value = some v →
      v.Due strict d.trace k ∧ v.id < bound) :
    Asking strict d k bound e (links.mapM (linkIndex below)) fun ids e' =>
      List.Forall₂ (e'.Indexes d) links ids := by
  induction links generalizing e with
  | nil => exact ⟨.refl, .nil⟩
  | cons link rest ih =>
    have first : Asking strict d k bound e (linkIndex below link)
        fun id e' => e'.Indexes d link id := by
      cases link with
      | member index =>
        show Asking strict d k bound e (constant (.int index.toInt32) none) _
        exact asking_constant strict k bound _ (by simp)
      | index value =>
        exact serves.ask enough ready (.inr ⟨positive, fun whole => live whole value (by simp)⟩)
          (due value (by simp))
    rw [List.mapM_cons]
    refine Asking.bind ready first fun id e₁ _ ready₁ indexed => ?_
    refine Asking.bind ready₁ (ih ready₁ (fun whole value member =>
        live whole value (List.mem_cons_of_mem _ member)) fun value member =>
        due value (List.mem_cons_of_mem _ member)) fun ids e₂ steps _ others => ?_
    exact ⟨.refl, .cons (steps.grows.indexes indexed) others⟩

theorem asking_place {p : Place} {data : PlaceData} {e : Emission} (ready : e.Ready d k)
    (found : d.places.find? p = some data)
    (due : data.origin = .root ∨ data.Due strict d.trace k) (enough : data.id ≤ levels) :
    Asking strict d k (data.id + 1) e (place d below p) fun id e' =>
      id = data.id ∧ p ∈ e'.reached := by
  obtain ⟨root, links, flat, path⟩ := sound.flatten_path found
  refine outcome_known (Places.get_eq_ok.mpr found) ?_
  rw [outcome_bind, outcome_get]
  split
  · exact ⟨.refl, rfl, ‹_›⟩
  · rename_i free
    refine outcome_known flat ?_
    dsimp only
    split
    · -- Every variable of a draft that is whole is declared before the function body.
      rename_i isEmpty
      refine Draft.allows_broken trivial fun whole => free ?_
      obtain rfl : links = [] := by simpa using isEmpty
      obtain ⟨base, rootFound, origin⟩ := path.ends
      rw [path.of_nil]
      exact ready.roots root (whole.roots root ⟨base, rootFound, origin⟩)
    · rename_i nonempty
      have chained : links ≠ [] := by simpa using nonempty
      obtain ⟨base, rootFound, origin⟩ := path.ends
      have earlier : base.id < data.id := by
        rcases sound.root_earlier path found rootFound with ⟨isEmpty, _⟩ | below
        · exact absurd isEmpty chained
        · exact below
      have due : data.Due strict d.trace k := by
        rcases due with isRoot | due
        · exact absurd (path.unique (.root found isRoot)).2.symm chained
        · exact due
      have base_ : Asking strict d k data.id e (below.place root) fun id e' =>
          id = base.id ∧ root ∈ e'.reached :=
        Outcome.imp (serves.place root base e ready rootFound (.inl origin)
          (Nat.lt_of_lt_of_le earlier enough)) fun _ _ done => ⟨done.1.mono earlier, done.2⟩
      refine Asking.next ready base_ fun id e₁ steps₁ ready₁ reached => ?_
      obtain ⟨rfl, reached⟩ := reached
      refine Asking.next ready₁ (asking_type strict k data.id fun whole => whole.pointer found)
        fun type e₂ steps₂ ready₂ known => ?_
      refine Asking.next ready₂ (asking_links serves (Nat.zero_lt_of_lt earlier) enough ready₂
        (fun whole value member => path.live whole member) fun value member v live =>
          sound.index_due within path found due.ready due.available member live)
        fun indices e₃ steps₃ _ indexed => ?_
      have steps : Asks strict d k data.id e e₃ := (steps₁.trans steps₂).trans steps₃
      refine ⟨(steps.mono (Nat.le_succ _)).tail
        (.chain found due (Nat.lt_succ_self _) (steps.unreached found (Nat.le_refl _) free) path
          chained ((steps₂.grows.trans steps₃.grows).reached _ reached) rootFound
          (steps₃.grows.types _ _ known) indexed), rfl, List.mem_cons_self ..⟩

omit sound serves in
theorem outcome_event {j : Nat} {e : Emission} (before : j < k) (ready : e.Ready d k) :
    Outcome (event d below j) e (fun _ e' => e' = e) fun f _ => d.Allows f := by
  obtain ⟨action, recorded⟩ := Trace.action?_isSome (Nat.lt_of_lt_of_le before within)
  unfold event
  rw [recorded]
  dsimp only
  rw [outcome_bind, outcome_get, if_pos (ready.written j before)]
  rfl

end Emit

theorem serves_demand {strict : Prop} {d : Draft} {k : Nat} (sound : d.Sound strict)
    (within : k ≤ d.trace.size) (levels : Nat) : (demand d levels).Serves strict d k levels := by
  induction levels with
  | zero =>
    refine ⟨fun _ _ _ _ _ _ none => absurd none (Nat.not_lt_zero _),
      fun _ _ _ none => absurd none (Nat.lt_irrefl 0),
      fun _ _ _ _ none => absurd none (Nat.lt_irrefl 0),
      fun _ _ _ _ _ _ none => absurd none (Nat.not_lt_zero _)⟩
  | succ levels serves =>
    refine ⟨fun h n e ready found due enough =>
        Emit.asking_value sound within serves ready found due (Nat.le_of_lt_succ enough),
      fun h e dead _ => ?_, fun j e before ready _ => Emit.outcome_event within before ready,
      fun p data e ready found due enough =>
        Emit.asking_place sound within serves ready found due (Nat.le_of_lt_succ enough)⟩
    show Outcome (Emit.check (d.graph.node h) >>= _) e _ _
    rw [outcome_bind, outcome_emitCheck]
    refine ⟨fun n known => ?_, fun fault refused => (modest_node d.graph h).plain refused⟩
    rw [Graph.node_eq_ok.mp known] at dead
    contradiction

end ShaderIR
