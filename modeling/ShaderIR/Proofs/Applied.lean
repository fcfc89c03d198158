import ShaderIR.Proofs.Fitting
import ShaderIR.Proofs.Handles

/-! Calls on operands of known types. A call whose operands have types that fit is never refused for
a type, and what it gives has the type that the operands decide. -/
namespace ShaderIR

variable {kind : BindingKind} {calls : List Call} {binding set : Word} {fault : Fault}
  {value : Handle}

def Fault.isTyping : Fault → Bool
  | .invalidOperands .. | .unsupportedOperation .. | .typeMismatch .. => true
  | _ => false

namespace Draft

def PointsTo (d : Draft) (p : Place) (ty : Ty) : Prop :=
  ∀ data, d.places.find? p = some data → data.pointee = ty

/-- A call on operands of fitting types: what it gives is as stated, and it is not refused for a
type. -/
abbrev Agrees {α : Type} (x : Build α) (d : Draft) (good : α → Draft → Prop) : Prop :=
  Outcome x d good fun fault _ => fault.isTyping = false

variable {d d' : Draft} {h : Handle} {p : Place} {ty : Ty}

/-! Handles keep their types as a draft changes. -/

theorem Typed.evolves (typed : d.Typed h ty) (evolves : d.Evolves d')
    (given : h.serial < d.graph.nextSerial) : d'.Typed h ty := by
  intro n' found
  obtain ⟨n, before, kept⟩ := evolves.graph.old h n' given found
  rw [kept.same]
  exact typed n before

theorem PointsTo.evolves (points : d.PointsTo p ty) (evolves : d.Evolves d')
    (given : p.index < d.places.next.index) : d'.PointsTo p ty := by
  intro data' found
  obtain ⟨data, before, same⟩ := evolves.places.old p data' given found
  rw [same]
  exact points data before

theorem typed_nextHandle (valid : d.graph.Valid) {kind : NodeKind} {operands : List Handle}
    (live : ∀ operand ∈ operands, (d.graph.find? operand).isSome) :
    (d.withNode ty kind operands).Typed d.graph.nextHandle ty := by
  intro n found
  rw [find?_withNode valid live, if_pos rfl] at found
  rw [← Option.some.inj found]

theorem Typed.withRef (typed : d.Typed h ty) (value : Handle) : (d.withRef value).Typed h ty := by
  intro n found
  rw [find?_withRef] at found
  obtain ⟨old, before, rfl⟩ := Option.map_eq_some_iff.mp found
  exact typed old before

theorem pointsTo_next (places : Places) (data : PlaceData) (same : d'.places = places.push data) :
    d'.PointsTo places.next data.pointee := by
  intro found there
  rw [same, Places.find?_push, if_pos rfl] at there
  rw [Option.some.inj there]

/-! What was answered is given out. -/

theorem answers_append (d : Draft) (calls more : List Call) :
    d.answers (calls ++ more) = d.answers calls ++ (d.after calls).answers more := by
  induction calls generalizing d with
  | nil => rfl
  | cons c rest ih => exact congrArg (c.answer d :: ·) (ih (c.leaves d))

theorem Issuing.serial_lt (issuing : d.Issuing) (answered : .ok (.value h) ∈ d.answers calls) :
    h.serial < (d.after calls).graph.nextSerial := by
  induction calls generalizing d with
  | nil => contradiction
  | cons c rest ih =>
    have next := (issuing.leaves c).1
    rcases List.mem_cons.mp answered with here | later
    · have effect := effect_of_answer issuing.valid here.symm (.inl ⟨h, rfl⟩)
      exact Nat.lt_of_lt_of_le (effect.gives_value issuing).1 (next.after rest).2.graph.nextSerial
    · exact ih next later

theorem Issuing.index_lt (issuing : d.Issuing) (answered : .ok (.place p) ∈ d.answers calls) :
    p.index < (d.after calls).places.next.index := by
  induction calls generalizing d with
  | nil => contradiction
  | cons c rest ih =>
    have next := (issuing.leaves c).1
    rcases List.mem_cons.mp answered with here | later
    · have effect := effect_of_answer issuing.valid here.symm (.inr ⟨p, rfl⟩)
      exact Nat.lt_of_lt_of_le (Places.index_lt_of_known (effect.gives_place issuing))
        (next.after rest).2.places.next
    · exact ih next later

/-! Bound resources have the types they are bound with. -/

def Bindings (d : Draft) : Prop := ∀ b ∈ d.bindings, d.PointsTo b.place b.ty

theorem Bindings.evolves (bindings : d.Bindings) (issuing : d.Issuing) (evolves : d.Evolves d')
    (each : ∀ b ∈ d'.bindings, b ∈ d.bindings ∨ d'.PointsTo b.place b.ty) : d'.Bindings := by
  intro b member
  rcases each b member with before | points
  · exact (bindings b before).evolves evolves (Places.index_lt_of_known (issuing.bindings b before))
  · exact points

theorem bound_pointsTo (bindings : d.Bindings) (bound : Bound d set binding kind ty p d') :
    d'.PointsTo p ty := by
  cases bound with
  | again found _ typed =>
    rw [← typed]
    exact bindings _ (Array.mem_of_find?_eq_some found)
  | @new storage =>
    exact pointsTo_next d.places (d.variableData storage ty (kind == .storage)) rfl

theorem bound_bindings (bound : Bound d set binding kind ty p d') :
    ∀ b ∈ d'.bindings, b ∈ d.bindings ∨ b.place = p ∧ b.ty = ty := by
  intro b member
  cases bound with
  | again => exact .inl member
  | new =>
    rcases Array.mem_push.mp member with before | rfl
    · exact .inl before
    · exact .inr ⟨rfl, rfl⟩

theorem Bindings.effect {c : Call} {reply : Reply} (bindings : d.Bindings) (issuing : d.Issuing)
    (effect : Effect d c reply d') : d'.Bindings := by
  have evolves := effect.evolves issuing.valid
  cases effect with
  | uniform bound | storage bound =>
    refine bindings.evolves issuing evolves fun b member => ?_
    refine (bound_bindings bound b member).imp_right fun same => ?_
    rw [same.1, same.2]
    exact bound_pointsTo bindings bound
  | texture bound =>
    refine bindings.evolves issuing evolves fun b member => ?_
    refine (bound_bindings bound b member).imp_right fun same => ?_
    rw [same.1, same.2]
    intro data found
    obtain ⟨old, before, rfl⟩ := Option.map_eq_some_iff.mp
      ((Places.find?_markAccessed ..).symm.trans found)
    exact bound_pointsTo bindings bound old before
  | _ => exact bindings.evolves issuing evolves fun b member => .inl member

theorem withSlots_bindings (d : Draft) (slots : List Ty) :
    (d.withSlots slots).bindings = d.bindings := by
  induction slots generalizing d with
  | nil => rfl
  | cons ty rest ih => exact ih (d.withInput ty)

theorem Bindings.leaves (bindings : d.Bindings) (issuing : d.Issuing) (c : Call) :
    (c.leaves d).Bindings := by
  by_cases restarts : c.restarts = true
  · obtain ⟨types, same⟩ := leaves_restart (d := d) restarts
    rw [same, restart_eq]
    intro b member
    rw [withSlots_bindings] at member
    simp [cleared] at member
  rcases Call.building_cases issuing.valid (Bool.not_eq_true _ ▸ restarts) with
    ⟨reply, _, effect⟩ | ⟨_, _, same⟩ | ⟨value, g, rfl, _, same⟩
  · exact bindings.effect issuing effect
  · rwa [same]
  · rw [same]
    exact bindings

structure Led (d : Draft) : Prop where
  issuing : d.Issuing
  bindings : d.Bindings

theorem Led.after (led : d.Led) (calls : List Call) : (d.after calls).Led := by
  refine after_keeps (P := Led) (fun c _ d led => ?_) led
  exact ⟨(led.issuing.leaves c).1, led.bindings.leaves led.issuing c⟩

theorem led_new (settings : Settings) : (new settings).Led :=
  ⟨issuing_begun settings [], by simp [Bindings, new]⟩

/-! Calls that build expressions. -/

section Expressions

variable {a b c : Handle}

theorem agrees_addInput (valid : d.graph.Valid) (ty : Ty) :
    Agrees (addInput ty) d fun h d' => d'.Typed h ty := by
  rw [Agrees, Outcome.of_ok (addInput_ok valid ty)]
  have fresh : ((d.withVariable .input ty false).withNode ty (.input d.inputs.size) []).Typed
      d.graph.nextHandle ty :=
    typed_nextHandle (d := d.withVariable .input ty false) valid (by simp)
  exact fresh.withRef _

theorem agrees_constant (valid : d.graph.Valid) (l : Literal) :
    Agrees (constant l) d fun h d' => d'.Typed h l.ty :=
  (Build.outcome_pushNode (by simp)).mpr (typed_nextHandle valid (by simp))

theorem agrees_binary {op : BinaryOp} {left right : Ty} {lowering : Lowering}
    (valid : d.graph.Valid) (other : op ≠ .lookup) (first : d.Typed a left)
    (second : d.Typed b right) (lowered : op.lower left right = .ok lowering) :
    Agrees (binary op a b) d fun h d' => d'.Typed h lowering.result := by
  rw [Agrees, binary, if_neg other]
  simp only [outcome_bind, Build.outcome_typeOf, outcome_buildCheck]
  refine ⟨fun l foundLeft => ⟨fun r foundRight => ?_, fun _ => rfl⟩, fun _ => rfl⟩
  rw [first l foundLeft, second r foundRight, lowered]
  constructor
  · rintro _ ⟨⟩
    have live : ∀ operand ∈ [a, b], (d.graph.find? operand).isSome := by
      simp [foundLeft, foundRight]
    exact (Build.outcome_pushNode live).mpr (typed_nextHandle valid live)
  · rintro _ ⟨⟩

theorem constantIndex_untyped {kind : NodeKind} (refused : kind.constantIndex = .error fault) :
    fault.isTyping = false := by
  unfold NodeKind.constantIndex at refused
  split at refused
  · split at refused
    · rw [← Except.error.inj refused]
      rfl
    · contradiction
  · contradiction
  · contradiction

/-- An index is refused for its value, unless it is a column at an index that is no constant. -/
theorem checkIndex_untyped {source index : Ty} {kind : NodeKind}
    (steady : source.isMatrix = true → kind.constantIndex ≠ .ok none)
    (refused : checkIndex source index kind = .error fault) : fault.isTyping = false := by
  unfold checkIndex at refused
  cases found : kind.constantIndex with
  | error fault' =>
    rw [found] at refused
    obtain rfl := Except.error.inj refused
    exact constantIndex_untyped found
  | ok value =>
    rw [found] at refused
    cases value with
    | some value =>
      generalize Option.getD _ _ = length at refused
      have refused : (if length ≤ value then .error (.indexOutOfBounds value length) else .ok () :
        Except Fault Unit) = .error fault := refused
      split at refused
      · rw [← Except.error.inj refused]
        rfl
      · contradiction
    | none =>
      by_cases matrix : source.isMatrix = true
      · exact absurd found (steady matrix)
      · have refused : (if source.isMatrix then BinaryOp.refuseUnsupported .lookup source index
          else .ok () : Except Fault Unit) = .error fault := refused
        rw [if_neg matrix] at refused
        contradiction

theorem agrees_lookup {source index : Ty} (valid : d.graph.Valid) (first : d.Typed a source)
    (second : d.Typed b index) (fits : BinaryOp.lookupResult source index = .ok ty)
    (steady : source.isMatrix = true → ∀ n, d.graph.find? b = some n →
      n.kind.constantIndex ≠ .ok none) :
    Agrees (binary .lookup a b) d fun h d' => d'.Typed h ty := by
  rw [Agrees, binary, if_pos rfl, lookup]
  simp only [outcome_bind, Build.outcome_typeOf, outcome_buildCheck]
  refine ⟨fun s foundSource => ⟨fun i foundIndex => ?_, fun _ => rfl⟩, fun _ => rfl⟩
  have live : ∀ operand ∈ [a, b], (d.graph.find? operand).isSome := by
    simp [foundSource, foundIndex]
  rw [first s foundSource, second i foundIndex, fits]
  refine ⟨?_, by rintro _ ⟨⟩⟩
  rintro _ ⟨⟩
  split
  · rw [outcome_bind, outcome_registerSampleLevel,
      Build.outcome_pushNode (d := d.withSampleLevel) live]
    exact typed_nextHandle (d := d.withSampleLevel) valid live
  · simp only [outcome_bind, outcome_get, outcome_buildCheck, Graph.node_eq_ok, foundIndex]
    refine ⟨?_, fun fault refused => ?_⟩
    · rintro _ ⟨⟩
      refine ⟨fun _ _ => ?_, fun fault refused => ?_⟩
      · exact (Build.outcome_pushNode live).mpr (typed_nextHandle valid live)
      · exact checkIndex_untyped (fun matrix => steady matrix i foundIndex) refused
    · rw [Graph.node_eq_ok.mpr foundIndex] at refused
      contradiction

theorem agrees_negate {operation : Operation} (valid : d.graph.Valid) (typed : d.Typed a ty)
    {result : Ty} (lowered : UnaryOp.lower .negate ty = .ok (operation, result)) :
    Agrees (negate a) d fun h d' => d'.Typed h result := by
  simp only [Agrees, negate, outcome_bind, Build.outcome_typeOf, outcome_buildCheck]
  refine ⟨fun v found => ?_, fun _ => rfl⟩
  rw [typed v found, lowered]
  constructor
  · rintro _ ⟨⟩
    have live : ∀ operand ∈ [a], (d.graph.find? operand).isSome := by simp [found]
    exact (Build.outcome_pushNode live).mpr (typed_nextHandle valid live)
  · rintro _ ⟨⟩

theorem agrees_select (valid : d.graph.Valid) (condition : d.Typed c .bool) (first : d.Typed a ty)
    (second : d.Typed b ty) : Agrees (select c a b) d fun h d' => d'.Typed h ty := by
  simp only [Agrees, select, outcome_bind, Build.outcome_typeOf]
  refine ⟨fun x foundCondition => ⟨fun y foundAccept => ⟨fun z foundReject => ?_, fun _ => rfl⟩,
    fun _ => rfl⟩, fun _ => rfl⟩
  rw [condition x foundCondition, first y foundAccept, second z foundReject]
  have live : ∀ operand ∈ [c, a, b], (d.graph.find? operand).isSome := by
    simp [foundCondition, foundAccept, foundReject]
  simp only [ne_eq, not_true_eq_false, if_false, false_and]
  exact (Build.outcome_pushNode live).mpr (typed_nextHandle valid live)

theorem agrees_construct {parts : List Handle} {count : Nat} {part : Ty} (valid : d.graph.Valid)
    (shaped : constructParts ty = .ok (count, part)) (typed : ∀ value ∈ parts, d.Typed value part) :
    Agrees (construct ty parts) d fun h d' => d'.Typed h ty := by
  simp only [Agrees, construct, outcome_bind, outcome_buildCheck, shaped]
  refine ⟨?_, by rintro _ ⟨⟩⟩
  rintro _ ⟨⟩
  dsimp only
  split
  · rfl
  · rw [outcome_bind]
    refine (outcome_parts (fun _ _ _ => rfl) fun value member v found differs =>
      absurd (typed value member v found) differs).imp ?_
    rintro _ d ⟨rfl, checked⟩
    have live : ∀ value ∈ parts, (d.graph.find? value).isSome := by
      intro value member
      obtain ⟨v, found, _⟩ := checked value member
      exact Option.isSome_of_eq_some found
    exact (Build.outcome_pushNode live).mpr (typed_nextHandle valid live)

end Expressions

/-! Calls on memory. -/

theorem bindingStorage_untyped (refused : bindingStorage kind ty = .error fault) :
    fault.isTyping = false := by
  unfold bindingStorage at refused
  split at refused
  case h_3 | h_4 =>
    rw [← Except.error.inj refused]
    rfl
  all_goals contradiction

theorem agrees_bind (set binding : Word) (kind : BindingKind) (ty : Ty) :
    Agrees (bind set binding kind ty) d fun p d' => Bound d set binding kind ty p d' :=
  bind_outcome rfl fun _ => bindingStorage_untyped

theorem typed_withLoad (valid : d.graph.Valid) (p : Place) (ty : Ty) :
    (d.withLoad p ty).Typed d.graph.nextHandle ty := by
  have fresh : (d.withNode ty (.load d.trace.size) []).Typed d.graph.nextHandle ty :=
    typed_nextHandle valid (by simp)
  exact fresh

theorem agrees_load (valid : d.graph.Valid) (points : d.PointsTo p ty) :
    Agrees (load p) d fun h d' => d'.Typed h ty := by
  refine load_outcome.mpr ⟨fun data found => ?_, fun _ => rfl⟩
  rw [points data found]
  exact typed_withLoad valid p ty

theorem agrees_texture (led : d.Led) (set binding : Word) (dim : Dim) :
    Agrees (texture set binding dim) d fun h d' => d'.Typed h (.sampler dim) := by
  rw [Agrees, texture, outcome_bind]
  refine (agrees_bind set binding .texture (.sampler dim)).imp fun p d' bound => ?_
  have valid : d'.graph.Valid := by cases bound <;> exact led.issuing.valid
  exact agrees_load valid (bound_pointsTo led.bindings bound)

theorem agrees_localVariable (ty : Ty) :
    Agrees (localVariable ty) d fun p d' => d'.PointsTo p ty :=
  localVariable_outcome.mpr (pointsTo_next d.places (d.variableData .function ty true) rfl)

theorem agrees_index {element : Ty} (points : d.PointsTo p ty) (typed : d.Typed value .sint)
    (reached : ty.element = .ok element) :
    Agrees (index p value) d fun q d' => d'.PointsTo q element := by
  simp only [Agrees, index, outcome_bind, Build.outcome_placeData, Build.outcome_typeOf]
  refine ⟨fun data found => ⟨fun v live => ?_, fun _ => rfl⟩, fun _ => rfl⟩
  rw [typed v live, points data found]
  simp only [Ty.sint, Ty.isInteger, Bool.not_true, Bool.false_eq_true, if_false, outcome_bind,
    outcome_buildCheck, reached]
  refine ⟨?_, by rintro _ ⟨⟩⟩
  rintro _ ⟨⟩
  refine (Build.outcome_retain (by simp [live])).mpr ?_
  refine (pushChain_outcome (d := d.withRef value) found).mpr ?_
  exact pointsTo_next d.places (d.chainData p data (.index value) element) rfl

theorem agrees_store (points : d.PointsTo p ty) (typed : d.Typed value ty) :
    Agrees (store p value) d fun _ _ => True := by
  simp only [Agrees, store, outcome_bind, Build.outcome_placeData]
  refine ⟨fun data found => ?_, fun _ => rfl⟩
  split
  · rfl
  · simp only [outcome_bind, Build.outcome_typeOf]
    refine ⟨fun v live => ?_, fun _ => rfl⟩
    rw [typed v live, points data found, if_neg (not_not.mpr rfl), outcome_bind]
    exact (Build.outcome_retain (by simp [live])).mpr trivial

theorem agrees_member (p : Place) (i : Word) : Agrees (member p i) d fun _ _ => True := by
  simp only [Agrees, member, outcome_bind, Build.outcome_placeData, outcome_buildCheck]
  refine ⟨fun data found => ⟨fun ty _ => (pushChain_outcome found).mpr trivial, ?_⟩, fun _ => rfl⟩
  intro fault refused
  unfold Ty.member at refused
  split at refused
  · split at refused
    · contradiction
    · rw [← Except.error.inj refused]
      rfl
  · rw [← Except.error.inj refused]
    rfl

/-! Calls that open and close blocks, and outputs. -/

theorem agrees_beginIf {condition : Handle} (typed : d.Typed condition .bool) :
    Agrees (beginIf condition) d fun _ _ => True := by
  simp only [Agrees, beginIf, outcome_bind, Build.outcome_typeOf]
  refine ⟨fun c live => ?_, fun _ => rfl⟩
  rw [typed c live, if_neg (not_not.mpr rfl), outcome_bind]
  exact (Build.outcome_retain (by simp [live])).mpr trivial

theorem agrees_beginElse : Agrees beginElse d fun _ _ => True := by
  simp only [Agrees, beginElse, outcome_bind, outcome_get]
  split
  · split
    · split
      · rfl
      · exact trivial
    · rfl
  · rfl

theorem agrees_endIf : Agrees endIf d fun _ _ => True := by
  simp only [Agrees, endIf, outcome_bind, outcome_get]
  split
  · exact trivial
  · rfl

theorem agrees_endFor : Agrees endFor d fun _ _ => True := by
  simp only [Agrees, endFor, outcome_bind, outcome_get]
  split
  · exact trivial
  · rfl

theorem agrees_breakLoop : Agrees breakLoop d fun _ _ => True := by
  simp only [Agrees, breakLoop, outcome_bind, outcome_get]
  split
  · exact trivial
  · rfl

theorem agrees_continueLoop : Agrees continueLoop d fun _ _ => True := by
  simp only [Agrees, continueLoop, outcome_bind, outcome_get]
  split
  · exact trivial
  · rfl

theorem agrees_beginFor (valid : d.graph.Valid) (first last : Int32) :
    Agrees (beginFor first last) d fun h d' => d'.Typed h .sint := by
  refine beginFor_outcome valid (fun low high _ => ?_) fun fault refused => ?_
  · exact typed_withLoad (valid_withLoop valid low high) _ _
  · unfold loopRange at refused
    split at refused
    · contradiction
    · split at refused
      · rw [← Except.error.inj refused]
        rfl
      · split at refused <;> contradiction

theorem agrees_output (value : Handle) : Agrees (output value) d fun _ _ => True := by
  simp only [Agrees, output, outcome_bind, Build.outcome_typeOf]
  refine ⟨fun v live => ?_, fun _ => rfl⟩
  exact (Build.outcome_retain (by simp [live])).mpr trivial

/-- A value of the wrong type for an output is the only thing about types that a call finds out. -/
theorem builtin_outcome (role : Builtin) (value : Handle) :
    Outcome (builtin role value) d (fun _ _ => True) fun fault _ =>
      fault.isTyping = false ∨
        ∃ v, d.graph.find? value = some v ∧ role.accepts v.ty = false ∧
          fault = .typeMismatch role.expected v.ty := by
  simp only [builtin, outcome_bind, outcome_get]
  split
  · exact .inl rfl
  · split
    · exact .inl rfl
    · simp only [outcome_bind, Build.outcome_typeOf]
      refine ⟨fun v live => ?_, fun _ => .inl rfl⟩
      split
      · rename_i refused
        exact .inr ⟨v, live, by simpa using refused, rfl⟩
      · rw [outcome_bind]
        exact (Build.outcome_retain (by simp [live])).mpr trivial

theorem agrees_builtin {role : Builtin} (typed : d.Typed value ty)
    (accepted : role.accepts ty = true) : Agrees (builtin role value) d fun _ _ => True := by
  refine (builtin_outcome role value).mono (fun _ _ _ => trivial) ?_
  rintro fault _ (untyped | ⟨v, live, refused, _⟩)
  · exact untyped
  · rw [typed v live, accepted] at refused
    contradiction

end Draft

end ShaderIR
