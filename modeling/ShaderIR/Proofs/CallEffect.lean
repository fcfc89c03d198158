import Mathlib.Tactic.Set
import ShaderIR.Proofs.Effect
import ShaderIR.Proofs.Places

/-! Every call that builds has its effect or is refused. Checks come before changes in each of
them, so a refusal is always found while the draft is still untouched. -/
namespace ShaderIR

variable {good : Handle → Draft → Prop} {bad : Fault → Draft → Prop} {pointee ty : Ty}
  {kind : NodeKind} {operands : List Handle} {h value : Handle} {place : Place}

namespace Build

variable {d : Draft}

theorem outcome_pushNode (live : ∀ operand ∈ operands, (d.graph.find? operand).isSome) :
    Outcome (pushNode ty kind operands) d good bad ↔
      good d.graph.nextHandle (d.withNode ty kind operands) := by
  have inserted := @Graph.insert_ok d.graph
    { id := d.nextId, ty, kind, operands, position := d.trace.position } live
  simp [pushNode, freshId, inserted, Draft.withNode]

@[simp] theorem outcome_freshId {good : Id → Draft → Prop} :
    Outcome freshId d good bad ↔ good d.nextId { d with nextId := d.nextId + 1 } := Iff.rfl

@[simp] theorem outcome_pushVariable {storage : Storage} {writable : Bool}
    {good : Place → Draft → Prop} :
    Outcome (pushVariable storage pointee writable) d good bad ↔
      good d.places.next (d.withVariable storage pointee writable) := Iff.rfl

theorem outcome_retain {good : Unit → Draft → Prop} (live : (d.graph.find? value).isSome) :
    Outcome (retain value) d good bad ↔ good () (d.withRef value) := by
  obtain ⟨node, found⟩ := Option.isSome_iff_exists.mp live
  simp [retain, Graph.retain_ok found, Draft.withRef]

@[simp] theorem outcome_typeOf {good : Ty → Draft → Prop} :
    Outcome (typeOf value) d good bad ↔
      (∀ v, d.graph.find? value = some v → good v.ty d) ∧
        (d.graph.find? value = none → bad (.staleValue value.slot) d) := by
  cases found : d.graph.find? value with
  | none => simp [typeOf, Graph.typeOf_stale found]
  | some node => simp [typeOf, Graph.typeOf_ok found]

@[simp] theorem outcome_placeData {good : PlaceData → Draft → Prop} :
    Outcome (placeData place) d good bad ↔
      (∀ data, d.places.find? place = some data → good data d) ∧
        (d.places.find? place = none → bad (.unknownPlace place.index) d) := by
  cases found : d.places.find? place <;> simp [placeData, Places.get, found]

end Build

namespace Draft

variable {d : Draft}

theorem find?_withNode (valid : d.graph.Valid)
    (live : ∀ operand ∈ operands, (d.graph.find? operand).isSome) (h : Handle) :
    (d.withNode ty kind operands).graph.find? h =
      if h = d.graph.nextHandle then
        some { id := d.nextId, ty, kind, operands, position := d.trace.position
               serial := d.graph.nextSerial, refs := 0 }
      else (d.graph.find? h).map fun old => { old with refs := old.refs + operands.count h } :=
  valid.find?_added _ live h

theorem find?_withRef (value h : Handle) :
    (d.withRef value).graph.find? h =
      (d.graph.find? h).map fun node =>
        { node with refs := node.refs + if value = h then 1 else 0 } :=
  d.graph.find?_addRef value h

theorem nextHandle_live (valid : d.graph.Valid) :
    ((d.withNode ty kind []).graph.find? d.graph.nextHandle).isSome := by
  rw [find?_withNode valid (by simp), if_pos rfl]
  rfl

theorem withRef_live (live : (d.graph.find? h).isSome) :
    ((d.withRef value).graph.find? h).isSome := by
  rw [find?_withRef, Option.isSome_map]
  exact live

theorem withNode_live (valid : d.graph.Valid)
    (alive : ∀ operand ∈ operands, (d.graph.find? operand).isSome) (live : (d.graph.find? h).isSome)
    : ((d.withNode ty kind operands).graph.find? h).isSome := by
  rw [find?_withNode valid alive]
  split
  · rfl
  · rwa [Option.isSome_map]

/-- What a call gives: its effect when it succeeds, the same draft when it is refused. -/
abbrev Yields {α : Type} (x : Build α) (d : Draft) (c : Call) (reply : α → Reply) : Prop :=
  Outcome x d (fun a d' => Effect d c (reply a) d') fun _ d' => d' = d

theorem addInput_yields (valid : d.graph.Valid) (ty : Ty) :
    Yields (addInput ty) d (.addInput ty) .value := by
  simp only [Yields, addInput, outcome_bind, outcome_get, Build.outcome_pushVariable]
  refine (Build.outcome_pushNode (by simp)).mpr ?_
  refine (Build.outcome_retain (nextHandle_live (d := d.withVariable .input ty false) valid)).mpr ?_
  exact Effect.addInput ty

theorem input_yields (slot : Nat) : Yields (input slot) d (.input slot) .value := by
  simp only [Yields, input, outcome_bind, outcome_get]
  split
  · rename_i i found
    exact Effect.input found
  · rfl

theorem outcome_registerSampleLevel {post : Unit → Draft → Prop} {bad : Fault → Draft → Prop} :
    Outcome registerSampleLevel d post bad ↔ post () d.withSampleLevel := by
  simp only [registerSampleLevel, outcome_bind, outcome_get, withSampleLevel]
  split <;> simp [*]

theorem lookup_yields (source index : Handle) :
    Yields (lookup source index) d (.binary .lookup source index) .value := by
  simp only [Yields, lookup, outcome_bind, Build.outcome_typeOf, outcome_buildCheck, implies_true,
    and_true]
  intro s foundSource i foundIndex ty typed
  have live : ∀ operand ∈ [source, index], (d.graph.find? operand).isSome := by
    simp [foundSource, foundIndex]
  split
  · rename_i texture
    rw [outcome_bind, outcome_registerSampleLevel, Build.outcome_pushNode]
    · exact Effect.sample foundSource foundIndex typed texture
    · exact live
  · rename_i plain
    simp only [outcome_bind, outcome_get, outcome_buildCheck, Graph.node_eq_ok, foundIndex,
      implies_true, and_true]
    rintro _ ⟨⟩ _ checked
    refine (Build.outcome_pushNode live).mpr ?_
    exact Effect.extract foundSource foundIndex typed (by simpa using plain) checked

theorem binary_yields (op : BinaryOp) (lhs rhs : Handle) :
    Yields (binary op lhs rhs) d (.binary op lhs rhs) .value := by
  unfold Yields binary
  split
  · rename_i same
    subst same
    exact lookup_yields lhs rhs
  · rename_i other
    simp only [outcome_bind, Build.outcome_typeOf, outcome_buildCheck, implies_true, and_true]
    intro l foundLeft r foundRight lowering lowered
    refine (Build.outcome_pushNode (by simp [foundLeft, foundRight])).mpr ?_
    exact Effect.binary other foundLeft foundRight lowered

theorem negate_yields (value : Handle) : Yields (negate value) d (.negate value) .value := by
  simp only [Yields, negate, outcome_bind, Build.outcome_typeOf, outcome_buildCheck, implies_true,
    and_true]
  rintro v found ⟨operation, ty⟩ lowered
  refine (Build.outcome_pushNode (by simp [found])).mpr ?_
  exact Effect.negate found lowered

theorem select_yields (condition accept reject : Handle) :
    Yields (select condition accept reject) d (.select condition accept reject) .value := by
  simp only [Yields, select, outcome_bind, Build.outcome_typeOf, implies_true, and_true]
  intro c foundCondition a foundAccept r foundReject
  by_cases same : a.ty = r.ty
  · rw [if_neg (not_not.mpr same)]
    generalize wanted : (if a.ty.isVector = true then a.ty.toBool else Ty.bool) = expected
    split
    · simp
    · rename_i fits
      refine (Build.outcome_pushNode (by simp [foundCondition, foundAccept, foundReject])).mpr ?_
      refine Effect.select foundCondition foundAccept foundReject same ?_
      rw [wanted]
      by_contra neither
      exact fits (not_or.mp neither)
  · rw [if_pos same]
    simp

/-- The check that every part has the type of a part. -/
theorem outcome_parts {part : Ty} {parts : List Handle}
    (stale : ∀ value ∈ parts, d.graph.find? value = none → bad (.staleValue value.slot) d)
    (other : ∀ value ∈ parts, ∀ v, d.graph.find? value = some v → v.ty ≠ part →
      bad (.typeMismatch part v.ty) d) :
    Outcome (parts.forM fun value => do
        let found ← Build.typeOf value
        if found ≠ part then throw (.typeMismatch part found)) d
      (fun _ d' => d' = d ∧ ∀ value ∈ parts, ∃ v, d.graph.find? value = some v ∧ v.ty = part)
      bad := by
  induction parts with
  | nil => simp
  | cons value rest ih =>
    rw [List.forall_mem_cons] at stale other
    rw [List.forM_eq_forM, List.forM_cons, ← List.forM_eq_forM]
    simp only [outcome_bind, Build.outcome_typeOf]
    refine ⟨fun v found => ?_, stale.1⟩
    split
    · exact other.1 v found ‹_›
    · rename_i same
      refine (ih stale.2 other.2).imp fun _ d' kept => ⟨kept.1, ?_⟩
      exact List.forall_mem_cons.mpr ⟨⟨v, found, not_not.mp same⟩, kept.2⟩

theorem construct_yields (ty : Ty) (parts : List Handle) :
    Yields (construct ty parts) d (.construct ty parts) .value := by
  simp only [Yields, construct, outcome_bind, outcome_buildCheck, implies_true, and_true]
  rintro ⟨count, part⟩ shaped
  dsimp only
  split
  · simp
  · rename_i counted
    rw [outcome_bind]
    refine (outcome_parts (by simp) (by simp)).imp ?_
    rintro _ _ ⟨rfl, typed⟩
    refine (Build.outcome_pushNode fun value member => ?_).mpr ?_
    · obtain ⟨v, found, _⟩ := typed value member
      simp [found]
    · exact Effect.construct shaped (by simpa using counted) typed

theorem bind_outcome {set binding : Word} {kind : BindingKind}
    (mismatch : bad (.bindingMismatch set binding) d)
    (refused : ∀ fault, bindingStorage kind ty = .error fault → bad fault d) :
    Outcome (bind set binding kind ty) d (fun p d' => Bound d set binding kind ty p d') bad := by
  simp only [bind, outcome_bind, outcome_get]
  split
  · rename_i b found
    split
    · rename_i same
      exact Bound.again found same.1 same.2
    · exact mismatch
  · rename_i missing
    simp only [outcome_bind, outcome_buildCheck, Build.outcome_pushVariable, outcome_modify,
      outcome_pure]
    exact ⟨fun storage allowed => Bound.new missing allowed, refused⟩

theorem bind_yields (set binding : Word) (kind : BindingKind) (ty : Ty) :
    Outcome (bind set binding kind ty) d (fun p d' => Bound d set binding kind ty p d')
      fun _ d' => d' = d :=
  bind_outcome rfl fun _ _ => rfl

theorem load_outcome :
    Outcome (load place) d good bad ↔
      (∀ data, d.places.find? place = some data →
        good d.graph.nextHandle (d.withLoad place data.pointee)) ∧
      (d.places.find? place = none → bad (.unknownPlace place.index) d) := by
  simp only [load, pointee, outcome_bind, Build.outcome_placeData, outcome_pure, outcome_get]
  apply and_congr_left
  intro _
  apply forall_congr'
  intro data
  apply imp_congr_right
  intro _
  exact Build.outcome_pushNode (by simp)

theorem bound_known {set binding : Word} {kind : BindingKind} {p : Place} {d' : Draft}
    (bound : Bound d set binding kind ty p d') (unknown : d'.places.find? p = none) : d' = d := by
  cases bound with
  | again => rfl
  | new =>
    simp only [withBinding, withVariable, withPlace, Places.find?_push] at unknown
    simp at unknown

theorem texture_yields (set binding : Word) (dim : Dim) :
    Yields (texture set binding dim) d (.texture set binding dim) .value := by
  simp only [Yields, texture, outcome_bind]
  refine (bind_yields set binding .texture (.sampler dim)).imp fun p d' bound => ?_
  exact load_outcome.mpr ⟨fun data found => Effect.texture bound found, bound_known bound⟩

theorem localVariable_outcome {good : Place → Draft → Prop} :
    Outcome (localVariable ty) d good bad ↔ good d.places.next (d.withLocal ty) := Iff.rfl

theorem pushChain_outcome {parent : Place} {link : Link} {data : PlaceData}
    {good : Place → Draft → Prop} (found : d.places.find? parent = some data) :
    Outcome (pushChain parent link pointee) d good bad ↔
      good d.places.next (d.withPlace (d.chainData parent data link pointee)) := by
  simp [pushChain, found, withPlace, chainData]

theorem member_yields (place : Place) (index : Word) :
    Yields (member place index) d (.member place index) .place := by
  simp only [Yields, member, outcome_bind, Build.outcome_placeData, outcome_buildCheck,
    implies_true, and_true]
  intro data found ty reached
  exact (pushChain_outcome found).mpr (Effect.member found reached)

theorem index_yields (place : Place) (value : Handle) :
    Yields (index place value) d (.index place value) .place := by
  simp only [Yields, index, outcome_bind, Build.outcome_placeData, Build.outcome_typeOf,
    implies_true, and_true]
  intro data found v live
  split
  · simp
  · rename_i integer
    simp only [outcome_bind, outcome_buildCheck, implies_true, and_true]
    intro ty reached
    refine (Build.outcome_retain (by simp [live])).mpr ?_
    exact (pushChain_outcome (d := d.withRef value) found).mpr
      (Effect.index found live (by simpa using integer) reached)

theorem store_yields (place : Place) (value : Handle) :
    Yields (store place value) d (.store place value) fun _ => .done := by
  simp only [Yields, store, outcome_bind, Build.outcome_placeData, implies_true, and_true]
  intro data found
  split
  · simp
  · rename_i writable
    simp only [outcome_bind, Build.outcome_typeOf, implies_true, and_true]
    intro v live
    split
    · simp
    · rename_i same
      rw [outcome_bind]
      refine (Build.outcome_retain (by simp [live])).mpr ?_
      exact Effect.store found (by simpa using writable) live (by simpa using same)

theorem beginIf_yields (condition : Handle) :
    Yields (beginIf condition) d (.beginIf condition) fun _ => .done := by
  simp only [Yields, beginIf, outcome_bind, Build.outcome_typeOf, implies_true, and_true]
  intro c live
  split
  · simp
  · rename_i same
    rw [outcome_bind]
    refine (Build.outcome_retain (by simp [live])).mpr ?_
    exact Effect.beginIf live (by simpa using same)

theorem beginElse_yields : Yields beginElse d .beginElse fun _ => .done := by
  simp only [Yields, beginElse, outcome_bind, outcome_get]
  split
  · rename_i index outer opened
    split
    · rename_i s found
      split
      · simp
      · rename_i first
        exact Effect.beginElse opened found (by simpa using first)
    · rfl
  · rfl

theorem endIf_yields : Yields endIf d .endIf fun _ => .done := by
  simp only [Yields, endIf, outcome_bind, outcome_get]
  split
  · rename_i index outer opened
    exact Effect.endIf opened
  · rfl

theorem endFor_yields : Yields endFor d .endFor fun _ => .done := by
  simp only [Yields, endFor, outcome_bind, outcome_get]
  split
  · rename_i index outer opened
    exact Effect.endFor opened
  · rfl

theorem breakLoop_yields : Yields breakLoop d .breakLoop fun _ => .done := by
  simp only [Yields, breakLoop, outcome_bind, outcome_get]
  split
  · rename_i index inside
    exact Effect.breakLoop inside
  · rfl

theorem continueLoop_yields : Yields continueLoop d .continueLoop fun _ => .done := by
  simp only [Yields, continueLoop, outcome_bind, outcome_get]
  split
  · rename_i index inside
    exact Effect.continueLoop inside
  · rfl

theorem withLoop_counter (d : Draft) (low high : Int32) :
    (d.withLoop low high).places.find? (d.withBounds low high).places.next =
      some ((d.withBounds low high).variableData .function .sint true) := by
  simp only [withLoop, openLoop, withLocal, withVariable, withPlace, Places.find?_push, if_true]

theorem beginFor_outcome (valid : d.graph.Valid) {first last : Int32}
    (opened : ∀ low high, loopRange d.settings.strictLoopBounds first last = .ok (low, high) →
      good (d.withLoop low high).graph.nextHandle
        ((d.withLoop low high).withLoad (d.withBounds low high).places.next .sint))
    (refused : ∀ fault, loopRange d.settings.strictLoopBounds first last = .error fault →
      bad fault d) : Outcome (beginFor first last) d good bad := by
  simp only [beginFor, outcome_bind, outcome_get, outcome_buildCheck]
  refine ⟨?_, refused⟩
  rintro ⟨low, high⟩ ranged
  dsimp only
  set d₁ := d.withNode .sint (.constant (.int low)) [] with eq₁
  set d₂ := d₁.withNode .sint (.constant (.int high)) [] with eq₂
  set d₃ := d₂.withNode .sint (.constant (.int 1)) [] with eq₃
  have valid₁ : d₁.graph.Valid := valid.added _
  have valid₂ : d₂.graph.Valid := valid₁.added _
  have live₁ : (d₃.graph.find? d.graph.nextHandle).isSome :=
    withNode_live valid₂ (by simp) (withNode_live valid₁ (by simp) (nextHandle_live valid))
  have live₂ : (d₃.graph.find? d₁.graph.nextHandle).isSome :=
    withNode_live valid₂ (by simp) (nextHandle_live valid₁)
  have live₃ : (d₃.graph.find? d₂.graph.nextHandle).isSome := nextHandle_live valid₂
  refine (Build.outcome_pushNode (by simp)).mpr ?_
  refine (Build.outcome_pushNode (by simp)).mpr ?_
  refine (Build.outcome_pushNode (by simp)).mpr ?_
  refine (Build.outcome_retain live₁).mpr ?_
  refine (Build.outcome_retain (withRef_live live₂)).mpr ?_
  refine (Build.outcome_retain (withRef_live (withRef_live live₃))).mpr ?_
  refine localVariable_outcome.mpr ?_
  simp only [Build.outcome_freshId, outcome_modify, pushBoundary]
  have counter := d.withLoop_counter low high
  refine load_outcome.mpr ⟨fun data found => ?_, fun unknown => ?_⟩
  · obtain rfl := Option.mem_unique found counter
    exact opened low high ranged
  · exact absurd (unknown.symm.trans counter) (by simp)

theorem beginFor_yields (valid : d.graph.Valid) (first last : Int32) :
    Yields (beginFor first last) d (.beginFor first last) .value :=
  beginFor_outcome valid (fun _ _ ranged => Effect.beginFor ranged) fun _ _ => rfl

theorem output_yields (value : Handle) :
    Yields (output value) d (.output value) fun _ => .done := by
  simp only [Yields, output, outcome_bind, Build.outcome_typeOf, implies_true, and_true]
  intro v live
  refine (Build.outcome_retain (by simp [live])).mpr ?_
  exact Effect.output live

theorem builtin_yields (b : Builtin) (value : Handle) :
    Yields (builtin b value) d (.builtin b value) fun _ => .done := by
  simp only [Yields, builtin, outcome_bind, outcome_get]
  split
  · simp
  · rename_i vertex
    split
    · simp
    · rename_i first
      simp only [outcome_bind, Build.outcome_typeOf, implies_true, and_true]
      intro v live
      split
      · simp
      · rename_i accepted
        rw [outcome_bind]
        refine (Build.outcome_retain (by simp [live])).mpr ?_
        exact Effect.builtin (by simpa using vertex) (by simpa using first) live
          (by simpa using accepted)

theorem retain_yields (value : Handle) :
    Yields (Build.retain value) d (.retain value) fun _ => .done := by
  cases live : d.graph.find? value with
  | none => simp [Yields, Build.retain, Graph.retain_stale live]
  | some v =>
    refine (Build.outcome_retain (by simp [live])).mpr ?_
    exact Effect.retain live

end Draft

/-- A call that builds either has its effect or leaves the draft as it was. -/
theorem Call.run_yields {d : Draft} (valid : d.graph.Valid) {c : Call} (builds : c.builds = true) :
    Outcome c.run d (fun reply d' => Effect d c reply d') fun _ d' => d' = d := by
  cases c with
  | addInput ty => exact (outcome_map _ _).mpr (Draft.addInput_yields valid ty)
  | input slot => exact (outcome_map _ _).mpr (Draft.input_yields slot)
  | constant literal =>
    exact (outcome_map _ _).mpr ((Build.outcome_pushNode (by simp)).mpr (.constant literal))
  | binary op lhs rhs => exact (outcome_map _ _).mpr (Draft.binary_yields op lhs rhs)
  | negate value => exact (outcome_map _ _).mpr (Draft.negate_yields value)
  | select condition accept reject =>
    exact (outcome_map _ _).mpr (Draft.select_yields condition accept reject)
  | construct ty parts => exact (outcome_map _ _).mpr (Draft.construct_yields ty parts)
  | uniform set binding ty =>
    exact (outcome_map _ _).mpr
      ((Draft.bind_yields set binding .uniform ty).imp fun _ _ bound => .uniform bound)
  | storage set binding ty =>
    exact (outcome_map _ _).mpr
      ((Draft.bind_yields set binding .storage ty).imp fun _ _ bound => .storage bound)
  | texture set binding dim => exact (outcome_map _ _).mpr (Draft.texture_yields set binding dim)
  | localVariable ty =>
    exact (outcome_map _ _).mpr (Draft.localVariable_outcome.mpr (.localVariable ty))
  | member place index => exact (outcome_map _ _).mpr (Draft.member_yields place index)
  | index place value => exact (outcome_map _ _).mpr (Draft.index_yields place value)
  | pointee place =>
    simp only [Call.run, outcome_map, Draft.pointee, outcome_bind, Build.outcome_placeData,
      outcome_pure, implies_true, and_true]
    exact fun data found => .pointee found
  | load place =>
    exact (outcome_map _ _).mpr
      (Draft.load_outcome.mpr ⟨fun data found => .load found, fun _ => rfl⟩)
  | store place value => exact (outcome_map _ _).mpr (Draft.store_yields place value)
  | beginIf condition => exact (outcome_map _ _).mpr (Draft.beginIf_yields condition)
  | beginElse => exact (outcome_map _ _).mpr Draft.beginElse_yields
  | endIf => exact (outcome_map _ _).mpr Draft.endIf_yields
  | beginFor first last => exact (outcome_map _ _).mpr (Draft.beginFor_yields valid first last)
  | endFor => exact (outcome_map _ _).mpr Draft.endFor_yields
  | breakLoop => exact (outcome_map _ _).mpr Draft.breakLoop_yields
  | continueLoop => exact (outcome_map _ _).mpr Draft.continueLoop_yields
  | output value => exact (outcome_map _ _).mpr (Draft.output_yields value)
  | builtin b value => exact (outcome_map _ _).mpr (Draft.builtin_yields b value)
  | retain value => exact (outcome_map _ _).mpr (Draft.retain_yields value)
  | typeOf value =>
    simp only [Call.run, outcome_map, Build.outcome_typeOf, implies_true, and_true]
    exact fun v found => .typeOf found
  | release value => simp [Call.builds] at builds
  | compile => simp [Call.builds] at builds
  | reset => simp [Call.builds] at builds

end ShaderIR
