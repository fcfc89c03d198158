import ShaderIR.Proofs.Alike
import ShaderIR.Proofs.Session
import ShaderIR.Proofs.Shift

/-! Calls on a renamed draft. A call with renamed handles on a renamed draft has the renamed effect
and reply, or is refused with the renamed fault; type tables play no part in it. Only the calls that
switch and close blocks are refused for blocks that are not paired. -/
namespace ShaderIR

/-- A release is only ever refused for a handle. -/
theorem Graph.releaseAll_fault {steps : Nat} {work : List Handle} {g g' : Graph} {f : Fault}
    (refused : releaseAll steps work g = .error f g') (s : Shift) : s.Repeats f f := by
  induction steps generalizing work g with
  | zero =>
    cases work with
    | nil => simp [releaseAll] at refused
    | cons h rest =>
      simp only [releaseAll, EStateM.Result.error.injEq] at refused
      exact refused.1 ▸ ⟨rfl, rfl⟩
  | succ steps ih =>
    cases work with
    | nil => simp [releaseAll] at refused
    | cons h rest =>
      simp only [releaseAll] at refused
      split at refused
      · exact (EStateM.Result.error.inj refused).1 ▸ ⟨rfl, rfl⟩
      · split at refused
        · exact ih refused
        · exact ih refused

/-- A call that has a renamed twin, with the given renaming of what it gives and the given relation
between the faults. -/
abbrev Twins {α β : Type} (s : Shift) (types : TypeTable) (F : Fault → Fault → Prop) (value : α → β)
    (x : Build α) (y : Build β) : Prop :=
  Agree (fun d d' => d' = s.draft types d) F value x y

/-- A call with a renamed twin that is not refused for unpaired blocks. -/
abbrev Carries {α β : Type} (s : Shift) (types : TypeTable) (value : α → β) (x : Build α)
    (y : Build β) : Prop :=
  Twins s types s.Repeats value x y

namespace Build

variable {s : Shift} {types : TypeTable} {α β : Type}

theorem alike_check {x : Except Fault α} {y : Except Fault β} {value : α → β}
    (same : y = x.map value) (modest : Modest x) {d d' : Draft}
    {good : α → Draft → β → Draft → Prop} (moved : d' = s.draft types d)
    (onGood : ∀ a, good a d (value a) d') :
    Alike (check x) d (check y) d' good fun f d g d' => s.Repeats f g ∧ d' = s.draft types d := by
  subst same
  cases eq : x with
  | ok a => exact onGood a
  | error f => exact ⟨Shift.repeats_modest s (modest f eq), moved⟩

theorem carries_check {x : Except Fault α} (modest : Modest x) :
    Carries s types id (check x) (check x) := by
  rintro d _ rfl
  exact alike_check (show x = x.map id by cases x <;> rfl) modest rfl fun a => ⟨rfl, rfl⟩

theorem carries_freshId : Carries s types id freshId freshId := by
  rintro d _ rfl
  exact ⟨rfl, rfl⟩

theorem carries_pushNode (ty : Ty) (kind : NodeKind) (operands : List Handle) :
    Carries s types s.handle (pushNode ty kind operands)
      (pushNode ty kind (operands.map s.handle)) := by
  refine carries_freshId.andThen fun id => ?_
  refine agree_get ?_
  rintro d _ rfl
  have position : (s.draft types d).trace.position = d.trace.position := Shift.trace_position _
  rw [position]
  exact Alike.bind (alike_check (Shift.graph_insert d.graph _) (modest_insert _ _) rfl
    fun _ => ⟨rfl, rfl⟩)

theorem carries_pushVariable (storage : Storage) (pointee : Ty) (writable : Bool) :
    Carries s types s.place (pushVariable storage pointee writable)
      (pushVariable storage pointee writable) := by
  refine carries_freshId.andThen fun id => ?_
  refine agree_get ?_
  rintro d _ rfl
  refine ⟨Shift.table_next d.places, ?_⟩
  simp only [Shift.draft, ← Shift.table_push]
  rfl

theorem carries_retain (value : Handle) :
    Carries s types id (retain value) (retain (s.handle value)) := by
  refine agree_get ?_
  rintro d _ rfl
  exact Alike.bind (alike_check (Shift.graph_retain d.graph value) (modest_retain _ _) rfl
    fun _ => ⟨rfl, rfl⟩)

theorem carries_typeOf (value : Handle) :
    Carries s types id (typeOf value) (typeOf (s.handle value)) := by
  refine agree_get ?_
  rintro d _ rfl
  show Alike _ d (check ((s.graph d.graph).typeOf (s.handle value))) _ _ _
  rw [Shift.graph_typeOf]
  exact carries_check (modest_typeOf d.graph value) d _ rfl

theorem carries_placeData (p : Place) :
    Carries s types s.data (placeData p) (placeData (s.place p)) := by
  refine agree_get ?_
  rintro d _ rfl
  show Alike _ d (check ((s.table d.places).get (s.place p))) _ _ _
  rw [Shift.table_get]
  cases found : d.places.get p with
  | error f => exact ⟨⟨rfl, Places.get_paired found⟩, rfl⟩
  | ok data => exact ⟨rfl, rfl⟩

end Build

namespace Draft

variable {s : Shift} {types : TypeTable}

theorem carries_addInput (ty : Ty) :
    Carries s types s.handle (addInput ty) (addInput ty) := by
  refine agree_get ?_
  rintro d _ rfl
  rw [show (s.draft types d).inputs.size = d.inputs.size from Array.size_map ..]
  refine (Build.carries_pushVariable .input ty false).bind (fun p => ?_) d _ rfl
  refine (Build.carries_pushNode ty (.input d.inputs.size) []).bind fun value => ?_
  refine (Build.carries_retain value).andThen fun _ => ?_
  refine Agree.andThen (agree_modify ?_) fun _ => agree_pure s.handle value
  rintro d _ rfl
  simp only [Shift.draft, Array.map_push]
  rfl

theorem carries_input (slot : Nat) : Carries s types s.handle (input slot) (input slot) := by
  refine agree_get ?_
  rintro d _ rfl
  rw [show (s.draft types d).inputs[slot]? = d.inputs[slot]?.map s.input from Array.getElem?_map ..]
  cases d.inputs[slot]? with
  | none => exact ⟨⟨rfl, rfl⟩, rfl⟩
  | some i => exact ⟨rfl, rfl⟩

theorem carries_constant (literal : Literal) :
    Carries s types s.handle (constant literal) (constant literal) :=
  Build.carries_pushNode literal.ty (.constant literal) []

theorem carries_registerSampleLevel :
    Carries s types id registerSampleLevel registerSampleLevel := by
  refine agree_get ?_
  rintro d _ rfl
  show Alike _ d (if (d.constants.find? .floatZero).isNone then _ else _) _ _ _
  split
  · refine Build.carries_freshId.andThen (fun id => agree_modify ?_) d _ rfl
    rintro d _ rfl
    rfl
  · exact ⟨rfl, rfl⟩

theorem carries_lookup (source index : Handle) :
    Carries s types s.handle (lookup source index)
      (lookup (s.handle source) (s.handle index)) := by
  refine (Build.carries_typeOf source).andThen fun sourceTy => ?_
  refine (Build.carries_typeOf index).andThen fun indexTy => ?_
  refine (Build.carries_check (modest_lookupResult sourceTy indexTy)).andThen fun ty => ?_
  have last : Carries s types s.handle (Build.pushNode ty (.binary .lookup) [source, index])
      (Build.pushNode ty (.binary .lookup) [s.handle source, s.handle index]) :=
    Build.carries_pushNode ty (.binary .lookup) [source, index]
  dsimp only
  split
  · exact carries_registerSampleLevel.andThen fun _ => last
  · refine agree_get ?_
    rintro d _ rfl
    refine Alike.bind (Build.alike_check (Shift.graph_node d.graph index) (modest_node _ _) rfl
      fun n => ?_)
    exact (Build.carries_check (modest_checkIndex sourceTy indexTy n.kind)).andThen
      (fun _ => last) d _ rfl

theorem carries_binary (op : BinaryOp) (lhs rhs : Handle) :
    Carries s types s.handle (binary op lhs rhs) (binary op (s.handle lhs) (s.handle rhs)) := by
  unfold binary
  split
  · exact carries_lookup lhs rhs
  · refine (Build.carries_typeOf lhs).andThen fun lhsTy => ?_
    refine (Build.carries_typeOf rhs).andThen fun rhsTy => ?_
    refine (Build.carries_check (modest_lower op lhsTy rhsTy)).andThen fun lowering => ?_
    exact Build.carries_pushNode lowering.result (.binary op) [lhs, rhs]

theorem carries_negate (value : Handle) :
    Carries s types s.handle (negate value) (negate (s.handle value)) := by
  refine (Build.carries_typeOf value).andThen fun ty => ?_
  refine (Build.carries_check (modest_negate ty)).andThen fun lowered => ?_
  exact Build.carries_pushNode lowered.2 (.unary .negate) [value]

theorem carries_select (condition accept reject : Handle) :
    Carries s types s.handle (select condition accept reject)
      (select (s.handle condition) (s.handle accept) (s.handle reject)) := by
  refine (Build.carries_typeOf condition).andThen fun conditionTy => ?_
  refine (Build.carries_typeOf accept).andThen fun ty => ?_
  refine (Build.carries_typeOf reject).andThen fun rejectTy => ?_
  dsimp only
  split
  · exact agree_throw s.handle ⟨rfl, rfl⟩
  · generalize (if ty.isVector = true then ty.toBool else Ty.bool) = expected
    split
    · exact agree_throw s.handle ⟨rfl, rfl⟩
    · exact Build.carries_pushNode ty .select [condition, accept, reject]

theorem carries_construct (ty : Ty) (parts : List Handle) :
    Carries s types s.handle (construct ty parts) (construct ty (parts.map s.handle)) := by
  refine (Build.carries_check (modest_constructParts ty)).andThen fun shape => ?_
  dsimp only
  rw [List.length_map]
  split
  · exact agree_throw s.handle ⟨rfl, rfl⟩
  · refine Agree.andThen (Agree.forM fun value _ => ?_) fun _ =>
      Build.carries_pushNode ty .construct parts
    refine (Build.carries_typeOf value).andThen fun found => ?_
    split
    · exact agree_throw id ⟨rfl, rfl⟩
    · exact agree_pure id PUnit.unit

theorem carries_bind (set binding : Word) (kind : BindingKind) (ty : Ty) :
    Carries s types s.place (bind set binding kind ty) (bind set binding kind ty) := by
  refine agree_get ?_
  rintro d _ rfl
  have bound : ((s.draft types d).bindings.find? fun b => b.set == set && b.binding == binding) =
      (d.bindings.find? fun b => b.set == set && b.binding == binding).map s.binding :=
    Array.find?_map ..
  dsimp only
  rw [bound]
  cases d.bindings.find? fun b => b.set == set && b.binding == binding with
  | some b =>
    simp only [Option.map_some, Shift.binding]
    split
    · exact ⟨rfl, rfl⟩
    · exact ⟨⟨rfl, rfl⟩, rfl⟩
  | none =>
    refine (Build.carries_check (modest_bindingStorage kind ty)).andThen
      (fun storage => ?_) d _ rfl
    refine (Build.carries_pushVariable storage ty (kind == .storage)).bind fun p => ?_
    refine Agree.andThen (agree_modify ?_) fun _ => agree_pure s.place p
    rintro d _ rfl
    simp only [Shift.draft, Array.map_push]
    rfl

theorem carries_localVariable (ty : Ty) :
    Carries s types s.place (localVariable ty) (localVariable ty) := by
  refine (Build.carries_pushVariable .function ty true).bind fun p => ?_
  refine Agree.andThen (agree_modify ?_) fun _ => agree_pure s.place p
  rintro d _ rfl
  simp only [Shift.draft, Array.map_push]

theorem carries_pushChain (parent : Place) (link : Link) (pointee : Ty) :
    Carries s types s.place (pushChain parent link pointee)
      (pushChain (s.place parent) (s.link link) pointee) := by
  refine Build.carries_freshId.andThen fun id => ?_
  refine (Build.carries_placeData parent).bind fun data => ?_
  refine agree_get ?_
  rintro d _ rfl
  refine ⟨Shift.table_next d.places, ?_⟩
  rw [show (s.draft types d).trace.position = d.trace.position from Shift.trace_position _]
  simp only [Shift.draft, ← Shift.table_push]
  rfl

theorem carries_member (p : Place) (index : Word) :
    Carries s types s.place (member p index) (member (s.place p) index) := by
  refine (Build.carries_placeData p).bind fun data => ?_
  refine (Build.carries_check (modest_member data.pointee index)).andThen fun ty => ?_
  exact carries_pushChain p (.member index) ty

theorem carries_index (p : Place) (value : Handle) :
    Carries s types s.place (index p value) (index (s.place p) (s.handle value)) := by
  refine (Build.carries_placeData p).bind fun data => ?_
  refine (Build.carries_typeOf value).andThen fun indexTy => ?_
  dsimp only
  split
  · exact agree_throw s.place ⟨rfl, rfl⟩
  · refine (Build.carries_check (modest_element data.pointee)).andThen fun ty => ?_
    refine (Build.carries_retain value).andThen fun _ => ?_
    exact carries_pushChain p (.index value) ty

theorem carries_pointee (p : Place) : Carries s types id (pointee p) (pointee (s.place p)) :=
  (Build.carries_placeData p).bind fun data => agree_pure id data.pointee

theorem carries_load (p : Place) : Carries s types s.handle (load p) (load (s.place p)) := by
  refine (carries_pointee p).andThen fun ty => ?_
  refine agree_get ?_
  rintro d _ rfl
  rw [show (s.draft types d).trace.size = d.trace.size from Shift.trace_size _]
  refine (Build.carries_pushNode ty (.load d.trace.size) []).bind (fun value => ?_) d _ rfl
  refine Agree.andThen (agree_modify ?_) fun _ => agree_pure s.handle value
  rintro d _ rfl
  simp only [Shift.draft, Shift.table_markAccessed, Shift.trace_pushLoad]

theorem carries_store (p : Place) (value : Handle) :
    Carries s types id (store p value) (store (s.place p) (s.handle value)) := by
  refine (Build.carries_placeData p).bind fun data => ?_
  show Carries s types id _ (if !data.writable then _ else _)
  split
  · exact agree_throw id ⟨rfl, rfl⟩
  · refine (Build.carries_typeOf value).andThen fun ty => ?_
    show Carries s types id _ (if ty ≠ data.pointee then _ else _)
    split
    · exact agree_throw id ⟨rfl, rfl⟩
    · refine (Build.carries_retain value).andThen fun _ => agree_modify ?_
      rintro d _ rfl
      simp only [Shift.draft, Shift.table_markAccessed, Shift.trace_pushStore]

theorem carries_texture (set binding : Word) (dim : Dim) :
    Carries s types s.handle (texture set binding dim) (texture set binding dim) :=
  (carries_bind set binding .texture (.sampler dim)).bind carries_load

theorem carries_pushBoundary (b : Boundary) :
    Carries s types id (pushBoundary b) (pushBoundary b) := by
  refine agree_modify ?_
  rintro d _ rfl
  simp only [Shift.draft, Shift.trace_pushBoundary]

theorem carries_beginIf (condition : Handle) :
    Carries s types id (beginIf condition) (beginIf (s.handle condition)) := by
  refine (Build.carries_typeOf condition).andThen fun ty => ?_
  dsimp only
  split
  · exact agree_throw id ⟨rfl, rfl⟩
  · refine (Build.carries_retain condition).andThen fun _ => ?_
    refine Build.carries_freshId.andThen fun thenLabel => ?_
    refine Build.carries_freshId.andThen fun elseLabel => ?_
    refine Build.carries_freshId.andThen fun mergeLabel => ?_
    refine agree_get ?_
    rintro d _ rfl
    rw [show (s.draft types d).selections.size = d.selections.size from Array.size_map ..]
    refine Agree.andThen (agree_modify ?_) (fun _ => carries_pushBoundary _) d _ rfl
    rintro d _ rfl
    simp only [Shift.draft, Array.map_push]
    rfl

theorem twins_beginElse :
    Twins s types (fun f g => g = s.fault f) id beginElse beginElse := by
  refine agree_get ?_
  rintro d _ rfl
  rw [show (s.draft types d).scopes = d.scopes from rfl]
  rcases d.scopes with _ | ⟨index | index, outer⟩
  · exact ⟨rfl, rfl⟩
  · dsimp only
    rw [show (s.draft types d).selections[index]? = d.selections[index]?.map s.selection from
      Array.getElem?_map ..]
    cases d.selections[index]? with
    | none => exact ⟨rfl, rfl⟩
    | some x =>
      dsimp only [Option.map_some, Shift.selection]
      split
      · exact ⟨rfl, rfl⟩
      · refine ⟨rfl, ?_⟩
        simp only [Shift.draft, Shift.trace_pushBoundary, Array.map_setIfInBounds]
        rfl
  · exact ⟨rfl, rfl⟩

theorem twins_end : Twins s types (fun f g => g = s.fault f) id endIf endIf ∧
    Twins s types (fun f g => g = s.fault f) id endFor endFor := by
  constructor
  all_goals
    refine agree_get ?_
    rintro d _ rfl
    rw [show (s.draft types d).scopes = d.scopes from rfl]
    split
    · refine ⟨rfl, ?_⟩
      simp only [Shift.draft, Shift.trace_pushBoundary]
    · exact ⟨rfl, rfl⟩

theorem carries_jump :
    Carries s types id breakLoop breakLoop ∧ Carries s types id continueLoop continueLoop := by
  constructor
  all_goals
    refine agree_get ?_
    rintro d _ rfl
    rw [show (s.draft types d).scopes = d.scopes from rfl]
    split
    · exact Build.carries_freshId.andThen (fun label => carries_pushBoundary _) d _ rfl
    · exact ⟨⟨rfl, rfl⟩, rfl⟩

theorem carries_beginFor (first last : Int32) :
    Carries s types s.handle (beginFor first last) (beginFor first last) := by
  refine agree_get ?_
  rintro d _ rfl
  refine (Build.carries_check (modest_loopRange d.settings.strictLoopBounds first last)).andThen
    (fun range => ?_) d _ rfl
  refine (carries_constant (.int range.1)).bind fun first => ?_
  refine (carries_constant (.int range.2)).bind fun last => ?_
  refine (carries_constant (.int 1)).bind fun step => ?_
  refine (Build.carries_retain first).andThen fun _ => ?_
  refine (Build.carries_retain last).andThen fun _ => ?_
  refine (Build.carries_retain step).andThen fun _ => ?_
  refine (carries_localVariable .sint).bind fun counter => ?_
  refine Build.carries_freshId.andThen fun header => ?_
  refine Build.carries_freshId.andThen fun check => ?_
  refine Build.carries_freshId.andThen fun body => ?_
  refine Build.carries_freshId.andThen fun increment => ?_
  refine Build.carries_freshId.andThen fun post => ?_
  refine agree_get ?_
  rintro d _ rfl
  rw [show (s.draft types d).loops.size = d.loops.size from Array.size_map ..]
  refine Agree.andThen (agree_modify ?_) (fun _ => ?_) d _ rfl
  · rintro d _ rfl
    simp only [Shift.draft, Array.map_push]
    rfl
  · exact (carries_pushBoundary _).andThen fun _ => carries_load counter

theorem carries_output (value : Handle) :
    Carries s types id (output value) (output (s.handle value)) := by
  refine (Build.carries_typeOf value).andThen fun ty => ?_
  refine (Build.carries_retain value).andThen fun _ => ?_
  refine (Build.carries_pushVariable .output ty true).bind fun p => agree_modify ?_
  rintro d _ rfl
  simp only [Shift.draft, Array.map_push]
  rfl

theorem carries_builtin (b : Builtin) (value : Handle) :
    Carries s types id (builtin b value) (builtin b (s.handle value)) := by
  refine agree_get ?_
  rintro d _ rfl
  have used : ((s.draft types d).builtins.any fun slot => slot.builtin == b) =
      d.builtins.any fun slot => slot.builtin == b := Array.any_map ..
  rw [used, show (s.draft types d).settings = d.settings from rfl]
  dsimp only
  split
  · exact ⟨⟨rfl, rfl⟩, rfl⟩
  · split
    · exact ⟨⟨rfl, rfl⟩, rfl⟩
    · refine (Build.carries_typeOf value).andThen (fun ty => ?_) d _ rfl
      split
      · exact agree_throw id ⟨rfl, rfl⟩
      · refine (Build.carries_retain value).andThen fun _ => ?_
        refine (Build.carries_pushVariable .output ty true).bind fun p => agree_modify ?_
        rintro d _ rfl
        simp only [Shift.draft, Array.map_push]
        rfl

theorem carries_release (value : Handle) :
    Carries s types id (release value) (release (s.handle value)) := by
  rintro d _ rfl
  have released : (s.draft types d).graph.release (s.handle value) =
      Shift.released (d.graph.release value) := Shift.graph_release d.graph value
  unfold Alike release
  rw [released]
  cases eq : d.graph.release value with
  | ok _ g => exact ⟨rfl, rfl⟩
  | error f g => exact ⟨Graph.releaseAll_fault eq s, rfl⟩

end Draft

namespace Call

def opens : Call → Bool
  | .beginIf _ | .beginFor _ _ => true
  | _ => false

def closes : Call → Bool
  | .beginElse | .endIf | .endFor => true
  | _ => false

variable {s : Shift} {types : TypeTable} {c : Call}

open Draft Build in
/-- A call that builds, with its handles renamed, does the renamed thing on a renamed draft. -/
theorem carries_run (building : c.restarts = false) (other : c.closes = false) :
    Carries s types s.reply c.run (s.call c).run := by
  cases c with
  | addInput ty => exact (carries_addInput ty).map fun _ => rfl
  | input slot => exact (carries_input slot).map fun _ => rfl
  | constant literal => exact (carries_constant literal).map fun _ => rfl
  | binary op lhs rhs => exact (carries_binary op lhs rhs).map fun _ => rfl
  | negate value => exact (carries_negate value).map fun _ => rfl
  | select condition accept reject =>
    exact (carries_select condition accept reject).map fun _ => rfl
  | construct ty parts => exact (carries_construct ty parts).map fun _ => rfl
  | uniform set binding ty => exact (carries_bind set binding .uniform ty).map fun _ => rfl
  | storage set binding ty => exact (carries_bind set binding .storage ty).map fun _ => rfl
  | texture set binding dim => exact (carries_texture set binding dim).map fun _ => rfl
  | localVariable ty => exact (carries_localVariable ty).map fun _ => rfl
  | member p index => exact (carries_member p index).map fun _ => rfl
  | index p value => exact (carries_index p value).map fun _ => rfl
  | pointee p => exact (carries_pointee p).map fun _ => rfl
  | load p => exact (carries_load p).map fun _ => rfl
  | store p value => exact (carries_store p value).map fun _ => rfl
  | beginIf condition => exact (carries_beginIf condition).map fun _ => rfl
  | beginFor first last => exact (carries_beginFor first last).map fun _ => rfl
  | breakLoop => exact carries_jump.1.map fun _ => rfl
  | continueLoop => exact carries_jump.2.map fun _ => rfl
  | output value => exact (carries_output value).map fun _ => rfl
  | builtin b value => exact (carries_builtin b value).map fun _ => rfl
  | retain value => exact (carries_retain value).map fun _ => rfl
  | release value => exact (carries_release value).map fun _ => rfl
  | typeOf value => exact (carries_typeOf value).map fun _ => rfl
  | beginElse | endIf | endFor | compile | reset => contradiction

theorem twins_run (building : c.restarts = false) :
    Twins s types (fun f g => g = s.fault f) s.reply c.run (s.call c).run := by
  by_cases other : c.closes = false
  · exact (carries_run building other).mono fun _ _ => And.left
  · cases c with
    | beginElse => exact Draft.twins_beginElse.map fun _ => rfl
    | endIf => exact Draft.twins_end.1.map fun _ => rfl
    | endFor => exact Draft.twins_end.2.map fun _ => rfl
    | _ => exact absurd rfl other

end Call

end ShaderIR
