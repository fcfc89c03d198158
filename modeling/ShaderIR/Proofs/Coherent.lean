import ShaderIR.Proofs.Pacing

/-! The types in a draft fit together. Whatever is loaded, stored or written has the type of the
location it goes through, conditions and bounds have the types that blocks need, and a node that is
computed has a type that follows from its operands. What was released is not spoken of. -/
namespace ShaderIR

variable {h : Handle} {ty : Ty} {p : Place} {shape : Shape} {n : Node} {data : PlaceData}
  {action : Action}

namespace Draft

section Facts

variable (d : Draft)

structure Carries (h : Handle) (ty : Ty) : Prop where
  given : h.serial < d.graph.nextSerial
  typed : d.Typed h ty

def Fills (h : Handle) (p : Place) : Prop :=
  ∃ data, d.places.find? p = some data ∧ d.Carries h data.pointee

def HadShape (h : Handle) (shape : Shape) : Prop :=
  h.serial < d.graph.nextSerial ∧
    ∀ n, d.graph.find? h = some n → n.ty = shape.ty ∧ n.kind = shape.kind

def NodeCoherent (n : Node) : Prop :=
  n.kind.isComputed = true →
    ∃ shapes, List.Forall₂ d.HadShape n.operands shapes ∧ n.kind.Fits n.ty shapes

/-- A part of a location lies in the same storage and has the type that its link selects. -/
def PlaceCoherent (data : PlaceData) : Prop :=
  ∀ parent link, data.origin = .chain parent link → ∃ above,
    d.places.find? parent = some above ∧ data.storage = above.storage ∧
      d.Selects above.pointee data.pointee link

def ActionCoherent : Action → Prop
  | .load p h _ | .store p h => d.Fills h p
  | .boundary _ => True

structure LoopCoherent (l : CountedLoop) : Prop where
  bounds : ∀ h ∈ [l.first, l.last, l.step], d.Carries h .sint
  counter : ∃ data, d.places.find? l.counter = some data ∧ data.pointee = .sint

structure ListCoherent : Prop where
  conditions : ∀ (index : Nat) s, d.selections[index]? = some s → d.Carries s.condition .bool
  loops : ∀ (index : Nat) l, d.loops[index]? = some l → d.LoopCoherent l
  inputs : ∀ i ∈ d.inputs, d.Fills i.value i.place
  outputs : ∀ o ∈ d.outputs, d.Fills o.value o.place
  builtins : ∀ o ∈ d.builtins, d.Fills o.value o.place

structure Coherent : Prop where
  nodes : ∀ h n, d.graph.find? h = some n → d.NodeCoherent n
  places : ∀ p data, d.places.find? p = some data → d.PlaceCoherent data
  actions : ∀ event action, d.trace.action? event = some action → d.ActionCoherent action
  lists : d.ListCoherent

end Facts

section Mono

variable {strict : Prop} {d d' : Draft} (extended : d.Extends d')

include extended

theorem Extends.typed (given : h.serial < d.graph.nextSerial) (typed : d.Typed h ty) :
    d'.Typed h ty := by
  intro n' found
  obtain ⟨n, refs, before, rfl, _⟩ := extended.old given found
  exact typed n before

theorem Extends.carries (carries : d.Carries h ty) : d'.Carries h ty :=
  ⟨Nat.lt_of_lt_of_le carries.given extended.graph.nextSerial,
    extended.typed carries.given carries.typed⟩

theorem Extends.fills (fills : d.Fills h p) : d'.Fills h p := by
  obtain ⟨data, found, carries⟩ := fills
  obtain ⟨data', found', kept⟩ := extended.places p data found
  refine ⟨data', found', ?_⟩
  rw [kept.same]
  exact extended.carries carries

theorem Extends.hadShape (had : d.HadShape h shape) : d'.HadShape h shape := by
  refine ⟨Nat.lt_of_lt_of_le had.1 extended.graph.nextSerial, fun n' found => ?_⟩
  obtain ⟨n, refs, before, rfl, _⟩ := extended.old had.1 found
  exact had.2 n before

theorem Extends.nodeCoherent (coherent : d.NodeCoherent n) (refs : Nat) :
    d'.NodeCoherent { n with refs } := by
  intro computed
  obtain ⟨shapes, each, fits⟩ := coherent computed
  exact ⟨shapes, each.imp fun _ _ had => extended.hadShape had, fits⟩

theorem Extends.selects {pointee : Ty} {link : Link}
    (given : ∀ value, link = .index value → value.serial < d.graph.nextSerial)
    (selects : d.Selects pointee ty link) : d'.Selects pointee ty link := by
  cases link with
  | member index => exact selects
  | index value =>
    refine ⟨selects.1, fun v' found => ?_⟩
    obtain ⟨v, refs, before, rfl, _⟩ := extended.old (given value rfl) found
    exact selects.2 v before

theorem Extends.placeCoherent {data' : PlaceData} (sound : d.PlaceSound strict p data)
    (coherent : d.PlaceCoherent data) (kept : data.Keeps data') : d'.PlaceCoherent data' := by
  rw [kept.same]
  intro parent link origin
  obtain ⟨above, found, storage, selects⟩ := coherent parent link origin
  obtain ⟨above', found', same⟩ := extended.places parent above found
  have given : ∀ value, link = .index value → value.serial < d.graph.nextSerial := by
    rintro value rfl
    exact (sound.index parent value origin).given
  refine ⟨above', found', ?_, ?_⟩ <;> rw [same.same]
  · exact storage
  · exact extended.selects given selects

theorem Extends.actionCoherent (coherent : d.ActionCoherent action) : d'.ActionCoherent action := by
  cases action with
  | load | store => exact extended.fills coherent
  | boundary => trivial

theorem Extends.loopCoherent {l : CountedLoop} (coherent : d.LoopCoherent l) : d'.LoopCoherent l := by
  refine ⟨fun h member => extended.carries (coherent.bounds h member), ?_⟩
  obtain ⟨data, found, integer⟩ := coherent.counter
  obtain ⟨data', found', kept⟩ := extended.places _ data found
  exact ⟨data', found', by rw [kept.same]; exact integer⟩

end Mono

section Step

variable {strict : Prop} {d d' : Draft}

theorem HasShape.had (valid : d.graph.Valid) (has : d.HasShape h shape) : d.HadShape h shape := by
  obtain ⟨n, found, ty, kind⟩ := has
  refine ⟨valid.serial_lt found, fun n' found' => ?_⟩
  obtain rfl := Option.mem_unique found found'
  exact ⟨ty, kind⟩

theorem Gives.carries {kind : NodeKind} (gives : Gives d' h ty kind) : d'.Carries h ty :=
  ⟨gives.given, fun n found => (gives.node n found).1⟩

theorem carries_found (valid : d.graph.Valid) (extended : d.Extends d') {v : Node}
    (found : d.graph.find? h = some v) (typed : v.ty = ty) : d'.Carries h ty :=
  extended.carries ⟨valid.serial_lt found, typed_of found typed⟩

theorem Takes.carries (valid : d.graph.Valid) (extended : d.Extends d')
    (takes : Takes strict d d' h) (typed : d.Typed h ty) : d'.Carries h ty := by
  obtain ⟨v, known, _⟩ := takes.usable
  exact carries_found valid extended known (typed v known)

theorem NewVariable.fills {writable : Bool} (new : NewVariable d d' p ty writable)
    (carries : d'.Carries h ty) : d'.Fills h p := by
  obtain ⟨rfl, storage, places⟩ := new
  exact ⟨_, by rw [places, Places.find?_push, if_pos rfl], carries⟩

section New

variable (valid : d.graph.Valid) (extended : d.Extends d')

include valid extended

theorem NewNode.coherent (new : NewNode strict d d' h n) : d'.NodeCoherent n := by
  intro computed
  obtain ⟨shapes, each, fits⟩ := new.fits computed
  exact ⟨shapes, each.imp fun _ _ has => extended.hadShape (has.had valid), fits⟩

theorem NewPlace.coherent (new : NewPlace strict d data) : d'.PlaceCoherent data := by
  cases new with
  | root => exact fun _ _ origin => by simp [variableData] at origin
  | @chain parent above link ty reachable held selects =>
    rintro _ _ ⟨⟩
    obtain ⟨above', found', kept⟩ := extended.places parent above reachable.1
    refine ⟨above', found', ?_, ?_⟩ <;> rw [kept.same]
    · rfl
    · refine extended.selects (fun value same => ?_) selects
      obtain ⟨v, known, _⟩ := held value same
      exact valid.serial_lt known

theorem NewAction.coherent (new : NewAction strict d d' action) : d'.ActionCoherent action := by
  have fills : ∀ {p data h}, d.Reachable strict p data → d'.Carries h data.pointee →
      d'.Fills h p := by
    intro p data h reachable carries
    obtain ⟨data', found', kept⟩ := extended.places p data reachable.1
    exact ⟨data', found', by rw [kept.same]; exact carries⟩
  cases action with
  | load =>
    obtain ⟨data, reachable, _, gives, _⟩ := new
    exact fills reachable gives.carries
  | store =>
    obtain ⟨data, reachable, _, takes, typed⟩ := new
    exact fills reachable (takes.carries valid extended typed)
  | boundary => trivial

theorem NewOutput.fills (new : NewOutput strict d d' p h) : d'.Fills h p := by
  obtain ⟨v, known, _, _, root⟩ := new
  exact root.fills (carries_found valid extended known rfl)

theorem NewLists.coherent (new : NewLists strict d d') (coherent : d.ListCoherent) :
    d'.ListCoherent where
  conditions index s found := by
    rcases new.selections index s found with ⟨s', before, same⟩ | ⟨takes, typed⟩
    · rw [same]
      exact extended.carries (coherent.conditions index s' before)
    · exact takes.carries valid extended typed
  loops index l found := by
    refine (new.loops index l found).elim
      (fun before => extended.loopCoherent (coherent.loops index l before)) fun loop => ?_
    obtain ⟨data, known, _, integer⟩ := loop.counter
    refine extended.loopCoherent ⟨fun h member => ?_, data, known, integer⟩
    obtain ⟨v, _, present, _, typed⟩ := loop.bounds h member
    exact ⟨valid.serial_lt present, typed_of present typed⟩
  inputs i member := by
    obtain ⟨slot, bound, rfl⟩ := Array.mem_iff_getElem.mp member
    rcases new.inputs slot _ (Array.getElem?_eq_getElem bound) with before | ⟨ty, root, gives⟩
    · exact extended.fills (coherent.inputs _ (Array.mem_of_getElem? before))
    · exact root.fills gives.carries
  outputs o member := (new.outputs o member).elim
    (fun before => extended.fills (coherent.outputs o before)) (·.fills valid extended)
  builtins o member := (new.builtins o member).elim
    (fun before => extended.fills (coherent.builtins o before)) (·.fills valid extended)

end New

theorem Step.coherent (step : Step strict d d') (sound : d.Sound strict) (coherent : d.Coherent) :
    d'.Coherent := by
  have valid := sound.valid
  have extended := step.extends valid
  exact ⟨extended.each_node
      (fun h n refs before => extended.nodeCoherent (coherent.nodes h n before) refs)
      fun h n found late => (step.new_node valid found late).coherent valid extended,
    extended.each_place (fun p data data' before kept =>
        extended.placeCoherent (sound.places p data before) (coherent.places p data before) kept)
      fun p data found missing => (step.new_place found missing).2.1.coherent valid extended,
    extended.each_action
      (fun event action _ before => extended.actionCoherent (coherent.actions event action before))
      fun event action found late => (step.new_action valid found late).2.coherent valid extended,
    (step.new_lists valid).coherent valid extended coherent.lists⟩

theorem Steps.coherent (steps : Steps strict d d') (sound : d.Sound strict) (coherent : d.Coherent) :
    d'.Coherent := by
  induction steps with
  | refl => exact coherent
  | tail before step ih => exact step.coherent (Steps.sound before sound) ih

theorem coherent_cleared (d : Draft) (types : TypeTable) : (d.cleared types).Coherent where
  nodes := by simp [cleared, Graph.clear, Graph.find?]
  places := by simp [cleared, Places.clear, Places.find?]
  actions := by simp [cleared, Trace.action?]
  lists := by constructor <;> simp [cleared]

theorem Coherent.after (sound : d.Sound False) (coherent : d.Coherent) {calls : List Call}
    (building : ∀ c ∈ calls, c.restarts = false) : (d.after calls).Coherent := by
  refine (after_keeps (P := fun d => d.Sound False ∧ d.Coherent) (fun c member d both => ?_)
    ⟨sound, coherent⟩).2
  have steps := Call.leaves_steps both.1 (building c member) False.elim
  exact ⟨steps.sound both.1, steps.coherent both.1 both.2⟩

end Step

end Draft

end ShaderIR
