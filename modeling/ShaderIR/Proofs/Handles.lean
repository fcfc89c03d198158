import ShaderIR.Proofs.Places
import ShaderIR.Proofs.Session

/-! What handles stand for in a session. Serials and the numbers of locations only rise, through
releases, compilations and resets alike; so a handle that was given out names what it was given out
for, or nothing, and it never comes back. -/
namespace ShaderIR

variable {g : Graph} {h : Handle} {ps ps' : Places} {p : Place} {c : Call}

/-- A handle resolves to the node it named, whose references may have changed, or to none. -/
def Graph.Follows (g g' : Graph) (h : Handle) : Prop :=
  g'.node h = .error (.staleValue h.slot) ∨
    ∃ n refs, g.node h = .ok n ∧ g'.node h = .ok { n with refs }

def Places.Follows (ps ps' : Places) (p : Place) : Prop :=
  ps'.get p = .error (.unknownPlace p.index) ∨
    ∃ data accessed, ps.get p = .ok data ∧ ps'.get p = .ok { data with accessed }

theorem Graph.node_stale (dead : g.find? h = none) : g.node h = .error (.staleValue h.slot) := by
  simp [Graph.node, dead]

theorem Places.get_unknown (missing : ps.find? p = none) :
    ps.get p = .error (.unknownPlace p.index) := by
  simp [Places.get, missing]

/-- A handle that was given out follows every change of the graph. -/
theorem Graph.Evolves.follows {g' : Graph} (evolves : g.Evolves g')
    (given : h.serial < g.nextSerial) : g.Follows g' h := by
  cases found : g'.find? h with
  | none => exact .inl (Graph.node_stale found)
  | some n' =>
    obtain ⟨n, before, kept⟩ := evolves.old h n' given found
    refine .inr ⟨n, n'.refs, Graph.node_eq_ok.mpr before, ?_⟩
    rw [← kept.same]
    exact Graph.node_eq_ok.mpr found

namespace Places

/-- How a table of locations changes: a place given out before names what it named, or nothing. -/
structure Evolves (ps ps' : Places) : Prop where
  next : ps.next.index ≤ ps'.next.index
  old : ∀ p data', p.index < ps.next.index → ps'.find? p = some data' →
    ∃ data, ps.find? p = some data ∧ data' = { data with accessed := data'.accessed }

theorem Evolves.refl (ps : Places) : ps.Evolves ps :=
  ⟨Nat.le_refl _, fun _ data _ found => ⟨data, found, rfl⟩⟩

theorem Evolves.trans {ps'' : Places} (first : ps.Evolves ps') (second : ps'.Evolves ps'') :
    ps.Evolves ps'' := by
  refine ⟨Nat.le_trans first.next second.next, fun p data'' given found => ?_⟩
  obtain ⟨data', found', same'⟩ :=
    second.old p data'' (Nat.lt_of_lt_of_le given first.next) found
  obtain ⟨data, before, same⟩ := first.old p data' given found'
  refine ⟨data, before, ?_⟩
  rw [same', same]

theorem evolves_push (ps : Places) (data : PlaceData) : ps.Evolves (ps.push data) := by
  refine ⟨by simp [next, push], fun p data' given found => ?_⟩
  rw [find?_push, if_neg] at found
  · exact ⟨data', found, rfl⟩
  · rintro rfl
    exact Nat.lt_irrefl _ given

theorem evolves_markAccessed (ps : Places) (target : Place) :
    ps.Evolves (ps.markAccessed target) := by
  refine ⟨Nat.le_of_eq (by rw [markAccessed_next]), fun p data' _ found => ?_⟩
  rw [find?_markAccessed] at found
  obtain ⟨data, before, rfl⟩ := Option.map_eq_some_iff.mp found
  exact ⟨data, before, rfl⟩

theorem known_push (known : (ps.find? p).isSome) (data : PlaceData) :
    ((ps.push data).find? p).isSome := by
  rw [find?_push]
  split
  · rfl
  · exact known

theorem known_next (ps : Places) (data : PlaceData) : ((ps.push data).find? ps.next).isSome := by
  rw [find?_push, if_pos rfl]
  rfl

theorem known_markAccessed (known : (ps.find? p).isSome) (target : Place) :
    ((ps.markAccessed target).find? p).isSome := by
  rwa [find?_markAccessed, Option.isSome_map]

theorem index_lt_of_known (known : (ps.find? p).isSome) : p.index < ps.next.index := by
  obtain ⟨data, found⟩ := Option.isSome_iff_exists.mp known
  exact index_lt_next found

/-- No place that was given out is known once the table is cleared. -/
theorem find?_clear (ps : Places) (given : p.index < ps.next.index) : ps.clear.find? p = none :=
  if_pos given

theorem evolves_clear (ps : Places) : ps.Evolves ps.clear := by
  refine ⟨Nat.le_refl _, fun p data' given found => ?_⟩
  rw [ps.find?_clear given] at found
  contradiction

theorem Evolves.follows (evolves : ps.Evolves ps') (given : p.index < ps.next.index) :
    ps.Follows ps' p := by
  cases found : ps'.find? p with
  | none => exact .inl (get_unknown found)
  | some data' =>
    obtain ⟨data, before, same⟩ := evolves.old p data' given found
    refine .inr ⟨data, data'.accessed, get_eq_ok.mpr before, ?_⟩
    rw [← same]
    exact get_eq_ok.mpr found

end Places

theorem Graph.Valid.added_live (valid : g.Valid) (node : Node) :
    ((g.added node).find? g.nextHandle).isSome := by
  rw [Graph.added, Graph.find?_foldl_addRef, Option.isSome_map, Graph.find?, valid.wired_slots,
    if_pos (show g.nextHandle.slot = g.nextSlot from rfl)]
  simp [Graph.nextHandle]

theorem Graph.find?_clear (g : Graph) (h : Handle) : g.clear.find? h = none := by
  simp [Graph.find?, Graph.clear]

theorem Graph.evolves_clear (g : Graph) : g.Evolves g.clear := by
  refine ⟨Nat.le_refl _, fun h n' _ found => ?_⟩
  rw [g.find?_clear h] at found
  contradiction

namespace Draft

structure Evolves (d d' : Draft) : Prop where
  graph : d.graph.Evolves d'.graph
  places : d.places.Evolves d'.places

theorem Evolves.refl (d : Draft) : d.Evolves d := ⟨.refl _, .refl _⟩

theorem Evolves.trans {d d' d'' : Draft} (first : d.Evolves d') (second : d'.Evolves d'') :
    d.Evolves d'' :=
  ⟨first.graph.trans second.graph, first.places.trans second.places⟩

/-- What a draft may give out again: values of inputs, which may have been released, and locations
of resources. -/
structure Issuing (d : Draft) : Prop where
  valid : d.graph.Valid
  inputs : ∀ i ∈ d.inputs, i.value.serial < d.graph.nextSerial
  bindings : ∀ b ∈ d.bindings, (d.places.find? b.place).isSome

section Step

variable {d d' : Draft}

theorem Issuing.grow (issuing : d.Issuing) (evolves : d.Evolves d') (valid : d'.graph.Valid)
    (known : ∀ p, (d.places.find? p).isSome → (d'.places.find? p).isSome)
    (inputs : ∀ i ∈ d'.inputs, i ∈ d.inputs ∨ i.value.serial < d'.graph.nextSerial)
    (bindings : ∀ b ∈ d'.bindings, b ∈ d.bindings ∨ (d'.places.find? b.place).isSome) :
    d'.Issuing where
  valid := valid
  inputs i member := (inputs i member).elim
    (fun before => Nat.lt_of_lt_of_le (issuing.inputs i before) evolves.graph.nextSerial) id
  bindings b member := (bindings b member).elim
    (fun before => known _ (issuing.bindings b before)) id

/-! What the parts of calls do. -/

theorem evolves_withNode (valid : d.graph.Valid) (ty : Ty) (kind : NodeKind)
    {operands : List Handle} (live : ∀ o ∈ operands, (d.graph.find? o).isSome) :
    d.Evolves (d.withNode ty kind operands) :=
  ⟨Graph.evolves_added valid live, .refl _⟩

theorem evolves_withLeaf (valid : d.graph.Valid) (ty : Ty) (kind : NodeKind) :
    d.Evolves (d.withNode ty kind []) :=
  evolves_withNode valid ty kind (by simp)

theorem evolves_withRef (d : Draft) (value : Handle) : d.Evolves (d.withRef value) :=
  ⟨Graph.evolves_addRef _ _, .refl _⟩

theorem evolves_withInput (valid : d.graph.Valid) (ty : Ty) : d.Evolves (d.withInput ty) :=
  ⟨(Graph.evolves_added valid (by simp)).trans (Graph.evolves_addRef _ _),
    Places.evolves_push _ _⟩

theorem evolves_withLoad (valid : d.graph.Valid) (p : Place) (ty : Ty) :
    d.Evolves (d.withLoad p ty) :=
  ⟨Graph.evolves_added valid (by simp), Places.evolves_markAccessed _ _⟩

theorem evolves_withBounds (valid : d.graph.Valid) (low high : Int32) :
    d.Evolves (d.withBounds low high) := by
  have valid₁ := valid_withNode valid .sint (.constant (.int low)) []
  have valid₂ := valid_withNode valid₁ .sint (.constant (.int high)) []
  exact ((((evolves_withLeaf valid _ _).trans (evolves_withLeaf valid₁ _ _)).trans
    (evolves_withLeaf valid₂ _ _)).trans (evolves_withRef _ _)).trans
    ((evolves_withRef _ _).trans (evolves_withRef _ _))

theorem valid_withBounds (valid : d.graph.Valid) (low high : Int32) :
    (d.withBounds low high).graph.Valid := by
  have valid₁ := valid_withNode valid .sint (.constant (.int low)) []
  have valid₂ := valid_withNode valid₁ .sint (.constant (.int high)) []
  have valid₃ := valid_withNode valid₂ .sint (.constant (.int 1)) []
  exact valid_withRef (valid_withRef (valid_withRef valid₃ _) _) _

theorem withLoop_graph (d : Draft) (low high : Int32) :
    (d.withLoop low high).graph = (d.withBounds low high).graph := by
  rw [withLoop]
  generalize d.withBounds low high = bounds
  rfl

theorem valid_withLoop (valid : d.graph.Valid) (low high : Int32) :
    (d.withLoop low high).graph.Valid := by
  rw [withLoop_graph]
  exact valid_withBounds valid low high

theorem evolves_withLoop (valid : d.graph.Valid) (low high : Int32) :
    d.Evolves (d.withLoop low high) := by
  have bounds := evolves_withBounds valid low high
  rw [withLoop]
  generalize d.withBounds low high = d' at bounds
  exact ⟨bounds.graph, bounds.places.trans (Places.evolves_push _ _)⟩

theorem bound_evolves {set binding : Word} {kind : BindingKind} {ty : Ty}
    (bound : Bound d set binding kind ty p d') : d.Evolves d' := by
  cases bound with
  | again => exact .refl d
  | new => exact ⟨.refl _, Places.evolves_push _ _⟩

end Step

end Draft

open Draft

section Effect

variable {d d' : Draft} {reply : Reply}

theorem Effect.evolves (effect : Effect d c reply d') (valid : d.graph.Valid) : d.Evolves d' := by
  have live : ∀ {h : Handle} {n : Node}, d.graph.find? h = some n →
      (d.graph.find? h).isSome := fun found => Option.isSome_of_eq_some found
  cases effect with
  | addInput => exact evolves_withInput valid _
  | constant => exact evolves_withLeaf valid _ _
  | binary _ left right | extract left right | sample left right =>
    exact ⟨Graph.evolves_added valid (by simp [left, right]), .refl _⟩
  | negate found => exact evolves_withNode valid _ _ (by simp [live found])
  | select condition accept reject =>
    exact evolves_withNode valid _ _ (by simp [live condition, live accept, live reject])
  | construct _ _ parts =>
    refine evolves_withNode valid _ _ fun o member => ?_
    obtain ⟨v, found, _⟩ := parts o member
    exact live found
  | uniform bound | storage bound => exact bound_evolves bound
  | texture bound =>
    refine (bound_evolves bound).trans (evolves_withLoad ?_ _ _)
    cases bound <;> exact valid
  | localVariable | member => exact ⟨.refl _, Places.evolves_push _ _⟩
  | load => exact evolves_withLoad valid _ _
  | store => exact ⟨Graph.evolves_addRef _ _, Places.evolves_markAccessed _ _⟩
  | index | output | builtin => exact ⟨Graph.evolves_addRef _ _, Places.evolves_push _ _⟩
  | beginIf | retain => exact ⟨Graph.evolves_addRef _ _, .refl _⟩
  | beginFor =>
    exact (evolves_withLoop valid _ _).trans (evolves_withLoad (valid_withLoop valid _ _) _ _)
  | input | pointee | beginElse | endIf | endFor | breakLoop | continueLoop | typeOf =>
    exact ⟨.refl _, .refl _⟩

theorem Effect.known (effect : Effect d c reply d') (known : (d.places.find? p).isSome) :
    (d'.places.find? p).isSome := by
  have bound : ∀ {set binding kind ty q d'}, Bound d set binding kind ty q d' →
      (d'.places.find? p).isSome := by
    intro set binding kind ty q d' bound
    cases bound with
    | again => exact known
    | new => exact Places.known_push known _
  cases effect with
  | uniform b | storage b => exact bound b
  | texture b => exact Places.known_markAccessed (bound b) _
  | load | store => exact Places.known_markAccessed known _
  | addInput | localVariable | member | index | output | builtin =>
    exact Places.known_push known _
  | beginFor => exact Places.known_markAccessed (Places.known_push known _) _
  | _ => exact known

/-- The value in a reply is there, unless it is an input that was released. -/
theorem Effect.gives_value (effect : Effect d c (.value h) d') (issuing : d.Issuing) :
    h.serial < d'.graph.nextSerial ∧
      ((∀ slot, c ≠ .input slot) → (d'.graph.find? h).isSome) := by
  have valid := issuing.valid
  have valid' := effect.valid valid
  have found : (d'.graph.find? h).isSome → h.serial < d'.graph.nextSerial ∧
      ((∀ slot, c ≠ .input slot) → (d'.graph.find? h).isSome) := by
    intro live
    obtain ⟨n, found⟩ := Option.isSome_iff_exists.mp live
    exact ⟨valid'.serial_lt found, fun _ => live⟩
  cases effect with
  | input known =>
    exact ⟨issuing.inputs _ (Array.mem_of_getElem? known), fun other => absurd rfl (other _)⟩
  | addInput => exact found (withRef_live (valid.added_live _))
  | texture bound =>
    refine found (Graph.Valid.added_live ?_ _)
    cases bound <;> exact valid
  | beginFor => exact found ((valid_withLoop valid _ _).added_live _)
  | constant | binary | extract | sample | negate | select | construct | load =>
    exact found (valid.added_live _)

theorem Effect.gives_place (effect : Effect d c (.place p) d') (issuing : d.Issuing) :
    (d'.places.find? p).isSome := by
  cases effect with
  | uniform b | storage b =>
    cases b with
    | again found => exact issuing.bindings _ (Array.mem_of_find?_eq_some found)
    | new => exact Places.known_next _ _
  | localVariable | member | index => exact Places.known_next _ _

theorem Effect.issuing (effect : Effect d c reply d') (issuing : d.Issuing) : d'.Issuing := by
  have grow := issuing.grow (effect.evolves issuing.valid) (effect.valid issuing.valid)
    fun _ => effect.known
  have bound : ∀ {set binding kind ty p d'}, Bound d set binding kind ty p d' →
      d'.inputs = d.inputs ∧
        ∀ b ∈ d'.bindings, b ∈ d.bindings ∨ (d'.places.find? b.place).isSome := by
    intro set binding kind ty p d' bound
    cases bound with
    | again => exact ⟨rfl, fun _ => .inl⟩
    | new =>
      refine ⟨rfl, fun b member => ?_⟩
      rcases Array.mem_push.mp member with before | rfl
      · exact .inl before
      · exact .inr (Places.known_next _ _)
  cases effect with
  | addInput ty =>
    refine grow (fun i member => ?_) fun _ => .inl
    rcases Array.mem_push.mp member with before | rfl
    · exact .inl before
    · exact .inr ((Effect.addInput ty).gives_value issuing).1
  | uniform b | storage b => exact grow (fun _ member => .inl ((bound b).1 ▸ member)) (bound b).2
  | texture b =>
    refine grow (fun _ member => .inl ((bound b).1 ▸ member)) fun x member => ?_
    exact ((bound b).2 x member).imp_right fun known => Places.known_markAccessed known _
  | _ => exact grow (fun _ => .inl) fun _ => .inl

end Effect

namespace Draft

variable {d : Draft}

/-! Starting over. -/

theorem leaves_restart (restarts : c.restarts = true) : ∃ types, c.leaves d = d.restart types := by
  cases c with
  | compile =>
    simp only [Call.leaves, Call.run, compile, Functor.map, EStateM.map, compilation]
    cases d.assemble with
    | ok m e => exact ⟨e.types, rfl⟩
    | error fault e => exact ⟨e.types, rfl⟩
  | reset => exact ⟨d.types, rfl⟩
  | _ => contradiction

theorem releasedGraph_shrinks (d : Draft) : d.graph.Shrinks d.releasedGraph := by
  unfold releasedGraph
  generalize d.graph = g
  induction d.roots generalizing g with
  | nil => exact .refl g
  | cons h rest ih =>
    refine Graph.Shrinks.trans ?_ (ih _)
    have shrinks := Graph.releaseAll_shrinks (g.operandCount + 1) [h] g
    dsimp only
    cases run : g.release h with
    | ok _ g' => exact shrinks.1 g' run
    | error fault g' => exact shrinks.2 fault g' run

theorem evolves_cleared (d : Draft) (types : TypeTable) : d.Evolves (d.cleared types) :=
  ⟨d.releasedGraph_shrinks.evolves.trans (Graph.evolves_clear _), Places.evolves_clear _⟩

theorem issuing_cleared (d : Draft) (types : TypeTable) : (d.cleared types).Issuing :=
  ⟨valid_cleared d types, by simp [cleared], by simp [cleared]⟩

theorem Issuing.withSlots (issuing : d.Issuing) (slots : List Ty) :
    (d.withSlots slots).Issuing ∧ d.Evolves (d.withSlots slots) := by
  induction slots generalizing d with
  | nil => exact ⟨issuing, .refl d⟩
  | cons ty rest ih =>
    obtain ⟨others, evolves⟩ := ih ((Effect.addInput ty).issuing issuing)
    exact ⟨others, (evolves_withInput issuing.valid ty).trans evolves⟩

theorem issuing_begun (settings : Settings) (slots : List Ty) :
    ((new settings).withSlots slots).Issuing :=
  (Issuing.withSlots ⟨valid_new settings, by simp [new], by simp [new]⟩ slots).1

/-- Nothing that was given out before is known once a session has started over. -/
theorem restart_forgets (d : Draft) (types : TypeTable) :
    (∀ h, h.serial < d.graph.nextSerial → (d.restart types).graph.find? h = none) ∧
      ∀ p, p.index < d.places.next.index → (d.restart types).places.find? p = none := by
  have evolves := (issuing_cleared d types).withSlots (d.inputs.toList.map Input.ty) |>.2
  rw [restart_eq]
  constructor
  · intro h given
    rw [Option.eq_none_iff_forall_ne_some]
    intro n found
    obtain ⟨_, before, _⟩ := evolves.graph.old h n
      (Nat.lt_of_lt_of_le given (d.evolves_cleared types).graph.nextSerial) found
    rw [cleared, Graph.find?_clear] at before
    contradiction
  · intro p given
    rw [Option.eq_none_iff_forall_ne_some]
    intro data found
    obtain ⟨_, before, _⟩ := evolves.places.old p data
      (Nat.lt_of_lt_of_le given (d.evolves_cleared types).places.next) found
    rw [cleared, Places.find?_clear _ given] at before
    contradiction

/-! Whole sessions. -/

/-- Every call, accepted or not, leaves the handles that were given out their meaning. -/
theorem Issuing.leaves (issuing : d.Issuing) (c : Call) :
    (c.leaves d).Issuing ∧ d.Evolves (c.leaves d) := by
  by_cases restarts : c.restarts = true
  · obtain ⟨types, same⟩ := leaves_restart (d := d) restarts
    obtain ⟨again, evolves⟩ :=
      (issuing_cleared d types).withSlots (d.inputs.toList.map Input.ty)
    rw [same, restart_eq]
    exact ⟨again, (d.evolves_cleared types).trans evolves⟩
  rcases Call.building_cases issuing.valid (Bool.not_eq_true _ ▸ restarts) with
    ⟨reply, _, effect⟩ | ⟨_, _, same⟩ | ⟨value, g, rfl, shrinks, same⟩
  · exact ⟨effect.issuing issuing, effect.evolves issuing.valid⟩
  · rw [same]
    exact ⟨issuing, .refl d⟩
  · have evolves : d.Evolves { d with graph := g } := ⟨shrinks.evolves, .refl _⟩
    rw [same]
    exact ⟨issuing.grow evolves (shrinks.valid issuing.valid) (fun _ => id) (fun _ => .inl)
      fun _ => .inl, evolves⟩

theorem Issuing.after (issuing : d.Issuing) (calls : List Call) :
    (d.after calls).Issuing ∧ d.Evolves (d.after calls) := by
  induction calls generalizing d with
  | nil => exact ⟨issuing, .refl d⟩
  | cons c rest ih =>
    obtain ⟨next, evolves⟩ := issuing.leaves c
    obtain ⟨last, later⟩ := ih next
    exact ⟨last, evolves.trans later⟩

theorem effect_of_answer (valid : d.graph.Valid) {reply : Reply} (answer : c.answer d = .ok reply)
    (gives : (∃ h, reply = .value h) ∨ ∃ p, reply = .place p) : Effect d c reply (c.leaves d) := by
  by_cases builds : c.builds = true
  · rcases Call.leaves_cases valid builds with ⟨reply', answer', effect⟩ | ⟨⟨fault, refused⟩, _⟩
    · rwa [Except.ok.inj (answer.symm.trans answer')]
    · rw [refused] at answer
      contradiction
  · exfalso
    cases c with
    | release | compile | reset =>
      simp only [Call.answer, Call.run, Functor.map, EStateM.map] at answer
      grind
    | _ => exact builds rfl

/-- Handles never change their meaning. The value or location that a call gives is there, unless it
is an input that was released. At all moments after, through any calls with compilations and resets
among them, it resolves to what it stood for at any moment before, or to none; and right after a
compilation or a reset it resolves to none. -/
theorem handles_keep_meaning (settings : Settings) (slots : List Ty) {first : Draft}
    (begun : withInputs settings slots = .ok () first) (history : List Call) {c : Call}
    {reply : Reply} (answer : c.answer (first.after history) = .ok reply) (later more : List Call) :
    (∀ h, reply = .value h →
      ((∀ slot, c ≠ .input slot) → ∃ n, (first.after (history ++ [c])).graph.node h = .ok n) ∧
        (first.after (history ++ c :: later)).graph.Follows
          (first.after (history ++ c :: (later ++ more))).graph h ∧
        ∀ last : Call, last.restarts = true →
          (first.after (history ++ c :: (later ++ [last]))).graph.node h =
            .error (.staleValue h.slot)) ∧
    ∀ p, reply = .place p →
      (∃ data, (first.after (history ++ [c])).places.get p = .ok data) ∧
        (first.after (history ++ c :: later)).places.Follows
          (first.after (history ++ c :: (later ++ more))).places p ∧
        ∀ last : Call, last.restarts = true →
          (first.after (history ++ c :: (later ++ [last]))).places.get p =
            .error (.unknownPlace p.index) := by
  obtain rfl := eq_of_withInputs begun
  have issuing := ((issuing_begun settings slots).after history).1
  obtain ⟨issuing₁, evolves₁⟩ := (issuing.leaves c).1.after later
  have evolves₂ := (issuing₁.after more).2
  simp only [after_append, after]
  constructor
  · rintro h rfl
    obtain ⟨given, live⟩ :=
      (effect_of_answer issuing.valid answer (.inl ⟨h, rfl⟩)).gives_value issuing
    have below := Nat.lt_of_lt_of_le given evolves₁.graph.nextSerial
    refine ⟨fun other => ?_, evolves₂.graph.follows below, fun last restarts => ?_⟩
    · obtain ⟨n, found⟩ := Option.isSome_iff_exists.mp (live other)
      exact ⟨n, Graph.node_eq_ok.mpr found⟩
    · obtain ⟨types, left⟩ := leaves_restart restarts
      rw [left]
      exact Graph.node_stale ((restart_forgets _ types).1 h below)
  · rintro p rfl
    have known := (effect_of_answer issuing.valid answer (.inr ⟨p, rfl⟩)).gives_place issuing
    have below := Nat.lt_of_lt_of_le (Places.index_lt_of_known known) evolves₁.places.next
    refine ⟨?_, evolves₂.places.follows below, fun last restarts => ?_⟩
    · obtain ⟨data, found⟩ := Option.isSome_iff_exists.mp known
      exact ⟨data, Places.get_eq_ok.mpr found⟩
    · obtain ⟨types, left⟩ := leaves_restart restarts
      rw [left]
      exact Places.get_unknown ((restart_forgets _ types).2 p below)

/-- Calls after which a slot of the graph is used a second time, by the constant that comes next. -/
def freesSlot : List Call := [.localVariable .single, .constant (.int 3), .release ⟨1, 1⟩]

/-- A constant in a used slot: it is released, its slot is used a third time, and a compilation
follows. -/
theorem reused_slot_keeps_meaning :
    withInputs { stage := .vertex } [.single] = .ok () (vertex [.single]) ∧
      (Call.constant (.float 0)).answer ((vertex [.single]).after freesSlot) = .ok (.value ⟨1, 2⟩) ∧
      (∃ n, ((vertex [.single]).after
        (freesSlot ++ [.constant (.float 0)])).graph.node ⟨1, 2⟩ = .ok n) ∧
      ((vertex [.single]).after (freesSlot ++ [.constant (.float 0)])).graph.Follows
        ((vertex [.single]).after (freesSlot ++
          [.constant (.float 0), .release ⟨1, 2⟩, .constant (.int 5), .compile])).graph ⟨1, 2⟩ ∧
      ((vertex [.single]).after (freesSlot ++ [.constant (.float 0), .compile])).graph.node ⟨1, 2⟩ =
          .error (.staleValue 1) := by
  have answer : (Call.constant (.float 0)).answer
      ((vertex [.single]).after freesSlot) = .ok (.value ⟨1, 2⟩) := by
    decide +kernel
  obtain ⟨live, follows, stale⟩ := (handles_keep_meaning { stage := .vertex } [.single]
    (withInputs_eq _ _) freesSlot answer []
    [.release ⟨1, 2⟩, .constant (.int 5), .compile]).1 _ rfl
  exact ⟨withInputs_eq _ _, answer, live (by simp), follows, stale .compile rfl⟩

end Draft

end ShaderIR
