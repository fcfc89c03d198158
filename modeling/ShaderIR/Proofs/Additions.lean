import ShaderIR.Proofs.Sound

/-! What one step adds to a draft: at most one node, one location, one event and one entry of a list.
It is said here once what these are and what was checked of them. What holds of all drafts then has to
be shown only of what is new. -/
namespace ShaderIR

variable {p : Place} {data : PlaceData} {t t' : Trace} {action : Action} {strict : Prop}
  {d d' : Draft} {event : Nat} {h value : Handle} {n : Node}

namespace Draft

section New

variable (strict : Prop) (d d' : Draft)

structure Takes (h : Handle) : Prop where
  usable : d.Usable strict h
  held : ∀ n, d'.graph.find? h = some n → 0 < n.refs

structure Gives (h : Handle) (ty : Ty) (kind : NodeKind) : Prop where
  given : h.serial < d'.graph.nextSerial
  node : ∀ n, d'.graph.find? h = some n → n.ty = ty ∧ n.kind = kind

/-- A new node. Of all ids that a step takes it has the last. -/
structure NewNode (h : Handle) (n : Node) : Prop where
  handle : h = d.graph.nextHandle
  later : d.nextId ≤ n.id
  last : n.id + 1 = d'.nextId
  position : n.position = d.trace.position
  operands : ∀ o ∈ n.operands, Takes strict d d' o
  load : ∀ event, n.kind = .load event → event = d.trace.size ∧
    ∃ p lastStore, d'.trace.action? event = some (.load p h lastStore)
  input : ∀ slot, n.kind = .input slot → ∃ i, d'.inputs[slot]? = some i ∧ i.value = h
  fits : n.kind.isComputed = true → d.Fits n.ty n.kind n.operands

inductive NewPlace : PlaceData → Prop where
  | root (storage : Storage) (ty : Ty) (writable : Bool) :
      NewPlace (d.variableData storage ty writable)
  | chain {parent : Place} {above : PlaceData} {link : Link} (ty : Ty) :
      d.Reachable strict parent above → (∀ value, link = .index value → d.Held strict value) →
      d.Selects above.pointee ty link → NewPlace (d.chainData parent above link ty)

def NewAction : Action → Prop
  | .load p h lastStore => ∃ data, d.Reachable strict p data ∧
      d'.places = d.places.markAccessed p ∧ Gives d' h data.pointee (.load d.trace.size) ∧
      lastStore = d.trace.stores.find? p
  | .store p h => ∃ data, d.Reachable strict p data ∧ d'.places = d.places.markAccessed p ∧
      Takes strict d d' h ∧ d.Typed h data.pointee
  | .boundary (.ifBegin s) => ∃ x, d'.selections[s]? = some x ∧ Takes strict d d' x.condition
  | .boundary (.ifElse s) | .boundary (.ifEnd s) => ∃ outer, d.scopes = .selection s :: outer
  | .boundary (.loopBegin l) => l < d'.loops.size
  | .boundary (.loopEnd l) => ∃ outer, d.scopes = .loop l :: outer
  | .boundary (.leave l _) | .boundary (.next l _) => innermostLoop? d.scopes = some l

def NewVariable (p : Place) (ty : Ty) (writable : Bool) : Prop :=
  p = d.places.next ∧ ∃ storage, d'.places = d.places.push (d.variableData storage ty writable)

def NewOutput (p : Place) (h : Handle) : Prop :=
  ∃ v, d.graph.find? h = some v ∧ (strict → v.Outermost) ∧
    (∀ n, d'.graph.find? h = some n → 0 < n.refs) ∧ NewVariable d d' p v.ty true

structure NewLoop (l : CountedLoop) : Prop where
  bounds : ∀ h ∈ [l.first, l.last, l.step], ∃ v literal, d.graph.find? h = some v ∧
    v.kind = .constant literal ∧ v.ty = .sint
  counter : ∃ data, d.places.find? l.counter = some data ∧ data.origin = .root ∧
    data.pointee = .sint

structure NewLists : Prop where
  selections : ∀ (index : Nat) s, d'.selections[index]? = some s →
    (∃ s', d.selections[index]? = some s' ∧ s.condition = s'.condition) ∨
      Takes strict d d' s.condition ∧ d.Typed s.condition .bool := by
        exact fun _ s found => .inl ⟨s, found, rfl⟩
  loops : ∀ (index : Nat) l, d'.loops[index]? = some l →
    d.loops[index]? = some l ∨ NewLoop d l := by exact fun _ _ => .inl
  inputs : ∀ (slot : Nat) i, d'.inputs[slot]? = some i → d.inputs[slot]? = some i ∨
    ∃ ty, NewVariable d d' i.place ty false ∧ Gives d' i.value ty (.input slot) := by
      exact fun _ _ => .inl
  outputs : ∀ o ∈ d'.outputs, o ∈ d.outputs ∨ NewOutput strict d d' o.place o.value := by
    exact fun _ => .inl
  builtins : ∀ o ∈ d'.builtins, o ∈ d.builtins ∨ NewOutput strict d d' o.place o.value := by
    exact fun _ => .inl
  bindings : ∀ b ∈ d'.bindings, b ∈ d.bindings ∨
    NewVariable d d' b.place b.ty (b.kind == .storage) := by exact fun _ => .inl
  locals : ∀ p ∈ d'.locals, p ∈ d.locals ∨ ∃ ty, NewVariable d d' p ty true := by
    exact fun _ => .inl

end New

/-! Each step extends the draft. -/

theorem Extends.refl (d : Draft) : d.Extends d where
  graph := .refl _
  nextId := Nat.le_refl _
  places _ data found := ⟨data, found, rfl, id⟩
  size := Nat.le_refl _
  actions _ _ := rfl
  selections _ x found := ⟨x.hasElse, found⟩
  loops _ _ found := found
  inputs _ _ found := found

theorem keeps_push (ps : Places) (new : PlaceData) (found : ps.find? p = some data) :
    ∃ data', (ps.push new).find? p = some data' ∧ data.Keeps data' := by
  refine ⟨data, ?_, rfl, id⟩
  rw [Places.find?_push, if_neg, found]
  rintro rfl
  rw [Places.find?_next] at found
  contradiction

theorem keeps_markAccessed (ps : Places) (target : Place) (found : ps.find? p = some data) :
    ∃ data', (ps.markAccessed target).find? p = some data' ∧ data.Keeps data' := by
  refine ⟨{ data with accessed := data.accessed || decide (p = target) }, ?_, rfl, ?_⟩
  · rw [Places.find?_markAccessed, found, Option.map_some]
  · intro accessed
    simp [accessed]

theorem push_kept {α : Type} {xs : Array α} {x : α} {index : Nat} {y : α}
    (found : xs[index]? = some y) : (xs.push x)[index]? = some y := by
  have bound := (Array.getElem?_eq_some_iff.mp found).1
  rw [Array.getElem?_push, if_neg (by omega), found]

theorem pushed_or {α : Type} {xs : Array α} {x : α} {index : Nat} {y : α}
    (found : (xs.push x)[index]? = some y) : xs[index]? = some y ∨ index = xs.size ∧ y = x := by
  rw [Array.getElem?_push] at found
  split at found
  · exact .inr ⟨‹_›, (Option.some.inj found).symm⟩
  · exact .inl found

theorem grows_kept (grows : Trace.Grows t t' action) (event : Nat) (bound : event < t.size) :
    t'.action? event = t.action? event := by
  rw [grows.action?, if_neg (by omega)]

theorem grows_size (grows : Trace.Grows t t' action) : t.size ≤ t'.size := by
  rw [grows.size]
  exact Nat.le_succ _

theorem Extends.record (grows : Trace.Grows d.trace t action) : d.Extends { d with trace := t } :=
  { Extends.refl d with size := grows_size grows, actions := grows_kept grows }

theorem Step.extends (step : Step strict d d') (valid : d.graph.Valid) : d.Extends d' := by
  cases step with
  | node _ operands =>
    exact { Extends.refl d with
      graph := Graph.evolves_added valid fun o member => (operands o member).live
      nextId := Nat.le_succ _ }
  | input ty =>
    exact { Extends.refl d with
      graph := (Graph.evolves_added valid (by simp)).trans (Graph.evolves_addRef _ _)
      nextId := Nat.le_add_right _ 2
      places := fun _ _ => keeps_push _ _
      inputs := fun _ _ => push_kept }
  | level => exact { Extends.refl d with nextId := Nat.le_succ _ }
  | ref => exact { Extends.refl d with graph := Graph.evolves_addRef _ _ }
  | binding | localVariable | chain =>
    exact { Extends.refl d with nextId := Nat.le_succ _, places := fun _ _ => keeps_push _ _ }
  | output | builtin =>
    exact { Extends.refl d with
      graph := Graph.evolves_addRef _ _
      nextId := Nat.le_succ _
      places := fun _ _ => keeps_push _ _ }
  | @load p =>
    exact { Extends.record (Trace.grows_pushLoad p d.graph.nextHandle) with
      graph := Graph.evolves_added valid (by simp)
      nextId := Nat.le_succ _
      places := fun _ _ => keeps_markAccessed _ _ }
  | @store p _ value =>
    exact { Extends.record (Trace.grows_pushStore p value) with
      graph := Graph.evolves_addRef _ _
      places := fun _ _ => keeps_markAccessed _ _ }
  | beginIf =>
    exact { Extends.record (Trace.grows_pushBoundary (.ifBegin d.selections.size)) with
      nextId := Nat.le_add_right _ 3
      selections := fun _ x found => ⟨x.hasElse, push_kept found⟩ }
  | @beginElse index outer s _ stored =>
    refine { Extends.record (Trace.grows_pushBoundary (.ifElse index)) with
      selections := fun k x found => ?_ }
    simp only [switchSelection, Array.getElem?_setIfInBounds]
    by_cases same : index = k
    · subst same
      have bound := (Array.getElem?_eq_some_iff.mp stored).1
      obtain rfl := Option.mem_unique found stored
      exact ⟨true, by rw [if_pos rfl, if_pos bound]⟩
    · exact ⟨x.hasElse, by rw [if_neg same, found]⟩
  | @endIf index => exact { Extends.record (Trace.grows_pushBoundary (.ifEnd index)) with }
  | beginFor =>
    exact { Extends.record (Trace.grows_pushBoundary (.loopBegin d.loops.size)) with
      nextId := Nat.le_add_right _ 5
      loops := fun _ _ => push_kept }
  | @endFor index => exact { Extends.record (Trace.grows_pushBoundary (.loopEnd index)) with }
  | @breakLoop index =>
    exact { Extends.record (Trace.grows_pushBoundary (.leave index d.nextId)) with
      nextId := Nat.le_succ _ }
  | @continueLoop index =>
    exact { Extends.record (Trace.grows_pushBoundary (.next index d.nextId)) with
      nextId := Nat.le_succ _ }
  | release shrinks => exact { Extends.refl d with graph := shrinks.evolves }

/-! What is new after a step. -/

theorem recorded_last (grows : Trace.Grows t t' action) {a : Action}
    (found : t'.action? event = some a) (late : t.size ≤ event) : event = t.size ∧ a = action := by
  have bound := Trace.action?_lt found
  rw [grows.size] at bound
  have last : event = t.size := by omega
  rw [grows.action?, if_pos last] at found
  exact ⟨last, (Option.some.inj found).symm⟩

theorem pushed_last {ps : Places} {new : PlaceData} (found : (ps.push new).find? p = some data)
    (missing : ps.find? p = none) : p = ps.next ∧ data = new := by
  rw [Places.find?_push] at found
  split at found
  · exact ⟨‹_›, (Option.some.inj found).symm⟩
  · rw [missing] at found
    contradiction

theorem added_last {g : Graph} (valid : g.Valid) {new : Node}
    (live : ∀ o ∈ new.operands, (g.find? o).isSome) (found : (g.added new).find? h = some n)
    (late : g.nextSerial ≤ h.serial) :
    h = g.nextHandle ∧ n = { new with serial := g.nextSerial, refs := 0 } := by
  rw [valid.find?_added new live] at found
  split at found
  · exact ⟨‹_›, (Option.some.inj found).symm⟩
  · obtain ⟨old, before, _⟩ := Option.map_eq_some_iff.mp found
    exact absurd (valid.serial_lt before) (Nat.not_lt.mpr late)

theorem held_withRef (found : (d.withRef value).graph.find? value = some n) : 0 < n.refs := by
  rw [find?_withRef] at found
  obtain ⟨old, _, rfl⟩ := Option.map_eq_some_iff.mp found
  simp

theorem held_withNode (valid : d.graph.Valid) {ty : Ty} {kind : NodeKind} {operands : List Handle}
    (live : ∀ o ∈ operands, (d.graph.find? o).isSome) {o : Handle} (member : o ∈ operands)
    (found : (d.withNode ty kind operands).graph.find? o = some n) : 0 < n.refs := by
  rw [find?_withNode valid live] at found
  split at found
  · rename_i same
    obtain ⟨v, known⟩ := Option.isSome_iff_exists.mp (live o member)
    exact absurd (same ▸ valid.serial_lt known) (Nat.lt_irrefl _)
  · obtain ⟨old, _, rfl⟩ := Option.map_eq_some_iff.mp found
    exact Nat.lt_of_lt_of_le (List.count_pos_iff.mpr member) (Nat.le_add_left _ _)

theorem Held.takes (held : d.Held strict value) (graph : d'.graph = d.graph) :
    Takes strict d d' value := by
  obtain ⟨v, known, refs, available⟩ := held
  refine ⟨⟨v, known, available⟩, fun n found => ?_⟩
  rw [graph] at found
  obtain rfl := Option.mem_unique known found
  exact refs

section Step

variable {d d' : Draft} (step : Step strict d d')

include step

theorem Step.valid (valid : d.graph.Valid) : d'.graph.Valid := by
  cases step with
  | node _ usable => exact valid_withNode valid _ _ _ fun o member => (usable o member).live
  | load => exact valid_withNode valid _ _ []
  | input ty => exact valid_withInput valid ty
  | ref | output | builtin | store => exact valid.addRef _
  | release shrinks => exact shrinks.valid valid
  | _ => exact valid

theorem Step.new_node (valid : d.graph.Valid) (found : d'.graph.find? h = some n)
    (late : d.graph.nextSerial ≤ h.serial) : NewNode strict d d' h n := by
  have bound := (step.valid valid).serial_lt found
  cases step with
  | @node ty kind operands computed usable fits =>
    have live : ∀ o ∈ operands, (d.graph.find? o).isSome := fun o member => (usable o member).live
    obtain ⟨rfl, rfl⟩ := added_last valid live found late
    refine ⟨rfl, Nat.le_refl _, rfl, rfl, fun o member => ⟨usable o member, fun _ =>
      held_withNode valid live member⟩, ?_, ?_, fun _ => fits⟩
    · rintro event rfl
      simp [NodeKind.isComputed] at computed
    · rintro slot rfl
      simp [NodeKind.isComputed] at computed
  | input ty =>
    rw [withInput, find?_withRef] at found
    obtain ⟨old, before, rfl⟩ := Option.map_eq_some_iff.mp found
    obtain ⟨rfl, rfl⟩ := added_last valid (by simp) before late
    refine ⟨rfl, Nat.le_succ _, rfl, rfl, by simp, by simp, ?_, by simp [NodeKind.isComputed]⟩
    rintro _ ⟨⟩
    exact ⟨_, Array.getElem?_push_size, rfl⟩
  | @load p =>
    obtain ⟨rfl, rfl⟩ := added_last valid (by simp) found late
    refine ⟨rfl, Nat.le_refl _, rfl, rfl, by simp, ?_, by simp, by simp [NodeKind.isComputed]⟩
    rintro _ ⟨⟩
    exact ⟨rfl, p, _, ((Trace.grows_pushLoad p d.graph.nextHandle).action? _).trans (if_pos rfl)⟩
  | ref | output | builtin | store =>
    exact absurd (Nat.lt_of_lt_of_eq bound (Graph.addRef_nextSerial ..)) (Nat.not_lt.mpr late)
  | release shrinks =>
    exact absurd (Nat.lt_of_lt_of_eq bound shrinks.nextSerial) (Nat.not_lt.mpr late)
  | _ => exact absurd bound (Nat.not_lt.mpr late)

/-- Only an input takes ids for a location and a node. -/
theorem Step.new_place (found : d'.places.find? p = some data) (missing : d.places.find? p = none) :
    p = d.places.next ∧ NewPlace strict d data ∧ d.nextId < d'.nextId ∧
      (d.nextId + 1 = d'.nextId → d'.graph.nextSerial = d.graph.nextSerial) := by
  cases step with
  | input =>
    obtain ⟨rfl, rfl⟩ := pushed_last found missing
    exact ⟨rfl, .root .., Nat.lt_add_of_pos_right (Nat.succ_pos 1), fun one => by
      simp [withInput, withRef, withNode, withVariable, withPlace] at one⟩
  | binding | localVariable =>
    obtain ⟨rfl, rfl⟩ := pushed_last found missing
    exact ⟨rfl, .root .., Nat.lt_succ_self _, fun _ => rfl⟩
  | output | builtin =>
    obtain ⟨rfl, rfl⟩ := pushed_last found missing
    exact ⟨rfl, .root .., Nat.lt_succ_self _, fun _ => Graph.addRef_nextSerial ..⟩
  | chain ty reachable held selects =>
    obtain ⟨rfl, rfl⟩ := pushed_last found missing
    exact ⟨rfl, .chain ty reachable held selects, Nat.lt_succ_self _, fun _ => rfl⟩
  | load | store =>
    have marked : (d.places.markAccessed _).find? p = some data := found
    rw [Places.find?_markAccessed, missing] at marked
    contradiction
  | _ => exact absurd (found.symm.trans missing) (Option.some_ne_none _)

theorem Step.new_action (valid : d.graph.Valid) (found : d'.trace.action? event = some action)
    (late : d.trace.size ≤ event) : event = d.trace.size ∧ NewAction strict d d' action := by
  have boundary : ∀ {b a}, (d.trace.pushBoundary b).action? event = some a →
      event = d.trace.size ∧ a = .boundary b :=
    fun found => recorded_last (Trace.grows_pushBoundary _) found late
  cases step with
  | @load p data reachable =>
    obtain ⟨rfl, rfl⟩ := recorded_last (Trace.grows_pushLoad ..) found late
    refine ⟨rfl, data, reachable, rfl, ⟨?_, fun n present => ?_⟩, rfl⟩
    · exact Nat.lt_of_lt_of_eq (Nat.lt_succ_self _) (Graph.added_nextSerial ..).symm
    · obtain ⟨_, rfl⟩ := added_last valid (by simp) present (Nat.le_refl _)
      exact ⟨rfl, rfl⟩
  | @store p data value reachable usable typed =>
    obtain ⟨rfl, rfl⟩ := recorded_last (Trace.grows_pushStore ..) found late
    exact ⟨rfl, data, reachable, rfl, ⟨usable, fun _ => held_withRef⟩, typed⟩
  | beginIf held =>
    obtain ⟨rfl, rfl⟩ := boundary found
    exact ⟨rfl, _, Array.getElem?_push_size, held.takes rfl⟩
  | beginElse opened | endIf opened | endFor opened =>
    obtain ⟨rfl, rfl⟩ := boundary found
    exact ⟨rfl, _, opened⟩
  | beginFor =>
    obtain ⟨rfl, rfl⟩ := boundary found
    exact ⟨rfl, Nat.lt_of_lt_of_eq (Nat.lt_succ_self _) (Array.size_push _).symm⟩
  | breakLoop inside | continueLoop inside =>
    obtain ⟨rfl, rfl⟩ := boundary found
    exact ⟨rfl, inside⟩
  | _ => exact absurd (Trace.action?_lt found) (Nat.not_lt.mpr late)

theorem Step.new_lists (valid : d.graph.Valid) : NewLists strict d d' := by
  cases step with
  | input ty =>
    refine { inputs := fun slot i found => ?_ }
    rcases pushed_or found with before | ⟨rfl, rfl⟩
    · exact .inl before
    · refine .inr ⟨ty, ⟨rfl, _, rfl⟩, ?_, fun n present => ?_⟩
      · show d.graph.nextSerial < (Graph.addRef (Graph.added _ _) _).nextSerial
        rw [Graph.addRef_nextSerial, Graph.added_nextSerial]
        exact Nat.lt_succ_self _
      · rw [withInput, find?_withRef] at present
        obtain ⟨old, before, rfl⟩ := Option.map_eq_some_iff.mp present
        obtain ⟨_, rfl⟩ := added_last valid (by simp) before (Nat.le_refl _)
        exact ⟨rfl, rfl⟩
  | output found outermost =>
    exact { outputs := mem_push_or ⟨_, found, outermost, fun _ => held_withRef, rfl, _, rfl⟩ }
  | builtin found outermost =>
    exact { builtins := mem_push_or ⟨_, found, outermost, fun _ => held_withRef, rfl, _, rfl⟩ }
  | binding => exact { bindings := mem_push_or ⟨rfl, _, rfl⟩ }
  | localVariable ty => exact { locals := mem_push_or ⟨ty, rfl, _, rfl⟩ }
  | beginIf held typed =>
    refine { selections := fun index s found => ?_ }
    rcases pushed_or found with before | ⟨_, rfl⟩
    · exact .inl ⟨s, before, rfl⟩
    · exact .inr ⟨held.takes rfl, typed⟩
  | @beginElse index outer s opened stored =>
    refine { selections := fun k x found => .inl ?_ }
    simp only [switchSelection, Array.getElem?_setIfInBounds] at found
    split at found
    · rename_i same
      subst same
      split at found
      · obtain rfl := Option.some.inj found
        exact ⟨s, stored, rfl⟩
      · contradiction
    · exact ⟨x, found, rfl⟩
  | beginFor bounds known root typed integer =>
    refine { loops := fun index l found => ?_ }
    rcases pushed_or found with before | ⟨_, rfl⟩
    · exact .inl before
    · refine .inr ⟨fun h member => ?_, _, known, root, integer⟩
      obtain ⟨v, literal, present, kind⟩ := bounds h member
      exact ⟨v, literal, present, kind, typed h member v present⟩
  | _ => exact {}

end Step

end Draft

end ShaderIR
