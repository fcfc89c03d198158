import ShaderIR.Proofs.Additions

/-! Every draft is sound. Each step that a call can take extends a draft by at most one node, one
location and one event, so only the new ones have to be looked at. -/
namespace ShaderIR

variable {h : Handle} {n : Node} {p : Place} {data : PlaceData} {action : Action} {strict : Prop}
  {d d' : Draft}

namespace Draft

section Now

variable {d d' : Draft} (sound : d.Sound strict)

include sound

theorem Sound.ready_le (found : d.graph.find? h = some n) : n.ready ≤ d.trace.size := by
  have node := sound.nodes h n found
  unfold Node.ready
  split
  · exact Nat.zero_le _
  · exact Nat.zero_le _
  · rename_i event isLoad
    obtain ⟨_, p, lastStore, recorded⟩ := node.load event isLoad
    exact Trace.action?_lt recorded
  · exact node.passed.1

theorem Sound.passed_now : d.Passed d.trace.position :=
  ⟨Nat.le_refl _, sound.flow.trace.region_eq⟩

theorem Sound.uses_now (extended : d.Extends d') (takes : Takes strict d d' h) {id : Id}
    (later : d.nextId ≤ id) : d'.Uses strict h id d.trace.size := by
  obtain ⟨⟨v, known, available⟩, held⟩ := takes
  have given := sound.valid.serial_lt known
  refine ⟨Nat.lt_of_lt_of_le given extended.graph.nextSerial, ?_, ?_, ?_, held, ?_⟩ <;>
    intro n' found <;> obtain ⟨n, refs, before, rfl, _⟩ := extended.old given found <;>
    obtain rfl := Option.mem_unique known before
  · exact Nat.lt_of_lt_of_le (sound.nodes h _ known).id later
  · exact (sound.nodes h _ known).passed.1
  · have ready := sound.ready_le known
    exact ready
  · exact fun required => extended.available (Nat.le_refl _) (available required)

theorem Sound.written_now (extended : d.Extends d') {v : Node} (known : d.graph.find? h = some v)
    (outermost : strict → v.Outermost) (held : ∀ n, d'.graph.find? h = some n → 0 < n.refs) :
    d'.Written strict h := by
  have given := sound.valid.serial_lt known
  refine ⟨Nat.lt_of_lt_of_le given extended.graph.nextSerial, ?_, held, ?_⟩ <;>
    intro n' found <;> obtain ⟨n, refs, before, rfl, _⟩ := extended.old given found <;>
    obtain rfl := Option.mem_unique known before
  · have ready := sound.ready_le known
    exact Nat.le_trans ready extended.size
  · exact outermost

theorem Sound.touches_now (extended : d.Extends d') (reachable : d.Reachable strict p data)
    (places : d'.places = d.places.markAccessed p) :
    ∃ data', d'.Touches strict p data' d.trace.size := by
  refine ⟨{ data with accessed := data.accessed || decide (p = p) }, ?_,
    (sound.places p data reachable.1).passed.1, by simp, fun required => ?_⟩
  · rw [places, Places.find?_markAccessed, reachable.1, Option.map_some]
  · exact (reachable.2 required).imp_right (extended.openAt (Nat.le_refl _)).mpr

theorem Sound.flow_quiet {t : Trace} (extended : d.Extends d') (trace : d'.trace = t)
    (scopes : d'.scopes = d.scopes) (valid : t.Valid) (grows : Trace.Grows d.trace t action)
    (quiet : Trace.nextFrames (d.trace.framesAt d.trace.size) d.trace.size action =
      d.trace.framesAt d.trace.size)
    (stores : ∀ p event, t.stores.find? p = some event → d'.StoresAt p event) : d'.FlowSound where
  trace := trace ▸ valid
  stores p event found := stores p event (trace ▸ found)
  scopes := by
    rw [trace, scopes, grows.framesAt_size, quiet]
    exact sound.flow.scopes
  opened := by
    rw [scopes]
    exact fun scope member => extended.opened (sound.flow.opened scope member)

theorem Sound.flow_boundary (boundary : Boundary) (extended : d.Extends d')
    (trace : d'.trace = d.trace.pushBoundary boundary)
    (inside : ∀ s, boundary = .ifElse s → d.scopes ≠ [])
    (scopes : d'.scopes = (Trace.nextFrames (d.trace.framesAt d.trace.size) d.trace.size
      (.boundary boundary)).map Frame.scope)
    (opened : ∀ scope ∈ d'.scopes, scope ∈ d.scopes ∨ d'.Opened scope) : d'.FlowSound where
  trace := by
    rw [trace]
    refine sound.flow.trace.pushBoundary boundary fun s isElse none => inside s isElse ?_
    rw [sound.flow.scopes, none]
    rfl
  stores p event found := by
    have kept : (d.trace.pushBoundary boundary).stores = d.trace.stores := by
      cases boundary <;> rfl
    rw [trace, kept] at found
    exact extended.storesAt (sound.flow.stores p event found)
  scopes := by rw [trace, (Trace.grows_pushBoundary boundary).framesAt_size, scopes]
  opened scope member := by
    rcases opened scope member with before | now
    · exact extended.opened (sound.flow.opened scope before)
    · exact now

/-- The innermost open block, as the boundary that closes it finds it. -/
theorem Sound.head_scope (extended : d.Extends d') {scope : Scope} {outer : List Scope}
    (opened : d.scopes = scope :: outer) :
    (d'.trace.framesAt d.trace.size).head?.map Frame.scope = some scope := by
  have scopes := sound.flow.scopes
  rw [extended.framesAt (Nat.le_refl _), ← List.head?_map, ← scopes, opened]
  rfl

omit sound in
theorem mem_of_innermostLoop? {scopes : List Scope} {index : Nat}
    (inside : innermostLoop? scopes = some index) : .loop index ∈ scopes := by
  obtain ⟨scope, member, found⟩ := List.exists_of_findSome?_eq_some inside
  cases scope with
  | selection s => contradiction
  | loop l =>
    obtain rfl := Option.some.inj found
    exact member

omit sound in
theorem NewVariable.rooted {ty : Ty} {writable : Bool} (new : NewVariable d d' p ty writable) :
    d'.Rooted p := by
  obtain ⟨rfl, storage, places⟩ := new
  exact ⟨_, by rw [places, Places.find?_push, if_pos rfl], rfl⟩

end Now

section Step

variable {d d' : Draft} (sound : d.Sound strict) (extended : d.Extends d')

include sound extended

theorem Sound.new_node (new : NewNode strict d d' h n) : d'.NodeSound strict h n where
  id := Nat.lt_of_lt_of_eq (Nat.lt_succ_self _) new.last
  passed := by rw [new.position]; exact extended.passed sound.passed_now
  operands o member := by
    rw [new.position]
    exact sound.uses_now extended (new.operands o member) new.later
  load event isLoad := by
    obtain ⟨rfl, recorded⟩ := new.load event isLoad
    exact ⟨by rw [new.position]; rfl, recorded⟩
  input := new.input

theorem Sound.new_place (new : NewPlace strict d data) (later : d.nextId < d'.nextId) :
    d'.PlaceSound strict p data := by
  cases new with
  | root =>
    exact ⟨later, ⟨Nat.zero_le _, rfl⟩, fun _ => rfl, by simp [variableData],
      by simp [variableData]⟩
  | @chain parent data link ty reachable held =>
    refine ⟨later, extended.passed sound.passed_now, by simp [chainData], ?_, ?_⟩
    · rintro _ _ ⟨⟩
      have above := sound.places parent data reachable.1
      obtain ⟨data', found', kept⟩ := extended.places parent data reachable.1
      refine ⟨data', found', ?_, ?_, ?_, fun required => ?_⟩ <;> rw [kept.same]
      · exact above.id
      · rfl
      · exact above.passed.1
      · exact (reachable.2 required).imp_right (extended.openAt (Nat.le_refl _)).mpr
    · rintro _ value ⟨⟩
      obtain ⟨v, known, refs, available⟩ := held value rfl
      refine sound.uses_now extended ⟨⟨v, known, available⟩, fun n' found => ?_⟩ (Nat.le_refl _)
      obtain ⟨n, _, before, rfl, kept⟩ := extended.old (sound.valid.serial_lt known) found
      obtain rfl := Option.mem_unique known before
      exact kept refs

theorem Sound.new_action (new : NewAction strict d d' action) :
    d'.ActionSound strict d.trace.size action := by
  have opened : ∀ {scope outer}, d.scopes = scope :: outer → d.Opened scope :=
    fun opened => sound.flow.opened _ (by simp [opened])
  cases action with
  | load p h lastStore =>
    obtain ⟨data, reachable, places, gives, rfl⟩ := new
    refine ⟨sound.touches_now extended reachable places, gives.given,
      fun n found => (gives.node n found).2, fun store last => ?_⟩
    obtain ⟨value, recorded⟩ := sound.flow.stores p store last
    exact ⟨Trace.action?_lt recorded, extended.storesAt ⟨value, recorded⟩⟩
  | store p h =>
    obtain ⟨data, reachable, places, takes, _⟩ := new
    exact ⟨sound.touches_now extended reachable places,
      sound.uses_now extended takes extended.nextId⟩
  | boundary b =>
    cases b with
    | ifBegin s =>
      obtain ⟨x, found, takes⟩ := new
      exact ⟨x, found, sound.uses_now extended takes extended.nextId⟩
    | ifElse s | ifEnd s =>
      obtain ⟨outer, inside⟩ := new
      exact ⟨extended.selections_lt (opened inside), sound.head_scope extended inside⟩
    | loopBegin l => exact new
    | loopEnd l =>
      obtain ⟨outer, inside⟩ := new
      exact ⟨extended.loops_lt (opened inside), sound.head_scope extended inside⟩
    | leave l label | next l label =>
      refine ⟨extended.loops_lt (sound.flow.opened _ (mem_of_innermostLoop? new)), ?_⟩
      rw [extended.framesAt (Nat.le_refl _), ← sound.flow.scopes]
      exact new

theorem Sound.new_output (new : NewOutput strict d d' p h) : d'.Rooted p ∧ d'.Written strict h := by
  obtain ⟨v, known, outermost, held, root⟩ := new
  exact ⟨root.rooted, sound.written_now extended known outermost held⟩

theorem Sound.new_lists (new : NewLists strict d d') : d'.ListSound strict where
  loops index l found := by
    refine (new.loops index l found).elim
      (fun before => extended.loopSound (sound.lists.loops index l before)) fun loop => ?_
    obtain ⟨data, known, root, _⟩ := loop.counter
    refine extended.loopSound ⟨fun h member => ?_, data, known, root⟩
    obtain ⟨v, literal, present, kind, _⟩ := loop.bounds h member
    refine ⟨sound.valid.serial_lt present, fun n found => ?_⟩
    obtain rfl := Option.mem_unique present found
    exact ⟨literal, kind⟩
  inputs slot i found := (new.inputs slot i found).elim
    (fun before => extended.inputSound (sound.lists.inputs slot i before))
    fun ⟨_, root, gives⟩ =>
      ⟨root.rooted, gives.given, fun n found => (gives.node n found).2⟩
  outputs o member := (new.outputs o member).elim
    (fun before => (sound.lists.outputs o before).imp extended.rooted extended.written)
    (sound.new_output extended)
  builtins o member := (new.builtins o member).elim
    (fun before => (sound.lists.builtins o before).imp extended.rooted extended.written)
    (sound.new_output extended)
  bindings b member := (new.bindings b member).elim
    (fun before => extended.rooted (sound.lists.bindings b before)) fun root => root.rooted
  locals p member := (new.locals p member).elim
    (fun before => extended.rooted (sound.lists.locals p before))
    fun ⟨_, root⟩ => root.rooted

theorem Sound.flow_same (trace : d'.trace = d.trace) (scopes : d'.scopes = d.scopes) :
    d'.FlowSound where
  trace := by rw [trace]; exact sound.flow.trace
  stores p event found := extended.storesAt (sound.flow.stores p event (trace ▸ found))
  scopes := by rw [trace, scopes]; exact sound.flow.scopes
  opened := by
    rw [scopes]
    exact fun scope member => extended.opened (sound.flow.opened scope member)

omit extended in
theorem Step.flow (step : Step strict d d') : d'.FlowSound := by
  have extended := step.extends sound.valid
  have scopes := sound.flow.scopes
  -- A boundary that closes the innermost block.
  have closes : ∀ {scope outer boundary}, d.Extends (d.closeBlock outer boundary) →
      d.scopes = scope :: outer → (∀ s, boundary ≠ .ifElse s) →
      Trace.nextFrames (d.trace.framesAt d.trace.size) d.trace.size (.boundary boundary) =
        (d.trace.framesAt d.trace.size).tail → (d.closeBlock outer boundary).FlowSound := by
    intro scope outer boundary extended opened notElse frames
    refine sound.flow_boundary boundary extended rfl (fun s isElse => absurd isElse (notElse s)) ?_
      fun scope member => .inl (opened ▸ List.mem_cons_of_mem _ member)
    rw [frames, List.map_tail, ← scopes, opened]
    rfl
  cases step with
  | @load p =>
    exact sound.flow_quiet extended rfl rfl (sound.flow.trace.pushLoad _ _)
      (Trace.grows_pushLoad p d.graph.nextHandle) rfl
      fun q event found => extended.storesAt (sound.flow.stores q event found)
  | @store p _ value =>
    refine sound.flow_quiet extended rfl rfl (sound.flow.trace.pushStore _ _)
      (Trace.grows_pushStore p value) rfl fun q event found => ?_
    have inserted : (d.trace.stores.insert p d.trace.size).find? q = some event := found
    rw [Assoc.find?_insert] at inserted
    split at inserted
    · rename_i same
      subst same
      rw [← Option.some.inj inserted]
      exact ⟨value, ((Trace.grows_pushStore p value).action? _).trans (if_pos rfl)⟩
    · exact extended.storesAt (sound.flow.stores q event inserted)
  | beginIf =>
    refine sound.flow_boundary (.ifBegin d.selections.size) extended rfl (by simp) ?_
      fun scope member => ?_
    · show _ :: d.scopes = _
      rw [scopes]
      rfl
    · rcases List.mem_cons.mp member with rfl | before
      · exact .inr (Nat.lt_of_lt_of_eq (Nat.lt_succ_self _) (Array.size_push _).symm)
      · exact .inl before
  | beginFor =>
    refine sound.flow_boundary (.loopBegin d.loops.size) extended rfl (by simp) ?_
      fun scope member => ?_
    · show _ :: d.scopes = _
      rw [scopes]
      rfl
    · rcases List.mem_cons.mp member with rfl | before
      · exact .inr (Nat.lt_of_lt_of_eq (Nat.lt_succ_self _) (Array.size_push _).symm)
      · exact .inl before
  | @beginElse index _ _ opened =>
    refine sound.flow_boundary (.ifElse index) extended rfl (by simp [opened]) ?_
      fun scope member => .inl member
    show d.scopes = _
    cases frames : d.trace.framesAt d.trace.size with
    | nil => rw [scopes, frames]; rfl
    | cons f rest => rw [scopes, frames]; rfl
  | endIf opened | endFor opened => exact closes extended opened (by simp) rfl
  | @breakLoop index =>
    exact sound.flow_boundary (.leave index d.nextId) extended rfl (by simp) scopes fun _ => .inl
  | @continueLoop index =>
    exact sound.flow_boundary (.next index d.nextId) extended rfl (by simp) scopes fun _ => .inl
  | _ => exact sound.flow_same extended rfl rfl

end Step

theorem Step.sound (step : Step strict d d') (sound : d.Sound strict) : d'.Sound strict := by
  have extended := step.extends sound.valid
  refine ⟨Nat.lt_of_lt_of_le sound.first extended.nextId, step.valid sound.valid, step.flow sound,
    extended.each_node (fun h n refs before => extended.nodeSound (sound.nodes h n before) refs)
      fun h n found late => sound.new_node extended (step.new_node sound.valid found late),
    extended.each_place
      (fun p data data' before kept => extended.placeSound (sound.places p data before) kept)
      fun p data found missing => ?_,
    extended.each_action
      (fun event action bound before => extended.actionSound bound (sound.actions event action before))
      fun event action found late => ?_,
    sound.new_lists extended (step.new_lists sound.valid)⟩
  · obtain ⟨_, new, later, _⟩ := step.new_place found missing
    exact sound.new_place extended new later
  · obtain ⟨rfl, new⟩ := step.new_action sound.valid found late
    exact sound.new_action extended new

theorem Steps.sound (steps : Steps strict d d') (sound : d.Sound strict) : d'.Sound strict :=
  keeps_along (fun step => step.sound) steps sound

/-- A draft that was cleared is sound, and so is a new one. -/
theorem sound_cleared (strict : Prop) (d : Draft) (types : TypeTable) :
    (d.cleared types).Sound strict where
  first := Nat.zero_lt_one
  valid := valid_cleared d types
  flow := ⟨Trace.valid_empty, by simp [cleared], rfl, by simp [cleared]⟩
  nodes := by simp [cleared, Graph.clear, Graph.find?]
  places := by simp [cleared, Places.clear, Places.find?]
  actions := by simp [cleared, Trace.action?]
  lists := by constructor <;> simp [cleared]

theorem sound_new (strict : Prop) (settings : Settings) : (new settings).Sound strict :=
  sound_cleared strict (new settings) {}

theorem Sound.bindings_root (sound : d.Sound strict) :
    ∀ b ∈ d.bindings, ∀ data, d.places.find? b.place = some data → data.origin = .root := by
  intro b member data found
  obtain ⟨data', found', root⟩ := sound.lists.bindings b member
  obtain rfl := Option.mem_unique found found'
  exact root

end Draft

/-- What a call that does not start over does to a sound draft is made of steps. -/
theorem Call.leaves_steps (sound : d.Sound strict) {c : Call} (building : c.restarts = false)
    (inScope : strict → (∃ reply, c.answer d = .ok reply) → c.InScope d) :
    d.Steps strict (c.leaves d) := by
  rcases Call.building_cases sound.valid building with
    ⟨reply, answer, effect⟩ | ⟨_, _, same⟩ | ⟨value, g, rfl, shrinks, same⟩
  · exact effect.steps sound.valid sound.bindings_root fun required =>
      inScope required ⟨reply, answer⟩
  · rw [same]
  · rw [same]
    exact .single (.release shrinks)

end ShaderIR
