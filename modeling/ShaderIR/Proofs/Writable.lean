import ShaderIR.Proofs.Coherent
import ShaderIR.Proofs.Owners
import ShaderIR.Proofs.Recorded
import ShaderIR.Proofs.Reuse

/-! Which locations can be written. A part of a location can be written if the location can, so this
is decided by the variable: inputs, textures and blocks that are only read can not be written. All
that a draft writes to can. This holds of a draft after any history, also when it has started over. -/
namespace ShaderIR

variable {p : Place} {writable : Bool} {data : PlaceData}

def Link.follow (ty : Ty) : Link → Except Fault Ty
  | .member number => ty.member number
  | .index _ => ty.element

namespace Draft

def Grants (d : Draft) (p : Place) (writable : Bool) : Prop :=
  ∃ data, d.places.find? p = some data ∧ data.writable = writable

def Passes (d : Draft) (data : PlaceData) : Prop :=
  ∀ parent link, data.origin = .chain parent link →
    ∃ above, d.places.find? parent = some above ∧ data.writable = above.writable

structure Guarded (d : Draft) : Prop where
  chains : ∀ p data, d.places.find? p = some data → d.Passes data
  inputs : ∀ i ∈ d.inputs, d.Grants i.place false
  bindings : ∀ b ∈ d.bindings, d.Grants b.place (b.kind == .storage)
  outputs : ∀ o ∈ d.outputs, d.Grants o.place true
  builtins : ∀ o ∈ d.builtins, d.Grants o.place true
  locals : ∀ p ∈ d.locals, d.Grants p true

section Step

variable {strict : Prop} {d d' : Draft}

theorem Extends.grants (extended : d.Extends d') (grants : d.Grants p writable) :
    d'.Grants p writable := by
  obtain ⟨data, found, same⟩ := grants
  obtain ⟨data', found', kept⟩ := extended.places p data found
  exact ⟨data', found', by rw [kept.same]; exact same⟩

theorem NewVariable.grants {ty : Ty} (new : NewVariable d d' p ty writable) :
    d'.Grants p writable := by
  obtain ⟨rfl, storage, places⟩ := new
  exact ⟨_, by rw [places, Places.find?_push, if_pos rfl], rfl⟩

theorem Extends.passes (extended : d.Extends d') (passes : d.Passes data) : d'.Passes data := by
  intro parent link origin
  obtain ⟨above, found, same⟩ := passes parent link origin
  obtain ⟨above', found', kept⟩ := extended.places parent above found
  exact ⟨above', found', by rw [kept.same]; exact same⟩

theorem NewPlace.passes (new : NewPlace strict d data) : d.Passes data := by
  cases new with
  | root => exact fun _ _ origin => by simp [variableData] at origin
  | @chain parent above link ty reachable =>
    rintro _ _ ⟨⟩
    exact ⟨above, reachable.1, rfl⟩

theorem Step.guarded (step : Step strict d d') (valid : d.graph.Valid) (guarded : d.Guarded) :
    d'.Guarded := by
  have extended := step.extends valid
  have new := step.new_lists valid
  refine ⟨extended.each_place (fun p data data' before kept => ?_) fun p data found missing =>
      extended.passes (step.new_place found missing).2.1.passes,
    fun i member => ?_,
    fun b member => (new.bindings b member).elim (extended.grants <| guarded.bindings b ·) (·.grants),
    fun o member => (new.outputs o member).elim (extended.grants <| guarded.outputs o ·)
      fun ⟨_, _, _, _, root⟩ => root.grants,
    fun o member => (new.builtins o member).elim (extended.grants <| guarded.builtins o ·)
      fun ⟨_, _, _, _, root⟩ => root.grants,
    fun p member => (new.locals p member).elim (extended.grants <| guarded.locals p ·)
      fun ⟨_, root⟩ => root.grants⟩
  · rw [kept.same]
    exact extended.passes (guarded.chains p data before)
  · obtain ⟨slot, bound, rfl⟩ := Array.mem_iff_getElem.mp member
    rcases new.inputs slot _ (Array.getElem?_eq_getElem bound) with before | ⟨_, root, _⟩
    · exact extended.grants (guarded.inputs _ (Array.mem_of_getElem? before))
    · exact root.grants

theorem Steps.guarded (steps : Steps strict d d') (sound : d.Sound strict) (guarded : d.Guarded) :
    d'.Guarded :=
  (keeps_along (P := fun d => d.Sound strict ∧ d.Guarded) (fun step kept =>
    ⟨step.sound kept.1, step.guarded kept.1.valid kept.2⟩) steps ⟨sound, guarded⟩).2

theorem Steps.grants (steps : Steps strict d d') (sound : d.Sound strict)
    (grants : d.Grants p writable) : d'.Grants p writable :=
  (keeps_along (P := fun d => d.Sound strict ∧ d.Grants p writable) (fun step kept =>
    ⟨step.sound kept.1, (step.extends kept.1.valid).grants kept.2⟩) steps ⟨sound, grants⟩).2

end Step

/-- What is known of a draft after any history. Whatever it stores to can be written, also where a
loop counts. -/
structure Lasting (d : Draft) : Prop extends Steady False d where
  coherent : d.Coherent
  guarded : d.Guarded
  stores : ∀ p h, .store p h ∈ d.trace.actions → d.Grants p true
  counters : ∀ l ∈ d.loops, d.Grants l.counter true

end Draft

section Effect

variable {d d' : Draft} {c : Call} {reply : Reply}

/-- A call records a store only where it was checked that it can be written. -/
theorem Effect.stores (effect : Effect d c reply d') {h : Handle}
    (stored : .store p h ∈ c.records d reply) : d.Grants p true := by
  cases effect with
  | store found writable =>
    obtain ⟨rfl, rfl⟩ := Action.store.inj (List.mem_singleton.mp stored)
    exact ⟨_, found, writable⟩
  | beginElse scopes | endIf scopes | endFor scopes =>
    simp only [Call.records, scopes] at stored
    simp at stored
  | breakLoop inside | continueLoop inside =>
    simp only [Call.records, inside] at stored
    simp at stored
  | _ => simp [Call.records] at stored

/-- The counter of a loop that opens is a new variable of the function. -/
theorem Effect.counters (effect : Effect d c reply d') :
    ∀ l ∈ d'.loops, l ∈ d.loops ∨ d'.Grants l.counter true := by
  cases effect with
  | @beginFor first last low high =>
    have counter := Places.find?_markAccessed (d.withLoop low high).places
      (d.withBounds low high).places.next (d.withBounds low high).places.next
    rw [d.withLoop_counter low high] at counter
    exact mem_push_or ⟨_, counter, rfl⟩
  | uniform bound | storage bound | texture bound => cases bound <;> exact fun _ => .inl
  | _ => exact fun _ => .inl

end Effect

namespace Draft

variable {d : Draft}

theorem Lasting.effect (lasting : d.Lasting) {c : Call} {reply : Reply} {d' : Draft}
    (effect : Effect d c reply d') : d'.Lasting := by
  have steps : d.Steps False d' :=
    effect.steps lasting.sound.valid lasting.sound.bindings_root False.elim
  have grants : ∀ {p writable}, d.Grants p writable → d'.Grants p writable :=
    steps.grants lasting.sound
  refine ⟨steps.steady lasting.toSteady, steps.coherent lasting.sound lasting.coherent,
    steps.guarded lasting.sound lasting.guarded, fun p h stored => ?_, fun l member => ?_⟩
  · rw [effect.actions, List.mem_append] at stored
    exact grants (stored.elim (lasting.stores p h) effect.stores)
  · exact (effect.counters l member).elim (fun before => grants (lasting.counters l before)) id

theorem Lasting.withSlots (lasting : d.Lasting) (slots : List Ty) : (d.withSlots slots).Lasting := by
  induction slots generalizing d with
  | nil => exact lasting
  | cons ty rest ih => exact ih (lasting.effect (Effect.addInput ty))

theorem lasting_cleared (d : Draft) (types : TypeTable) : (d.cleared types).Lasting where
  toSteady := steady_cleared False d types
  coherent := coherent_cleared d types
  guarded := by constructor <;> simp [cleared, Places.clear, Places.find?]
  stores := by simp [cleared, Trace.actions]
  counters := by simp [cleared]

theorem Lasting.leaves (lasting : d.Lasting) (c : Call) : (c.leaves d).Lasting := by
  have restart : ∀ types, (d.restart types).Lasting := by
    intro types
    rw [restart_eq]
    exact (lasting_cleared d types).withSlots _
  by_cases builds : c.builds = true
  · rcases Call.leaves_cases lasting.sound.valid builds with ⟨reply, _, effect⟩ | ⟨_, same⟩
    · exact lasting.effect effect
    · rwa [same]
  · cases c with
    | release value =>
      have steps : d.Steps False ((Call.release value).leaves d) :=
        Call.leaves_steps lasting.sound rfl False.elim
      obtain ⟨g, _, same⟩ := leaves_release (d := d) value
      refine ⟨steps.steady lasting.toSteady, steps.coherent lasting.sound lasting.coherent,
        steps.guarded lasting.sound lasting.guarded, ?_, ?_⟩
      · rw [same]
        exact lasting.stores
      · rw [same]
        exact lasting.counters
    | compile =>
      rw [leaves_compile]
      exact restart _
    | reset => exact restart d.types
    | _ => exact absurd rfl builds

/-- Whatever calls are made on a new draft, also compilations. -/
theorem lasting_after (settings : Settings) (slots : List Ty) (history : List Call) :
    (((new settings).withSlots slots).after history).Lasting :=
  after_keeps (fun c _ _ lasting => lasting.leaves c)
    ((lasting_cleared (new settings) {}).withSlots slots)

end Draft

end ShaderIR
