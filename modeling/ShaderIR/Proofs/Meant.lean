import ShaderIR.Proofs.Semantics
import ShaderIR.Proofs.SoundSteps

/-! What evaluation gives, read off the draft. After any straight-line program the value of a handle
is determined by its node, the address of a location by the variable and the indices it was built
from, and memory by the recorded stores; every call keeps this. -/
namespace ShaderIR

variable {h : Handle} {p : Place} {origin : Origin} {kind : BindingKind} {operands : List Handle}
  {ty : Ty} {data : PlaceData} {binding set : Word} {c : Call}

def Draft.Known (d : Draft) (p : Place) : Prop := (d.places.find? p).isSome

/-- What an action refers to is there. Straight-line programs record no boundary. -/
def Draft.Grounded (d : Draft) : Action → Prop
  | .load p _ _ => d.Known p
  | .store p h => d.Known p ∧ d.Live h
  | .boundary _ => False

def Draft.Linked (d : Draft) : Link → Prop
  | .member _ => True
  | .index h => d.Live h

def Draft.Derived (d : Draft) : Origin → Prop
  | .root => True
  | .chain parent link => d.Known parent ∧ d.Linked link

namespace Evaluation

variable {S : Semantics}

def act (v : Evaluation S) (memory : S.Memory) : Action → S.Memory
  | .store p h => S.writeAt memory (v.addresses p) (v.values h)
  | _ => memory

def memoryAt (v : Evaluation S) (initial : S.Memory) (t : Trace) : Nat → S.Memory
  | 0 => initial
  | k + 1 =>
      match t.action? k with
      | some a => v.act (v.memoryAt initial t k) a
      | none => v.memoryAt initial t k

def index (v : Evaluation S) : Link → S.Value
  | .member part => S.literal (.int part.toInt32)
  | .index h => v.values h

def address (v : Evaluation S) (id : Id) : Origin → Address S
  | .root => { root := id, indices := [] }
  | .chain parent link => (v.addresses parent).step (v.index link)

inductive Denotes (initial : S.Memory) (d : Draft) (v : Evaluation S) :
    NodeKind → List Handle → S.Value → Prop where
  | constant (literal : Literal) (operands : List Handle) :
      Denotes initial d v (.constant literal) operands (S.literal literal)
  | input {slot : Nat} {i : Input} {data : PlaceData} (operands : List Handle) :
      d.inputs[slot]? = some i → d.places.find? i.place = some data →
      Denotes initial d v (.input slot) operands (S.read initial data.id [])
  | load {k : Nat} {p : Place} {h : Handle} {lastStore : Option Nat} (operands : List Handle) :
      d.trace.action? k = some (.load p h lastStore) →
      Denotes initial d v (.load k) operands
        (S.readAt (v.memoryAt initial d.trace k) (v.addresses p))
  | unary {op : UnaryOp} {a : Handle} {n : Node} : d.graph.find? a = some n →
      Denotes initial d v (.unary op) [a] (S.unary op n (v.values a))
  | binary {op : BinaryOp} {a b : Handle} {l r : Node} : d.graph.find? a = some l →
      d.graph.find? b = some r →
      Denotes initial d v (.binary op) [a, b] (S.binary op l r (v.values a) (v.values b))
  | select (c a r : Handle) :
      Denotes initial d v .select [c, a, r] (S.select (v.values c) (v.values a) (v.values r))
  | construct (parts : List Handle) :
      Denotes initial d v .construct parts (S.construct (parts.map v.values))

structure Meant (initial : S.Memory) (d : Draft) (v : Evaluation S) : Prop where
  memory : v.memory = v.memoryAt initial d.trace d.trace.size
  actions : ∀ k a, d.trace.action? k = some a → d.Grounded a
  nodes : ∀ h n, d.graph.find? h = some n →
    (∀ a ∈ n.operands, d.Live a) ∧ v.Denotes initial d n.kind n.operands (v.values h)
  places : ∀ p data, d.places.find? p = some data →
    d.Derived data.origin ∧ v.addresses p = v.address data.id data.origin
  stored : ∀ s ∈ Emit.finalStores d, d.Known s.1 ∧ d.Live s.2
  outputs : v.outputs = d.outputs.toList.map fun o => (d.placeId o.place, v.values o.value)
  builtins : v.builtins = d.builtins.toList.map fun o => (d.placeId o.place, v.values o.value)

structure Keeps (d d' : Draft) (v v' : Evaluation S) : Prop where
  nodes : ∀ h n, d.graph.find? h = some n → ∃ refs, d'.graph.find? h = some { n with refs }
  values : ∀ h, d.Live h → v'.values h = v.values h
  places : ∀ p data, d.places.find? p = some data →
    ∃ accessed, d'.places.find? p = some { data with accessed }
  addresses : ∀ p, d.Known p → v'.addresses p = v.addresses p
  actions : ∀ k a, d.trace.action? k = some a → d'.trace.action? k = some a
  inputs : ∀ (slot : Nat) i, d.inputs[slot]? = some i → d'.inputs[slot]? = some i

section Keeps

variable {initial : S.Memory} {d d' : Draft} {v v' : Evaluation S}

theorem Keeps.refl (d : Draft) (v : Evaluation S) : Keeps d d v v where
  nodes _ n found := ⟨n.refs, found⟩
  values _ _ := rfl
  places _ data found := ⟨data.accessed, found⟩
  addresses _ _ := rfl
  actions _ _ recorded := recorded
  inputs _ _ found := found

variable (keeps : Keeps d d' v v')

include keeps

theorem Keeps.live (live : d.Live h) : d'.Live h := by
  obtain ⟨n, found⟩ := Option.isSome_iff_exists.mp live
  obtain ⟨refs, found'⟩ := keeps.nodes h n found
  exact Option.isSome_of_eq_some found'

theorem Keeps.known (known : d.Known p) : d'.Known p := by
  obtain ⟨data, found⟩ := Option.isSome_iff_exists.mp known
  obtain ⟨accessed, found'⟩ := keeps.places p data found
  exact Option.isSome_of_eq_some found'

theorem Keeps.grounded {a : Action} (grounded : d.Grounded a) : d'.Grounded a := by
  cases a with
  | load => exact keeps.known grounded
  | store => exact ⟨keeps.known grounded.1, keeps.live grounded.2⟩
  | boundary => exact grounded

theorem Keeps.derived (derived : d.Derived origin) : d'.Derived origin := by
  cases origin with
  | root => exact derived
  | chain parent link =>
    cases link with
    | member => exact ⟨keeps.known derived.1, derived.2⟩
    | index => exact ⟨keeps.known derived.1, keeps.live derived.2⟩

theorem Keeps.address (derived : d.Derived origin) (id : Id) :
    v'.address id origin = v.address id origin := by
  cases origin with
  | root => rfl
  | chain parent link =>
    cases link with
    | member => simp only [Evaluation.address, index, keeps.addresses parent derived.1]
    | index h =>
      simp only [Evaluation.address, index, keeps.addresses parent derived.1, keeps.values h derived.2]

theorem Keeps.placeId (known : d.Known p) : d'.placeId p = d.placeId p := by
  obtain ⟨data, found⟩ := Option.isSome_iff_exists.mp known
  obtain ⟨accessed, found'⟩ := keeps.places p data found
  rw [Draft.placeId, Draft.placeId, found, found']
  rfl

theorem Keeps.memoryAt (meant : v.Meant initial d) {k : Nat} (bound : k ≤ d.trace.size) :
    v'.memoryAt initial d'.trace k = v.memoryAt initial d.trace k := by
  induction k with
  | zero => rfl
  | succ k ih =>
    obtain ⟨a, recorded⟩ := Trace.action?_isSome (show k < d.trace.size by omega)
    have grounded := meant.actions k a recorded
    unfold Evaluation.memoryAt
    rw [keeps.actions k a recorded, recorded, ih (by omega)]
    cases a with
    | store p h => simp only [act, keeps.addresses p grounded.1, keeps.values h grounded.2]
    | load => rfl
    | boundary => rfl

theorem Keeps.denotes (meant : v.Meant initial d) {kind : NodeKind}
    {x : S.Value} (live : ∀ a ∈ operands, d.Live a) (denotes : v.Denotes initial d kind operands x)
    : v'.Denotes initial d' kind operands x := by
  cases denotes with
  | constant literal => exact .constant literal operands
  | input _ listed found =>
    obtain ⟨accessed, found'⟩ := keeps.places _ _ found
    have read := @Denotes.input S initial d' v' _ _ _ operands (keeps.inputs _ _ listed) found'
    exact read
  | @load k p h lastStore _ recorded =>
    have bound := Trace.action?_lt recorded
    rw [← keeps.memoryAt meant (Nat.le_of_lt bound), ← keeps.addresses p (meant.actions k _ recorded)]
    exact .load operands (keeps.actions k _ recorded)
  | @unary op a n found =>
    obtain ⟨refs, found'⟩ := keeps.nodes a n found
    rw [← keeps.values a (live a (by simp))]
    have computed := @Denotes.unary S initial d' v' op _ _ found'
    exact computed
  | @binary op a b l r left right =>
    obtain ⟨refs, left'⟩ := keeps.nodes a l left
    obtain ⟨refs', right'⟩ := keeps.nodes b r right
    rw [← keeps.values a (live a (by simp)), ← keeps.values b (live b (by simp))]
    have computed := @Denotes.binary S initial d' v' op _ _ _ _ left' right'
    exact computed
  | select c a r =>
    rw [← keeps.values c (live c (by simp)), ← keeps.values a (live a (by simp)),
      ← keeps.values r (live r (by simp))]
    exact .select c a r
  | construct =>
    have same : operands.map v.values = operands.map v'.values :=
      List.map_congr_left fun a member => (keeps.values a (live a member)).symm
    rw [same]
    exact .construct operands

structure Adds (initial : S.Memory) (d d' : Draft) (v' : Evaluation S) : Prop where
  nodes : ∀ h n, d'.graph.find? h = some n → d.Live h ∨ (∀ a ∈ n.operands, d'.Live a) ∧
    v'.Denotes initial d' n.kind n.operands (v'.values h) := by
      exact fun _ _ found => .inl (Option.isSome_of_eq_some found)
  places : ∀ p data, d'.places.find? p = some data → d.Known p ∨
    d'.Derived data.origin ∧ v'.addresses p = v'.address data.id data.origin := by
      exact fun _ _ found => .inl (Option.isSome_of_eq_some found)

/-- What has to be seen to when a draft and its evaluation grow. -/
theorem Meant.extend (meant : v.Meant initial d)
    (memory : v'.memory = v'.memoryAt initial d'.trace d'.trace.size)
    (actions : ∀ k a, d'.trace.action? k = some a → d.trace.action? k = some a ∨ d'.Grounded a)
    (adds : Adds initial d d' v') (stored : ∀ s ∈ Emit.finalStores d', d'.Known s.1 ∧ d'.Live s.2)
    (outputs : v'.outputs = d'.outputs.toList.map fun o => (d'.placeId o.place, v'.values o.value))
    (builtins : v'.builtins =
      d'.builtins.toList.map fun o => (d'.placeId o.place, v'.values o.value)) :
    v'.Meant initial d' where
  memory := memory
  actions k a recorded :=
    (actions k a recorded).elim (fun before => keeps.grounded (meant.actions k a before)) id
  nodes h n' found' := by
    rcases adds.nodes h n' found' with live | new
    · obtain ⟨n, found⟩ := Option.isSome_iff_exists.mp live
      obtain ⟨refs, kept⟩ := keeps.nodes h n found
      obtain rfl := Option.mem_unique found' kept
      obtain ⟨operands, denotes⟩ := meant.nodes h n found
      rw [keeps.values h live]
      exact ⟨fun a member => keeps.live (operands a member), keeps.denotes meant operands denotes⟩
    · exact new
  places p data' found' := by
    rcases adds.places p data' found' with known | new
    · obtain ⟨data, found⟩ := Option.isSome_iff_exists.mp known
      obtain ⟨accessed, kept⟩ := keeps.places p data found
      obtain rfl := Option.mem_unique found' kept
      obtain ⟨derived, address⟩ := meant.places p data found
      rw [keeps.addresses p known, address]
      exact ⟨keeps.derived derived, (keeps.address derived data.id).symm⟩
    · exact new
  stored := stored
  outputs := outputs
  builtins := builtins

theorem Keeps.outputs (meant : v.Meant initial d)
    (sameOutputs : d'.outputs = d.outputs) (sameBuiltins : d'.builtins = d.builtins) :
    (∀ s ∈ Emit.finalStores d', d'.Known s.1 ∧ d'.Live s.2) ∧
      v.outputs = d'.outputs.toList.map (fun o => (d'.placeId o.place, v'.values o.value)) ∧
      v.builtins = d'.builtins.toList.map (fun o => (d'.placeId o.place, v'.values o.value)) := by
  have same : ∀ s ∈ Emit.finalStores d, (d.placeId s.1, v.values s.2) =
      (d'.placeId s.1, v'.values s.2) := by
    intro s member
    obtain ⟨known, live⟩ := meant.stored s member
    rw [keeps.placeId known, keeps.values _ live]
  constructor
  · intro s member
    rw [Emit.finalStores, sameOutputs, sameBuiltins] at member
    exact (meant.stored s member).imp keeps.known keeps.live
  · rw [meant.outputs, meant.builtins, sameOutputs, sameBuiltins]
    exact ⟨List.map_congr_left fun o member => same (o.place, o.value)
        (List.mem_append_left _ (List.mem_map.mpr ⟨o, member, rfl⟩)),
      List.map_congr_left fun o member => same (o.place, o.value)
        (List.mem_append_right _ (List.mem_map.mpr ⟨o, member, rfl⟩))⟩

/-- A step that changes nodes and locations only. -/
theorem Meant.quiet (meant : v.Meant initial d)
    (trace : d'.trace = d.trace) (outputs : d'.outputs = d.outputs)
    (builtins : d'.builtins = d.builtins) (memory : v'.memory = v.memory)
    (written : v'.outputs = v.outputs) (roles : v'.builtins = v.builtins)
    (adds : Adds initial d d' v') : v'.Meant initial d' := by
  obtain ⟨stored, sameOutputs, sameBuiltins⟩ := keeps.outputs meant outputs builtins
  apply Meant.extend keeps meant _ _ adds stored (written.trans sameOutputs)
    (roles.trans sameBuiltins)
  · have within : d'.trace.size ≤ d.trace.size := Nat.le_of_eq (by rw [trace])
    rw [memory, meant.memory, keeps.memoryAt meant within, trace]
  · intro k a recorded
    rw [trace] at recorded
    exact .inl recorded

end Keeps

/-! One lemma for each way in which a call changes a draft. -/

section Step

variable {initial : S.Memory} {d : Draft} {v : Evaluation S} (meant : v.Meant initial d)

theorem values_give_of_ne {other : Handle} (x : S.Value) (differs : other ≠ h) :
    (v.give h x).values other = v.values other := if_neg differs

theorem values_give (h : Handle) (x : S.Value) : (v.give h x).values h = x := if_pos rfl

include meant

theorem Meant.withRef (value : Handle) : v.Meant initial (d.withRef value) := by
  have keeps : Keeps d (d.withRef value) v v :=
    { Keeps.refl d v with
      nodes := fun h n found => ⟨_, by rw [Draft.find?_withRef, found]; rfl⟩ }
  refine Meant.quiet keeps meant rfl rfl rfl rfl rfl rfl { nodes := fun h n found => ?_ }
  rw [Draft.find?_withRef, Option.map_eq_some_iff] at found
  obtain ⟨old, found, _⟩ := found
  exact .inl (Option.isSome_of_eq_some found)

theorem Meant.added (d' : Draft) (n : Node) (valid : d.graph.Valid)
    (graph : d'.graph = d.graph.added n)
    (places : d'.places = d.places) (trace : d'.trace = d.trace) (inputs : d'.inputs = d.inputs)
    (outputs : d'.outputs = d.outputs) (builtins : d'.builtins = d.builtins) {x : S.Value}
    (live : ∀ a ∈ n.operands, d.Live a) (denotes : v.Denotes initial d n.kind n.operands x) :
    (v.give d.graph.nextHandle x).Meant initial d' := by
  have new : ∀ h, d.Live h → h ≠ d.graph.nextHandle := by
    rintro _ alive rfl
    obtain ⟨n, found⟩ := Option.isSome_iff_exists.mp alive
    exact Nat.lt_irrefl _ (valid.serial_lt found)
  have keeps : Keeps d d' v (v.give d.graph.nextHandle x) :=
    { nodes := fun h old found => by
        have alive : d.Live h := Option.isSome_of_eq_some found
        rw [graph, valid.find?_added n live, if_neg (new h alive), found]
        exact ⟨_, rfl⟩
      values := fun h alive => values_give_of_ne x (new h alive)
      places := fun p data found => ⟨data.accessed, by rw [places, found]⟩
      addresses := fun _ _ => rfl
      actions := fun k a recorded => by rw [trace, recorded]
      inputs := fun slot i found => by rw [inputs, found] }
  refine Meant.quiet keeps meant trace outputs builtins rfl rfl rfl
    ⟨fun h n' found => ?_, fun p data found => .inl (Option.isSome_of_eq_some (places ▸ found))⟩
  rw [graph, valid.find?_added n live] at found
  split at found
  · rename_i same
    subst same
    obtain rfl := Option.some.inj found
    rw [values_give]
    exact .inr ⟨fun a member => keeps.live (live a member), keeps.denotes meant live denotes⟩
  · rw [Option.map_eq_some_iff] at found
    obtain ⟨old, found, _⟩ := found
    exact .inl (Option.isSome_of_eq_some found)

theorem Meant.withNode (valid : d.graph.Valid) {kind : NodeKind} {x : S.Value}
    (live : ∀ a ∈ operands, d.Live a) (denotes : v.Denotes initial d kind operands x) :
    (v.give d.graph.nextHandle x).Meant initial (d.withNode ty kind operands) :=
  meant.added (d.withNode ty kind operands)
    { id := d.nextId, ty, kind, operands, position := d.trace.position }
    valid rfl rfl rfl rfl rfl rfl live denotes

theorem Meant.withPlace (data : PlaceData) (derived : d.Derived data.origin) :
    (v.locate d.places.next (v.address data.id data.origin)).Meant initial (d.withPlace data) := by
  have new : ∀ p, d.Known p → p ≠ d.places.next := by
    rintro _ known rfl
    rw [Draft.Known, Places.find?_next] at known
    contradiction
  have keeps : Keeps d (d.withPlace data) v
      (v.locate d.places.next (v.address data.id data.origin)) :=
    { Keeps.refl d v with
      values := fun _ _ => rfl
      places := fun p old found => by
        have known : d.Known p := Option.isSome_of_eq_some found
        exact ⟨old.accessed, by rw [Draft.withPlace, Places.find?_push, if_neg (new p known), found]⟩
      addresses := fun p known => if_neg (new p known) }
  refine Meant.quiet keeps meant rfl rfl rfl rfl rfl rfl { places := fun p data' found => ?_ }
  rw [Draft.withPlace, Places.find?_push] at found
  split at found
  · rename_i same
    subst same
    obtain rfl := Option.some.inj found
    refine .inr ⟨keeps.derived derived, ?_⟩
    rw [keeps.address derived]
    exact if_pos rfl
  · exact .inl (Option.isSome_of_eq_some found)

/-- Lists that evaluation does not read may change, and inputs may be added. -/
theorem Meant.relist (d' : Draft) (graph : d'.graph = d.graph) (places : d'.places = d.places)
    (trace : d'.trace = d.trace) (outputs : d'.outputs = d.outputs)
    (builtins : d'.builtins = d.builtins)
    (inputs : ∀ (slot : Nat) i, d.inputs[slot]? = some i → d'.inputs[slot]? = some i) :
    v.Meant initial d' := by
  have keeps : Keeps d d' v v :=
    { nodes := fun h n found => ⟨n.refs, by rw [graph, found]⟩
      values := fun _ _ => rfl
      places := fun p data found => ⟨data.accessed, by rw [places, found]⟩
      addresses := fun _ _ => rfl
      actions := fun k a recorded => by rw [trace, recorded]
      inputs := inputs }
  exact Meant.quiet keeps meant trace outputs builtins rfl rfl rfl
    ⟨fun h n found => .inl (Option.isSome_of_eq_some (graph ▸ found)),
      fun p data found => .inl (Option.isSome_of_eq_some (places ▸ found))⟩

/-- The record grows by one action at locations that are there. -/
theorem Meant.withAction (d' : Draft) (a : Action) (touched : Place) (graph : d'.graph = d.graph)
    (places : d'.places = d.places.markAccessed touched) (grows : Trace.Grows d.trace d'.trace a)
    (inputs : d'.inputs = d.inputs) (outputs : d'.outputs = d.outputs)
    (builtins : d'.builtins = d.builtins) (grounded : d.Grounded a) :
    { v with memory := v.act v.memory a }.Meant initial d' := by
  have now : d'.trace.action? d.trace.size = some a := by rw [grows.action?, if_pos rfl]
  have before : ∀ k < d.trace.size, d'.trace.action? k = d.trace.action? k :=
    fun k bound => by rw [grows.action?, if_neg (Nat.ne_of_lt bound)]
  have keeps : Keeps d d' v { v with memory := v.act v.memory a } :=
    { nodes := fun h n found => ⟨n.refs, by rw [graph, found]⟩
      values := fun _ _ => rfl
      places := fun p data found => ⟨_, by rw [places, Places.find?_markAccessed, found]; rfl⟩
      addresses := fun _ _ => rfl
      actions := fun k b recorded => by rw [before k (Trace.action?_lt recorded), recorded]
      inputs := fun slot i found => by rw [inputs, found] }
  obtain ⟨stored, sameOutputs, sameBuiltins⟩ := keeps.outputs meant outputs builtins
  refine Meant.extend keeps meant ?_ ?_ ⟨fun h n found => .inl (Option.isSome_of_eq_some
    (graph ▸ found)), fun p data found => ?_⟩ stored sameOutputs sameBuiltins
  · rw [grows.size, memoryAt, now, keeps.memoryAt meant (Nat.le_refl _), ← meant.memory]
    cases a <;> rfl
  · intro k b recorded
    rcases Nat.lt_or_ge k d.trace.size with old | new
    · exact .inl (by rw [← before k old, recorded])
    · have bound := grows.size ▸ Trace.action?_lt recorded
      obtain rfl : k = d.trace.size := by omega
      obtain rfl := Option.mem_unique now recorded
      exact .inr (keeps.grounded grounded)
  · rw [places, Places.find?_markAccessed, Option.map_eq_some_iff] at found
    obtain ⟨old, found, _⟩ := found
    exact .inl (Option.isSome_of_eq_some found)

theorem Meant.rewrite {outputs : Array Output} {builtins : Array BuiltinOutput}
    {written roles : List (Id × S.Value)}
    (stored : ∀ s ∈ Emit.finalStores { d with outputs, builtins }, d.Known s.1 ∧ d.Live s.2)
    (sameOutputs : written = outputs.toList.map fun o => (d.placeId o.place, v.values o.value))
    (sameBuiltins : roles = builtins.toList.map fun o => (d.placeId o.place, v.values o.value)) :
    { v with outputs := written, builtins := roles }.Meant initial { d with outputs, builtins } := by
  have keeps : Keeps d { d with outputs, builtins } v
      { v with outputs := written, builtins := roles } := { Keeps.refl d v with }
  exact Meant.extend keeps meant (meant.memory.trans (keeps.memoryAt meant (Nat.le_refl _)).symm)
    (fun _ _ => .inl) {} stored sameOutputs sameBuiltins

theorem Meant.withOutput (known : d.Known p) (live : d.Live h) :
    { v with outputs := v.outputs ++ [(d.placeId p, v.values h)] }.Meant initial
      { d with outputs := d.outputs.push { value := h, place := p } } := by
  refine meant.rewrite (fun s member => ?_) (by simp [meant.outputs]) meant.builtins
  rw [Emit.finalStores, Array.toList_push, List.map_append, List.append_assoc] at member
  rcases List.mem_append.mp member with before | rest
  · exact meant.stored s (List.mem_append_left _ before)
  · rcases List.mem_append.mp rest with here | after
    · obtain rfl := List.mem_singleton.mp here
      exact ⟨known, live⟩
    · exact meant.stored s (List.mem_append_right _ after)

theorem Meant.withBuiltin {b : Builtin} (known : d.Known p) (live : d.Live h) :
    { v with builtins := v.builtins ++ [(d.placeId p, v.values h)] }.Meant initial
      { d with builtins := d.builtins.push { builtin := b, value := h, place := p } } := by
  refine meant.rewrite (fun s member => ?_) meant.outputs (by simp [meant.builtins])
  rw [Emit.finalStores, Array.toList_push, List.map_append, ← List.append_assoc] at member
  rcases List.mem_append.mp member with before | here
  · exact meant.stored s before
  · obtain rfl := List.mem_singleton.mp here
    exact ⟨known, live⟩

theorem Meant.withLoad (valid : d.graph.Valid) (known : d.Known p) (ty : Ty) :
    (v.load p d.graph.nextHandle).Meant initial (d.withLoad p ty) := by
  have recorded : v.Meant initial { d with
      places := d.places.markAccessed p, trace := d.trace.pushLoad p d.graph.nextHandle } :=
    meant.withAction _ (.load p _ _) p rfl rfl (Trace.grows_pushLoad ..) rfl rfl rfl known
  have now : (d.trace.pushLoad p d.graph.nextHandle).action? d.trace.size =
      some (.load p d.graph.nextHandle (d.trace.stores.find? p)) := by
    simp [Trace.action?, Trace.size, Trace.pushLoad, Trace.push]
  have memory : v.memoryAt initial (d.trace.pushLoad p d.graph.nextHandle) d.trace.size =
      v.memory := by
    have last := recorded.memory
    have size : (d.trace.pushLoad p d.graph.nextHandle).size = d.trace.size + 1 := by
      simp [Trace.size, Trace.pushLoad, Trace.push]
    rw [size, memoryAt, now] at last
    exact last.symm
  have denotes : v.Denotes initial { d with
      places := d.places.markAccessed p, trace := d.trace.pushLoad p d.graph.nextHandle }
      (.load d.trace.size) [] (S.readAt v.memory (v.addresses p)) := by
    rw [← memory]
    exact .load [] now
  exact recorded.added (d.withLoad p ty)
    { id := d.nextId, ty, kind := .load d.trace.size, operands := [], position := d.trace.position }
    valid rfl rfl rfl rfl rfl rfl (by simp) denotes

/-- A variable that is there already has its address. -/
theorem Meant.declare (found : d.places.find? p = some data) (root : data.origin = .root) :
    v.declare d p = v := by
  have address := (meant.places p data found).2
  rw [root] at address
  have same : (v.declare d p).addresses = v.addresses := by
    funext q
    by_cases here : q = p
    · subst here
      rw [address]
      simp [Evaluation.declare, locate, Draft.placeId, found, Evaluation.address]
    · exact if_neg here
  exact congrArg (fun a => { v with addresses := a }) same

end Step

end Evaluation

/-! What each call computes. -/

section Calls

open Evaluation

variable {S : Semantics} {initial : S.Memory} {d d' : Draft} {v : Evaluation S}

theorem Draft.placeId_push (places : d'.places = d.places.push data) :
    d'.placeId d.places.next = data.id := by
  simp [placeId, places, Places.find?_push]

theorem Draft.known_push (places : d'.places = d.places.push data) : d'.Known d.places.next := by
  simp [Known, places, Places.find?_push]

theorem Evaluation.Meant.withVariable (meant : v.Meant initial d) (storage : Storage) (pointee : Ty)
    (writable : Bool) :
    (v.declare (d.withVariable storage pointee writable) d.places.next).Meant initial
      (d.withVariable storage pointee writable) := by
  have placed := meant.withPlace (d.variableData storage pointee writable) trivial
  rw [Evaluation.declare, Draft.placeId_push rfl]
  exact placed

theorem Bound.listed (bound : Bound d set binding kind ty p d') :
    ∃ b, (d'.bindings.find? fun b => b.set == set && b.binding == binding) = some b ∧
      b.place = p := by
  cases bound with
  | again found => exact ⟨_, found, rfl⟩
  | new missing =>
    exact ⟨{ set, binding, kind, ty, place := d.places.next },
      by simp [Draft.withBinding, Array.find?_push, missing], rfl⟩

theorem Bound.meant (bound : Bound d set binding kind ty p d') (sound : d.Sound False)
    (meant : v.Meant initial d) : (v.declare d' p).Meant initial d' ∧ d'.Known p := by
  cases bound with
  | @again b found =>
    obtain ⟨data, known, root⟩ := sound.lists.bindings b (Array.mem_of_find?_eq_some found)
    rw [meant.declare known root]
    exact ⟨meant, Option.isSome_of_eq_some known⟩
  | new =>
    exact ⟨(meant.withVariable _ _ _).relist _ rfl rfl rfl rfl rfl fun _ _ found => found,
      Draft.known_push rfl⟩

/-- A new input slot, whose value is read from the memory the program starts with. -/
theorem Evaluation.Meant.withInput (meant : v.Meant initial d) (valid : d.graph.Valid) (ty : Ty) :
    ((v.declare (d.withInput ty) d.places.next).give d.graph.nextHandle
      (S.read initial ((d.withInput ty).placeId d.places.next) [])).Meant initial
        (d.withInput ty) := by
  let slot : Input := { ty, place := d.places.next, value := d.graph.nextHandle }
  let listed : Draft := { d.withVariable .input ty false with inputs := d.inputs.push slot }
  have placed : (v.declare listed d.places.next).Meant initial listed := by
    apply (meant.withVariable .input ty false).relist listed rfl rfl rfl rfl rfl
    intro k i found
    have bound : k < d.inputs.size := (Array.getElem?_eq_some_iff.mp found).1
    have apart : k ≠ d.inputs.size := by omega
    rw [show listed.inputs = d.inputs.push slot from rfl, Array.getElem?_push, if_neg apart]
    exact found
  have denotes : (v.declare listed d.places.next).Denotes initial listed (.input d.inputs.size) []
      (S.read initial (listed.placeId d.places.next) []) := by
    rw [Draft.placeId_push rfl]
    exact .input [] (Array.getElem?_push_size)
      (by simp [listed, Draft.withVariable, Draft.withPlace, slot, Places.find?_push])
  exact (placed.withNode valid (by simp) denotes).withRef d.graph.nextHandle

theorem Effect.meant {reply : Reply} (effect : Effect d c reply d') (straight : c.isStraight = true)
    (sound : d.Sound False) (meant : v.Meant initial d) :
    (c.evaluated initial d d' v reply).Meant initial d' := by
  have valid := sound.valid
  have live : ∀ {h n}, d.graph.find? h = some n → d.Live h := Option.isSome_of_eq_some
  have known : ∀ {p data}, d.places.find? p = some data → d.Known p := Option.isSome_of_eq_some
  cases effect with
  | addInput ty => exact meant.withInput valid ty
  | input | pointee | typeOf => exact meant
  | constant literal => exact meant.withNode valid (by simp) (.constant literal [])
  | binary _ left right | extract left right =>
    simp only [Call.evaluated, left, right]
    exact meant.withNode valid (by simp [live left, live right]) (.binary left right)
  | @sample source index s i ty left right =>
    have leveled : v.Meant initial d.withSampleLevel :=
      meant.relist _ rfl rfl rfl rfl rfl fun _ _ found => found
    have alive : ∀ a ∈ [source, index], d.Live a := by simp [live left, live right]
    simp only [Call.evaluated, left, right]
    exact leveled.withNode valid alive (.binary left right)
  | negate found =>
    simp only [Call.evaluated, found]
    exact meant.withNode valid (by simp [live found]) (.unary found)
  | select condition accept reject =>
    exact meant.withNode valid (by simp [live condition, live accept, live reject]) (.select _ _ _)
  | @construct ty parts count part _ _ alive =>
    apply meant.withNode valid _ (.construct parts)
    intro a member
    obtain ⟨n, found, _⟩ := alive a member
    exact live found
  | uniform bound | storage bound => exact (bound.meant sound meant).1
  | @texture set binding dim place d₁ data bound found =>
    have graph : d₁.graph = d.graph := by cases bound <;> rfl
    obtain ⟨declared, there⟩ := bound.meant sound meant
    obtain ⟨b, listed, rfl⟩ := bound.listed
    have listed' : ((d₁.withLoad b.place data.pointee).bindings.find? fun b =>
        b.set == set && b.binding == binding) = some b := listed
    have same : v.declare (d₁.withLoad b.place data.pointee) b.place = v.declare d₁ b.place := by
      simp [Evaluation.declare, Draft.placeId, Draft.withLoad, Places.find?_markAccessed, found]
    simp only [Call.evaluated, listed', same]
    exact declared.withLoad (by rwa [graph]) there data.pointee
  | localVariable ty =>
    exact (meant.withVariable _ _ _).relist _ rfl rfl rfl rfl rfl fun _ _ found => found
  | @member place index data ty found =>
    exact meant.withPlace (d.chainData place data (.member index) ty) ⟨known found, trivial⟩
  | @index place value data n ty found alive =>
    have held := meant.withRef value
    exact held.withPlace (d.chainData place data (.index value) ty)
      ⟨known found, Draft.withRef_live (live alive)⟩
  | load found => exact meant.withLoad valid (known found) _
  | @store place value data n found _ alive =>
    have held := meant.withRef value
    exact held.withAction (d.withStore place value) (.store place value) place rfl rfl ⟨rfl⟩ rfl rfl
      rfl ⟨known found, Draft.withRef_live (live alive)⟩
  | @output value n alive =>
    have held := (meant.withRef value).withVariable .output n.ty true
    exact held.withOutput (Draft.known_push rfl) (Draft.withRef_live (live alive))
  | @builtin b value n _ _ alive =>
    have held := (meant.withRef value).withVariable .output n.ty true
    exact held.withBuiltin (Draft.known_push rfl) (Draft.withRef_live (live alive))
  | retain => exact meant.withRef _
  | beginIf | beginElse | endIf | beginFor | endFor | breakLoop | continueLoop => contradiction

theorem Call.isStraight_builds (straight : c.isStraight = true) :
    c.builds = true ∧ c.restarts = false := by
  cases c with
  | beginIf | beginElse | endIf | beginFor | endFor | breakLoop | continueLoop | release | compile
  | reset => contradiction
  | _ => exact ⟨rfl, rfl⟩

theorem Evaluation.Meant.call (straight : c.isStraight = true) (sound : d.Sound False)
    (meant : v.Meant initial d) : (c.evaluate initial d v).Meant initial (c.leaves d) := by
  rcases Call.leaves_cases sound.valid (Call.isStraight_builds straight).1 with
    ⟨reply, answer, effect⟩ | ⟨⟨fault, answer⟩, same⟩
  · simp only [Call.evaluate, answer]
    exact effect.meant straight sound meant
  · simp only [Call.evaluate, answer, same]
    exact meant

theorem Evaluation.Meant.program {program : List Call}
    (straight : ∀ c ∈ program, c.isStraight = true) (sound : d.Sound False)
    (meant : v.Meant initial d) :
    (d.evaluate initial v program).Meant initial (d.after program) := by
  induction program generalizing d v with
  | nil => exact meant
  | cons c rest ih =>
    have first := straight c (by simp)
    have steps := Call.leaves_steps sound (Call.isStraight_builds first).2 False.elim
    exact ih (fun b member => straight b (List.mem_cons_of_mem c member)) (steps.sound sound)
      (meant.call first sound)

theorem Evaluation.meant_new (initial : S.Memory) (settings : Settings) :
    (Evaluation.start initial).Meant initial (Draft.new settings) where
  memory := rfl
  actions k a recorded := by simp [Draft.new, Trace.action?] at recorded
  nodes h n found := by simp [Draft.new, Graph.find?] at found
  places p data found := by simp [Draft.new, Places.find?] at found
  stored s member := by simp [Draft.new, Emit.finalStores] at member
  outputs := rfl
  builtins := rfl

end Calls

end ShaderIR
