import ShaderIR.Proofs.Faults

/-! Renaming the handles of a draft. Serials and places go on counting when a draft starts over, so
the handles of a later program are those of a first program moved up by fixed amounts. Everything a
draft holds is renamed here, and every question asked of a draft has the renamed answer. -/
namespace ShaderIR

variable {p : Place} {f : Fault}

/-- How far handles are moved up. Slots are not moved: they are used again. -/
structure Shift where
  serials : Nat
  indices : Nat

namespace Shift

variable (s : Shift)

def handle (h : Handle) : Handle := { h with serial := h.serial + s.serials }

def place (p : Place) : Place := ⟨p.index + s.indices⟩

def node (n : Node) : Node :=
  { n with operands := n.operands.map s.handle, serial := n.serial + s.serials }

def graph (g : Graph) : Graph where
  slots := g.slots.map (Option.map s.node)
  edges := g.edges
  free := g.free
  nextSerial := g.nextSerial + s.serials

def link : Link → Link
  | .member index => .member index
  | .index value => .index (s.handle value)

def origin : Origin → Origin
  | .root => .root
  | .chain parent l => .chain (s.place parent) (s.link l)

def data (data : PlaceData) : PlaceData := { data with origin := s.origin data.origin }

def table (ps : Places) : Places where
  base := ps.base + s.indices
  entries := ps.entries.map s.data

def action : Action → Action
  | .load p h lastStore => .load (s.place p) (s.handle h) lastStore
  | .store p h => .store (s.place p) (s.handle h)
  | .boundary b => .boundary b

def event (e : Event) : Event := { e with action := s.action e.action }

def trace (t : Trace) : Trace :=
  { t with
    events := t.events.map s.event
    stores := t.stores.map fun (p, event) => (s.place p, event) }

def selection (x : Selection) : Selection := { x with condition := s.handle x.condition }

def loop (l : CountedLoop) : CountedLoop :=
  { l with
    first := s.handle l.first
    last := s.handle l.last
    step := s.handle l.step
    counter := s.place l.counter }

def input (i : Input) : Input := { i with place := s.place i.place, value := s.handle i.value }

def output (o : Output) : Output := { value := s.handle o.value, place := s.place o.place }

def builtin (o : BuiltinOutput) : BuiltinOutput :=
  { o with value := s.handle o.value, place := s.place o.place }

def binding (b : Binding) : Binding := { b with place := s.place b.place }

def draft (types : TypeTable) (d : Draft) : Draft :=
  { d with
    graph := s.graph d.graph
    places := s.table d.places
    trace := s.trace d.trace
    types
    selections := d.selections.map s.selection
    loops := d.loops.map s.loop
    inputs := d.inputs.map s.input
    outputs := d.outputs.map s.output
    bindings := d.bindings.map s.binding
    builtins := d.builtins.map s.builtin
    locals := d.locals.map s.place }

/-- Only the fault that a location is unknown names a handle as it was given out. -/
def fault : Fault → Fault
  | .unknownPlace index => .unknownPlace (index + s.indices)
  | other => other

def call : Call → Call
  | .binary op lhs rhs => .binary op (s.handle lhs) (s.handle rhs)
  | .negate value => .negate (s.handle value)
  | .select condition accept reject =>
      .select (s.handle condition) (s.handle accept) (s.handle reject)
  | .construct ty parts => .construct ty (parts.map s.handle)
  | .member p index => .member (s.place p) index
  | .index p value => .index (s.place p) (s.handle value)
  | .pointee p => .pointee (s.place p)
  | .load p => .load (s.place p)
  | .store p value => .store (s.place p) (s.handle value)
  | .beginIf condition => .beginIf (s.handle condition)
  | .output value => .output (s.handle value)
  | .builtin b value => .builtin b (s.handle value)
  | .retain value => .retain (s.handle value)
  | .release value => .release (s.handle value)
  | .typeOf value => .typeOf (s.handle value)
  | other => other

def reply : Reply → Reply
  | .value h => .value (s.handle h)
  | .place p => .place (s.place p)
  | other => other

variable {s}

@[simp] theorem handle_slot (h : Handle) : (s.handle h).slot = h.slot := rfl

theorem place_inj {q : Place} : s.place p = s.place q ↔ p = q := by
  constructor
  · intro same
    obtain ⟨index⟩ := p
    obtain ⟨index'⟩ := q
    simp only [place, Place.mk.injEq] at same
    rw [Place.mk.injEq]
    omega
  · exact congrArg s.place

/-! Graphs. -/

@[simp] theorem graph_find? (g : Graph) (h : Handle) :
    (s.graph g).find? (s.handle h) = (g.find? h).map s.node := by
  simp only [Graph.find?, graph, Array.getElem?_map, handle_slot]
  rcases g.slots[h.slot]? with _ | _ | n
  · rfl
  · rfl
  · simp only [Option.map_some, node, handle, Nat.add_right_cancel_iff]
    split <;> rfl

@[simp] theorem graph_node (g : Graph) (h : Handle) :
    (s.graph g).node (s.handle h) = (g.node h).map s.node := by
  simp only [Graph.node, graph_find?, handle_slot]
  cases g.find? h <;> rfl

@[simp] theorem graph_contains (g : Graph) (h : Handle) :
    (s.graph g).contains (s.handle h) = g.contains h := by
  simp only [Graph.contains, graph_find?, Option.isSome_map]

@[simp] theorem graph_typeOf (g : Graph) (h : Handle) :
    (s.graph g).typeOf (s.handle h) = g.typeOf h := by
  simp only [Graph.typeOf, graph_node]
  cases g.node h <;> rfl

@[simp] theorem graph_operandsAt (g : Graph) (slot : Nat) :
    (s.graph g).operandsAt slot = (g.operandsAt slot).map s.handle := by
  have handles : ∀ slot, (s.graph g).handleAt? slot = (g.handleAt? slot).map s.handle := by
    intro slot
    simp only [Graph.handleAt?, graph, Array.getElem?_map]
    cases g.slots[slot]? with
    | none => rfl
    | some content => cases content <;> rfl
  simp only [Graph.operandsAt, handles, List.map_filterMap]
  rfl

theorem graph_setSlot (g : Graph) (slot : Nat) (content : Option Node) :
    (s.graph g).setSlot slot (content.map s.node) = s.graph (g.setSlot slot content) := by
  simp only [Graph.setSlot, graph, Array.map_setIfInBounds]

@[simp] theorem graph_addRef (g : Graph) (h : Handle) :
    (s.graph g).addRef (s.handle h) = s.graph (g.addRef h) := by
  simp only [Graph.addRef, graph_find?]
  cases g.find? h with
  | none => rfl
  | some n => exact graph_setSlot g h.slot (some { n with refs := n.refs + 1 })

@[simp] theorem graph_retain (g : Graph) (h : Handle) :
    (s.graph g).retain (s.handle h) = (g.retain h).map s.graph := by
  simp only [Graph.retain, graph_node, graph_addRef]
  cases g.node h <;> rfl

theorem graph_foldl_addRef (g : Graph) (operands : List Handle) :
    (operands.map s.handle).foldl Graph.addRef (s.graph g) =
      s.graph (operands.foldl Graph.addRef g) := by
  induction operands generalizing g with
  | nil => rfl
  | cons h rest ih => rw [List.map_cons, List.foldl_cons, List.foldl_cons, graph_addRef, ih]

theorem graph_place (g : Graph) (n : Node) :
    (s.graph g).place (s.node n) = (s.graph (g.place n).1, (g.place n).2) := by
  unfold Graph.place
  cases free : g.free with
  | nil => simp [graph, free, Array.map_push]
  | cons slot rest => simp [graph, free, Graph.setSlot, Array.map_setIfInBounds]

theorem graph_wire (g : Graph) (slot : Nat) (operands : List Handle) :
    (s.graph g).wire slot (operands.map s.handle) = s.graph (g.wire slot operands) := by
  simp only [Graph.wire, graph, List.zipIdx_map, List.map_map]
  rfl

theorem graph_checks (g : Graph) (operands : List Handle) :
    ((operands.map s.handle).forM fun h => do let _ ← (s.graph g).node h : Except Fault PUnit) =
      (operands.forM fun h => do let _ ← g.node h : Except Fault PUnit) := by
  induction operands with
  | nil => rfl
  | cons h rest ih =>
    rw [List.map_cons, List.forM_eq_forM, List.forM_cons, List.forM_cons, ← List.forM_eq_forM, ih,
      graph_node]
    cases g.node h <;> rfl

@[simp] theorem graph_insert (g : Graph) (n : Node) :
    (s.graph g).insert { n with operands := n.operands.map s.handle } =
      (g.insert n).map fun (g', h) => (s.graph g', s.handle h) := by
  simp only [Graph.insert, graph_checks]
  cases n.operands.forM fun h => do let _ ← g.node h with
  | error fault => rfl
  | ok _ =>
    have placed := graph_place (s := s) { g with nextSerial := g.nextSerial + 1 }
      { n with serial := g.nextSerial, refs := 0 }
    have serial : (s.graph g).nextSerial + 1 = g.nextSerial + 1 + s.serials := by
      simp only [graph]
      omega
    simp only [node, graph] at placed
    simp only [bind, Except.bind, pure, Except.pure, Except.map, serial]
    simp only [graph, placed]
    refine congrArg Except.ok (Prod.ext ?_ rfl)
    refine Eq.trans ?_ (graph_foldl_addRef _ n.operands)
    exact congrArg (List.foldl Graph.addRef · _) (graph_wire _ _ n.operands)

theorem graph_erase (g : Graph) (slot : Nat) :
    (s.graph g).erase slot = s.graph (g.erase slot) := by
  simp only [Graph.erase, Graph.setSlot, graph, Array.map_setIfInBounds, Option.map_none]

theorem graph_handles (g : Graph) : (s.graph g).handles = g.handles.map s.handle := by
  simp only [Graph.handles, graph, Array.toList_map, List.zipIdx_map, List.filterMap_map,
    List.map_filterMap]
  congr 1
  funext ⟨n, slot⟩
  cases n <;> rfl

theorem graph_operandCount (g : Graph) : (s.graph g).operandCount = g.operandCount := by
  simp only [Graph.operandCount, graph, Array.toList_map, List.foldl_map]
  congr 1
  funext count n
  cases n with
  | none => rfl
  | some n => simp [node]

def released : EStateM.Result Fault Graph Unit → EStateM.Result Fault Graph Unit
  | .ok u g => .ok u (s.graph g)
  | .error f g => .error f (s.graph g)

theorem graph_releaseAll (steps : Nat) (work : List Handle) (g : Graph) :
    Graph.releaseAll steps (work.map s.handle) (s.graph g) =
      released (s := s) (Graph.releaseAll steps work g) := by
  induction steps generalizing work g with
  | zero => cases work <;> rfl
  | succ steps ih =>
    cases work with
    | nil => rfl
    | cons h rest =>
      simp only [List.map_cons, Graph.releaseAll, graph_find?]
      cases g.find? h with
      | none => rfl
      | some n =>
        simp only [Option.map_some, handle_slot, graph_erase, graph_operandsAt, ← List.map_append]
        have kept := graph_setSlot (s := s) g h.slot (some { n with refs := n.refs - 1 })
        by_cases shared : 1 < n.refs
        · rw [if_pos shared, if_pos (show 1 < (s.node n).refs from shared), ← ih, ← kept]
          rfl
        · rw [if_neg shared, if_neg (show ¬1 < (s.node n).refs from shared), ih]

@[simp] theorem graph_release (g : Graph) (h : Handle) :
    (s.graph g).release (s.handle h) = released (s := s) (g.release h) := by
  rw [Graph.release, graph_operandCount]
  exact graph_releaseAll (g.operandCount + 1) [h] g

/-! Locations. -/

@[simp] theorem table_find? (ps : Places) (p : Place) :
    (s.table ps).find? (s.place p) = (ps.find? p).map s.data := by
  simp only [Places.find?, table, place, Nat.add_lt_add_iff_right, Nat.add_sub_add_right,
    Array.getElem?_map]
  split <;> rfl

@[simp] theorem table_get (ps : Places) (p : Place) :
    (s.table ps).get (s.place p) = ((ps.get p).map s.data).mapError s.fault := by
  simp only [Places.get, table_find?]
  cases ps.find? p <;> rfl

theorem table_next (ps : Places) : (s.table ps).next = s.place ps.next := by
  simp only [Places.next, table, place, Array.size_map, Place.mk.injEq]
  omega

theorem table_push (ps : Places) (data : PlaceData) :
    (s.table ps).push (s.data data) = s.table (ps.push data) := by
  simp only [Places.push, table, Array.map_push]

@[simp] theorem table_markAccessed (ps : Places) (p : Place) :
    (s.table ps).markAccessed (s.place p) = s.table (ps.markAccessed p) := by
  simp only [Places.markAccessed, table_find?]
  cases ps.find? p with
  | none => rfl
  | some data =>
    simp only [Option.map_some, table, Array.map_setIfInBounds, place, Nat.add_sub_add_right]
    rfl

theorem data_isChain (data : PlaceData) : (s.data data).isChain = data.isChain := by
  simp only [PlaceData.isChain, Shift.data]
  cases data.origin <;> rfl

theorem table_chains (ps : Places) : (s.table ps).chains = ps.chains.map s.place := by
  simp only [Places.chains, table, Array.toList_map, List.zipIdx_map, List.filterMap_map,
    List.map_filterMap]
  congr 1
  funext ⟨data, index⟩
  simp only [Function.comp, Prod.map, id, data_isChain]
  split
  · simp only [Option.map_some, place, Option.some.injEq, Place.mk.injEq]
    omega
  · rfl

theorem table_walk (ps : Places) (steps : Nat) (p : Place) (links : List Link) :
    (s.table ps).walk steps (s.place p) (links.map s.link) =
      ((ps.walk steps p links).map fun (root, links) =>
        (s.place root, links.map s.link)).mapError s.fault := by
  induction steps generalizing p links with
  | zero => rfl
  | succ steps ih =>
    simp only [Places.walk, table_get]
    cases ps.get p with
    | error fault => rfl
    | ok data =>
      cases origin : data.origin with
      | root =>
        simp only [Except.map, bind, Except.bind, Shift.data, Shift.origin, origin]
        rfl
      | chain parent link =>
        simp only [Except.map, bind, Except.bind, Shift.data, Shift.origin, origin]
        exact ih parent (link :: links)

@[simp] theorem table_flatten (ps : Places) (p : Place) :
    (s.table ps).flatten (s.place p) =
      ((ps.flatten p).map fun (root, links) => (s.place root, links.map s.link)).mapError
        s.fault := by
  simp only [Places.flatten, table_get]
  cases ps.get p with
  | error fault => rfl
  | ok data => exact table_walk ps data.depth p []

/-! Records of events. -/

theorem find?_shift (stores : Assoc Place Nat) (p : Place) :
    Assoc.find? (stores.map fun (q, event) => (s.place q, event)) (s.place p) =
      stores.find? p := by
  induction stores with
  | nil => rfl
  | cons entry rest ih =>
    obtain ⟨q, event⟩ := entry
    simp only [List.map_cons, Assoc.find?, place_inj, ih]

theorem insert_shift (stores : Assoc Place Nat) (p : Place) (event : Nat) :
    Assoc.insert (stores.map fun (q, event) => (s.place q, event)) (s.place p) event =
      (stores.insert p event).map fun (q, event) => (s.place q, event) := by
  induction stores with
  | nil => rfl
  | cons entry rest ih =>
    obtain ⟨q, old⟩ := entry
    simp only [List.map_cons, Assoc.insert, place_inj, ih]
    split <;> rfl

@[simp] theorem trace_size (t : Trace) : (s.trace t).size = t.size := by
  simp only [Trace.size, trace, Array.size_map]

@[simp] theorem trace_position (t : Trace) : (s.trace t).position = t.position := by
  rw [Trace.position, trace_size]
  rfl

theorem trace_push (t : Trace) (action : Action) :
    (s.trace t).push (s.action action) = s.trace (t.push action) := by
  simp only [Trace.push, trace, Array.map_push]
  rfl

@[simp] theorem trace_pushLoad (t : Trace) (p : Place) (h : Handle) :
    (s.trace t).pushLoad (s.place p) (s.handle h) = s.trace (t.pushLoad p h) := by
  simp only [Trace.pushLoad]
  rw [show (s.trace t).stores.find? (s.place p) = t.stores.find? p from find?_shift t.stores p]
  exact trace_push t (.load p h (t.stores.find? p))

@[simp] theorem trace_pushStore (t : Trace) (p : Place) (h : Handle) :
    (s.trace t).pushStore (s.place p) (s.handle h) = s.trace (t.pushStore p h) := by
  have pushed := trace_push (s := s) t (.store p h)
  simp only [Trace.pushStore, trace_size]
  rw [show Action.store (s.place p) (s.handle h) = s.action (.store p h) from rfl, pushed]
  rw [show (s.trace t).stores.insert (s.place p) t.size = _ from insert_shift t.stores p t.size]
  rfl

@[simp] theorem trace_pushBoundary (t : Trace) (b : Boundary) :
    (s.trace t).pushBoundary b = s.trace (t.pushBoundary b) := by
  have pushed := trace_push (s := s) t (.boundary b)
  simp only [Trace.pushBoundary, trace_size]
  rw [show (s.trace t).push (.boundary b) = s.trace (t.push (.boundary b)) from pushed]
  cases b <;> rfl

@[simp] theorem trace_action? (t : Trace) (k : Nat) :
    (s.trace t).action? k = (t.action? k).map s.action := by
  simp only [Trace.action?, trace, Array.getElem?_map, Option.map_map]
  rfl

theorem trace_enclosesWithin (t : Trace) (outer inner : Option Nat) (steps : Nat) :
    (s.trace t).enclosesWithin outer steps inner = t.enclosesWithin outer steps inner := by
  induction steps generalizing inner with
  | zero =>
    unfold Trace.enclosesWithin
    cases inner <;> rfl
  | succ steps ih =>
    unfold Trace.enclosesWithin
    cases inner with
    | none => rfl
    | some region =>
      dsimp only
      rw [ih]
      rfl

@[simp] theorem trace_dominates (t : Trace) (position : Position) (k : Nat) :
    (s.trace t).dominates position k = t.dominates position k := by
  simp only [Trace.dominates, Trace.encloses, trace_enclosesWithin, trace_size]
  simp only [trace, Array.getElem?_map]
  cases t.events[k]? <;> rfl

end Shift

theorem Fault.Plain.fault (plain : f.Plain) (s : Shift) : s.fault f = f := by
  cases f with
  | unknownPlace => contradiction
  | _ => rfl

/-- The second fault is the first one renamed, which is not about unpaired blocks. -/
def Shift.Repeats (s : Shift) (f g : Fault) : Prop := g = s.fault f ∧ f.isUnpaired = false

theorem Shift.repeats_modest (s : Shift) (modest : f.isModest = true) : s.Repeats f f := by
  cases f with
  | unknownPlace | controlFlow | cyclicValue => contradiction
  | _ => exact ⟨rfl, rfl⟩

theorem Places.get_paired {ps : Places} (refused : ps.get p = .error f) : f.isUnpaired = false := by
  unfold get at refused
  split at refused
  · contradiction
  · rw [← Except.error.inj refused]
    rfl

end ShaderIR
