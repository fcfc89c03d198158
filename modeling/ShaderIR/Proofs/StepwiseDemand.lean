import ShaderIR.Proofs.Stepwise

/-! Walking through the function body and the declaration of the variables. Values, events and
locations are asked for on both sides, by the handles of the draft on the one and by their renamed
twins on the other; nothing of it is refused because blocks are not paired. -/
namespace ShaderIR

variable {ps : Places} {p : Place} {f : Fault} {fault : FlowFault}

theorem Places.walk_paired {n : Nat} {links : List Link} (refused : ps.walk n p links = .error f) :
    f.isUnpaired = false := by
  induction n generalizing p links with
  | zero =>
    rw [← Except.error.inj refused]
    rfl
  | succ n ih =>
    rw [walk] at refused
    cases found : ps.get p with
    | error f' =>
      rw [found] at refused
      rw [← Except.error.inj refused]
      exact get_paired found
    | ok data =>
      rw [found] at refused
      cases origin : data.origin with
      | root =>
        simp only [bind, Except.bind, origin] at refused
        contradiction
      | chain parent link =>
        simp only [bind, Except.bind, origin] at refused
        exact ih refused

theorem Places.flatten_paired (refused : ps.flatten p = .error f) : f.isUnpaired = false := by
  unfold flatten at refused
  cases found : ps.get p with
  | error f' =>
    rw [found] at refused
    rw [← Except.error.inj refused]
    exact get_paired found
  | ok data =>
    rw [found] at refused
    exact walk_paired refused

/-- Two ways of asking whose answers, for a handle and its renamed twin, have a property. -/
structure Demand.Stepwise (s : Shift) (P : {α β : Type} → (α → β) → Emit α → Emit β → Prop)
    (below below' : Demand) : Prop where
  value : ∀ h, P id (below.value h) (below'.value (s.handle h))
  event : ∀ k, P id (below.event k) (below'.event k)
  place : ∀ p, P id (below.place p) (below'.place (s.place p))

namespace Emit

variable {s : Shift} {P : {α β : Type} → (α → β) → Emit α → Emit β → Prop}

section Asking

variable (steps : Declaring s P) (table : TypeTable) (d : Draft) {below below' : Demand}
  (asking : below.Stepwise s P below')

omit steps in
theorem walk_ite {α β : Type} {value : α → β} {b c : Bool} (same : c = b) {x x' : Emit α}
    {y y' : Emit β} (first : P value x y) (second : P value x' y') :
    P value (if b then x else x') (if c then y else y') := by
  subst same
  cases c
  · exact second
  · exact first

include steps

theorem walk_typeOf (h : Handle) :
    P id (check (d.graph.typeOf h)) (check ((s.draft table d).graph.typeOf (s.handle h))) := by
  rw [show (s.draft table d).graph.typeOf (s.handle h) = d.graph.typeOf h from
    Shift.graph_typeOf d.graph h]
  exact walk_plain steps.core (modest_typeOf d.graph h)

theorem walk_node (h : Handle) :
    P s.node (check (d.graph.node h)) (check ((s.draft table d).graph.node (s.handle h))) := by
  have repeats := fun f eq => s.repeats_modest (modest_node d.graph h f eq)
  refine walk_check steps.core ?_ fun refused => (repeats _ refused).2
  rw [show (s.draft table d).graph.node (s.handle h) = (d.graph.node h).map s.node from
    Shift.graph_node d.graph h]
  cases eq : d.graph.node h with
  | ok n => rfl
  | error f => exact congrArg Except.error (repeats f eq).1

theorem walk_last (instruction : Instruction) (id : Id) :
    P (fun i => i) (do write instruction; return id) (do write instruction; return id) :=
  steps.next (walk_write steps.core instruction) fun _ => steps.pure _ id

/-- Moving a construct on is a test of its phase and an update that both sides make alike. -/
theorem walk_advance {wrong : Prop} [Decidable wrong] {f : Emission → Emission} (value : α → β)
    (x : α) (paired : fault.isUnpaired = false)
    (alike : ∀ e e', s.Mirrors e e' → s.Mirrors (f e) (f e'))
    (onward : ∀ e : Emission, e.Onward (f e)) :
    P value
      (do
        if wrong then throw (.controlFlow fault)
        modify f
        return x)
      (do
        if wrong then throw (.controlFlow fault)
        modify f
        return value x) := by
  have advance := steps.next (steps.proceed alike onward) fun _ => steps.pure value x
  split
  · exact steps.next (steps.throw id paired) fun _ => advance
  · exact advance

theorem walk_advanceSelection (index : Nat) (expected : List Phase) (next : Phase)
    (paired : fault.isUnpaired = false) :
    P s.selection (advanceSelection d index expected next fault)
      (advanceSelection (s.draft table d) index expected next fault) := by
  unfold advanceSelection
  rw [show (s.draft table d).selections[index]? = d.selections[index]?.map s.selection from
    Array.getElem?_map ..]
  cases d.selections[index]? with
  | none => exact steps.throw s.selection rfl
  | some x =>
    refine steps.get fun e e' mirrors => ?_
    rw [mirrors.selectionPhases]
    exact walk_advance steps s.selection x paired (fun _ _ mirrors => { mirrors with
      selectionPhases := congrArg (Assoc.insert · index next) mirrors.selectionPhases })
        fun e => { Emission.Onward.refl e with }

theorem walk_advanceLoop (index : Nat) (expected next : Phase) (paired : fault.isUnpaired = false) :
    P s.loop (advanceLoop d index expected next fault)
      (advanceLoop (s.draft table d) index expected next fault) := by
  unfold advanceLoop
  rw [show (s.draft table d).loops[index]? = d.loops[index]?.map s.loop from
    Array.getElem?_map ..]
  cases d.loops[index]? with
  | none => exact steps.throw s.loop rfl
  | some l =>
    refine steps.get fun e e' mirrors => ?_
    rw [mirrors.loopPhases]
    exact walk_advance steps s.loop l paired (fun _ _ mirrors => { mirrors with
      loopPhases := congrArg (Assoc.insert · index next) mirrors.loopPhases })
        fun e => { Emission.Onward.refl e with }

include asking

theorem walk_inputValue (n : Node) (slot : Nat) :
    P id (inputValue d below n slot) (inputValue (s.draft table d) below' (s.node n) slot) := by
  unfold inputValue
  rw [show (s.draft table d).inputs[slot]? = d.inputs[slot]?.map s.input from Array.getElem?_map ..]
  cases d.inputs[slot]? with
  | none => exact steps.throw id rfl
  | some i =>
    exact steps.next (asking.place i.place) fun _ => steps.next (steps.type n.ty) fun _ =>
      walk_last steps _ n.id

theorem walk_lookupValue (n : Node) (source index : Handle) :
    P id (lookupValue d below n source index)
      (lookupValue (s.draft table d) below' (s.node n) (s.handle source) (s.handle index)) := by
  refine steps.next (walk_typeOf steps table d source) fun sourceTy =>
    steps.next (steps.type n.ty) fun type => ?_
  dsimp only
  split
  · exact steps.next (asking.value source) fun _ => steps.next (asking.value index) fun _ =>
      steps.next (steps.constant .floatZero) fun _ => walk_last steps _ n.id
  · split
    · refine steps.bind (walk_node steps table d index) fun indexNode =>
        steps.next (walk_plain steps.core (modest_constantIndex indexNode.kind)) fun column => ?_
      cases column with
      | none =>
        exact steps.next (walk_plain steps.core (modest_error.mpr rfl)) fun _ =>
          steps.pure id n.id
      | some column => exact steps.next (asking.value source) fun _ => walk_last steps _ n.id
    · exact steps.next (asking.value source) fun _ => steps.next (asking.value index) fun _ =>
        walk_last steps _ n.id

theorem walk_computedValue (n : Node) (arguments : List Handle) :
    P id (computedValue d below n arguments)
      (computedValue (s.draft table d) below' (s.node n) (arguments.map s.handle)) := by
  unfold computedValue
  rw [show (s.node n).kind = n.kind from rfl, show (s.node n).ty = n.ty from rfl]
  -- The shape of the node and the number of its operands decide between the forms.
  cases n.kind with
  | constant | input | load | construct =>
    dsimp only
    rw [List.length_map]
    exact steps.throw id rfl
  | unary op =>
    rcases arguments with _ | ⟨argument, _ | ⟨other, rest⟩⟩
    · exact steps.throw id rfl
    · exact steps.next (walk_typeOf steps table d argument) fun ty =>
        steps.next (walk_plain steps.core (modest_negate ty)) fun _ =>
          steps.next (asking.value argument) fun _ => steps.next (steps.type n.ty) fun _ =>
            walk_last steps _ n.id
    · simp only [List.map_cons, List.length_cons, List.length_map]
      exact steps.throw id rfl
  | select =>
    rcases arguments with _ | ⟨condition, _ | ⟨accept, _ | ⟨reject, _ | ⟨other, rest⟩⟩⟩⟩
    · exact steps.throw id rfl
    · exact steps.throw id rfl
    · exact steps.throw id rfl
    · exact steps.next (asking.value condition) fun _ => steps.next (asking.value accept) fun _ =>
        steps.next (asking.value reject) fun _ => steps.next (steps.type n.ty) fun _ =>
          walk_last steps _ n.id
    · simp only [List.map_cons, List.length_cons, List.length_map]
      exact steps.throw id rfl
  | binary op =>
    rcases arguments with _ | ⟨lhs, _ | ⟨rhs, _ | ⟨other, rest⟩⟩⟩
    · cases op <;> exact steps.throw id rfl
    · cases op <;> exact steps.throw id rfl
    · cases op with
      | lookup => exact walk_lookupValue steps table d asking n lhs rhs
      | _ =>
        exact steps.next (walk_typeOf steps table d lhs) fun lhsTy =>
          steps.next (walk_typeOf steps table d rhs) fun rhsTy =>
            steps.next (walk_plain steps.core (modest_lower _ lhsTy rhsTy)) fun _ =>
              steps.next (asking.value lhs) fun _ => steps.next (asking.value rhs) fun _ =>
                steps.next (steps.type n.ty) fun _ => walk_last steps _ n.id
    · simp only [List.map_cons, List.length_cons, List.length_map]
      cases op <;> exact steps.throw id rfl

theorem walk_constructedValue (n : Node) (arguments : List Handle) :
    P id (constructedValue below n arguments)
      (constructedValue below' (s.node n) (arguments.map s.handle)) := by
  refine steps.next (steps.type n.ty) fun type =>
    steps.bind (walk_mapM steps.core asking.value arguments) fun parts => ?_
  rw [List.map_id]
  exact walk_last steps _ n.id

theorem walk_loadedValue (slot event : Nat) :
    P id (loadedValue below slot event) (loadedValue below' slot event) := by
  refine steps.next (asking.event event) fun _ => steps.get fun e e' mirrors => ?_
  rw [mirrors.results]
  split
  · exact steps.pure id _
  · exact steps.throw id rfl

theorem walk_nodeValue (slot : Nat) (n : Node)
    (constant : ∀ literal, n.kind = .constant literal →
      P id (constant literal (some n.id)) (Emit.constant literal (some n.id))) :
    P id (nodeValue d below slot n) (nodeValue (s.draft table d) below' slot (s.node n)) := by
  have arguments : (s.draft table d).graph.operandsAt slot =
      (d.graph.operandsAt slot).map s.handle := Shift.graph_operandsAt d.graph slot
  unfold nodeValue
  rw [arguments, show (s.node n).kind = n.kind from rfl]
  cases kind : n.kind with
  | constant literal => exact constant literal kind
  | input slot => exact walk_inputValue steps table d asking n slot
  | load event => exact walk_loadedValue steps asking slot event
  | construct => exact walk_constructedValue steps asking n _
  | unary | binary | select => exact walk_computedValue steps table d asking n _

theorem walk_linkIndex (link : Link) :
    P id (linkIndex below link) (linkIndex below' (s.link link)) := by
  cases link with
  | member index => exact steps.constant _
  | index value => exact asking.value value

theorem walk_place (p : Place) :
    P id (place d below p) (place (s.draft table d) below' (s.place p)) := by
  refine steps.bind (walk_check steps.core (Shift.table_get d.places p) Places.get_paired)
    fun data => steps.get fun e e' mirrors => ?_
  simp only [mirrors.mem_reached]
  split
  · exact steps.pure id data.id
  · refine steps.bind (walk_check steps.core (Shift.table_flatten d.places p)
      Places.flatten_paired) fun path => ?_
    have chain : P id
        (do
          let base ← below.place path.1
          let type ← type data.ty
          let indices ← path.2.mapM (linkIndex below)
          write (.accessChain type data.id base indices)
          markReached p
          return data.id)
        (do
          let base ← below'.place (s.place path.1)
          let type ← type data.ty
          let indices ← (path.2.map s.link).mapM (linkIndex below')
          write (.accessChain type data.id base indices)
          markReached (s.place p)
          return data.id) := by
      refine steps.next (asking.place path.1) fun base => steps.next (steps.type data.ty)
        fun type => steps.bind (walk_mapM steps.core (walk_linkIndex steps asking) path.2)
          fun indices => ?_
      rw [List.map_id]
      exact steps.next (walk_write steps.core _) fun _ =>
        steps.next (walk_markReached steps.core p) fun _ => steps.pure id data.id
    dsimp only
    rw [show (path.2.map s.link).isEmpty = path.2.isEmpty from List.isEmpty_map]
    split
    · exact steps.next (steps.throw id rfl) fun _ => chain
    · exact chain

theorem walk_loadEvent {h : Handle} (result : ∀ n, d.graph.find? h = some n →
      P id (setResult h.slot n.id) (setResult h.slot n.id)) (p : Place) (lastStore : Option Nat) :
    P id (loadEvent d below p h lastStore)
      (loadEvent (s.draft table d) below' (s.place p) (s.handle h) lastStore) := by
  have load : P id (loadEvent d below p h none)
      (loadEvent (s.draft table d) below' (s.place p) (s.handle h) none) := by
    unfold loadEvent
    rw [show (s.draft table d).graph.find? (s.handle h) = (d.graph.find? h).map s.node from
      Shift.graph_find? d.graph h]
    cases found : d.graph.find? h with
    | none => exact steps.pure id _
    | some n =>
      exact steps.next (asking.place p) fun _ => steps.next (steps.type n.ty) fun _ =>
        steps.next (walk_write steps.core _) fun _ => result n found
  cases lastStore with
  | none => exact load
  | some store => exact steps.next (asking.event store) fun _ => load

theorem walk_storeEvent (p : Place) (h : Handle) :
    P id (storeEvent below p h) (storeEvent below' (s.place p) (s.handle h)) :=
  steps.next (asking.value h) fun _ => steps.next (asking.place p) fun _ =>
    walk_write steps.core _

theorem walk_defineDominating (k : Nat) :
    P id (defineDominating d below k) (defineDominating (s.draft table d) below' k) := by
  have dominates : ∀ position, (s.draft table d).trace.dominates position k =
      d.trace.dominates position k := fun position => Shift.trace_dominates d.trace position k
  unfold defineDominating
  rw [show (s.draft table d).graph.handles = d.graph.handles.map s.handle from
      Shift.graph_handles d.graph,
    show (s.draft table d).places.chains = d.places.chains.map s.place from
      Shift.table_chains d.places]
  refine steps.next (walk_forM steps.core (fun h => ?_) _) fun _ =>
    walk_forM steps.core (fun p => ?_) _
  · rw [show (s.draft table d).graph.find? (s.handle h) = (d.graph.find? h).map s.node from
      Shift.graph_find? d.graph h]
    cases d.graph.find? h with
    | none => exact steps.pure id _
    | some n =>
      refine steps.get fun e e' mirrors => walk_ite ?_
        (steps.next (asking.value h) fun _ => steps.pure id _) (steps.pure id _)
      rw [mirrors.results, dominates]
      rfl
  · rw [show (s.draft table d).places.find? (s.place p) = (d.places.find? p).map s.data from
      Shift.table_find? d.places p]
    cases d.places.find? p with
    | none => exact steps.pure id _
    | some data =>
      refine steps.get fun e e' mirrors => walk_ite ?_
        (steps.next (asking.place p) fun _ => steps.pure id _) (steps.pure id _)
      simp only [dominates, mirrors.mem_reached]
      rfl

theorem walk_boundaryEvent (k : Nat) (b : Boundary) :
    P id (boundaryEvent d below k b) (boundaryEvent (s.draft table d) below' k b) := by
  cases b with
  | ifBegin index =>
    exact steps.next (walk_defineDominating steps table d asking k) fun _ =>
      steps.bind (walk_advanceSelection steps table d index _ _ rfl) fun x =>
        steps.next (asking.value x.condition) fun _ => walk_writeAll steps.core _
  | ifElse index | ifEnd index =>
    exact steps.bind (walk_advanceSelection steps table d index _ _ rfl) fun _ =>
      walk_writeAll steps.core _
  | loopBegin index =>
    exact steps.next (walk_defineDominating steps table d asking k) fun _ =>
      steps.bind (walk_advanceLoop steps table d index _ _ rfl) fun l =>
        steps.next (asking.value l.first) fun first => steps.next (asking.value l.last) fun last =>
          steps.next (asking.place l.counter) fun counter =>
            steps.next (steps.type .sint) fun int => steps.next (steps.type .bool) fun bool =>
              steps.next steps.freshId fun current => steps.next steps.freshId fun computed =>
                walk_writeAll steps.core
                  (l.beginGroup { int, counter, current, computed } bool first last)
  | loopEnd index =>
    exact steps.bind (walk_advanceLoop steps table d index _ _ rfl) fun l =>
      steps.next (asking.value l.step) fun step => steps.next (asking.place l.counter)
        fun counter => steps.next (steps.type .sint) fun int => steps.next steps.freshId
          fun current => steps.next steps.freshId fun computed =>
            walk_writeAll steps.core (l.endGroup { int, counter, current, computed } step)
  | leave index | next index =>
    exact steps.bind (walk_advanceLoop steps table d index _ _ rfl) fun _ =>
      walk_writeAll steps.core _

omit asking in
theorem walk_functionBody
    (asking : (demand d d.levels).Stepwise s P (demand (s.draft table d) d.levels)) :
    P id (functionBody d) (functionBody (s.draft table d)) := by
  have inputs : (s.draft table d).inputs.toList = d.inputs.toList.map s.input :=
    Array.toList_map ..
  have stores : finalStores (s.draft table d) =
      (finalStores d).map fun pair => (s.place pair.1, s.handle pair.2) := by
    simp only [finalStores, Shift.draft, Array.toList_map, List.map_append, List.map_map]
    rfl
  have events : List.range (s.draft table d).trace.size = (List.range d.trace.size).map id := by
    rw [List.map_id]
    exact congrArg List.range (Shift.trace_size d.trace)
  unfold functionBody
  rw [inputs, stores, events, show (s.draft table d).levels = d.levels from rfl]
  refine steps.next (walk_forM steps.core (fun i => ?_) _) fun _ => ?_
  · exact steps.next (asking.value i.value) fun _ => steps.pure id _
  · exact steps.next (walk_forM steps.core asking.event _) fun _ =>
      walk_forM steps.core (fun pair => walk_storeEvent steps asking pair.1 pair.2) _

end Asking

section Noting

variable (steps : Noting s P) (table : TypeTable) (d : Draft) {below below' : Demand}
  (asking : below.Stepwise s P below')

include steps asking

theorem walk_value (h : Handle) :
    P id (value d below h) (value (s.draft table d) below' (s.handle h)) := by
  refine steps.bind (walk_node steps.inner table d h) fun n => steps.get fun e e' mirrors => ?_
  rw [mirrors.results, Shift.handle_slot]
  cases e.results.find? h.slot with
  | some id => exact steps.pure (fun i => i) id
  | none =>
    exact steps.next (walk_nodeValue steps.inner table d asking h.slot n
      fun literal _ => steps.named literal n.id) fun id =>
      steps.next (steps.result h.slot id) fun _ => steps.pure _ id

theorem walk_event (k : Nat) :
    P id (event d below k) (event (s.draft table d) below' k) := by
  unfold event
  rw [show (s.draft table d).trace.action? k = (d.trace.action? k).map s.action from
    Shift.trace_action? d.trace k]
  cases d.trace.action? k with
  | none => exact steps.throw id rfl
  | some action =>
    refine steps.get fun e e' mirrors => ?_
    rw [mirrors.written]
    split
    · exact steps.pure id _
    · refine steps.next (steps.proceed (fun _ _ mirrors => { mirrors with
        written := congrArg (List.cons k) mirrors.written }) fun e => { Emission.Onward.refl e with
          written := List.subset_cons_self k e.written }) fun _ => ?_
      cases action with
      | load p h lastStore =>
        exact walk_loadEvent steps.inner table d asking (fun n _ => steps.result h.slot n.id) p _
      | store p h => exact walk_storeEvent steps.inner asking p h
      | boundary b => exact walk_boundaryEvent steps.inner table d asking k b

omit asking in
theorem walk_demand (levels : Nat) :
    (demand d levels).Stepwise s P (demand (s.draft table d) levels) := by
  induction levels with
  | zero =>
    exact ⟨fun _ => steps.throw id rfl, fun _ => steps.throw id rfl, fun _ => steps.throw id rfl⟩
  | succ levels below =>
    exact ⟨walk_value steps table d below, walk_event steps table d below,
      walk_place steps.inner table d below⟩

omit asking in
theorem Noting.functionBody : P id (functionBody d) (functionBody (s.draft table d)) :=
  walk_functionBody steps.inner table d (walk_demand steps table d d.levels)

end Noting

/-! The variables. -/

section Exposing

variable (steps : Exposing s P) (table : TypeTable) (d : Draft)

include steps

theorem walk_variableDecl (p : Place) :
    P id (variableDecl d p) (variableDecl (s.draft table d) (s.place p)) := by
  refine steps.bind (walk_check steps.core (Shift.table_get d.places p) Places.get_paired)
    fun data => steps.next (steps.type data.ty) fun type => ?_
  have last : P id (do markReached p; return data.id)
      (do markReached (s.place p); return (s.data data).id) :=
    steps.next (walk_markReached steps.core p) fun _ => steps.pure id data.id
  rw [show (s.data data).storage = data.storage from rfl]
  cases data.storage with
  | function =>
    exact steps.next (steps.proceed (fun _ _ mirrors => { mirrors with
      locals := congrArg (Array.push · _) mirrors.locals }) fun e =>
        { Emission.Onward.refl e with locals := by simp }) fun _ => last
  | _ => exact steps.next (steps.variableDecl ..) fun _ => last

theorem walk_located (index : Nat) (places : List Place) :
    P id (located d index places) (located (s.draft table d) index (places.map s.place)) := by
  induction places generalizing index with
  | nil => exact steps.pure id []
  | cons p rest ih =>
    exact steps.next (walk_variableDecl steps table d p) fun id =>
      steps.next (steps.locate id rfl) fun _ => steps.next (ih (index + 1)) fun ids =>
        steps.pure _ (id :: ids)

theorem walk_builtinDecl (o : BuiltinOutput) :
    P id (builtinDecl d o) (builtinDecl (s.draft table d) (s.builtin o)) :=
  steps.next (walk_variableDecl steps table d o.place) fun id =>
    steps.next (steps.locate id rfl) fun _ => steps.pure _ id

theorem walk_locals (places : List Place) :
    P id (places.forM fun p => do let _ ← variableDecl d p)
      ((places.map s.place).forM fun p => do let _ ← variableDecl (s.draft table d) p) := by
  refine walk_forM steps.core (fun p => ?_) places
  exact steps.next (walk_variableDecl steps table d p) fun _ => steps.pure id _

end Exposing

section Whole

variable (steps : Whole s P) (table : TypeTable) (d : Draft)

include steps

theorem walk_bindingDecl (marked : List (Id × Decoration)) (b : Binding) :
    P id (bindingDecl d marked b) (bindingDecl (s.draft table d) marked (s.binding b)) := by
  refine steps.next (walk_variableDecl steps.outer table d b.place) fun id =>
    steps.next (steps.annotate _) fun _ => steps.next (steps.annotate _) fun _ => ?_
  rw [show (s.binding b).kind = b.kind from rfl]
  cases blockDecoration? b.kind with
  | none => exact steps.pure _ marked
  | some decoration =>
    refine steps.next (walk_declaredType steps.core b.ty) fun struct => ?_
    have last : ∀ marks : List (Id × Decoration), P (fun m => m)
        (do layout b.ty; return marks) (do layout b.ty; return marks) := fun marks =>
      steps.next (walk_layout steps.laying b.ty) fun _ => steps.pure _ marks
    dsimp only
    split
    · exact steps.next (steps.annotate _) fun _ => last _
    · exact last _

theorem walk_bindings (marked : List (Id × Decoration)) (bindings : List Binding) :
    P id (bindings.foldlM (bindingDecl d) marked)
      ((bindings.map s.binding).foldlM (bindingDecl (s.draft table d)) marked) := by
  induction bindings generalizing marked with
  | nil => exact steps.pure id marked
  | cons b rest ih =>
    rw [List.map_cons, List.foldlM_cons, List.foldlM_cons]
    exact steps.next (walk_bindingDecl steps table d marked b) fun marked => ih marked

theorem walk_allVariables : P id (allVariables d) (allVariables (s.draft table d)) := by
  have inputs : (s.draft table d).inputs.toList.map Input.place =
      (d.inputs.toList.map Input.place).map s.place := by
    simp [Shift.draft, Shift.input]
  have outputs : (s.draft table d).outputs.toList.map Output.place =
      (d.outputs.toList.map Output.place).map s.place := by
    simp [Shift.draft, Shift.output]
  have builtins : (s.draft table d).builtins.toList = d.builtins.toList.map s.builtin :=
    Array.toList_map ..
  have bindings : (s.draft table d).bindings.toList = d.bindings.toList.map s.binding :=
    Array.toList_map ..
  have locals : (s.draft table d).locals.toList = d.locals.toList.map s.place :=
    Array.toList_map ..
  unfold allVariables
  rw [inputs, outputs, builtins, bindings, locals]
  refine steps.next (walk_located steps.outer table d 0 _) fun inputs =>
    steps.next (walk_located steps.outer table d 0 _) fun outputs =>
      steps.bind (walk_mapM steps.core (walk_builtinDecl steps.outer table d) _) fun builtins => ?_
  rw [List.map_id]
  exact steps.next (walk_bindings steps table d [] _) fun _ =>
    steps.next (walk_locals steps.outer table d _) fun _ =>
      steps.pure id (inputs ++ outputs ++ builtins)

theorem walk_everything (closed : d.scopes = [])
    (asking : (demand d d.levels).Stepwise s P (demand (s.draft table d) d.levels)) :
    P id (everything d) (everything (s.draft table d)) := by
  unfold everything
  rw [show (s.draft table d).scopes = d.scopes from rfl, closed]
  exact steps.next (walk_entry steps.inner) fun ids =>
    steps.next (walk_allVariables steps table d) fun interface =>
      steps.next (walk_functionBody steps.inner table d asking) fun _ =>
        steps.pure id (ids, interface)

end Whole

end Emit

end ShaderIR
