import ShaderIR.Proofs.Meant
import ShaderIR.Proofs.Sections
import ShaderIR.Proofs.Tidy

/-! Straight-line programs keep their meaning. Executing what a compilation writes follows the
evaluation of the calls: whatever id holds a value holds the one that evaluation gave it, and memory
is at every event what it was at the call. -/
namespace ShaderIR

variable {i : Instruction} {links : List Link} {h : Handle} {n : Node} {a b : Emission}

namespace Machine

variable {S : Semantics}

def executeAll (s : Machine S) (is : List Instruction) : Option (Machine S) := is.foldlM execute s

theorem run_cons (s : Machine S) (goesOn : i ≠ .returnVoid) (rest : List Instruction) :
    s.run (i :: rest) = (s.execute i).bind fun t => t.run rest := by
  cases i with
  | returnVoid => contradiction
  | _ => rfl

theorem run_append {is js : List Instruction} {s t : Machine S} (executed : s.executeAll is = some t) :
    s.run (is ++ js) = t.run js := by
  induction is generalizing s with
  | nil =>
    obtain rfl := Option.some.inj executed
    rfl
  | cons i rest ih =>
    rw [executeAll, List.foldlM_cons] at executed
    obtain ⟨u, first, others⟩ := Option.bind_eq_some_iff.mp executed
    have goesOn : i ≠ .returnVoid := by
      rintro rfl
      simp [execute] at first
    rw [List.cons_append, run_cons s goesOn, first, Option.bind_some]
    exact ih others

theorem executeAll_append (s : Machine S) (is js : List Instruction) :
    s.executeAll (is ++ js) = (s.executeAll is).bind fun t => t.executeAll js :=
  List.foldlM_append

theorem executeAll_push {s t u : Machine S} {is : Array Instruction} {i : Instruction}
    (executed : s.executeAll is.toList = some t) (next : t.execute i = some u) :
    s.executeAll (is.push i).toList = some u := by
  rw [Array.toList_push, executeAll_append, executed, Option.bind_some, executeAll, List.foldlM_cons,
    next]
  rfl

theorem values_hold_of_ne {s : Machine S} {id other : Id} (x : S.Value) (differs : other ≠ id) :
    (s.hold id x).values other = s.values other := if_neg differs

theorem values_hold (s : Machine S) (id : Id) (x : S.Value) : (s.hold id x).values id = x :=
  if_pos rfl

def AtRoots (s : Machine S) : Prop := s.pointers = fun id => { root := id, indices := [] }

theorem execute_prelude {i : Instruction} (prelude : i.part ≠ .body ∨ ∃ id, i = .label id)
    {s : Machine S} (pointers : s.AtRoots) :
    ∃ t, s.execute i = some t ∧ t.memory = s.memory ∧ t.AtRoots ∧
      ((∀ type id literal, i ≠ .constant type id literal) ∧ t.values = s.values ∨
        ∃ type id literal, i = .constant type id literal ∧ t = s.hold id (S.literal literal)) := by
  rcases prelude with outside | ⟨id, rfl⟩
  · cases i with
    | constant type result literal => exact ⟨_, rfl, rfl, pointers, .inr ⟨_, _, _, rfl, rfl⟩⟩
    | variableDecl type result storage =>
      refine ⟨_, rfl, rfl, ?_, .inl ⟨by simp, rfl⟩⟩
      funext id
      simp only [point, show s.pointers = _ from pointers]
      split <;> simp [*]
    | capability | importSet | memoryModel | entryPoint | originUpperLeft | localSize | decorate
    | decorateMember | typeDecl | functionBegin | functionEnd =>
      exact ⟨s, rfl, rfl, pointers, .inl ⟨by simp, rfl⟩⟩
    | _ => exact absurd rfl outside
  · exact ⟨s, rfl, rfl, pointers, .inl ⟨by simp, rfl⟩⟩

/-- What stands before the body: it gives constants their values and changes nothing else. -/
theorem executeAll_prelude {is : List Instruction}
    (prelude : ∀ i ∈ is, i.part ≠ .body ∨ ∃ id, i = .label id) {s : Machine S} (pointers : s.AtRoots) :
    ∃ t, s.executeAll is = some t ∧ t.memory = s.memory ∧ t.AtRoots ∧
      ∀ id, ((∀ type literal, .constant type id literal ∉ is) → t.values id = s.values id) ∧
        ∀ literal, (∃ type, .constant type id literal ∈ is) →
          (∀ type' literal', .constant type' id literal' ∈ is → literal' = literal) →
          t.values id = S.literal literal := by
  induction is generalizing s with
  | nil => exact ⟨s, rfl, rfl, pointers, fun id => ⟨fun _ => rfl, by simp⟩⟩
  | cons i rest ih =>
    obtain ⟨u, first, memory, pointers', values⟩ := execute_prelude (prelude i (by simp)) pointers
    obtain ⟨t, others, memory', pointers'', values'⟩ :=
      ih (fun j member => prelude j (List.mem_cons_of_mem i member)) pointers'
    have executed : s.executeAll (i :: rest) = some t := by
      rw [executeAll, List.foldlM_cons, first]
      exact others
    refine ⟨t, executed, memory'.trans memory, pointers'', fun id => ⟨?_, ?_⟩⟩
    · intro absent
      have later := (values' id).1 fun type literal member =>
        absent type literal (List.mem_cons_of_mem i member)
      rw [later]
      rcases values with ⟨_, same⟩ | ⟨type, id', literal, rfl, rfl⟩
      · rw [same]
      · apply values_hold_of_ne
        rintro rfl
        exact absent type literal (List.mem_cons_self ..)
    · rintro literal ⟨type, member⟩ only
      have onlyLater : ∀ type' literal', .constant type' id literal' ∈ rest → literal' = literal :=
        fun type' literal' later => only type' literal' (List.mem_cons_of_mem i later)
      by_cases again : ∃ type, .constant type id literal ∈ rest
      · exact (values' id).2 literal again onlyLater
      · have absent : ∀ type' literal', .constant type' id literal' ∉ rest := by
          intro type' literal' later
          obtain rfl := onlyLater type' literal' later
          exact again ⟨type', later⟩
        rw [(values' id).1 absent]
        rcases List.mem_cons.mp member with here | later
        · rcases values with ⟨other, _⟩ | ⟨type', id', literal', same, rfl⟩
          · exact absurd here.symm (other type id literal)
          · obtain ⟨_, rfl, rfl⟩ := Instruction.constant.inj (here.trans same)
            exact values_hold s id (S.literal literal)
        · exact absurd later (absent type literal)

end Machine

namespace Evaluation

open Emission Machine

variable {S : Semantics} {initial : S.Memory} {d : Draft} {v : Evaluation S}

/-- The address of a location from that of its variable. -/
theorem Meant.path (meant : v.Meant initial d) {p root : Place} (path : d.places.Path p root links)
    : v.addresses p = (links.map v.index).foldl Address.step (v.addresses root) := by
  induction path with
  | root => rfl
  | @chain p parent root data link links found origin _ ih =>
    rw [(meant.places p data found).2, origin, Evaluation.address, ih, List.map_append,
      List.foldl_append]
    rfl

/-- A machine that has executed what is written so far. The constants are those of the whole
module, `final`. -/
structure Follows (v : Evaluation S) (d : Draft) (final : Emission) (s : Machine S)
    (memory : S.Memory) (e : Emission) (t : Machine S) : Prop where
  executed : s.executeAll e.body.toList = some t
  memory : t.memory = memory
  values : ∀ h n id, d.graph.find? h = some n → e.Holds h id → t.values id = v.values h
  literals : ∀ literal id, final.IsLiteral literal id → t.values id = S.literal literal
  pointers : ∀ p data, p ∈ e.reached → d.places.find? p = some data →
    t.pointers data.id = v.addresses p

section Step

variable {final e e' : Emission} {s t : Machine S} {memory : S.Memory} {k : Nat} {bound : Id}

variable (follows : v.Follows d final s memory e t)

include follows

theorem Follows.quiet (still : e.Still e') :
    v.Follows d final s memory e' t where
  executed := by rw [still.body, follows.executed]
  memory := follows.memory
  values h n id found held := follows.values h n id found (by rwa [Holds, still.results] at held)
  literals := follows.literals
  pointers p data reached := follows.pointers p data (by rwa [still.reached] at reached)

variable {ids : EntryIds} (proper : d.Proper False) (tidy : final.Tidy d)
  (purposeful : final.Purposeful d ids)

include proper tidy purposeful

/-- A value is computed into the id of its node, which holds nothing else. -/
theorem Follows.hold (grows : e.Grows final)
    (found : d.graph.find? h = some n) (plain : ∀ literal, n.kind ≠ .constant literal)
    (next : t.execute i = some (t.hold n.id (v.values h))) :
    v.Follows d final s memory
      { e with body := e.body.push i, results := e.results.insert h.slot n.id }
      (t.hold n.id (v.values h)) where
  executed := executeAll_push follows.executed next
  memory := follows.memory
  values h' n' id found' held := by
    rw [Holds, Assoc.find?_insert] at held
    split at held
    · rename_i same
      obtain ⟨rfl, rfl⟩ := Graph.handle_unique found found' same
      obtain rfl := Option.some.inj held
      exact values_hold t n.id (v.values h)
    · rename_i differs
      have apart : id ≠ n.id := by
        rintro rfl
        rcases (purposeful.values h' n' n.id found' (grows.holds held)).placed with
          ⟨literal, _, constant⟩ | ⟨_, same⟩
        · exact plain literal ((tidy.literals literal _ constant).kind proper.owned found)
        · obtain rfl := Owner.value.inj
            (proper.owned.unique n.id _ _ ⟨n, found, rfl⟩ ⟨n', found', same.symm⟩)
          exact differs rfl
      rw [values_hold_of_ne _ apart]
      exact follows.values h' n' id found' held
  literals literal id constant := by
    have apart : id ≠ n.id := by
      rintro rfl
      exact plain literal ((tidy.literals literal _ constant).kind proper.owned found)
    rw [values_hold_of_ne _ apart]
    exact follows.literals literal id constant
  pointers := follows.pointers

omit proper tidy purposeful

theorem Follows.held {id : Id} (live : d.Live h) (held : e.Holds h id) :
    t.values id = v.values h := by
  obtain ⟨n, found⟩ := Option.isSome_iff_exists.mp live
  exact follows.values h n id found held

theorem Follows.held_all {items : List Handle} {ids : List Id} (live : ∀ h ∈ items, d.Live h)
    (held : List.Forall₂ e.Holds items ids) :
    ids.map t.values = items.map v.values := by
  induction held with
  | nil => rfl
  | @cons h id items ids first _ ih =>
    rw [List.map_cons, List.map_cons, follows.held (live h (by simp)) first,
      ih fun h member => live h (List.mem_cons_of_mem _ member)]

/-- The instruction of a node computes its value. -/
theorem Follows.computes (meant : v.Meant initial d) (grows : e.Grows final) {type : Id}
    (found : d.graph.find? h = some n) (computes : e.Computes d n type i) :
    t.execute i = some (t.hold n.id (v.values h)) := by
  obtain ⟨live, denotes⟩ := meant.nodes h n found
  have arguments : d.graph.arguments n = n.operands := List.filter_eq_self.mpr live
  rw [← arguments] at live denotes
  generalize v.values h = result at denotes ⊢
  cases computes with
  | unary kind operands known lowered held =>
    simp only [kind, operands] at live denotes
    cases denotes with
    | unary known' =>
      obtain rfl := Option.mem_unique known known'
      simp only [execute, List.map_cons, List.map_nil, follows.held (live _ (by simp)) held,
        Semantics.unary, lowered]
  | @binary op a b l r lowering x y kind notLookup operands left right lowered held held' =>
    simp only [kind, operands] at live denotes
    cases denotes with
    | binary left' right' =>
      obtain rfl := Option.mem_unique left left'
      obtain rfl := Option.mem_unique right right'
      have first := follows.held (live a (by simp)) held
      have second := follows.held (live b (by simp)) held'
      have order : (if lowering.swap then [y, x] else [x, y]).map t.values =
          if lowering.swap then [v.values b, v.values a] else [v.values a, v.values b] := by
        split <;> simp [first, second]
      have selected : S.binary op l r (v.values a) (v.values b) = S.compute lowering.operation
          (if lowering.swap then [v.values b, v.values a] else [v.values a, v.values b]) := by
        cases op with
        | lookup => contradiction
        | _ => simp only [Semantics.binary, lowered]
      rw [execute, order, selected]
  | @sample a b l x y lod kind operands left texture held held' level =>
    simp only [kind, operands] at live denotes
    cases denotes with
    | binary left' =>
      obtain rfl := Option.mem_unique left left'
      simp only [execute, follows.held (live a (by simp)) held, follows.held (live b (by simp)) held',
        follows.literals _ _ (grows.literals _ _ level), Semantics.binary, texture, if_true]
  | @column a b l r column x kind operands left right texture matrix index held =>
    simp only [kind, operands] at live denotes
    cases denotes with
    | binary left' right' =>
      obtain rfl := Option.mem_unique left left'
      obtain rfl := Option.mem_unique right right'
      simp only [execute, follows.held (live a (by simp)) held, Semantics.binary, texture, matrix,
        index, if_true, Bool.false_eq_true, if_false]
  | @component a b l x y kind operands left texture matrix held held' =>
    simp only [kind, operands] at live denotes
    cases denotes with
    | binary left' =>
      obtain rfl := Option.mem_unique left left'
      simp only [execute, follows.held (live a (by simp)) held, follows.held (live b (by simp)) held',
        Semantics.binary, texture, matrix, Bool.false_eq_true, if_false]
  | @select a b c x y z kind operands held held' held'' =>
    simp only [kind, operands] at live denotes
    cases denotes with
    | select =>
      simp only [execute, follows.held (live a (by simp)) held, follows.held (live b (by simp)) held',
        follows.held (live c (by simp)) held'']
  | construct kind held =>
    rw [kind] at denotes
    cases denotes with
    | construct => rw [execute, follows.held_all live held]

theorem Follows.indexed (grows : e.Grows final)
    {indices : List Id} (indexed : List.Forall₂ (e.Indexes d) links indices) :
    indices.map t.values = links.map v.index := by
  induction indexed with
  | nil => rfl
  | @cons link id links indices first _ ih =>
    rw [List.map_cons, List.map_cons, ih]
    cases link with
    | member part => rw [follows.literals _ _ (grows.literals _ _ first), Evaluation.index]
    | index h => rw [follows.held first.2 first.1, Evaluation.index]

include proper tidy purposeful

theorem Follows.ask (meant : v.Meant initial d)
    (step : Ask False d k bound e e') (grows : e'.Grows final) :
    ∃ t', v.Follows d final s memory e' t' := by
  have before := step.grows.trans grows
  cases step with
  | quiet step => exact ⟨t, follows.quiet step.still⟩
  | @literal h n literal id found kind _ _ constant =>
    refine ⟨t, { follows with values := fun h' n' id' found' held => ?_ }⟩
    rw [Holds, Assoc.find?_insert] at held
    split at held
    · rename_i same
      obtain ⟨rfl, rfl⟩ := Graph.handle_unique found found' same
      obtain rfl := Option.some.inj held
      have denotes := (meant.nodes h n found).2
      rw [kind] at denotes
      generalize v.values h = result at denotes ⊢
      cases denotes with
      | constant => exact follows.literals literal id (before.literals _ _ constant)
    · exact follows.values h' n' id' found' held
  | compute found _ _ _ _ computes =>
    exact ⟨_, follows.hold proper tidy purposeful before found computes.not_constant
      (follows.computes meant before found computes)⟩
  | @chain p root data base links indices type found _ _ _ path _ reached rootFound _ indexed =>
    refine ⟨t.point data.id (v.addresses p), { follows with
      executed := executeAll_push follows.executed ?_, pointers := fun q other there located => ?_ }⟩
    · rw [execute, follows.pointers root base reached rootFound, follows.indexed before indexed,
        ← meant.path path]
    · by_cases same : other.id = data.id
      · obtain rfl := Owner.place.inj
          (proper.owned.unique data.id _ _ ⟨data, found, rfl⟩ ⟨other, located, same⟩)
        rw [same]
        exact if_pos rfl
      · have earlier : q ∈ e.reached := by
          rcases List.mem_cons.mp there with rfl | earlier
          · obtain rfl := Option.mem_unique found located
            contradiction
          · exact earlier
        exact (if_neg same).trans (follows.pointers q other earlier located)

theorem Follows.asks (meant : v.Meant initial d)
    (steps : Asks False d k bound e e') (grows : e'.Grows final) :
    ∃ t', v.Follows d final s memory e' t' := by
  induction steps with
  | refl => exact ⟨t, follows⟩
  | tail before step ih =>
    obtain ⟨t', follows'⟩ := ih (step.grows.trans grows)
    exact follows'.ask proper tidy purposeful meant step grows

theorem Follows.stored (meant : v.Meant initial d) {p : Place} {h : Handle}
    (stored : Stored False d k p h e e') (grows : e'.Grows final) :
    ∃ t', v.Follows d final s (S.writeAt memory (v.addresses p) (v.values h)) e' t' := by
  obtain ⟨n, data, x, e₁, found, located, steps, held, reached, rfl⟩ := stored
  have grows₁ := (grows_push e₁ _).trans grows
  obtain ⟨t₁, follows₁⟩ := follows.asks proper tidy purposeful meant steps grows₁
  refine ⟨{ t₁ with memory := S.writeAt memory (v.addresses p) (v.values h) }, { follows₁ with
    executed := executeAll_push follows₁.executed ?_, memory := rfl }⟩
  rw [execute, follows₁.memory, follows₁.pointers p data reached located,
    follows₁.values h n x found held]

theorem Follows.replays (meant : v.Meant initial d) (ready : e.Ready d k)
    (replays : Replays False d k e e') (grows : e'.Grows final)
    (now : memory = v.memoryAt initial d.trace k) :
    ∃ t', v.Follows d final s (v.memoryAt initial d.trace (k + 1)) e' t' := by
  have marked : v.Follows d final s memory (e.mark k) t := { follows with }
  cases replays with
  | released recorded dead =>
    have after : v.memoryAt initial d.trace (k + 1) = memory := by
      rw [memoryAt, recorded, now]
      rfl
    rw [after]
    exact ⟨t, marked⟩
  | @load p h lastStore n data type e₁ recorded found located steps reached =>
    obtain ⟨kind, free⟩ := (steps.ready ready.mark).unloaded proper.sound recorded found
    have after : v.memoryAt initial d.trace (k + 1) = memory := by
      rw [memoryAt, recorded, now]
      rfl
    have grows₁ := (grows_hold free _).trans grows
    obtain ⟨t₁, follows₁⟩ := marked.asks proper tidy purposeful meant steps grows₁
    have value : v.values h = S.readAt memory (v.addresses p) := by
      have denotes := (meant.nodes h n found).2
      rw [kind] at denotes
      generalize v.values h = result at denotes ⊢
      cases denotes with
      | load _ recorded' =>
        obtain ⟨rfl, _⟩ := Action.load.inj (Option.mem_unique recorded recorded')
        rw [now]
    rw [after]
    refine ⟨_, follows₁.hold proper tidy purposeful grows₁ found (by simp [kind]) ?_⟩
    rw [execute, follows₁.memory, follows₁.pointers p data reached located, value]
  | @store p h _ recorded stored =>
    have after : v.memoryAt initial d.trace (k + 1) =
        S.writeAt memory (v.addresses p) (v.values h) := by
      rw [memoryAt, recorded, now]
      rfl
    rw [after]
    exact marked.stored proper tidy purposeful meant stored grows
  | boundary recorded => exact (meant.actions k _ recorded).elim

omit follows

theorem Follows.loads (follows : v.Follows d final s initial e t) (meant : v.Meant initial d)
    {i : Input} (member : i ∈ d.inputs.toList) (loads : Loads d i e e')
    (grows : e'.Grows final) : ∃ t', v.Follows d final s initial e' t' := by
  obtain ⟨n, data, type, e₁, found, located, steps, reached, _, free, rfl⟩ := loads
  obtain ⟨slot, listed⟩ := List.mem_iff_getElem?.mp member
  rw [Array.getElem?_toList] at listed
  have sound := proper.sound.lists.inputs slot i listed
  have kind := sound.kind n found
  have follows₁ := follows.quiet steps.still
  have grows₁ := (grows_hold free _).trans grows
  have address : v.addresses i.place = { root := data.id, indices := [] } := by
    obtain ⟨data', located', root⟩ := sound.place
    obtain rfl := Option.mem_unique located located'
    rw [(meant.places _ data located).2, root]
    rfl
  have value : v.values i.value = S.readAt initial (v.addresses i.place) := by
    have denotes := (meant.nodes i.value n found).2
    rw [kind] at denotes
    generalize v.values i.value = result at denotes ⊢
    cases denotes with
    | input _ listed' located' =>
      obtain rfl := Option.mem_unique listed listed'
      obtain rfl := Option.mem_unique located located'
      rw [address]
      rfl
  refine ⟨_, follows₁.hold proper tidy purposeful grows₁ found (by simp [kind]) ?_⟩
  rw [execute, follows₁.memory, follows₁.pointers i.place data reached located, value]

theorem follows_inputs (meant : v.Meant initial d) {items : List Input}
    (listed : ∀ i ∈ items, i ∈ d.inputs.toList)
    (chain : Chain (fun i a b => Loads d i a b ∧ b.Grows final) items a b)
    (follows : v.Follows d final s initial a t) : ∃ t', v.Follows d final s initial b t' := by
  induction chain generalizing t with
  | nil => exact ⟨t, follows⟩
  | @cons i rest _ _ _ step _ ih =>
    obtain ⟨t', follows'⟩ := follows.loads proper tidy purposeful meant
      (listed i (List.mem_cons_self ..)) step.1 step.2
    exact ih (fun j later => listed j (List.mem_cons_of_mem i later)) follows'

theorem follows_stores (meant : v.Meant initial d) {items : List (Place × Handle)}
    (chain : Chain (fun s a b => (a.Ready d k ∧ Stored False d k s.1 s.2 a b) ∧ b.Grows final)
      items a b) (follows : v.Follows d final s memory a t) :
    ∃ t', v.Follows d final s
      (items.foldl (fun memory s => S.writeAt memory (v.addresses s.1) (v.values s.2)) memory)
      b t' := by
  induction chain generalizing t memory with
  | nil => exact ⟨t, follows⟩
  | cons step _ ih =>
    obtain ⟨t', follows'⟩ := follows.stored proper tidy purposeful meant step.1.2 step.2
    exact ih follows'

theorem follows_events (meant : v.Meant initial d) {n : Nat}
    (chain : Chain (fun k a b => (a.Ready d k ∧ Replays False d k a b) ∧ b.Grows final)
      (List.range' k n) a b) (follows : v.Follows d final s (v.memoryAt initial d.trace k) a t) :
    ∃ t', v.Follows d final s (v.memoryAt initial d.trace (k + n)) b t' := by
  induction n generalizing k a t with
  | zero =>
    cases chain
    exact ⟨t, follows⟩
  | succ n ih =>
    rw [List.range'_succ] at chain
    obtain _ | ⟨⟨⟨ready, replays⟩, grows⟩, rest⟩ := chain
    obtain ⟨t', follows'⟩ := follows.replays proper tidy purposeful meant ready replays grows rfl
    rw [show k + (n + 1) = k + 1 + n by omega]
    exact ih rest follows'

omit tidy purposeful in
/-- The stores at the end, by the locations they go to. -/
theorem Meant.finish (meant : v.Meant initial d) :
    (Emit.finalStores d).foldl (fun memory s => S.writeAt memory (v.addresses s.1) (v.values s.2))
      v.memory = v.finish := by
  have listed : v.outputs ++ v.builtins =
      (Emit.finalStores d).map fun s => (d.placeId s.1, v.values s.2) := by
    rw [meant.outputs, meant.builtins, Emit.finalStores, List.map_append, List.map_map, List.map_map]
    rfl
  rw [Evaluation.finish, listed, List.foldl_map]
  apply List.foldl_ext
  intro memory s member
  obtain ⟨⟨data, located, root⟩, _⟩ := Emit.finalStores_written proper.sound s member
  rw [(meant.places s.1 data located).2, root, Draft.placeId, located]
  rfl

end Step

end Evaluation

open Evaluation Emission in
/-- Executing the body of a straight-line program leaves the memory that evaluating it leaves. -/
theorem Emission.Compiled.executes {S : Semantics} {initial : S.Memory} {d : Draft}
    {v : Evaluation S} (proper : d.Proper False) (meant : v.Meant initial d)
    {ids : EntryIds} {interface : List Id} {e : Emission} {stages : Stages}
    (compiled : Compiled False d ids interface e stages)
    {s : Machine S} (memory : s.memory = initial) (pointers : s.AtRoots)
    (literals : ∀ literal id, e.IsLiteral literal id → s.values id = S.literal literal) :
    ∃ t, s.executeAll e.body.toList = some t ∧ t.memory = v.finish := by
  have tidy := compiled.tidy proper.toSteady
  have purposeful := compiled.purposeful proper.sound
  have unbegun := compiled.unbegun
  have start : v.Follows d e s initial stages.prepared s :=
    { executed := by rw [unbegun.body]; rfl
      memory := memory
      values := fun h n id _ held => by simp [Holds, unbegun.results, Emission.start] at held
      literals := literals
      pointers := fun p data reached located => by
        obtain ⟨data', located', root⟩ := compiled.roots p reached
        obtain rfl := Option.mem_unique located located'
        rw [pointers, (meant.places p data located).2, root]
        rfl }
  have within := compiled.within proper.sound
  have events := within.events
  rw [List.range_eq_range'] at events
  obtain ⟨t₁, follows₁⟩ :=
    follows_inputs proper tidy purposeful meant (fun _ => id) within.inputs start
  obtain ⟨t₂, follows₂⟩ := follows_events proper tidy purposeful meant events follows₁
  rw [Nat.zero_add, ← meant.memory] at follows₂
  obtain ⟨t₃, follows₃⟩ := follows_stores proper tidy purposeful meant within.stores follows₂
  exact ⟨t₃, follows₃.executed, follows₃.memory.trans (meant.finish proper)⟩

open Machine Emission in
/-- Executing a module leaves what executing its body leaves, where constants have their values. -/
theorem Emission.Compiled.execute {S : Semantics} {d : Draft} (proper : d.Proper False)
    {ids : EntryIds} {interface : List Id} {e : Emission} {stages : Stages}
    (compiled : Compiled False d ids interface e stages) {m : ShaderModule}
    (put : m.instructions = e.instructions d ids interface) (memory : S.Memory) :
    ∃ s : Machine S, s.memory = memory ∧ s.AtRoots ∧
      (∀ literal id, e.IsLiteral literal id → s.values id = S.literal literal) ∧
      ∀ t, s.executeAll e.body.toList = some t → m.execute S memory = some t.memory := by
  have sections := (compiled.sections proper.sound)
  have tidy := compiled.tidy proper.toSteady
  let before := e.preamble d ids interface ++
    .functionBegin ids.void ids.function ids.signature :: .label ids.label :: e.locals.toList
  have instructions : m.instructions = before ++ (e.body.toList ++ [.returnVoid, .functionEnd]) := by
    rw [put, instructions_eq]
    simp [before]
  have parts : ∀ i ∈ before, (i.part ≠ .body ∨ ∃ id, i = .label id) ∧
      ∀ type id literal, i = .constant type id literal → i ∈ e.declarations := by
    intro i member
    simp only [before, List.mem_append, List.mem_cons, Array.mem_toList_iff] at member
    rcases member with preamble | rfl | rfl | own
    · rcases sections.preamble d ids interface i preamble with part | part | ⟨part, declared⟩
      · exact ⟨.inl (by simp [part]), fun _ _ _ constant => by
          simp [constant, Instruction.part] at part⟩
      · exact ⟨.inl (by simp [part]), fun _ _ _ constant => by
          simp [constant, Instruction.part] at part⟩
      · exact ⟨.inl (by simp [part]), fun _ _ _ _ => declared⟩
    · exact ⟨.inl (by simp [Instruction.part]), by simp⟩
    · exact ⟨.inr ⟨_, rfl⟩, by simp⟩
    · obtain ⟨type, id, rfl⟩ := sections.locals i own
      exact ⟨.inl (by simp [Instruction.part]), by simp⟩
  obtain ⟨s, executed, kept, pointers, values⟩ := executeAll_prelude
    (fun i member => (parts i member).1)
    (s := Machine.start memory) rfl
  refine ⟨s, kept, pointers, fun literal id constant => (values id).2 literal ?_ ?_, fun t body => ?_⟩
  · obtain ⟨type, _, declared⟩ := (compiled.listed proper).constants literal id constant
    exact ⟨type, by simp [before, Emission.preamble, declared]⟩
  · intro type' literal' member
    have declared := (compiled.purposeful proper.sound).declarations _
      ((parts _ member).2 type' id literal' rfl)
    cases declared with
    | constant _ known => exact tidy.distinct literal' literal _ _ known constant rfl
  · rw [ShaderModule.execute, instructions, run_append executed, run_append body]
    rfl

namespace Draft

theorem after_slots {d : Draft} (valid : d.graph.Valid) (slots : List Ty) :
    d.after (slots.map .addInput) = d.withSlots slots := by
  induction slots generalizing d with
  | nil => rfl
  | cons ty rest ih =>
    have left : (Call.addInput ty).leaves d = d.withInput ty := by
      have ran : (Call.addInput ty).run d = .ok (.value d.graph.nextHandle) (d.withInput ty) := by
        show EStateM.map _ _ d = _
        simp only [EStateM.map, addInput_ok valid ty]
      rw [Call.leaves, ran]
    rw [List.map_cons, after, left, ih (valid_withInput valid ty)]
    rfl

/-- Executing the module of a straight-line program leaves the memory that evaluating its calls one
by one leaves, whatever operations compute and whatever memory it starts with. -/
theorem straight_line_meaning_kept (settings : Settings) (slots : List Ty) {first : Draft}
    (begun : withInputs settings slots = .ok () first) {program : List Call}
    (straight : ∀ c ∈ program, c.isStraight = true) {m : ShaderModule}
    (compiled : (first.after program).compilation.result = .ok m) (S : Semantics)
    (memory : S.Memory) : m.execute S memory = some (meaning S settings slots program memory) := by
  obtain rfl := eq_of_withInputs begun
  have all : ∀ c ∈ slots.map .addInput ++ program, c.isStraight = true := by
    intro c member
    rcases List.mem_append.mp member with slot | call
    · obtain ⟨ty, _, rfl⟩ := List.mem_map.mp slot
      rfl
    · exact straight c call
  have meant := Evaluation.Meant.program all (sound_new False settings)
    (Evaluation.meant_new memory settings)
  rw [after_append, after_slots (valid_new settings)] at meant
  have proper := (proper_begun False settings slots).after fun c member =>
    (Call.isStraight_builds (straight c member)).2
  obtain ⟨e, _, ids, interface, _, parts, put, _⟩ := proper.assemble_ok compiled
  obtain ⟨s, start, pointers, literals, executed⟩ := parts.execute proper put memory
  obtain ⟨t, body, left⟩ := parts.executes proper meant start pointers literals
  rw [executed t body, left]
  rfl

/-- Integers in a memory that keeps every write, the latest first. -/
abbrev integers : Semantics where
  Value := Int
  Memory := List ((Id × List Int) × Int)
  unset := 0
  literal
    | .int value => value.toInt
    | .uint value | .float value => value.toNat
  compute
    | .iSub, [x, y] => x - y
    | _, _ => 0
  select condition accept reject := if condition = 0 then reject else accept
  construct _ := 0
  extract _ _ := 0
  extractDynamic _ _ := 0
  sample _ _ _ := 0
  read memory root indices := (memory.lookup (root, indices)).getD 0
  write memory root indices value := ((root, indices), value) :: memory

/-- A program that overwrites an element of an array after it has loaded it, and gives out the value
that was loaded. -/
def overwrites : List Call :=
  [.localVariable (.array .sint 4), .index ⟨1⟩ ⟨0, 0⟩, .store ⟨2⟩ ⟨0, 0⟩, .load ⟨2⟩,
    .constant (.int 7), .binary .sub ⟨2, 2⟩ ⟨1, 1⟩, .store ⟨2⟩ ⟨3, 3⟩, .output ⟨1, 1⟩]

theorem overwrites_meaning_kept :
    withInputs { stage := .vertex } [.sint] = .ok () (vertex [.sint]) ∧
      (∀ c ∈ overwrites, c.isStraight = true) ∧
      ∃ m, ((vertex [.sint]).after overwrites).compilation.result = .ok m ∧
        m.execute integers [((1, []), 2)] =
          some [((8, []), 2), ((3, [2]), 5), ((3, [2]), 2), ((1, []), 2)] := by
  have straight : ∀ c ∈ overwrites, c.isStraight = true := by decide
  have meant : meaning integers { stage := .vertex } [.sint] overwrites
      [((1, []), 2)] = [((8, []), 2), ((3, [2]), 5), ((3, [2]), 2), ((1, []), 2)] := by
    decide +kernel
  refine ⟨withInputs_eq _ _, straight, exists_and_of_toBool (by decide +kernel) fun m compiled => ?_⟩
  rw [straight_line_meaning_kept _ _ (withInputs_eq _ _) straight compiled integers, meant]

end Draft

end ShaderIR
