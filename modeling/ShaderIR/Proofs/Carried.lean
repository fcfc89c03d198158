import ShaderIR.Proofs.Built
import ShaderIR.Proofs.Constants
import ShaderIR.Proofs.Judgement

/-! Operands are carried into the module as they were built. A compilation refuses a node that has
lost an operand, wherever the module needs it, so that computations, lookups and selections are
written over all the operands that they were built with. A construction is the exception: it is
written over the parts that are left. -/
namespace ShaderIR

variable {i : Instruction} {count : Nat} {h : Handle} {n : Node} {id type : Id} {p : Place}
  {ranges : List (Int32 × Int32)}

def Instruction.isComputation : Instruction → Bool
  | .compute _ _ _ _ | .select _ _ _ _ _ | .construct _ _ _ | .extract _ _ _ _
  | .extractDynamic _ _ _ _ | .sample _ _ _ _ _ => true
  | _ => false

theorem Instruction.takesValues_of_isComputation (computation : i.isComputation = true) :
    i.takesValues = true := by
  cases i with
  | compute | select | construct | extract | extractDynamic | sample => rfl
  | _ => contradiction

namespace Draft

variable (d : Draft)

/-- A location that is written, or read for a value that is still there. -/
def Accesses (p : Place) : Prop :=
  (∃ h, d.Stores p h) ∨ ∃ h, d.Fetches p h ∧ (d.graph.find? h).isSome

/-- The values that a module cannot do without: those that are stored, those that decide a
selection, those that index a location, and what they are computed from. -/
inductive Needs : Handle → Prop where
  | stored {p : Place} {h : Handle} : d.Stores p h → Needs h
  | condition {k index : Nat} {s : Selection} :
      d.trace.action? k = some (.boundary (.ifBegin index)) → d.selections[index]? = some s →
      Needs s.condition
  | index {p root : Place} {links : List Link} {value : Handle} : d.Accesses p →
      d.places.Path p root links → .index value ∈ links → Needs value
  | operand {h o : Handle} {n : Node} : Needs h → d.graph.find? h = some n →
      n.kind.isComputed = true → o ∈ n.operands → Needs o

end Draft

/-! A node that is written has its arguments. -/

section Arity

variable {d : Draft} {m : ShaderModule}

theorem ShaderModule.Computes.isComputed (computes : m.Computes d n i) :
    n.kind.isComputed = true := by
  obtain ⟨_, computes⟩ := computes
  cases computes with
  | unary kind | binary kind | sample kind | column kind | component kind | select kind
  | construct kind => rw [kind]; rfl

theorem ShaderModule.Computes.not_leaf (computes : m.Computes d n i) :
    n.kind.arity? ≠ some 0 := by
  obtain ⟨_, computes⟩ := computes
  cases computes with
  | unary kind | binary kind | sample kind | column kind | component kind | select kind
  | construct kind => simp [kind, NodeKind.arity?]

theorem ShaderModule.Computes.arity (computes : m.Computes d n i)
    (arity : n.kind.arity? = some count) : (d.graph.arguments n).length = count := by
  obtain ⟨_, computes⟩ := computes
  cases computes with
  | unary kind arguments | binary kind _ arguments | sample kind arguments | column kind arguments
  | component kind arguments | select kind arguments =>
    rw [kind] at arity
    rw [arguments]
    exact Option.some.inj arity
  | construct kind =>
    rw [kind] at arity
    contradiction

theorem Draft.Coherent.operands_length (coherent : d.Coherent) (found : d.graph.find? h = some n)
    (computed : n.kind.isComputed = true) (arity : n.kind.arity? = some count) :
    n.operands.length = count := by
  obtain ⟨shapes, each, fits⟩ := coherent.nodes h n found computed
  rw [each.length_eq, fits.length arity]

theorem NodeKind.arity?_isSome {kind : NodeKind} (other : kind ≠ .construct) :
    ∃ count, kind.arity? = some count := by
  cases kind with
  | construct => contradiction
  | _ => exact ⟨_, rfl⟩

/-- What is written and is no construction has all its operands. -/
theorem Draft.Coherent.intact (coherent : d.Coherent) (found : d.graph.find? h = some n)
    (computes : m.Computes d n i) (other : n.kind ≠ .construct) :
    d.graph.arguments n = n.operands := by
  obtain ⟨count, arity⟩ := NodeKind.arity?_isSome other
  have built := coherent.operands_length found computes.isComputed arity
  have written := computes.arity arity
  exact List.filter_sublist.eq_of_length (written.trans built.symm)

end Arity

/-! What is held was computed. -/

theorem Chain.round {α : Type} {R : α → Emission → Emission → Prop} {items : List α}
    {s t : Emission} (chain : Chain R items s t) (grows : ∀ a s t, R a s t → s.Grows t) {a : α}
    (member : a ∈ items) : ∃ e e', R a e e' ∧ e'.Grows t := by
  induction chain with
  | nil => contradiction
  | @cons b rest s t u first later ih =>
    rcases List.mem_cons.mp member with rfl | member
    · exact ⟨s, t, first, later.keeps (I := t.Grows)
        (fun a _ s t step before => before.trans (grows a s t step)) (.refl t)⟩
    · exact ih member

namespace Emission

section Compiled

variable {strict : Prop} {d : Draft} {ids : EntryIds} {interface : List Id}
  {e : Emission} {stages : Stages} (proper : d.Proper strict)
  (compiled : Compiled strict d ids interface e stages)

include proper compiled

theorem Compiled.computed (found : d.graph.find? h = some n) (held : e.Holds h id)
    (derived : n.kind.arity? ≠ some 0) : ∃ type i, e.Computes d n type i := by
  cases (compiled.purposeful proper.sound).values h n id found held with
  | literal kind => exact absurd (by rw [kind]; rfl) derived
  | loaded fetched =>
    refine absurd ?_ derived
    rcases fetched with ⟨_, kind⟩ | ⟨_, kind⟩ <;> (rw [kind]; rfl)
  | computed computes => exact ⟨_, _, computes⟩

theorem Compiled.indexed {root : Place} {links : List Link} {value : Handle}
    (reached : p ∈ e.reached) (path : d.places.Path p root links) (member : .index value ∈ links) :
    ∃ x, e.Held d value x := by
  obtain ⟨data, found⟩ : ∃ data, d.places.find? p = some data := by
    cases path with
    | root found | chain found => exact ⟨_, found⟩
  cases (compiled.purposeful proper.sound).places p data found reached with
  | root origin =>
    obtain ⟨_, rfl⟩ := path.unique (.root found origin)
    contradiction
  | chain path' _ _ _ _ each =>
    obtain ⟨rfl, rfl⟩ := path.unique path'
    exact (related_left each member).imp fun _ => And.right

theorem Compiled.turn {k : Nat} (within : k < d.trace.size) :
    ∃ e₁ e₂, Replays strict d k e₁ e₂ ∧ e₂.Grows e := by
  obtain ⟨e₁, e₂, ⟨_, replays⟩, grows⟩ := compiled.events.round
    (fun k _ _ turn => turn.2.grows proper.sound turn.1) (List.mem_range.mpr within)
  exact ⟨e₁, e₂, replays, compiled.stores.keeps (I := e₂.Grows)
    (fun _ _ _ _ stored before => before.trans stored.2.grows) grows⟩

theorem Compiled.stored (stores : d.Stores p h) : (∃ x, e.Holds h x) ∧ p ∈ e.reached := by
  obtain ⟨k, e₁, e₂, stored, grows⟩ : ∃ k e₁ e₂, Stored strict d k p h e₁ e₂ ∧ e₂.Grows e := by
    rcases stores with ⟨k, recorded⟩ | final
    · obtain ⟨e₁, e₂, replays, grows⟩ := compiled.turn proper (Trace.action?_lt recorded)
      cases replays with
      | released other | load other | boundary other => simp [recorded] at other
      | store recorded' stored =>
        obtain ⟨rfl, rfl⟩ := Action.store.inj (Option.mem_unique recorded recorded')
        exact ⟨k, _, _, stored, grows⟩
    · obtain ⟨e₁, e₂, ⟨_, stored⟩, grows⟩ := compiled.stores.round
        (fun _ _ _ turn => turn.2.grows) final
      exact ⟨_, e₁, e₂, stored, grows⟩
  obtain ⟨n, data, x, e₀, _, _, _, held, reached, rfl⟩ := stored
  exact ⟨⟨x, grows.holds held⟩, grows.reached p reached⟩

theorem Compiled.fetched (fetches : d.Fetches p h) (live : (d.graph.find? h).isSome) :
    p ∈ e.reached := by
  rcases fetches with ⟨k, lastStore, recorded⟩ | ⟨i, member, rfl, rfl⟩
  · obtain ⟨e₁, e₂, replays, grows⟩ := compiled.turn proper (Trace.action?_lt recorded)
    cases replays with
    | store other | boundary other => simp [recorded] at other
    | released recorded' gone =>
      obtain ⟨_, rfl, _⟩ := Action.load.inj (Option.mem_unique recorded recorded')
      simp [gone] at live
    | load recorded' _ _ _ reached =>
      obtain ⟨rfl, _, _⟩ := Action.load.inj (Option.mem_unique recorded recorded')
      exact grows.reached _ reached
  · obtain ⟨e₁, e₂, loads, grows⟩ := compiled.inputs.round (fun _ _ _ loads => loads.grows)
      (Array.mem_toList_iff.mpr member)
    obtain ⟨n, data, type, e₀, _, _, _, reached, _, _, rfl⟩ := loads
    have events := compiled.events.keeps (I := fun e => i.place ∈ e.reached)
      (fun _ _ _ _ turn => (turn.2.grows proper.sound turn.1).reached _) (grows.reached _ reached)
    exact compiled.stores.keeps (I := fun e => i.place ∈ e.reached)
      (fun _ _ _ _ stored => stored.2.grows.reached _) events

omit proper compiled in
/-- An argument that is no leaf is held where the node is computed. -/
theorem Computes.argument {v : Node} {o : Handle} (computes : e.Computes d n type i)
    (member : o ∈ d.graph.arguments n) (found : d.graph.find? o = some v)
    (derived : v.kind.arity? ≠ some 0) : ∃ x, e.Holds o x := by
  cases computes with
  | unary _ arguments _ _ first =>
    obtain rfl := List.mem_singleton.mp (arguments ▸ member)
    exact ⟨_, first⟩
  | binary _ _ arguments _ _ _ first second | sample _ arguments _ _ first second
  | component _ arguments _ _ _ first second =>
    rw [arguments, List.mem_pair] at member
    rcases member with rfl | rfl
    · exact ⟨_, first⟩
    · exact ⟨_, second⟩
  | @column _ _ _ w _ _ _ arguments _ index _ _ constant first =>
    rw [arguments, List.mem_pair] at member
    rcases member with rfl | rfl
    · exact ⟨_, first⟩
    · -- A column is told by a literal, which is a leaf.
      obtain rfl := Option.mem_unique found index
      cases kind : v.kind <;> simp_all [NodeKind.constantIndex, NodeKind.arity?]
  | select _ arguments first second third =>
    simp only [arguments, List.mem_cons, List.not_mem_nil, or_false] at member
    rcases member with rfl | rfl | rfl
    · exact ⟨_, first⟩
    · exact ⟨_, second⟩
    · exact ⟨_, third⟩
  | construct _ each => exact (related_left each member).imp fun _ => And.right

theorem Compiled.needed (coherent : d.Coherent) (needs : d.Needs h) :
    ∀ n, d.graph.find? h = some n → n.kind.arity? ≠ some 0 → ∃ x, e.Holds h x := by
  induction needs with
  | stored stores => exact fun _ _ _ => (compiled.stored proper stores).1
  | condition recorded opened =>
    obtain ⟨group, e₁, fresh, written, _, grows, _⟩ := compiled.wrote proper.sound recorded
    cases written with
    | ifBegin opened' held =>
      obtain rfl := Option.mem_unique opened opened'
      exact fun _ _ _ => ⟨_, grows.holds held.1⟩
  | @index p root links value accesses path member =>
    have reached : p ∈ e.reached := by
      rcases accesses with ⟨h, stores⟩ | ⟨h, fetches, live⟩
      · exact (compiled.stored proper stores).2
      · exact compiled.fetched proper fetches live
    obtain ⟨x, held⟩ := compiled.indexed proper reached path member
    exact fun _ _ _ => ⟨x, held.1⟩
  | @operand h o n _ found computed member ih =>
    intro v known derived
    have argument : o ∈ d.graph.arguments n :=
      List.mem_filter.mpr ⟨member, Option.isSome_of_eq_some known⟩
    by_cases leaf : n.kind.arity? = some 0
    · have none := List.length_eq_zero_iff.mp (coherent.operands_length found computed leaf)
      simp [none] at member
    · obtain ⟨x, held⟩ := ih n found leaf
      obtain ⟨type, i, computes⟩ := compiled.computed proper found held leaf
      exact computes.argument argument known derived

end Compiled

end Emission

section Module

variable {d : Draft} {m : ShaderModule}

theorem ShaderModule.mem_of_function (member : i ∈ m.function) : i ∈ m.instructions :=
  (List.dropWhile_sublist _).subset
    (List.mem_of_mem_drop ((List.takeWhile_sublist _).subset member))

/-- A computation is that of a node, or counts a loop. -/
theorem ShaderModule.Renders.of_computation (renders : m.Renders d ranges i)
    (computation : i.isComputation = true) :
    (∃ id, i.result? = some id ∧ d.nextId ≤ id) ∨
      ∃ h n, d.graph.find? h = some n ∧ m.Computes d n i := by
  cases renders with
  | value found computes => exact .inr ⟨_, _, found, computes⟩
  | loopTest _ _ later | loopAdvance _ later => exact .inl ⟨_, rfl, later⟩
  | store | chain | condition | loopStart | loopBranch | loopCount => contradiction

theorem ShaderModule.Renders.of_construct {parts : List Id}
    (renders : m.Renders d ranges (.construct type id parts)) :
    ∃ h n, d.graph.find? h = some n ∧ n.id = id ∧ n.kind = .construct ∧
      parts.length = (d.graph.arguments n).length := by
  cases renders with
  | value found computes =>
    obtain ⟨_, computes⟩ := computes
    cases computes with
    | construct kind each => exact ⟨_, _, found, rfl, kind, each.length_eq.symm⟩

/-- A construction lacks a part only if it was released. -/
theorem Graph.length_arguments_iff {g : Graph} :
    (g.arguments n).length = n.operands.length ↔ ∀ o ∈ n.operands, (g.find? o).isSome :=
  ⟨fun length => List.filter_eq_self.mp (List.filter_sublist.eq_of_length length),
    fun live => congrArg List.length (List.filter_eq_self.mpr live)⟩

theorem Draft.Coherent.madeOf (coherent : d.Coherent) (found : d.graph.find? h = some n)
    (kind : n.kind = .construct) : ∃ part, n.ty.MadeOf n.operands.length part := by
  obtain ⟨shapes, each, fits⟩ := coherent.nodes h n found (by rw [kind]; rfl)
  rw [kind] at fits
  rw [each.length_eq]
  cases fits with
  | construct shape length => exact ⟨_, length ▸ madeOf_constructParts shape⟩

end Module

/-- In a module every computation that is not of a loop is that of a node which a call of the
program built. It is written over the operands that the call was given, all of them and in this
order, unless it is a construction: that is written over those of its parts that were not released,
and so has as many as its type is made of only if none was. A program that has released an operand
of any other node that is needed does not compile. -/
theorem Draft.operands_carried (settings : Settings) (slots : List Ty) {first : Draft}
    (begun : withInputs settings slots = .ok () first) {program : List Call}
    (building : ∀ c ∈ program, c.restarts = false) {m : ShaderModule}
    (compiled : (first.after program).compilation.result = .ok m) :
    (∀ i ∈ m.function, i.isComputation = true →
      (∃ id, i.result? = some id ∧ (first.after program).nextId ≤ id) ∨
      ∃ h n, (first.after program).graph.find? h = some n ∧
        first.Built program h n.kind n.operands ∧ m.Computes (first.after program) n i ∧
        (n.kind ≠ .construct → (first.after program).graph.arguments n = n.operands)) ∧
    (∀ type id parts, .construct type id parts ∈ m.function → ∃ h n part,
      (first.after program).graph.find? h = some n ∧ n.id = id ∧ n.kind = .construct ∧
        (Reading.of m.instructions).types.find? type = some n.ty ∧
        n.ty.MadeOf n.operands.length part ∧
        (parts.length = n.operands.length ↔
          ∀ o ∈ n.operands, ((first.after program).graph.find? o).isSome)) ∧
    ∀ h n, (first.after program).Needs h → (first.after program).graph.find? h = some n →
      n.kind.isComputed = true → n.kind ≠ .construct →
      ∀ o ∈ n.operands, ((first.after program).graph.find? o).isSome := by
  obtain rfl := eq_of_withInputs begun
  have proper := (proper_begun False settings slots).after building
  have coherent : (((new settings).withSlots slots).after program).Coherent :=
    coherent_after building
  have ranged := (ranged_begun settings slots).after building (issuing_begun settings slots)
  have built := fun h n => built_after settings slots building (h := h) (n := n)
  obtain ⟨e, run, ids, interface, _, parts, put, _⟩ := proper.assemble_ok compiled
  refine ⟨fun i member computation => ?_, fun type id constituents member => ?_,
    fun h n needs found computed other => ?_⟩
  · have takes := Instruction.takesValues_of_isComputation computation
    rcases (parts.renders proper put ranged member takes).of_computation computation with
      loop | ⟨h, n, found, computes⟩
    · exact .inl loop
    · exact .inr ⟨h, n, found, built h n found computes.not_leaf, computes,
        coherent.intact found computes⟩
  · obtain ⟨h, n, found, rfl, kind, length⟩ :=
      (parts.renders proper put ranged member rfl).of_construct
    obtain ⟨part, made⟩ := coherent.madeOf found kind
    obtain ⟨ty, typed, ascribes⟩ :=
      parts.of_typed proper coherent (put ▸ ShaderModule.mem_of_function member) rfl
    obtain rfl := ascribes.values h n found rfl
    refine ⟨h, n, part, found, rfl, kind, put ▸ parts.reads proper typed, made, ?_⟩
    rw [length]
    exact Graph.length_arguments_iff
  · by_cases leaf : n.kind.arity? = some 0
    · have none := List.length_eq_zero_iff.mp (coherent.operands_length found computed leaf)
      simp [none]
    · obtain ⟨x, held⟩ := parts.needed proper coherent needs n found leaf
      obtain ⟨type, i, computes⟩ := parts.computed proper found held leaf
      have passed := computes.passed (parts.purposeful proper.sound)
        (parts.listed proper).constants put
      have whole := coherent.intact found passed other
      exact List.filter_eq_self.mp whole

/-- A vector of two parts is an output, and one of the parts is released. -/
def Draft.dropsPart : List Call :=
  [.constant (.float 0x3f800000), .constant (.float 0x40000000),
    .construct (.vec 2) [⟨0, 0⟩, ⟨1, 1⟩], .output ⟨2, 2⟩, .release ⟨0, 0⟩]

/-- It compiles, and the vector is constructed from the one part that is left. -/
theorem Draft.dropsPart_constructs_short :
    withInputs { stage := .fragment } [] = .ok () (fragment []) ∧
      (∀ c ∈ dropsPart, c.restarts = false) ∧
      ∃ m : ShaderModule,
        ((fragment []).after dropsPart).compilation.result = .ok m ∧
          .construct 11 3 [2] ∈ m.function ∧
          (Reading.of m.instructions).types.find? 11 = some (.vec 2) ∧
          ∃ h n, ((fragment []).after dropsPart).graph.find? h =
              some n ∧ n.id = 3 ∧ n.operands.length = 2 ∧
            ¬∀ o ∈ n.operands, (((fragment []).after dropsPart).graph.find? o).isSome := by
  have building : ∀ c ∈ dropsPart, c.restarts = false := by decide
  obtain ⟨m, compiled, member, type⟩ : ∃ m, ((fragment []).after
      dropsPart).compilation.result = .ok m ∧ .construct 11 3 [2] ∈ m.function ∧
        (Reading.of m.instructions).types.find? 11 = some (.vec 2) :=
    exists_of_any (by decide +kernel)
  obtain ⟨_, constructions, _⟩ :=
    operands_carried { stage := .fragment } [] (withInputs_eq _ _) building compiled
  obtain ⟨h, n, part, found, id, _, read, made, full⟩ := constructions 11 3 [2] member
  obtain same := Option.some.inj (type.symm.trans read)
  have length : n.operands.length = 2 := by
    rw [← same] at made
    generalize n.operands.length = count at made
    cases made with
    | vector => rfl
    | matrix _ _ _ several => simp at several
  refine ⟨withInputs_eq _ _, building, m, compiled, member, type, h, n, found, id, length,
    fun live => ?_⟩
  have whole := full.mpr live
  simp [length] at whole

end ShaderIR
