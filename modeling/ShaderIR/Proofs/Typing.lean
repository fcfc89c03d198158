import ShaderIR.Proofs.Refusals
import ShaderIR.Proofs.Reading

/-! Modules are well typed. While a module is put together, every id that holds a value or a location
was given by an instruction that names its type; so whatever uses the id can be checked against that
type, and the checks that were made when the draft was built are the ones that are needed. -/
namespace ShaderIR

variable {ty : Ty} {id type x : Id} {i : Instruction} {h : Handle}

namespace Draft

variable {d : Draft} (coherent : d.Coherent) {p : Place}

include coherent

theorem Coherent.fetches (fetches : d.Fetches p h) : d.Fills h p := by
  rcases fetches with ⟨k, _, recorded⟩ | ⟨i, member, rfl, rfl⟩
  · exact coherent.actions k _ recorded
  · exact coherent.lists.inputs i member

theorem Coherent.stores (stores : d.Stores p h) : d.Fills h p := by
  rcases stores with ⟨k, recorded⟩ | final
  · exact coherent.actions k _ recorded
  · rcases List.mem_append.mp final with output | builtin
    · obtain ⟨o, listed, same⟩ := List.mem_map.mp output
      obtain ⟨rfl, rfl⟩ := Prod.mk.inj same
      exact coherent.lists.outputs o (Array.mem_toList_iff.mp listed)
    · obtain ⟨o, listed, same⟩ := List.mem_map.mp builtin
      obtain ⟨rfl, rfl⟩ := Prod.mk.inj same
      exact coherent.lists.builtins o (Array.mem_toList_iff.mp listed)

end Draft

namespace Emission

structure Typed (d : Draft) (e : Emission) : Prop where
  listed : e.Listed
  values : ∀ h n x, d.graph.find? h = some n → e.Holds h x → e.Carries x n.ty
  places : ∀ p data, d.places.find? p = some data → p ∈ e.reached → e.Carries data.id data.ty

section Step

variable {strict : Prop} {d : Draft} {ids : EntryIds} {e e₁ : Emission}

/-- A type that was declared is not one that no module can declare. -/
theorem Listed.accepted (listed : e.Listed) (known : e.IsType ty id) : ty.isRefused = false := by
  obtain ⟨form, forms, _⟩ := listed.types ty id known
  cases forms with
  | vector accepted | matrix accepted => exact accepted
  | texture isImage => rw [Ty.isRefused, isImage]; rfl
  | _ => rfl

theorem Carries.accepted (carries : e.Carries id ty) (listed : e.Listed) :
    ty.isRefused = false := by
  obtain ⟨type, known, _⟩ := carries
  exact listed.accepted known

theorem Listed.carries_literal (listed : e.Listed) {literal : Literal}
    (known : e.IsLiteral literal id) : e.Carries id literal.ty := by
  obtain ⟨type, typed, member⟩ := listed.constants literal id known
  exact ⟨type, typed, _, .inl member, rfl⟩

theorem carries_written (member : i ∈ e.body) (typed : i.typed? = some (type, id))
    (known : e.IsType ty type) : e.Carries id ty :=
  ⟨type, known, i, .inr (.inr member), typed⟩

/-- What is held or reached was given by an instruction that names its type. -/
theorem Purposeful.typed (purposeful : e.Purposeful d ids) (listed : e.Listed) (whole : d.Whole) :
    e.Typed d where
  listed := listed
  values h n x found holds := by
    cases purposeful.values h n x found holds with
    | @literal literal _ kind known =>
      have ty : n.ty = literal.ty := by
        obtain ⟨shapes, _, fits⟩ := whole.nodes h n found (by rw [kind]; rfl)
        generalize n.ty = ty at fits ⊢
        rw [kind] at fits
        cases fits
        rfl
      exact ty ▸ listed.carries_literal known
    | loaded _ typed written => exact carries_written written rfl typed
    | computed computes typed written => exact carries_written written computes.typed typed
  places p data found reached := by
    cases purposeful.places p data found reached with
    | @root type _ typed declared => exact ⟨type, typed, _, or_assoc.mp (.inl declared), rfl⟩
    | chain _ _ _ _ typed _ written => exact carries_written written rfl typed

/-! Computations. -/

section Computes

variable (typed : e.Typed d)

include typed

theorem Typed.held (held : e.Held d h x) (known : d.Typed h ty) : e.Carries x ty := by
  obtain ⟨n, found⟩ := Option.isSome_iff_exists.mp held.2
  rw [← known n found]
  exact typed.values h n x found held.1

theorem Typed.shape {shape : Shape} (has : d.HasShape h shape) (holds : e.Holds h x) :
    e.Carries x shape.ty := by
  obtain ⟨n, found, same, _⟩ := has
  rw [← same]
  exact typed.values h n x found holds

theorem Computes.wellTyped (whole : d.Whole) {n : Node} (found : d.graph.find? h = some n)
    (known : e.IsType n.ty type) (computes : e.Computes d n type i) : e.typing.WellTyped i := by
  have listed := typed.listed
  have live : ∀ a ∈ d.graph.arguments n, ∃ v, d.graph.find? a = some v := fun a member =>
    Option.isSome_iff_exists.mp (Draft.live_argument member)
  cases computes with
  | @unary op a v operation ty x kind arguments operand lowered holds =>
    obtain ⟨operation', lowered'⟩ := whole.unary found kind arguments operand
    obtain ⟨rfl, rfl⟩ := Prod.mk.inj (Except.ok.inj (lowered.symm.trans lowered'))
    exact .compute (UnaryOp.lower_types lowered) (.cons (typed.values a v x operand holds) .nil) known
  | @binary op a b v w lowering x y kind other arguments left right lowered first second =>
    obtain ⟨lowering', lowered', result⟩ := whole.binary found kind other arguments left right
    obtain rfl := Except.ok.inj (lowered.symm.trans lowered')
    have first := typed.values a v x left first
    have second := typed.values b w y right second
    have fits := BinaryOp.lower_types lowered (first.accepted listed) (second.accepted listed)
    rw [← result] at known
    cases swap : lowering.swap <;> rw [swap] at fits
    · exact .compute fits (.cons first (.cons second .nil)) known
    · exact .compute fits (.cons second (.cons first .nil)) known
  | @sample a b v x y lod kind arguments source texture first second literal =>
    obtain ⟨w, index⟩ := live b (by simp [arguments])
    have result := (whole.lookup found kind arguments source index).1
    have first := typed.values a v x source first
    have second := typed.values b w y index second
    rcases BinaryOp.lookupResult_cases result with
      ⟨dim, depth, arrayed, image, coordinates, four⟩ | ⟨_, vector, _⟩ | ⟨_, _, _, matrix, _⟩
    · rw [image] at first
      rw [coordinates] at second
      rw [four] at known
      exact .sample first second (listed.carries_literal literal) known
    · rw [vector] at texture
      contradiction
    · rw [matrix] at texture
      contradiction
  | @column a b v w column x kind arguments source index notTexture several constant first =>
    have result := (whole.lookup found kind arguments source index).1
    obtain ⟨column', constant', bound⟩ :=
      whole.column found kind arguments source index notTexture several
    obtain rfl := Option.some.inj (Except.ok.inj (constant.symm.trans constant'))
    have first := typed.values a v x source first
    rcases BinaryOp.lookupResult_cases result with
      ⟨_, _, _, image, _⟩ | ⟨_, vector, _⟩ | ⟨component, rows, columns, matrix, many, taken⟩
    · rw [image] at notTexture
      contradiction
    · rw [vector] at several
      contradiction
    · rw [matrix] at first bound
      rw [taken] at known
      exact .extract first many bound known
  | @component a b v x y kind arguments source notTexture notMatrix first second =>
    obtain ⟨w, index⟩ := live b (by simp [arguments])
    have result := (whole.lookup found kind arguments source index).1
    have first := typed.values a v x source first
    have second := typed.values b w y index second
    rcases BinaryOp.lookupResult_cases result with
      ⟨_, _, _, image, _⟩ | ⟨rows, vector, integer⟩ | ⟨_, _, columns, matrix, many, _⟩
    · rw [image] at notTexture
      contradiction
    · rw [vector] at first
      exact .extractDynamic first second integer known
    · rw [matrix, Ty.isMatrix] at notMatrix
      exact absurd many (of_decide_eq_false notMatrix)
  | @select a b c x y z kind arguments condition accept reject =>
    obtain ⟨shapes, each, fits⟩ := whole.fits found (by rw [kind]; rfl)
    rw [arguments] at each
    rw [kind] at fits
    cases fits with
    | @select s₁ s₂ s₃ _ same same' chooses =>
      obtain _ | ⟨first, _ | ⟨second, _ | ⟨third, _⟩⟩⟩ := each
      have accept := typed.shape second accept
      have reject := typed.shape third reject
      rw [same] at accept
      rw [same'] at reject
      refine .select (typed.shape first condition) accept reject known ?_
      rcases chooses with plain | expected
      · exact .inl plain
      · split at expected
        · obtain ⟨component, rows, vector⟩ := Ty.exists_of_isVector ‹_›
          rw [vector] at expected ⊢
          exact .inr ⟨component, rows, rfl, expected⟩
        · exact .inl expected
  | @construct ids kind holds =>
    obtain ⟨shapes, each, fits⟩ := whole.fits found (by rw [kind]; rfl)
    rw [kind] at fits
    cases fits with
    | construct shape length parts =>
      have count : ids.length = shapes.length := holds.length_eq.symm.trans each.length_eq
      refine .construct known (count ▸ length ▸ Draft.madeOf_constructParts shape) fun id member => ?_
      obtain ⟨a, argument, holds⟩ := related_left holds.flip member
      obtain ⟨part, listed, has⟩ := related_left each argument
      rw [← parts part listed]
      exact typed.shape has holds

end Computes

/-! Access chains. -/

theorem related_last {α β : Type} {R : α → β → Prop} {as : List α} {a : α} {bs : List β}
    (related : List.Forall₂ R (as ++ [a]) bs) :
    ∃ front b, bs = front ++ [b] ∧ List.Forall₂ R as front ∧ R a b := by
  induction as generalizing bs with
  | nil =>
    cases related with
    | cons last none =>
      cases none
      exact ⟨[], _, rfl, .nil, last⟩
  | cons first rest ih =>
    cases related with
    | cons holds others =>
      obtain ⟨front, b, rfl, related, last⟩ := ih others
      exact ⟨_ :: front, b, rfl, .cons holds related, last⟩

/-- One link leads to the type that it selects. -/
theorem Typed.walks_link (typed : e.Typed d) {link : Link} {whole part : Ty}
    (selects : d.Selects whole part link) (indexes : e.Indexes d link id) :
    e.typing.Walks whole [id] part := by
  cases link with
  | member index =>
    cases whole with
    | struct members =>
      simp only [Draft.Selects, Ty.member] at selects
      split at selects
      · rename_i member found
        obtain rfl := Except.ok.inj selects
        exact .member indexes rfl found (.here _)
      · contradiction
    | _ => contradiction
  | index value =>
    obtain ⟨v, found⟩ := Option.isSome_iff_exists.mp indexes.2
    exact .element (Ty.indexed_element selects.1) (typed.values value v id found indexes.1)
      (selects.2 v found) (.here _)

/-- The links from a variable to a part of it lead to the type of the part. -/
theorem Typed.walks (typed : e.Typed d) (coherent : d.Coherent) {p root : Place} {links : List Link}
    (path : d.places.Path p root links) {data base : PlaceData}
    (found : d.places.find? p = some data) (rootFound : d.places.find? root = some base)
    {indices : List Id} (each : List.Forall₂ (e.Indexes d) links indices) :
    data.storage = base.storage ∧ e.typing.Walks base.pointee indices data.pointee := by
  induction path generalizing data indices with
  | root =>
    obtain rfl := Option.mem_unique found rootFound
    cases each
    exact ⟨rfl, .here _⟩
  | @chain p parent root data' link links found' origin _ ih =>
    obtain rfl := Option.mem_unique found found'
    obtain ⟨above, aboveFound, storage, selects⟩ := coherent.places p data found parent link origin
    obtain ⟨front, last, rfl, related, indexes⟩ := related_last each
    obtain ⟨same, walks⟩ := ih aboveFound rootFound related
    exact ⟨storage.trans same, walks.append (typed.walks_link selects indexes)⟩

/-! Whole compilations. -/

/-- The group of a boundary is well typed once it is written: what a loop compares and adds was read
in the group itself. -/
theorem Group.wellTyped {b : Boundary} {fresh : Nat} {group : List Instruction}
    (written : e₁.Group d b fresh group) (coherent : d.Coherent) (typed : e.Typed d)
    (grows : e₁.Grows e) (inside : ∀ i ∈ group, i ∈ e.body) :
    ∀ i ∈ group, e.typing.WellTyped i := by
  have reads : ∀ {i : Instruction} {type id : Id} {ty : Ty}, i ∈ group →
      i.typed? = some (type, id) → e₁.IsType ty type → e.Carries id ty :=
    fun member names known => carries_written (inside _ member) names (grows.types _ _ known)
  have bounds : ∀ {index : Nat} {l : CountedLoop} {h : Handle} {x : Id},
      d.loops[index]? = some l → h ∈ [l.first, l.last, l.step] → e₁.Held d h x →
      e.Carries x .sint := fun known member held =>
    typed.held (grows.held held) ((coherent.lists.loops _ _ known).bounds _ member).typed
  have counts : ∀ {index : Nat} {l : CountedLoop} {counter : PlaceData},
      d.loops[index]? = some l → d.places.find? l.counter = some counter →
      l.counter ∈ e₁.reached → e.Carries counter.id (.pointer counter.storage .sint) := by
    intro index l counter known found reached
    obtain ⟨data, found', integer⟩ := (coherent.lists.loops _ _ known).counter
    obtain rfl := Option.mem_unique found found'
    have carries := typed.places _ _ found (grows.reached _ reached)
    rwa [PlaceData.ty, integer] at carries
  cases written with
  | @ifBegin index s condition found held =>
    have chosen := typed.held (grows.held held) (coherent.lists.conditions index s found).typed
    simp only [Selection.beginGroup, List.forall_mem_cons]
    exact ⟨.selectionMerge _, .branchConditional _ _ chosen, .label _, by simp⟩
  | ifElse | ifEnd | leave | next =>
    simp only [Selection.elseGroup, Selection.endGroup, CountedLoop.leaveGroup,
      CountedLoop.nextGroup, List.forall_mem_cons]
    exact ⟨.branch _, .label _, by simp⟩
  | @loopBegin index l data int bool first last known found reached isInt isBool held held' =>
    have counter := counts known found reached
    have current : e.Carries e₁.nextId .sint :=
      reads (i := .load int e₁.nextId data.id) (by simp [CountedLoop.beginGroup]) rfl isInt
    have compared : e.Carries (e₁.nextId + 1) .bool :=
      reads (i := .compute .sLessThan bool (e₁.nextId + 1) [e₁.nextId, last])
        (by simp [CountedLoop.beginGroup]) rfl isBool
    have compares : Operation.Types .sLessThan [.sint, .sint] Ty.sint.toBool :=
      .compareSigned (by simp) (.inl rfl)
    simp only [CountedLoop.beginGroup, List.forall_mem_cons]
    exact ⟨.store counter (bounds known (by simp) held), .branch _, .label _, .loopMerge _ _,
      .branch _, .label _, .load counter (grows.types _ _ isInt),
      .compute compares (.cons current (.cons (bounds known (by simp) held') .nil))
        (grows.types _ _ isBool),
      .branchConditional _ _ compared, .label _, by simp⟩
  | @loopEnd index l data int step known found reached isInt held =>
    have counter := counts known found reached
    have current : e.Carries e₁.nextId .sint :=
      reads (i := .load int e₁.nextId data.id) (by simp [CountedLoop.endGroup]) rfl isInt
    have increased : e.Carries (e₁.nextId + 1) .sint :=
      reads (i := .compute .iAdd int (e₁.nextId + 1) [e₁.nextId, step])
        (by simp [CountedLoop.endGroup]) rfl isInt
    have adds : Operation.Types .iAdd [.sint, .sint] .sint := .integers (by simp) (.inl rfl)
    simp only [CountedLoop.endGroup, List.forall_mem_cons]
    exact ⟨.branch _, .label _, .load counter (grows.types _ _ isInt),
      .compute adds (.cons current (.cons (bounds known (by simp) held) .nil)) (grows.types _ _ isInt),
      .store counter increased, .branch _, .label _, by simp⟩

/-- Whatever an instruction of the function body was written for, it is well typed. -/
theorem Statement.wellTyped (whole : d.Whole) (coherent : d.Coherent) (typed : e.Typed d)
    (statement : e.Statement d i) : e.typing.WellTyped i := by
  have fills : ∀ {h : Handle} {n : Node} {p : Place} {data : PlaceData}, d.Fills h p →
      d.graph.find? h = some n → d.places.find? p = some data → n.ty = data.pointee := by
    intro h n p data ⟨data', known', carries⟩ found known
    obtain rfl := Option.mem_unique known known'
    exact carries.typed n found
  cases statement with
  | load fetches found known reached named =>
    exact .load (typed.places _ _ known reached) (fills (coherent.fetches fetches) found known ▸ named)
  | store stores known reached held =>
    obtain ⟨n, found⟩ := Option.isSome_iff_exists.mp held.2
    exact .store (typed.places _ _ known reached)
      (fills (coherent.stores stores) found known ▸ typed.values _ n _ found held.1)
  | value found known computes => exact Computes.wellTyped typed whole found known computes
  | chain found path reached rootFound known each =>
    obtain ⟨storage, walks⟩ := typed.walks coherent path found rootFound each
    rw [PlaceData.ty, storage] at known
    exact .accessChain (typed.places _ _ rootFound reached) walks known
  | boundary _ wrote member =>
    obtain ⟨e₁, fresh, written, _, grows, inside⟩ := wrote
    exact written.wellTyped coherent typed grows inside i member

end Step

end Emission

/-- Every instruction of the function of a module is well typed, where the types are those that are
read back from the declarations and results of the module itself. -/
theorem Draft.function_well_typed (settings : Settings) (slots : List Ty) {first : Draft}
    (begun : withInputs settings slots = .ok () first) {program : List Call}
    (building : ∀ c ∈ program, c.restarts = false) (thrifty : first.Thrifty [] program)
    {m : ShaderModule} (compiled : (first.after program).compilation.result = .ok m) :
    ∀ i ∈ m.function, m.typing.WellTyped i := by
  obtain rfl := eq_of_withInputs begun
  have proper := (proper_begun False settings slots).after building
  obtain ⟨e, _, ids, interface, _, parts, put, _⟩ := proper.assemble_ok compiled
  have purposeful := parts.purposeful proper.sound
  have typed := purposeful.typed (parts.listed proper) (whole_after building thrifty)
  have inside : ∀ i, i ∈ e.declarations ∨ i ∈ e.locals ∨ i ∈ e.body → i ∈ m.instructions := by
    rintro i (declaration | own | written) <;> simp [Emission.instructions, *]
  have within : e.typing.Within m.typing :=
    typed.listed.typing_within (fun i member => inside i (.inl member))
      (put ▸ parts.distinct proper) (put ▸ parts.ordered proper)
      (fun i member => inside i (.inr (.inl member))) fun i member => inside i (.inr (.inr member))
  intro i member
  rw [(parts.sections proper.sound).function put] at member
  simp only [List.mem_cons, List.mem_append, List.not_mem_nil, or_false,
    Array.mem_toList_iff] at member
  rcases member with rfl | (own | written) | rfl
  · exact .label _
  · obtain ⟨p, data, type, _, _, named, rfl⟩ := purposeful.locals i own
    exact .variableDecl (within.types _ _ named)
  · exact ((purposeful.body i written).wellTyped (whole_after building thrifty)
      (coherent_after building) typed).mono within
  · exact .returnVoid

/-- A program that scales a vector by parts of a block, in a loop, and drops a value it does not
need. -/
def Draft.scalesByBlock : List Call :=
  [.uniform 0 0 (.struct [.single, .array (.vec 3) 4]), .localVariable (.vec 3), .store ⟨2⟩ ⟨0, 0⟩,
    .member ⟨1⟩ 0, .load ⟨3⟩, .retain ⟨1, 1⟩, .negate ⟨1, 1⟩, .release ⟨2, 2⟩, .beginFor 0 4,
    .member ⟨1⟩ 1, .index ⟨5⟩ ⟨5, 6⟩, .load ⟨6⟩, .binary .mul ⟨6, 7⟩ ⟨0, 0⟩,
    .binary .mul ⟨1, 1⟩ ⟨7, 8⟩, .store ⟨2⟩ ⟨8, 9⟩, .endFor, .load ⟨2⟩, .output ⟨9, 10⟩]

theorem Draft.scalesByBlock_well_typed :
    withInputs { stage := .vertex } [.vec 3] = .ok () (vertex [.vec 3]) ∧
      (∀ c ∈ scalesByBlock, c.restarts = false) ∧
      (vertex [.vec 3]).Thrifty [] scalesByBlock ∧
      ∃ m : ShaderModule,
        ((vertex [.vec 3]).after scalesByBlock).compilation.result =
          .ok m ∧ ∀ i ∈ m.function, m.typing.WellTyped i := by
  have building : ∀ c ∈ scalesByBlock, c.restarts = false := by decide
  have thrifty : (vertex [.vec 3]).Thrifty [] scalesByBlock := by
    decide +kernel
  exact ⟨withInputs_eq _ _, building, thrifty, exists_and_of_toBool (by decide +kernel) fun _ =>
    function_well_typed { stage := .vertex } [.vec 3] (withInputs_eq _ _) building thrifty⟩

end ShaderIR
