import ShaderIR.Proofs.Moves

/-! What the instructions of a module are for. Whatever a compilation declares or writes, it does for
a type, a literal, a location, a value or an event of the draft, and the ids that an instruction
names are those of what it is built from. In turn, every value that is held and every location that
is reached has its instruction. What holds of all instructions is proved from their purposes. -/
namespace ShaderIR

variable {n : Node} {i : Instruction} {id : Id} {p : Place} {data : PlaceData} {b : Boundary}

namespace Emission

/-- How a value is held: in the id of its literal, or in the result of a load or of a computation. -/
inductive Kept (d : Draft) (e : Emission) (n : Node) : Id → Prop where
  | literal {l : Literal} {id : Id} : n.kind = .constant l → e.IsLiteral l id → Kept d e n id
  | loaded {type target : Id} : n.kind.IsFetched → e.IsType n.ty type →
      .load type n.id target ∈ e.body → Kept d e n n.id
  | computed {type : Id} {i : Instruction} : e.Computes d n type i → e.IsType n.ty type →
      i ∈ e.body → Kept d e n n.id

/-- How a location is reached: as a variable that is declared, or by a chain from its variable. -/
inductive Presents (d : Draft) (e : Emission) (p : Place) (data : PlaceData) : Prop where
  | root {type : Id} : data.origin = .root → e.IsType data.ty type →
      .variableDecl type data.id data.storage ∈ e.declarations ∨
        .variableDecl type data.id data.storage ∈ e.locals → Presents d e p data
  | chain {root : Place} {base : PlaceData} {links : List Link} {indices : List Id} {type : Id} :
      d.places.Path p root links → links ≠ [] → root ∈ e.reached →
      d.places.find? root = some base → e.IsType data.ty type →
      List.Forall₂ (e.Indexes d) links indices →
      .accessChain type data.id base.id indices ∈ e.body → Presents d e p data

def Wrote (e : Emission) (d : Draft) (b : Boundary) (group : List Instruction) : Prop :=
  ∃ (e₁ : Emission) (fresh : Nat), e₁.Group d b fresh group ∧ d.nextId ≤ e₁.nextId ∧
    e₁.Grows e ∧ ∀ i ∈ group, i ∈ e.body

inductive Declaration (d : Draft) (ids : EntryIds) (e : Emission) : Instruction → Prop where
  | type {ty : Ty} {id : Id} {form : TypeForm} : e.IsType ty id → e.Forms ty form →
      Declaration d ids e (.typeDecl id form)
  | signature : e.IsType .void ids.void →
      Declaration d ids e (.typeDecl ids.signature (.function ids.void))
  | constant {literal : Literal} {type id : Id} : e.IsType literal.ty type →
      e.IsLiteral literal id → Declaration d ids e (.constant type id literal)
  | shared {p : Place} {data : PlaceData} {type : Id} : d.places.find? p = some data →
      data.storage ≠ .function → e.IsType data.ty type →
      Declaration d ids e (.variableDecl type data.id data.storage)

def Own (d : Draft) (e : Emission) (i : Instruction) : Prop :=
  ∃ p data type, d.places.find? p = some data ∧ data.storage = .function ∧
    e.IsType data.ty type ∧ i = .variableDecl type data.id data.storage

inductive Statement (d : Draft) (e : Emission) : Instruction → Prop where
  | load {p : Place} {h : Handle} {n : Node} {data : PlaceData} {type : Id} : d.Fetches p h →
      d.graph.find? h = some n → d.places.find? p = some data → p ∈ e.reached →
      e.IsType n.ty type → Statement d e (.load type n.id data.id)
  | store {p : Place} {h : Handle} {data : PlaceData} {x : Id} : d.Stores p h →
      d.places.find? p = some data → p ∈ e.reached → e.Held d h x →
      Statement d e (.store data.id x)
  | value {h : Handle} {n : Node} {type : Id} {i : Instruction} : d.graph.find? h = some n →
      e.IsType n.ty type → e.Computes d n type i → Statement d e i
  | chain {p root : Place} {data base : PlaceData} {links : List Link} {indices : List Id}
      {type : Id} : d.places.find? p = some data → d.places.Path p root links → root ∈ e.reached →
      d.places.find? root = some base → e.IsType data.ty type →
      List.Forall₂ (e.Indexes d) links indices →
      Statement d e (.accessChain type data.id base.id indices)
  | boundary {k : Nat} {b : Boundary} {group : List Instruction} {i : Instruction} :
      d.trace.action? k = some (.boundary b) → e.Wrote d b group → i ∈ group → Statement d e i

structure Purposeful (d : Draft) (ids : EntryIds) (e : Emission) : Prop where
  later : d.nextId ≤ e.nextId
  annotations : ∀ i ∈ e.annotations, i.part = .decoration
  declarations : ∀ i ∈ e.declarations, e.Declaration d ids i
  locals : ∀ i ∈ e.locals, e.Own d i
  body : ∀ i ∈ e.body, e.Statement d i
  values : ∀ h n id, d.graph.find? h = some n → e.Holds h id → e.Kept d n id
  places : ∀ p data, d.places.find? p = some data → p ∈ e.reached → e.Presents d p data

section Grow

variable {d : Draft} {ids : EntryIds} {e e' : Emission}

theorem Computes.not_constant {type : Id} (computes : e.Computes d n type i) (literal : Literal) :
    n.kind ≠ .constant literal := by
  cases computes with
  | unary kind | binary kind | sample kind | column kind | component kind | select kind
  | construct kind => simp [kind]

/-- A value is held in the id of its literal if it is a constant, and in the id of its node if it is
none. -/
theorem Kept.placed (kept : e.Kept d n id) :
    (∃ literal, n.kind = .constant literal ∧ e.IsLiteral literal id) ∨
      (∀ literal, n.kind ≠ .constant literal) ∧ id = n.id := by
  cases kept with
  | literal kind known => exact .inl ⟨_, kind, known⟩
  | loaded fetched => exact .inr ⟨fetched.not_constant, rfl⟩
  | computed computes => exact .inr ⟨computes.not_constant, rfl⟩

variable (grows : e.Grows e')

include grows

theorem Kept.grow (kept : e.Kept d n id) : e'.Kept d n id := by
  cases kept with
  | literal kind known => exact .literal kind (grows.literals _ _ known)
  | loaded fetched typed written =>
    exact .loaded fetched (grows.types _ _ typed) (grows.body _ written)
  | computed computes typed written =>
    exact .computed (computes.grow grows) (grows.types _ _ typed) (grows.body _ written)

theorem Presents.grow (presents : e.Presents d p data) : e'.Presents d p data := by
  cases presents with
  | root origin typed declared =>
    exact .root origin (grows.types _ _ typed)
      (declared.imp (grows.declarations _) (grows.locals _))
  | chain path several reached base typed indices written =>
    exact .chain path several (grows.reached _ reached) base (grows.types _ _ typed)
      (indices.imp fun _ _ => grows.indexes) (grows.body _ written)

theorem Wrote.grow {group : List Instruction} (wrote : e.Wrote d b group) : e'.Wrote d b group := by
  obtain ⟨e₁, fresh, written, later, before, inside⟩ := wrote
  exact ⟨e₁, fresh, written, later, before.trans grows,
    fun i member => grows.body i (inside i member)⟩

theorem Declaration.grow (declaration : e.Declaration d ids i) : e'.Declaration d ids i := by
  cases declaration with
  | type known forms => exact .type (grows.types _ _ known) (grows.forms forms)
  | signature known => exact .signature (grows.types _ _ known)
  | constant typed known => exact .constant (grows.types _ _ typed) (grows.literals _ _ known)
  | shared found storage typed => exact .shared found storage (grows.types _ _ typed)

theorem Own.grow (own : e.Own d i) : e'.Own d i := by
  obtain ⟨p, data, type, found, storage, typed, same⟩ := own
  exact ⟨p, data, type, found, storage, grows.types _ _ typed, same⟩

theorem Statement.grow (statement : e.Statement d i) : e'.Statement d i := by
  cases statement with
  | load reads found known reached typed =>
    exact .load reads found known (grows.reached _ reached) (grows.types _ _ typed)
  | store stores found reached held =>
    exact .store stores found (grows.reached _ reached) (grows.held held)
  | value found typed computes => exact .value found (grows.types _ _ typed) (computes.grow grows)
  | chain found path reached base typed indices =>
    exact .chain found path (grows.reached _ reached) base (grows.types _ _ typed)
      (indices.imp fun _ _ => grows.indexes)
  | boundary recorded wrote member => exact .boundary recorded (wrote.grow grows) member

structure Adds (d : Draft) (ids : EntryIds) (e e' : Emission) : Prop where
  annotations : ∀ i ∈ e'.annotations, i ∈ e.annotations ∨ i.part = .decoration := by
    exact fun _ => .inl
  declarations : ∀ i ∈ e'.declarations, i ∈ e.declarations ∨ e'.Declaration d ids i := by
    exact fun _ => .inl
  locals : ∀ i ∈ e'.locals, i ∈ e.locals ∨ e'.Own d i := by exact fun _ => .inl
  body : ∀ i ∈ e'.body, i ∈ e.body ∨ e'.Statement d i := by exact fun _ => .inl
  values : ∀ h n id, d.graph.find? h = some n → e'.Holds h id → e.Holds h id ∨ e'.Kept d n id := by
    exact fun _ _ _ _ => .inl
  places : ∀ p data, d.places.find? p = some data → p ∈ e'.reached →
    p ∈ e.reached ∨ e'.Presents d p data := by exact fun _ _ _ => .inl

theorem Purposeful.grow (purposeful : e.Purposeful d ids) (adds : Adds d ids e e') :
    e'.Purposeful d ids where
  later := Nat.le_trans purposeful.later grows.nextId
  annotations i member := (adds.annotations i member).elim (purposeful.annotations i) id
  declarations i member := (adds.declarations i member).elim
    (fun before => (purposeful.declarations i before).grow grows) id
  locals i member := (adds.locals i member).elim
    (fun before => (purposeful.locals i before).grow grows) id
  body i member := (adds.body i member).elim (fun before => (purposeful.body i before).grow grows) id
  values h n x found held := (adds.values h n x found held).elim
    (fun before => (purposeful.values h n x found before).grow grows) id
  places p data found member := (adds.places p data found member).elim
    (fun before => (purposeful.places p data found before).grow grows) id

end Grow

section Move

variable {strict : Prop} {d : Draft} {ids : EntryIds} {k k' : Nat} {bound : Id} {e e' : Emission}

theorem Quiet.purposeful (step : Quiet d e e') (purposeful : e.Purposeful d ids) :
    e'.Purposeful d ids := by
  have grows := step.grows
  cases step with
  | fresh | register | name | decorate => exact purposeful.grow grows {}
  | @announce ty form missing forms =>
    have known : (e.types.declare ty e.nextId).id? ty = some e.nextId := by
      rw [TypeTable.id?_declare, if_pos rfl]
    exact purposeful.grow grows { declarations := mem_push_or (.type known (grows.forms forms)) }
  | @declare literal id type registered typed =>
    refine purposeful.grow grows { declarations := mem_push_or (.constant typed ?_) }
    rw [IsLiteral, ConstantTable.find?_declare, if_pos rfl]
  | annotate decorates => exact purposeful.grow grows { annotations := mem_push_or decorates }

theorem Enters.purposeful (enters : Enters d ids e) : e.Purposeful d ids := by
  obtain ⟨e₀, steps, void, _, _, _, _, rfl⟩ := enters
  have start : (start d).Purposeful d ids :=
    ⟨Nat.le_refl _, by simp [start], by simp [start], by simp [start], by simp [start],
      by simp [Holds, start], by simp [start]⟩
  exact (keeps_along (fun step => step.purposeful) steps start).grow (grows_entry e₀ _ 4)
    { declarations := mem_push_or (.signature void) }

theorem reached_cons {q : Place} {data' : PlaceData} (found : d.places.find? p = some data)
    (found' : d.places.find? q = some data') (member : q ∈ p :: e.reached)
    (now : e'.Presents d p data) : q ∈ e.reached ∨ e'.Presents d q data' := by
  rcases List.mem_cons.mp member with rfl | before
  · exact .inr (Option.mem_unique found found' ▸ now)
  · exact .inl before

theorem holds_kept {h h' : Handle} {n' : Node} {id' : Id} (found : d.graph.find? h = some n)
    (found' : d.graph.find? h' = some n') (results : e'.results = e.results.insert h.slot id)
    (held : e'.Holds h' id') (now : e'.Kept d n id) : e.Holds h' id' ∨ e'.Kept d n' id' :=
  (holds_insert found found' results held).imp_right fun ⟨same, same'⟩ => same ▸ same' ▸ now

theorem Prepare.purposeful (step : Prepare d e e') (purposeful : e.Purposeful d ids) :
    e'.Purposeful d ids := by
  have grows := step.grows
  cases step with
  | quiet step => exact step.purposeful purposeful
  | shared found origin storage _ typed =>
    exact purposeful.grow grows {
      declarations := mem_push_or (.shared found storage typed)
      places := fun _ _ found' member =>
        reached_cons found found' member (.root origin typed (.inl Array.mem_push_self)) }
  | own found origin storage _ typed =>
    exact purposeful.grow grows {
      locals := mem_push_or ⟨_, _, _, found, storage, typed, rfl⟩
      places := fun _ _ found' member =>
        reached_cons found found' member (.root origin typed (.inr Array.mem_push_self)) }

theorem Ask.purposeful (step : Ask strict d k bound e e') (purposeful : e.Purposeful d ids) :
    e'.Purposeful d ids := by
  have grows := step.grows
  cases step with
  | quiet step => exact step.purposeful purposeful
  | literal found kind _ _ known =>
    exact purposeful.grow grows {
      values := fun _ _ _ found' held => holds_kept found found' rfl held (.literal kind known) }
  | compute found _ _ _ typed computes =>
    have computes := computes.grow grows
    exact purposeful.grow grows {
      body := mem_push_or (.value found typed computes)
      values := fun _ _ _ found' held =>
        holds_kept found found' rfl held (.computed computes typed Array.mem_push_self) }
  | chain found _ _ _ path several reached base typed indices =>
    have reached := grows.reached _ reached
    have indices := indices.imp fun _ _ => grows.indexes
    exact purposeful.grow grows {
      body := mem_push_or (.chain found path reached base typed indices)
      places := fun _ _ found' member => reached_cons found found' member
        (.chain path several reached base typed indices Array.mem_push_self) }

theorem Move.purposeful (move : Move strict d k e k' e') (purposeful : e.Purposeful d ids) :
    e'.Purposeful d ids := by
  have grows := move.grows
  cases move with
  | prepare step => exact step.purposeful purposeful
  | ask step => exact step.purposeful purposeful
  | mark => exact purposeful.grow grows {}
  | load fetches found fetched known reached typed =>
    exact purposeful.grow grows {
      body := mem_push_or (.load fetches found known reached typed)
      values := fun _ _ _ found' held =>
        holds_kept found found' rfl held (.loaded fetched typed Array.mem_push_self) }
  | store stores found known holds reached =>
    exact purposeful.grow grows {
      body := mem_push_or (.store stores known reached ⟨holds, Option.isSome_of_eq_some found⟩) }
  | boundary recorded written =>
    refine purposeful.grow grows {
      body := fun i member => (Array.mem_append.mp member).imp_right fun now => ?_ }
    exact .boundary recorded ⟨e, _, written, purposeful.later, grows, fun _ inside =>
      Array.mem_append_right _ (List.mem_toArray.mpr inside)⟩ (List.mem_toArray.mp now)
  | pass => exact purposeful

theorem Move.wrote (move : Move strict d k e k' e') (later : d.nextId ≤ e.nextId)
    (wrote : ∀ j < k, ∀ b, d.trace.action? j = some (.boundary b) → ∃ group, e.Wrote d b group) :
    ∀ j < k', ∀ b, d.trace.action? j = some (.boundary b) → ∃ group, e'.Wrote d b group := by
  intro j bound b recorded
  have grows := move.grows
  cases move with
  | prepare | ask | mark | load | store => exact (wrote j bound b recorded).imp fun _ => .grow grows
  | @boundary b' fresh group recorded' written =>
    rcases Nat.lt_succ_iff_lt_or_eq.mp bound with earlier | rfl
    · exact (wrote j earlier b recorded).imp fun _ => .grow grows
    · obtain rfl := Action.boundary.inj (Option.mem_unique recorded recorded')
      exact ⟨group, e, fresh, written, later, grows,
        fun i member => Array.mem_append_right _ (List.mem_toArray.mpr member)⟩
  | pass recorded' other =>
    rcases Nat.lt_succ_iff_lt_or_eq.mp bound with earlier | rfl
    · exact wrote j earlier b recorded
    · exact absurd (Option.mem_unique recorded' recorded) (other b)

variable (sound : d.Sound strict) {interface : List Id} {stages : Stages}
  (compiled : Compiled strict d ids interface e stages)

include sound compiled

/-- Every instruction that a compilation declares or writes has a purpose. -/
theorem Compiled.purposeful : e.Purposeful d ids :=
  compiled.keeps (P := fun _ e => e.Purposeful d ids) (fun move => move.purposeful) sound
    fun _ enters => enters.purposeful

theorem Compiled.wrote (recorded : d.trace.action? k = some (.boundary b)) :
    ∃ group, e.Wrote d b group :=
  (compiled.keeps (P := fun k e => e.Purposeful d ids ∧
      ∀ j < k, ∀ b, d.trace.action? j = some (.boundary b) → ∃ group, e.Wrote d b group)
    (fun move kept => ⟨move.purposeful kept.1, move.wrote kept.1.later kept.2⟩) sound
    fun _ enters => ⟨enters.purposeful, fun _ early => absurd early (Nat.not_lt_zero _)⟩).2 k
    (Trace.action?_lt recorded) b recorded

end Move

end Emission

end ShaderIR
