import ShaderIR.Proofs.Accounts
import ShaderIR.Proofs.Purpose
import ShaderIR.Proofs.Reading

/-! Types are declared once. The declarations of a module can be read back, so each tells which
type it is for, and the table of types knows one id for each type. -/
namespace ShaderIR

variable {i : Instruction} {form : TypeForm} {id type : Id} {ty : Ty}

def Instruction.form? : Instruction → Option TypeForm
  | .typeDecl _ form => some form
  | _ => none

theorem Instruction.form?_eq_some : i.form? = some form ↔ ∃ id, i = .typeDecl id form := by
  cases i <;> simp [Instruction.form?]

/-- A key of instructions that belongs to one result only is found once. -/
theorem nodup_filterMap_of_results {α : Type} {code : List Instruction}
    (distinct : (code.filterMap Instruction.result?).Nodup) {key : Instruction → Option α}
    (named : ∀ i ∈ code, ∀ a, key i = some a → ∃ id, i.result? = some id)
    (same : ∀ i ∈ code, ∀ j ∈ code, ∀ a, key i = some a → key j = some a →
      i.result? = j.result?) : (code.filterMap key).Nodup := by
  induction code with
  | nil => exact List.nodup_nil
  | cons i rest ih =>
    have tail : (rest.filterMap Instruction.result?).Nodup := by
      cases result : i.result? with
      | none => rwa [List.filterMap_cons_none result] at distinct
      | some id =>
        rw [List.filterMap_cons_some result] at distinct
        exact distinct.tail
    have others := ih tail (fun j member => named j (List.mem_cons_of_mem i member))
      fun j member j' member' => same j (List.mem_cons_of_mem i member) j'
        (List.mem_cons_of_mem i member')
    cases known : key i with
    | none => rwa [List.filterMap_cons_none known]
    | some a =>
      rw [List.filterMap_cons_some known]
      refine List.nodup_cons.mpr ⟨fun again => ?_, others⟩
      obtain ⟨j, member, known'⟩ := List.mem_filterMap.mp again
      obtain ⟨id, result⟩ := named i List.mem_cons_self a known
      have result' : j.result? = some id :=
        (same i List.mem_cons_self j (List.mem_cons_of_mem i member) a known known').symm.trans result
      rw [List.filterMap_cons_some result] at distinct
      exact (List.nodup_cons.mp distinct).1 (List.mem_filterMap.mpr ⟨j, member, result'⟩)

/-! Words. -/

theorem Word.ofBool_inj {a b : Bool} (same : Word.ofBool a = Word.ofBool b) : a = b := by
  revert same
  cases a <;> cases b <;> decide

theorem Dim.word_inj {a b : Dim} (same : a.word = b.word) : a = b := by
  revert same
  cases a <;> cases b <;> decide

theorem Storage.word_inj {a b : Storage} (same : a.word = b.word) : a = b := by
  revert same
  cases a <;> cases b <;> decide

theorem Word.map_ofId_inj {as bs : List Id} (small : ∀ a ∈ as, a < UInt32.size)
    (small' : ∀ b ∈ bs, b < UInt32.size) (same : as.map Word.ofId = bs.map Word.ofId) : as = bs := by
  induction as generalizing bs with
  | nil =>
    cases bs with
    | nil => rfl
    | cons => contradiction
  | cons a as ih =>
    cases bs with
    | nil => contradiction
    | cons b bs =>
      obtain ⟨first, others⟩ := List.forall_mem_cons.mp small
      obtain ⟨first', others'⟩ := List.forall_mem_cons.mp small'
      obtain ⟨head, tail⟩ := List.cons.inj same
      rw [Word.ofId_inj first first' head, ih others others' tail]

/-- A declaration can be told from its opcode and operands, while ids fit into a word. -/
theorem TypeForm.words_inj {form' : TypeForm} (small : ∀ id ∈ form.ids, id < UInt32.size)
    (small' : ∀ id ∈ form'.ids, id < UInt32.size) (opcode : form.opcode = form'.opcode)
    (operands : form.operands = form'.operands) : form = form' := by
  have first : ∀ {id id' : Id} {rest rest' : List Id}, form.ids = id :: rest →
      form'.ids = id' :: rest' → Word.ofId id = Word.ofId id' → id = id' :=
    fun ids ids' => Word.ofId_inj (small _ (by simp [ids])) (small' _ (by simp [ids']))
  -- Declarations of different kinds have different opcodes.
  cases form <;> cases form' <;> first
    | (simp [TypeForm.opcode] at opcode; done)
    | rfl
    | simp only [TypeForm.operands, List.cons.injEq, and_true] at operands
  case int.int => rw [operands.1, Word.ofBool_inj operands.2]
  case float.float => rw [operands]
  case vector.vector => rw [first rfl rfl operands.1, operands.2]
  case matrix.matrix => rw [first rfl rfl operands.1, operands.2]
  case image.image =>
    rw [first rfl rfl operands.1, Dim.word_inj operands.2.1, Word.ofBool_inj operands.2.2.1,
      Word.ofBool_inj operands.2.2.2]
  case sampledImage.sampledImage => rw [first rfl rfl operands]
  case array.array element length element' length' =>
    have second : length = length' := Word.ofId_inj (small length (by simp [TypeForm.ids]))
      (small' length' (by simp [TypeForm.ids])) operands.2
    rw [first rfl rfl operands.1, second]
  case runtimeArray.runtimeArray => rw [first rfl rfl operands]
  case struct.struct ids ids' =>
    have same : ids = ids' := Word.map_ofId_inj small small' operands
    rw [same]
  case pointer.pointer => rw [Storage.word_inj operands.1, first rfl rfl operands.2]
  case function.function => rw [first rfl rfl operands]

/-- Whatever has an id, among the values and locations of a draft, is of one type. -/
structure Draft.Ascribes (d : Draft) (id : Id) (ty : Ty) : Prop where
  values : ∀ h n, d.graph.find? h = some n → n.id = id → n.ty = ty
  places : ∀ p data, d.places.find? p = some data → data.id = id → data.ty = ty

section Ascribes

variable {d : Draft} (owned : d.Owned)

include owned

theorem Draft.Owned.ascribes_value {h : Handle} {n : Node} (found : d.graph.find? h = some n) :
    d.Ascribes n.id n.ty := by
  have owns : d.Owns n.id (.value h) := ⟨n, found, rfl⟩
  refine ⟨fun h' n' found' same => ?_, fun p data found' same => ?_⟩
  · obtain rfl := Owner.value.inj (owned.unique _ _ _ owns ⟨n', found', same⟩)
    rw [Option.mem_unique found found']
  · exact absurd (owned.unique _ _ (.place p) owns ⟨data, found', same⟩) (by simp)

theorem Draft.Owned.ascribes_place {p : Place} {data : PlaceData}
    (found : d.places.find? p = some data) : d.Ascribes data.id data.ty := by
  have owns : d.Owns data.id (.place p) := ⟨data, found, rfl⟩
  refine ⟨fun h n found' same => ?_, fun p' data' found' same => ?_⟩
  · exact absurd (owned.unique _ _ (.value h) owns ⟨n, found', same⟩) (by simp)
  · obtain rfl := Owner.place.inj (owned.unique _ _ _ owns ⟨data', found', same⟩)
    rw [Option.mem_unique found found']

theorem Draft.Owned.ascribes_new (new : d.nextId ≤ id) (ty : Ty) : d.Ascribes id ty := by
  refine ⟨fun h n found same => ?_, fun p data found same => ?_⟩
  · exact absurd (owned.bound id (.value h) ⟨n, found, same⟩) (Nat.not_lt.mpr new)
  · exact absurd (owned.bound id (.place p) ⟨data, found, same⟩) (Nat.not_lt.mpr new)

end Ascribes

namespace Emission

section Purpose

variable {strict : Prop} {d : Draft} {ids : EntryIds} {e : Emission}

def Contains (e : Emission) (i : Instruction) : Prop :=
  i ∈ e.declarations ∨ i ∈ e.locals ∨ i ∈ e.body

theorem contains_instructions (interface : List Id) (contains : e.Contains i) :
    i ∈ e.instructions d ids interface := by
  rcases contains with declaration | own | written <;> simp [instructions, *]

/-- The instructions of a module that give a value are declared or written. -/
theorem Sections.contains (sections : e.Sections) {interface : List Id}
    (member : i ∈ e.instructions d ids interface) (typed : i.typed? = some (type, id)) :
    e.Contains i := by
  obtain ⟨declared, own, written⟩ := sections.locate member
  by_cases body : i.part = .body
  · rcases written body with ⟨_, rfl⟩ | rfl | inside
    · contradiction
    · contradiction
    · exact .inr (.inr inside)
  · cases i with
    | constant => exact .inl (declared rfl)
    | variableDecl _ _ storage =>
      by_cases function : storage = .function
      · exact .inr (.inl (own (if_pos function)))
      · exact .inl (declared (if_neg function))
    | _ => contradiction

theorem Group.typed_new {b : Boundary} {fresh : Nat} {group : List Instruction}
    (written : e.Group d b fresh group) (member : i ∈ group) (typed : i.typed? = some (type, id)) :
    e.nextId ≤ id ∧ ∃ ty, e.IsType ty type := by
  cases written with
  | ifBegin | ifElse | ifEnd | leave | next =>
    simp only [Selection.beginGroup, Selection.elseGroup, Selection.endGroup,
      CountedLoop.leaveGroup, CountedLoop.nextGroup, List.mem_cons, List.not_mem_nil,
      or_false] at member
    rcases member with rfl | rfl | rfl <;> contradiction
  | loopBegin | loopEnd =>
    simp only [CountedLoop.beginGroup, CountedLoop.endGroup, List.mem_cons, List.not_mem_nil,
      or_false] at member
    rcases member with rfl | rfl | rfl | rfl | rfl | rfl | rfl | rfl | rfl | rfl <;>
      first
      | contradiction
      | obtain ⟨rfl, rfl⟩ := Prod.mk.inj (Option.some.inj typed)
    · exact ⟨Nat.le_refl _, _, ‹_›⟩
    · exact ⟨Nat.le_succ _, _, ‹_›⟩

/-- A constant is of the type of whatever has its id. -/
theorem Names.ascribes (owned : d.Owned) (coherent : d.Coherent) {literal : Literal}
    (names : e.Names d literal id) : d.Ascribes id literal.ty := by
  rcases names with taken | owns | ⟨h, n, found, kind, rfl⟩
  · exact owned.ascribes_new taken.1 _
  · refine ⟨fun h n found same => ?_, fun p data found same => ?_⟩
    · exact absurd (owned.unique _ _ (.value h) owns ⟨n, found, same⟩) (by simp)
    · exact absurd (owned.unique _ _ (.place p) owns ⟨data, found, same⟩) (by simp)
  · obtain ⟨_, _, fits⟩ := coherent.nodes h n found (by rw [kind]; rfl)
    have same : n.ty = literal.ty := by
      rw [kind] at fits
      generalize n.ty = ty at fits ⊢
      cases fits
      rfl
    exact same ▸ owned.ascribes_value found

/-- The type that an instruction names is the one of what has its result. -/
theorem Purposeful.of_typed (purposeful : e.Purposeful d ids) (owned : d.Owned)
    (coherent : d.Coherent) (tidy : e.Tidy d) (contains : e.Contains i)
    (typed : i.typed? = some (type, id)) : ∃ ty, e.IsType ty type ∧ d.Ascribes id ty := by
  rcases contains with declared | own | written
  · cases purposeful.declarations i declared with
    | constant known literal =>
      obtain ⟨rfl, rfl⟩ := Prod.mk.inj (Option.some.inj typed)
      exact ⟨_, known, (tidy.literals _ _ literal).ascribes owned coherent⟩
    | shared found _ known =>
      obtain ⟨rfl, rfl⟩ := Prod.mk.inj (Option.some.inj typed)
      exact ⟨_, known, owned.ascribes_place found⟩
    | type | signature => contradiction
  · obtain ⟨p, data, type', found, _, known, rfl⟩ := purposeful.locals i own
    obtain ⟨rfl, rfl⟩ := Prod.mk.inj (Option.some.inj typed)
    exact ⟨_, known, owned.ascribes_place found⟩
  · cases purposeful.body i written with
    | chain found _ _ _ known =>
      obtain ⟨rfl, rfl⟩ := Prod.mk.inj (Option.some.inj typed)
      exact ⟨_, known, owned.ascribes_place found⟩
    | load _ found _ _ known =>
      obtain ⟨rfl, rfl⟩ := Prod.mk.inj (Option.some.inj typed)
      exact ⟨_, known, owned.ascribes_value found⟩
    | value found known computes =>
      obtain ⟨rfl, rfl⟩ := Prod.mk.inj (Option.mem_unique computes.typed typed)
      exact ⟨_, known, owned.ascribes_value found⟩
    | boundary _ wrote member =>
      obtain ⟨e₁, fresh, group, later, grows, _⟩ := wrote
      obtain ⟨new, ty, known⟩ := group.typed_new member typed
      exact ⟨ty, grows.types ty type known, owned.ascribes_new (Nat.le_trans later new) ty⟩
    | store => contradiction

end Purpose

section Module

variable {strict : Prop} {d : Draft} {ids : EntryIds} {interface : List Id}
  {e : Emission} {stages : Stages} (proper : d.Proper strict)
  (compiled : Compiled strict d ids interface e stages)

include compiled

/-- A type is declared because it was asked for, or as the type of the entry function. -/
theorem Compiled.of_typeDecl (sound : d.Sound strict)
    (member : .typeDecl id form ∈ e.instructions d ids interface) :
    (∃ ty, e.IsType ty id ∧ e.Forms ty form) ∨ id = ids.signature ∧ form = .function ids.void := by
  have declared := ((compiled.sections sound).locate member).1 rfl
  cases (compiled.purposeful sound).declarations _ declared with
  | type known forms => exact .inl ⟨_, known, forms⟩
  | signature => exact .inr ⟨rfl, rfl⟩

include proper

theorem Compiled.of_typed (coherent : d.Coherent) (member : i ∈ e.instructions d ids interface)
    (typed : i.typed? = some (type, id)) : ∃ ty, e.IsType ty type ∧ d.Ascribes id ty :=
  (compiled.purposeful proper.sound).of_typed proper.owned coherent
    (compiled.tidy proper.toSteady) ((compiled.sections proper.sound).contains member typed) typed

/-- The id of every type that is declared is read as that type. -/
theorem Compiled.reads (known : e.IsType ty id) :
    (Reading.of (e.instructions d ids interface)).types.find? id = some ty :=
  (compiled.listed proper).reads (fun _ member => contains_instructions interface (.inl member))
    (compiled.distinct proper) (compiled.ordered proper) known

theorem Compiled.type_unique {ty' : Ty} (known : e.IsType ty id) (known' : e.IsType ty' id) :
    ty = ty' :=
  Option.some.inj ((compiled.reads proper known).symm.trans (compiled.reads proper known'))

theorem Compiled.form_unique {id' : Id}
    (member : .typeDecl id form ∈ e.instructions d ids interface)
    (member' : .typeDecl id' form ∈ e.instructions d ids interface) : id = id' := by
  have read : ∀ {ty}, e.Forms ty form →
      form.read (Reading.of (e.instructions d ids interface)) = some ty := fun forms =>
    (compiled.listed proper).reads_form (fun _ member => contains_instructions interface (.inl member))
      (compiled.distinct proper) forms fun _ _ _ => compiled.reads proper
  rcases compiled.of_typeDecl proper.sound member with ⟨ty, known, forms⟩ | ⟨rfl, rfl⟩
  · rcases compiled.of_typeDecl proper.sound member' with ⟨ty', known', forms'⟩ | ⟨rfl, rfl⟩
    · obtain rfl := Option.some.inj ((read forms).symm.trans (read forms'))
      exact Option.mem_unique known known'
    · cases forms
  · rcases compiled.of_typeDecl proper.sound member' with ⟨ty', known', forms'⟩ | ⟨rfl, _⟩
    · cases forms'
    · rfl

/-- A type that was asked for has one declaration, after everything it is built from. -/
theorem Compiled.declares (known : e.IsType ty id) :
    ∃ before form after,
      e.instructions d ids interface = before ++ .typeDecl id form :: after ∧ e.Forms ty form ∧
        (∀ part ∈ form.ids, ∃ i ∈ before, i.result? = some part) ∧
        ∀ i ∈ before ++ after, i.result? ≠ some id := by
  obtain ⟨form, forms, member⟩ := (compiled.listed proper).types ty id known
  obtain ⟨before, after, split⟩ :=
    List.append_of_mem (contains_instructions (d := d) interface (.inl member))
  refine ⟨before, form, after, split, forms, fun part inside => ?_, fun i member same => ?_⟩
  · exact ((compiled.ordered proper).before split inside).resolve_left False.elim
  · have distinct := compiled.distinct proper
    have result : (Instruction.typeDecl id form).result? = some id := rfl
    rw [split, List.filterMap_append, List.filterMap_cons_some result] at distinct
    have apart := (List.nodup_middle.mp distinct).notMem
    rw [← List.filterMap_append] at apart
    exact apart (List.mem_filterMap.mpr ⟨i, member, same⟩)

theorem Compiled.use_lt (member : i ∈ e.instructions d ids interface) (used : id ∈ i.uses) :
    id < e.nextId := by
  obtain ⟨before, after, split⟩ := List.append_of_mem member
  obtain ⟨j, earlier, result⟩ :=
    ((compiled.ordered proper).before split used).resolve_left False.elim
  have inside : j ∈ e.instructions d ids interface := by
    rw [split]
    exact List.mem_append_left _ earlier
  have defined := (compiled.sections proper.sound).results.mem_iff.mp
    (List.mem_filterMap.mpr ⟨j, inside, result⟩)
  exact ((compiled.numbered proper).sources id defined).positive proper.owned
    (compiled.tidy proper.toSteady) |>.2

end Module

end Emission

/-- No two type declarations of a module say the same. Every type that was asked for has one
declaration, with the ids of the types that it is built from and of the constant that an array has as
its length, which are all declared before; different types have different ids. The types that
instructions name are those of the values and locations that have their results. -/
theorem Draft.types_declared_once (settings : Settings) (slots : List Ty) {first : Draft}
    (begun : withInputs settings slots = .ok () first) {program : List Call}
    (building : ∀ c ∈ program, c.restarts = false) {m : ShaderModule}
    (compiled : (first.after program).compilation.result = .ok m) :
    ∃ e, (first.after program).assemble = .ok m e ∧
      (m.instructions.filterMap Instruction.form?).Nodup ∧
      (m.bound ≤ UInt32.size → ((m.instructions.filterMap Instruction.form?).map
        fun form => (form.opcode, form.operands)).Nodup) ∧
      (∀ ty id, e.IsType ty id → ∃ before form after,
        m.instructions = before ++ .typeDecl id form :: after ∧ e.Forms ty form ∧
          (∀ part ∈ form.ids, ∃ i ∈ before, i.result? = some part) ∧
          ∀ i ∈ before ++ after, i.result? ≠ some id) ∧
      (∀ ty ty' id, e.IsType ty id → e.IsType ty' id → ty = ty') ∧
      (∀ literal id, e.IsLiteral literal id →
        ∃ type, e.IsType literal.ty type ∧ .constant type id literal ∈ m.instructions) ∧
      ∀ i ∈ m.instructions, ∀ type id, i.typed? = some (type, id) →
        ∃ ty, e.IsType ty type ∧ (first.after program).Ascribes id ty := by
  obtain rfl := eq_of_withInputs begun
  have proper := (proper_begun False settings slots).after building
  obtain ⟨e, run, ids, interface, _, parts, put, bound⟩ := proper.assemble_ok compiled
  have named : ∀ i ∈ m.instructions, ∀ form, i.form? = some form → ∃ id, i.result? = some id := by
    intro i _ form known
    obtain ⟨id, rfl⟩ := Instruction.form?_eq_some.mp known
    exact ⟨id, rfl⟩
  have forms : (m.instructions.filterMap Instruction.form?).Nodup := by
    refine nodup_filterMap_of_results (put ▸ parts.distinct proper) named ?_
    intro i member j member' form known known'
    obtain ⟨id, rfl⟩ := Instruction.form?_eq_some.mp known
    obtain ⟨id', rfl⟩ := Instruction.form?_eq_some.mp known'
    rw [put] at member member'
    exact congrArg some (parts.form_unique proper member member')
  refine ⟨e, run, forms, fun small => ?_, fun ty id known => ?_, fun ty ty' id => ?_,
    fun literal id known => ?_, fun i member type id typed => ?_⟩
  · refine forms.map_on fun form member form' member' same => ?_
    have below : ∀ form ∈ m.instructions.filterMap Instruction.form?, ∀ id ∈ form.ids,
        id < UInt32.size := by
      intro form member id used
      obtain ⟨i, inside, known⟩ := List.mem_filterMap.mp member
      obtain ⟨result, rfl⟩ := Instruction.form?_eq_some.mp known
      rw [put] at inside
      exact Nat.lt_of_lt_of_le (parts.use_lt proper inside used) (bound ▸ small)
    obtain ⟨opcode, operands⟩ := Prod.mk.inj same
    exact TypeForm.words_inj (below form member) (below form' member') opcode operands
  · rw [put]
    exact parts.declares proper known
  · exact parts.type_unique proper
  · obtain ⟨type, typed, member⟩ := (parts.listed proper).constants literal id known
    exact ⟨type, typed, put ▸ Emission.contains_instructions interface (.inl member)⟩
  · rw [put] at member
    exact parts.of_typed proper (coherent_after building) member typed

/-- A program that asks for the same types in several ways: arrays and structs that share parts, and
an image with the float that it is sampled as. -/
def Draft.sharesTypes : List Call :=
  [.uniform 0 0 (.struct [.mat 4 4, .array (.vec 4) 3, .array (.vec 4) 4]),
    .storage 0 1 (.struct [.array (.vec 4) 3, .single]), .texture 0 2 .plane,
    .member ⟨1⟩ 0, .load ⟨4⟩, .binary .dot ⟨0, 0⟩ ⟨2, 2⟩, .output ⟨3, 3⟩]

theorem Draft.sharesTypes_declared_once :
    withInputs { stage := .vertex } [.vec 4] = .ok () (vertex [.vec 4]) ∧
      (∀ c ∈ sharesTypes, c.restarts = false) ∧
      ∃ m : ShaderModule,
        ((vertex [.vec 4]).after sharesTypes).compilation.result = .ok m ∧
          ∃ e, ((vertex [.vec 4]).after sharesTypes).assemble = .ok m e ∧
            (m.instructions.filterMap Instruction.form?).Nodup ∧
            ∀ ty ty' id, e.IsType ty id → e.IsType ty' id → ty = ty' := by
  have building : ∀ c ∈ sharesTypes, c.restarts = false := by decide
  refine ⟨withInputs_eq _ _, building, exists_and_of_toBool (by decide +kernel) fun m compiled => ?_⟩
  obtain ⟨e, run, forms, _, _, unique, _⟩ :=
    types_declared_once { stage := .vertex } [.vec 4] (withInputs_eq _ _) building compiled
  exact ⟨e, run, forms, unique⟩

end ShaderIR
