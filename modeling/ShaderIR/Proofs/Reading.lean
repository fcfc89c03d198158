import ShaderIR.Proofs.Grounded
import ShaderIR.Proofs.Judgement

/-! Reading types back from a module. A module is read front to back: each declaration of a type gives
its id the type that is built from those read before, and each instruction with a result gives its id
the type that it names. -/
namespace ShaderIR

variable {i : Instruction} {id type : Id} {form : TypeForm} {before rest : List Instruction}
  {ty : Ty}

/-- What was read: the types that ids stand for, the types of the values that ids hold, and the
literals that ids are constants of. -/
structure Reading where
  types : Assoc Id Ty := []
  values : Assoc Id Ty := []
  literals : Assoc Id Literal := []
deriving DecidableEq, Inhabited

def TypeForm.read (r : Reading) : TypeForm → Option Ty
  | .void => some .void
  | .bool => some .bool
  | .int width signed => some (.int width signed)
  | .float width => some (.float width)
  | .vector component size => (r.types.find? component).map fun ty => .vector ty size
  | .matrix column count =>
      match r.types.find? column with
      | some (.matrix component rows columns) =>
          if columns = 1 then some (.matrix component rows count) else none
      | _ => none
  | .image sampled dim depth arrayed =>
      if r.types.find? sampled = some .single then some (.image dim depth arrayed) else none
  | .sampledImage inner => (r.types.find? inner).map .texture
  | .array element length =>
      match r.types.find? element, r.literals.find? length with
      | some ty, some (.uint count) => some (.array ty count)
      | _, _ => none
  | .runtimeArray element => (r.types.find? element).map .runtimeArray
  | .struct members => (members.mapM r.types.find?).map .struct
  | .pointer storage pointee => (r.types.find? pointee).map (.pointer storage)
  | .function _ => none

def Instruction.typed? : Instruction → Option (Id × Id)
  | .constant type result _ | .variableDecl type result _ | .load type result _
  | .accessChain type result _ _ | .compute _ type result _ | .select type result _ _ _
  | .construct type result _ | .extract type result _ _ | .extractDynamic type result _ _
  | .sample type result _ _ _ => some (type, result)
  | .capability _ | .importSet _ _ | .memoryModel | .entryPoint _ _ _ _ | .originUpperLeft _
  | .localSize _ _ | .decorate _ _ | .decorateMember _ _ _ | .typeDecl _ _ | .functionBegin _ _ _
  | .functionEnd | .label _ | .store _ _ | .selectionMerge _ | .loopMerge _ _ | .branch _
  | .branchConditional _ _ _ | .returnVoid => none

theorem Instruction.result_of_typed (typed : i.typed? = some (type, id)) :
    i.result? = some id ∧ type ∈ i.uses := by
  cases i with
  | constant | variableDecl | load | accessChain | compute | select | construct | extract
  | extractDynamic | sample =>
    obtain ⟨rfl, rfl⟩ := Prod.mk.inj (Option.some.inj typed)
    exact ⟨rfl, List.mem_cons_self⟩
  | _ => contradiction

namespace Reading

def next (r : Reading) (i : Instruction) : Reading where
  types :=
    match i with
    | .typeDecl id form => ((form.read r).map (r.types.insert id)).getD r.types
    | _ => r.types
  values :=
    match i.typed? with
    | some (type, id) => ((r.types.find? type).map (r.values.insert id)).getD r.values
    | none => r.values
  literals :=
    match i with
    | .constant _ id literal => r.literals.insert id literal
    | _ => r.literals

def of (code : List Instruction) : Reading := code.foldl next {}

def typing (r : Reading) : Typing where
  type id ty := r.types.find? id = some ty
  value id ty := r.values.find? id = some ty
  literal id literal := r.literals.find? id = some literal

structure Agrees (r r' : Reading) (id : Id) : Prop where
  types : r'.types.find? id = r.types.find? id
  values : r'.values.find? id = r.values.find? id
  literals : r'.literals.find? id = r.literals.find? id

theorem Agrees.trans {r r' r'' : Reading} (first : r.Agrees r' id) (second : r'.Agrees r'' id) :
    r.Agrees r'' id :=
  ⟨second.types.trans first.types, second.values.trans first.values,
    second.literals.trans first.literals⟩

/-- An instruction says something about its own result only. -/
theorem agrees_next (r : Reading) (other : i.result? ≠ some id) : r.Agrees (r.next i) id := by
  constructor
  · cases i with
    | typeDecl result form =>
      have differs : result ≠ id := fun same => other (congrArg some same)
      simp only [next]
      cases form.read r with
      | none => rfl
      | some ty => exact Assoc.find?_insert_of_ne _ _ differs
    | _ => rfl
  · unfold next
    cases typed : i.typed? with
    | none => rfl
    | some pair =>
      obtain ⟨type, result⟩ := pair
      have differs : result ≠ id := by
        rintro rfl
        exact other (Instruction.result_of_typed typed).1
      dsimp only
      cases r.types.find? type with
      | none => rfl
      | some ty => exact Assoc.find?_insert_of_ne _ _ differs
  · cases i with
    | constant type result literal =>
      exact Assoc.find?_insert_of_ne _ _ fun same => other (congrArg some same)
    | _ => rfl

theorem agrees_foldl (r : Reading) {code : List Instruction}
    (other : ∀ i ∈ code, i.result? ≠ some id) : r.Agrees (code.foldl next r) id := by
  induction code generalizing r with
  | nil => exact ⟨rfl, rfl, rfl⟩
  | cons i rest ih =>
    obtain ⟨first, others⟩ := List.forall_mem_cons.mp other
    exact (agrees_next r first).trans (ih (r.next i) others)

theorem read_congr {r r' : Reading} (same : ∀ id ∈ form.ids, r.Agrees r' id) :
    form.read r' = form.read r := by
  cases form with
  | void | bool | int | float | function => rfl
  | vector id | matrix id | image id | sampledImage id | runtimeArray id | pointer _ id =>
    simp only [TypeForm.read, (same id (by simp [TypeForm.ids])).types]
  | array element length =>
    simp only [TypeForm.read, (same element (by simp [TypeForm.ids])).types,
      (same length (by simp [TypeForm.ids])).literals]
  | struct members =>
    have each : members.mapM r'.types.find? = members.mapM r.types.find? := by
      have all : ∀ id ∈ members, r.Agrees r' id := same
      clear same
      induction members with
      | nil => rfl
      | cons id rest ih =>
        obtain ⟨first, others⟩ := List.forall_mem_cons.mp all
        rw [List.mapM_cons, List.mapM_cons, first.types, ih others]
    rw [TypeForm.read, each]
    rfl

section Code

variable {code : List Instruction} (distinct : (code.filterMap Instruction.result?).Nodup)

include distinct

/-- What was read about an id up to some point stays. -/
theorem agrees_before (split : code = before ++ rest) (known : ∃ i ∈ before, i.result? = some id) :
    (of before).Agrees (of code) id := by
  subst split
  rw [List.filterMap_append] at distinct
  have apart := List.disjoint_of_nodup_append distinct
  have read : of (before ++ rest) = rest.foldl next (of before) := List.foldl_append
  rw [read]
  apply agrees_foldl
  intro j member result
  obtain ⟨i, member', result'⟩ := known
  exact apart (List.mem_filterMap.mpr ⟨i, member', result'⟩)
    (List.mem_filterMap.mpr ⟨j, member, result⟩)

/-- What an instruction says about its result is read in the end. -/
theorem agrees_at (split : code = before ++ i :: rest) (result : i.result? = some id) :
    ((of before).next i).Agrees (of code) id := by
  have read : of (before ++ [i]) = (of before).next i := by simp [of]
  have later : code = (before ++ [i]) ++ rest := by rw [split, List.append_assoc]; rfl
  rw [← read]
  exact agrees_before distinct later ⟨i, by simp, result⟩

theorem find_literal {literal : Literal} (member : Instruction.constant type id literal ∈ code) :
    (of code).literals.find? id = some literal := by
  obtain ⟨before, rest, split⟩ := List.append_of_mem member
  rw [(agrees_at distinct split rfl).literals]
  exact Assoc.find?_insert_self _ _ _

variable (ordered : Ordered (fun _ => False) code)

include ordered

theorem agrees_uses (split : code = before ++ i :: rest) (used : id ∈ i.uses) :
    (of before).Agrees (of code) id :=
  agrees_before distinct split ((ordered.before split used).resolve_left False.elim)

theorem find_type (member : Instruction.typeDecl id form ∈ code)
    (reads : form.read (of code) = some ty) : (of code).types.find? id = some ty := by
  obtain ⟨before, rest, split⟩ := List.append_of_mem member
  have earlier : form.read (of before) = some ty := by
    rw [← reads]
    exact (read_congr fun other used => agrees_uses distinct ordered split used).symm
  rw [(agrees_at distinct split rfl).types]
  simp only [next, earlier, Option.map_some, Option.getD_some]
  exact Assoc.find?_insert_self _ _ _

theorem find_value (member : i ∈ code) (typed : i.typed? = some (type, id))
    (known : (of code).types.find? type = some ty) : (of code).values.find? id = some ty := by
  obtain ⟨before, rest, split⟩ := List.append_of_mem member
  obtain ⟨result, used⟩ := Instruction.result_of_typed typed
  rw [(agrees_uses distinct ordered split used).types] at known
  rw [(agrees_at distinct split result).values]
  simp only [next, typed, known, Option.map_some, Option.getD_some]
  exact Assoc.find?_insert_self _ _ _

end Code

end Reading

def ShaderModule.typing (m : ShaderModule) : Typing := (Reading.of m.instructions).typing

namespace Emission

def Carries (e : Emission) (id : Id) (ty : Ty) : Prop :=
  ∃ type, e.IsType ty type ∧
    ∃ i, (i ∈ e.declarations ∨ i ∈ e.locals ∨ i ∈ e.body) ∧ i.typed? = some (type, id)

theorem Computes.typed {d : Draft} {e : Emission} {n : Node} (computes : e.Computes d n type i) :
    i.typed? = some (type, n.id) := by
  cases computes <;> rfl

def typing (e : Emission) : Typing where
  type id ty := e.IsType ty id
  value := e.Carries
  literal id literal := e.IsLiteral literal id

section Module

variable {e : Emission} {code : List Instruction} (listed : e.Listed)
  (declared : ∀ i ∈ e.declarations, i ∈ code)
  (distinct : (code.filterMap Instruction.result?).Nodup)

include listed declared distinct

/-- A declaration is read as its type if those that the type is built from are. They have a lower
rank. -/
theorem Listed.reads_form (forms : e.Forms ty form)
    (parts : ∀ (part : Ty) id, part.rank < ty.rank → e.IsType part id →
      (Reading.of code).types.find? id = some part) : form.read (Reading.of code) = some ty := by
  cases forms with
  | void | bool | int | float => rfl
  | @vector component rows inner accepted part =>
    have scalar := Ty.rank_of_isScalar (Ty.isRefused_matrix.mp accepted).1
    have lower : component.rank < (Ty.vector component rows).rank := by
      simp only [Ty.vector, Ty.rank, if_true]
      omega
    simp only [TypeForm.read, parts component inner lower part, Option.map_some]
  | @matrix component rows columns inner _ several part =>
    have single : columns ≠ 1 := by
      rintro rfl
      exact UInt32.lt_irrefl _ several
    have column := parts (.vector component rows) inner
      (by simp only [Ty.vector, Ty.rank, if_true, if_neg single]; omega) part
    simp only [TypeForm.read, column, Ty.vector, if_true]
  | @array element length inner count part literal =>
    obtain ⟨type, _, constant⟩ := listed.constants _ _ literal
    have number := Reading.find_literal distinct (declared _ constant)
    simp only [TypeForm.read, parts element inner (by simp only [Ty.rank]; omega) part, number]
  | @runtimeArray element inner part | @texture element inner _ part =>
    simp only [TypeForm.read, parts element inner (by simp only [Ty.rank]; omega) part,
      Option.map_some]
  | @pointer storage pointee inner part =>
    simp only [TypeForm.read, parts pointee inner (by simp only [Ty.rank]; omega) part,
      Option.map_some]
  | @struct members ids known =>
    have each : ids.mapM (Reading.of code).types.find? = some members := by
      have lower : ∀ member ∈ members, member.rank < (Ty.struct members).rank :=
        fun member inside => by
          have := Ty.rank_le_rankAll inside
          simp only [Ty.rank]
          omega
      generalize (Ty.struct members).rank = rank at parts lower
      induction known with
      | nil => rfl
      | cons first _ rest =>
        obtain ⟨here, others⟩ := List.forall_mem_cons.mp lower
        rw [List.mapM_cons, parts _ _ here first, rest others]
        rfl
    simp only [TypeForm.read, each, Option.map_some]
  | @image dim depth arrayed inner part =>
    have sampled := parts .single inner (by simp only [Ty.single, Ty.rank]; omega) part
    simp only [TypeForm.read, sampled, if_true]

variable (ordered : Ordered (fun _ => False) code)

include ordered

theorem Listed.reads {ty : Ty} {id : Id} (known : e.IsType ty id) :
    (Reading.of code).types.find? id = some ty := by
  suffices all : ∀ bound (ty : Ty) id, ty.rank < bound → e.IsType ty id →
      (Reading.of code).types.find? id = some ty from all _ ty id (Nat.lt_succ_self _) known
  clear known ty id
  intro bound
  induction bound with
  | zero => intro ty id below; omega
  | succ bound ih =>
    intro ty id below known
    obtain ⟨form, forms, member⟩ := listed.types ty id known
    apply Reading.find_type distinct ordered (declared _ member)
    exact listed.reads_form declared distinct forms fun part id lower => ih part id (by omega)

/-- What was known of ids while a module was put together is read back from it. -/
theorem Listed.typing_within (owned : ∀ i ∈ e.locals, i ∈ code) (written : ∀ i ∈ e.body, i ∈ code) :
    e.typing.Within (Reading.of code).typing where
  types id ty known := listed.reads declared distinct ordered known
  values id ty carries := by
    obtain ⟨type, known, i, member, typed⟩ := carries
    have inside : i ∈ code := member.elim (declared i) (Or.elim · (owned i) (written i))
    exact Reading.find_value distinct ordered inside typed
      (listed.reads declared distinct ordered known)
  literals id literal known := by
    obtain ⟨type, _, member⟩ := listed.constants literal id known
    exact Reading.find_literal distinct (declared _ member)

end Module

end Emission

end ShaderIR
