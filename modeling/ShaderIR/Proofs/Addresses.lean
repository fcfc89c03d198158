import ShaderIR.Proofs.Annotated
import ShaderIR.Proofs.Applied
import ShaderIR.Proofs.Ranges

/-! Addresses in blocks. A path of indices leads from a block to a scalar in it. By the types, the
scalar is behind everything that is laid out before it; by the module, it is where the offsets and
strides say that are annotated along the path. The two agree wherever the module says something, and
the only thing that it does not say is how far the columns of a matrix are apart that is an element
of an array. -/
namespace ShaderIR

variable {component part ty : Ty} {column element' id : Id} {holder : Option (Id × Nat)}
  {parts : List Ty} {rows : Word} {b : Binding}

/-! By the types. -/

namespace Ty

def isArray : Ty → Bool
  | .array _ _ | .runtimeArray _ => true
  | _ => false

/-- One part of a value: the size of everything that is laid out before it, and its type. -/
def part? : Ty → Nat → Option (Nat × Ty)
  | .struct members, index =>
      members[index]?.map fun member => (sizeAll (members.take index), member)
  | .array element length, index =>
      if index < length.toNat then some (index * element.size, element) else none
  | .runtimeArray element, index => some (index * element.size, element)
  | .matrix component rows columns, index =>
      if columns = 1 then
        if index < rows.toNat then some (index * component.size, component) else none
      else if index < columns.toNat then
        some (index * (vector component rows).size, vector component rows)
      else none
  | _, _ => none

/-- The size of everything that is laid out before the scalar that a path leads to. -/
def offset? : Ty → List Nat → Option Nat
  | ty, [] => if ty.isScalar then some 0 else none
  | ty, index :: rest => do
      let part ← ty.part? index
      return part.1 + (← part.2.offset? rest)

/-- Whether a path goes from an array into a matrix of several columns. -/
def strays : Ty → List Nat → Bool
  | _, [] => false
  | ty, index :: rest =>
      (ty.part? index).any fun part => ty.isArray && part.2.isMatrix || part.2.strays rest

end Ty

/-! By the annotations of a module. -/

namespace ShaderModule

variable (m : ShaderModule)

/-- One step of a path in a value whose type has the given id. The member of a struct that holds the
value, directly or through arrays, is what the columns of a matrix are annotated at. Gives the
distance to the part, and where to go on. -/
def hop? (holder : Option (Id × Nat)) (id : Id) (index : Nat) :
    Option (Nat × Option (Id × Nat) × Id) := do
  match ← m.form? id with
  | .struct members =>
      let offset ← m.offset? id index
      let member ← members[index]?
      return (offset.toNat, some (id, index), member)
  | .array element length =>
      let count ← m.count? length
      let stride ← m.arrayStride? id
      if index < count.toNat then return (index * stride.toNat, holder, element) else none
  | .runtimeArray element =>
      let stride ← m.arrayStride? id
      return (index * stride.toNat, holder, element)
  | .matrix column count =>
      let held ← holder
      let stride ← m.matrixStride? held.1 held.2
      if index < count.toNat then return (index * stride.toNat, none, column) else none
  | .vector component size =>
      let width ← m.scalarSize? component
      if index < size.toNat then return (index * width, none, component) else none
  | _ => none

def locate (holder : Option (Id × Nat)) (id : Id) : List Nat → Option Nat
  | [] => (m.scalarSize? id).map fun _ => 0
  | index :: rest => do
      let part ← m.hop? holder id index
      return part.1 + (← locate part.2.1 part.2.2 rest)

end ShaderModule

/-! One step of a path, and a whole path. -/

theorem Ty.sizeAll_take_le (members : List Ty) (index : Nat) :
    sizeAll (members.take index) ≤ sizeAll members := by
  induction members generalizing index with
  | nil => simp
  | cons member rest ih =>
    cases index with
    | zero => exact Nat.zero_le _
    | succ index =>
      rw [List.take_succ_cons, sizeAll, sizeAll]
      exact Nat.add_le_add_left (ih index) _

theorem Ty.column_size_le {column : Ty} (columns : ty.column? = some column) :
    column.size ≤ ty.size := by
  cases ty with
  | matrix component rows count =>
    obtain ⟨several, same⟩ := Option.ite_none_right_eq_some.mp columns
    obtain rfl := Option.some.inj same
    have one : 1 ≤ count.toNat := Nat.le_of_lt (UInt32.lt_iff_toNat_lt.mp several)
    rw [vector, size, size]
    exact Nat.mul_le_mul_right _ (Nat.mul_le_mul_left _ one)
  | _ => contradiction

theorem Ty.member_reach {members : List Ty} {index : Nat} {member : Ty}
    (found : members[index]? = some member) : member ∈ (Ty.struct members).reach := by
  rw [reach, List.mem_cons]
  exact .inr (reach_subset_reachAll (List.mem_of_getElem? found) _ (mem_reach_self member))

namespace ShaderModule

def stride? (m : ShaderModule) (holder : Option (Id × Nat)) : Option Word :=
  holder.bind fun held => m.matrixStride? held.1 held.2

/-- What is known of the member that holds a value: the distance of the columns is annotated if the
value is a matrix, and is not if it is an array. -/
structure Held (m : ShaderModule) (holder : Option (Id × Nat)) (ty : Ty) : Prop where
  matrix : ∀ column, ty.column? = some column →
    ∃ stride : Word, m.stride? holder = some stride ∧ stride.toNat = column.size
  array : ty.isArray = true → m.stride? holder = none

/-- All that a type is laid out of has a size that a word can hold, and a layout that is known. -/
def Fitting (roots : List Ty) (ty : Ty) : Prop :=
  ty.isLaid = true → ∀ inner ∈ ty.reach, inner.size < UInt32.size ∧
    (inner.isLaid = true → inner ∈ Ty.laidFrom roots)

section Paths

variable {m : ShaderModule} {e : Emission} {roots : List Ty}

theorem Fitting.inner (fitting : Fitting roots ty) (laid : ty.isLaid = true)
    (reached : part ∈ ty.reach) : Fitting roots part :=
  fun _ inner inside => fitting laid inner (Ty.reach_trans ty reached inside)

theorem fitting_of_plain (plain : ty.isLaid = false) : Fitting roots ty := by
  intro laid
  rw [plain] at laid
  contradiction

theorem held_of_plain (plain : ty.isArray = false) (single : ty.column? = none) :
    m.Held holder ty := by
  constructor
  · intro column columns
    rw [single] at columns
    contradiction
  · intro array
    rw [plain] at array
    contradiction

theorem Shows.held (shows : m.Shows e roots) (known : e.IsType (.struct parts) id)
    (member : .struct parts ∈ Ty.laidFrom roots) (fitting : Fitting roots (.struct parts))
    {index : Nat} (found : parts[index]? = some part) : m.Held (some (id, index)) part := by
  have stride : m.stride? (some (id, index)) = part.column?.map Ty.sizeWord := by
    show m.matrixStride? id index = _
    rw [shows.matrixStride? known member, found, Option.bind_some]
  constructor
  · intro column columns
    rw [stride, columns]
    refine ⟨_, rfl, ?_⟩
    rw [Ty.sizeWord_eq]
    apply UInt32.toNat_ofNat_of_lt'
    have whole := (fitting rfl part (Ty.member_reach found)).1
    exact Nat.lt_of_le_of_lt (Ty.column_size_le columns) whole
  · intro array
    rw [stride]
    cases part with
    | array | runtimeArray => rfl
    | _ => contradiction

/-- A step by a module and a step by a type: there is no such part, or they lead to the same one. If
the part is a matrix in an array, nothing is said about its columns. -/
def Hops (m : ShaderModule) (e : Emission) (roots : List Ty) (holder : Option (Id × Nat)) (ty : Ty)
    (id : Id) (index : Nat) : Prop :=
  m.hop? holder id index = none ∧ ty.part? index = none ∨
    ∃ before part holder' id', ty.part? index = some (before, part) ∧
      m.hop? holder id index = some (before, holder', id') ∧ e.IsType part id' ∧
      Fitting roots part ∧
      if (ty.isArray && part.isMatrix) = true then m.stride? holder' = none else m.Held holder' part

theorem isMatrix_of_column {column : Ty} (columns : ty.column? = some column) :
    ty.isMatrix = true := by
  cases ty with
  | matrix component rows count =>
    obtain ⟨several, _⟩ := Option.ite_none_right_eq_some.mp columns
    exact decide_eq_true several
  | _ => contradiction

/-- An element is held by the member that holds the array, for which no columns are annotated. -/
theorem Held.element (held : m.Held holder ty) (array : ty.isArray = true) (element : Ty) :
    if (ty.isArray && element.isMatrix) = true then m.stride? holder = none
    else m.Held holder element := by
  rw [array, Bool.true_and]
  split
  · exact held.array array
  · rename_i other
    exact ⟨fun column columns => absurd (isMatrix_of_column columns) other,
      fun _ => held.array array⟩

theorem hop_of_matrix {count : Word} (form : m.form? id = some (.matrix column count))
    (holder : Option (Id × Nat)) (index : Nat) :
    m.hop? holder id index = (m.stride? holder).bind fun stride =>
      if index < count.toNat then some (index * stride.toNat, none, column) else none := by
  rw [hop?, form]
  cases holder <;> rfl

section Hops

variable (shows : m.Shows e roots) (known : e.IsType ty id)
  (fitting : Fitting roots ty) {holder : Option (Id × Nat)} (held : m.Held holder ty)

include shows known fitting

theorem Shows.hop_struct {ids : List Id} (same : ty = .struct parts)
    (form : m.form? id = some (.struct ids)) (each : List.Forall₂ e.IsType parts ids) (index : Nat)
    : m.Hops e roots holder ty id index := by
  subst same
  have self := fitting rfl _ (Ty.mem_reach_self (.struct parts))
  have laid := self.2 rfl
  have hop : m.hop? holder id index = (m.offset? id index).bind fun offset =>
      ids[index]?.bind fun member => some (offset.toNat, some (id, index), member) := by
    rw [hop?, form]
    rfl
  rw [shows.offset? known laid] at hop
  cases found : parts[index]? with
  | none =>
    rw [found] at hop
    exact .inl ⟨hop, by rw [Ty.part?, found]; rfl⟩
  | some part =>
    obtain ⟨id', found', known'⟩ := related_getElem? each found
    have small : Ty.sizeAll (parts.take index) < UInt32.size := by
      refine Nat.lt_of_le_of_lt (Ty.sizeAll_take_le parts index) ?_
      have whole := self.1
      rwa [Ty.size] at whole
    rw [found, found', Option.map_some, Option.bind_some, Option.bind_some,
      Ty.sizeWords_eq, UInt32.toNat_ofNat_of_lt' small] at hop
    exact .inr ⟨_, part, _, id', by rw [Ty.part?, found]; rfl, hop, known',
      fitting.inner rfl (Ty.member_reach found), shows.held known laid fitting found⟩

include held

/-- The elements of an array, up to a limit. -/
theorem Shows.hop_strided {element : Ty} (array : ty.isArray = true) (laid : ty.isLaid = true)
    (reached : element ∈ ty.reach)
    (own : ty.annotations id = [.decorate id (.arrayStride element.sizeWord)])
    (known' : e.IsType element element') {index : Nat}
    (hop : m.hop? holder id index = (m.arrayStride? id).bind fun stride =>
      some (index * stride.toNat, holder, element'))
    (part : ty.part? index = some (index * element.size, element)) :
    m.Hops e roots holder ty id index := by
  have member := (fitting laid ty (Ty.mem_reach_self ty)).2 laid
  rw [shows.stride known member own, Option.bind_some, Ty.sizeWord_eq,
    UInt32.toNat_ofNat_of_lt' (fitting laid element reached).1] at hop
  exact .inr ⟨_, element, holder, element', part, hop, known', fitting.inner laid reached,
    held.element array element⟩

theorem Shows.hop_array {element : Ty} {length : Word} {count : Id}
    (same : ty = .array element length) (form : m.form? id = some (.array element' count))
    (known' : e.IsType element element') (counts : e.IsLiteral (.uint length) count) (index : Nat) :
    m.Hops e roots holder ty id index := by
  subst same
  have reached : element ∈ (Ty.array element length).reach := by
    rw [Ty.reach, List.mem_cons]
    exact .inr (Ty.mem_reach_self element)
  have hop : m.hop? holder id index = (m.arrayStride? id).bind fun stride =>
      if index < length.toNat then some (index * stride.toNat, holder, element') else none := by
    rw [hop?, form]
    show ((m.count? count).bind fun count => _) = _
    rw [shows.count counts]
    rfl
  by_cases inside : index < length.toNat
  · simp only [inside, if_true] at hop
    exact shows.hop_strided known fitting held rfl rfl reached rfl known' hop
      (by rw [Ty.part?, if_pos inside])
  · simp only [inside, if_false] at hop
    refine .inl ⟨?_, by rw [Ty.part?, if_neg inside]⟩
    rw [hop]
    cases m.arrayStride? id <;> rfl

theorem Shows.hop_runtimeArray {element : Ty} (same : ty = .runtimeArray element)
    (form : m.form? id = some (.runtimeArray element')) (known' : e.IsType element element')
    (index : Nat) : m.Hops e roots holder ty id index := by
  subst same
  have reached : element ∈ (Ty.runtimeArray element).reach := by
    rw [Ty.reach, List.mem_cons]
    exact .inr (Ty.mem_reach_self element)
  refine shows.hop_strided known fitting held rfl rfl reached rfl known' ?_ rfl
  rw [hop?, form]
  rfl

omit shows known fitting

theorem Held.hop_matrix {columns : Word} (same : ty = .matrix component rows columns)
    (several : 1 < columns) (form : m.form? id = some (.matrix column columns))
    (known' : e.IsType (.vector component rows) column) (index : Nat) :
    m.Hops e roots holder ty id index := by
  subst same
  obtain ⟨stride, annotated, bytes⟩ := held.matrix (.vector component rows) (if_pos several)
  have other : columns ≠ 1 := by
    rintro rfl
    contradiction
  have hop := hop_of_matrix form holder index
  rw [annotated, Option.bind_some, bytes] at hop
  by_cases inside : index < columns.toNat
  · rw [if_pos inside] at hop
    exact .inr ⟨_, _, none, column, by rw [Ty.part?, if_neg other, if_pos inside], hop, known',
      fitting_of_plain rfl, held_of_plain rfl rfl⟩
  · rw [if_neg inside] at hop
    exact .inl ⟨hop, by rw [Ty.part?, if_neg other, if_neg inside]⟩

omit held

include shows in
theorem Shows.hop_vector {part : Id} (same : ty = .vector component rows)
    (scalar : component.isScalar = true) (form : m.form? id = some (.vector part rows))
    (known' : e.IsType component part) (index : Nat) : m.Hops e roots holder ty id index := by
  subst same
  have hop : m.hop? holder id index = (m.scalarSize? part).bind fun width =>
      if index < rows.toNat then some (index * width, none, part) else none := by
    rw [hop?, form]
    rfl
  rw [shows.scalarSize? known', if_pos scalar, Option.bind_some] at hop
  have plain : component.isLaid = false ∧ component.isArray = false ∧ component.column? = none := by
    cases component with
    | bool | int | float => exact ⟨rfl, rfl, rfl⟩
    | _ => contradiction
  by_cases inside : index < rows.toNat
  · rw [if_pos inside] at hop
    exact .inr ⟨_, _, none, part, by rw [Ty.vector, Ty.part?, if_pos rfl, if_pos inside], hop,
      known', fitting_of_plain plain.1, held_of_plain plain.2.1 plain.2.2⟩
  · rw [if_neg inside] at hop
    exact .inl ⟨hop, by rw [Ty.vector, Ty.part?, if_pos rfl, if_neg inside]⟩

end Hops

/-- The parts of a value are where they are by its type, unless the module does not say it. -/
theorem Shows.hop (shows : m.Shows e roots) (known : e.IsType ty id) (fitting : Fitting roots ty)
    (held : m.Held holder ty) (index : Nat) : m.Hops e roots holder ty id index := by
  obtain ⟨form, found, forms⟩ := shows.form known
  cases forms with
  | struct each => exact shows.hop_struct known fitting rfl found each index
  | array inner length => exact shows.hop_array known fitting held rfl found inner length index
  | runtimeArray inner => exact shows.hop_runtimeArray known fitting held rfl found inner index
  | vector accepted component =>
    exact shows.hop_vector rfl (Ty.isRefused_matrix.mp accepted).1 found component index
  | matrix accepted several column => exact held.hop_matrix rfl several found column index
  | _ =>
    left
    constructor
    · rw [hop?, found]
      rfl
    · rfl

/-- Nothing in a matrix can be found if nothing is said about its columns. -/
theorem Shows.locate_stranded (shows : m.Shows e roots) (known : e.IsType ty id)
    (matrix : ty.isMatrix = true) (unsaid : m.stride? holder = none) (path : List Nat) :
    m.locate holder id path = none := by
  obtain ⟨form, found, forms⟩ := shows.form known
  cases forms with
  | matrix =>
    cases path with
    | nil =>
      rw [locate, shows.scalarSize? known]
      rfl
    | cons index rest =>
      rw [locate, hop_of_matrix found, unsaid]
      rfl
  | _ => contradiction

/-- Along every path, a module and a type lead to the same address, unless the path strays. -/
theorem Shows.locate_eq (shows : m.Shows e roots) (path : List Nat) :
    ∀ {ty : Ty} {id : Id} {holder : Option (Id × Nat)}, e.IsType ty id → Fitting roots ty →
      m.Held holder ty →
      m.locate holder id path = if ty.strays path then none else ty.offset? path := by
  induction path with
  | nil =>
    intro ty id holder known _ _
    rw [locate, shows.scalarSize? known, Ty.strays, Ty.offset?]
    cases ty.isScalar <;> rfl
  | cons index rest ih =>
    intro ty id holder known fitting held
    rw [locate, Ty.strays, Ty.offset?]
    rcases shows.hop known fitting held index with ⟨hop, part⟩ |
      ⟨before, part, holder', id', found, hop, known', fitting', held'⟩
    · rw [hop, part]
      rfl
    · rw [hop, found]
      show ((m.locate holder' id' rest).bind fun further => some (before + further)) =
        if (ty.isArray && part.isMatrix || part.strays rest) = true then none
        else (part.offset? rest).bind fun further => some (before + further)
      cases stray : ty.isArray && part.isMatrix with
      | true =>
        rw [stray, if_pos rfl] at held'
        rw [shows.locate_stranded known' (Bool.and_eq_true_iff.mp stray).2 held']
        rfl
      | false =>
        rw [stray, if_neg Bool.false_ne_true] at held'
        rw [ih known' fitting' held', Bool.false_or]
        split <;> rfl

end Paths

end ShaderModule

namespace Draft

variable {d : Draft}

theorem Proper.block_variable {strict : Prop} (proper : d.Proper strict) (coherent : d.Coherent)
    (bindings : d.Bindings) {m : ShaderModule} (told : d.Told m) {e : Emission} {ids : EntryIds}
    {interface : List Id} {stages : Emission.Stages} {roots : List Ty}
    (parts : Emission.Compiled strict d ids interface e stages)
    (put : m.instructions = e.instructions d ids interface) (shows : m.Shows e roots)
    (bound : b ∈ d.bindings) :
    ∃ type root storage block, .variableDecl type root storage ∈ m.instructions ∧
      m.decorations root = [.descriptorSet b.set, .binding b.binding] ∧
      m.form? type = some (.pointer storage block) ∧ e.IsType b.ty block := by
  obtain ⟨data, found, _⟩ := proper.sound.lists.bindings b bound
  have listed : b ∈ d.bindings.toList := Array.mem_toList_iff.mpr bound
  have shown : d.shown b.place = (data.id, data.storage) := by simp only [Draft.shown, found]
  -- the variable is declared, and says under which descriptor it is found
  obtain ⟨type, member⟩ : ∃ type, .variableDecl type data.id data.storage ∈ m.instructions := by
    obtain ⟨own, _, roots⟩ := told.roots
    have inside : (data.id, data.storage) ∈ m.instructions.filterMap Instruction.root? := by
      rw [roots, ← shown]
      refine List.mem_append_left _ (List.mem_append_right _ ?_)
      exact List.mem_map_of_mem listed
    obtain ⟨i, member, root⟩ := List.mem_filterMap.mp inside
    cases i with
    | variableDecl type id storage =>
      obtain ⟨rfl, rfl⟩ := Prod.mk.inj (Option.some.inj root)
      exact ⟨type, member⟩
    | _ => contradiction
  have marks : m.decorations data.id = [.descriptorSet b.set, .binding b.binding] := by
    refine told.decorations (data.id, _) (List.mem_append_right _ ?_)
    refine List.mem_map.mpr ⟨b, listed, ?_⟩
    rw [shown]
  -- its type is a pointer to the type it is bound with
  obtain ⟨ty, known, ascribes⟩ := parts.of_typed proper coherent (put ▸ member) rfl
  obtain rfl := ascribes.places b.place data found rfl
  obtain ⟨form, declared, forms⟩ := shows.form known
  rw [PlaceData.ty, bindings b bound data found] at forms
  cases forms with
  | pointer pointee => exact ⟨type, data.id, data.storage, _, member, marks, declared, pointee⟩

theorem led_begun (settings : Settings) (slots : List Ty) :
    ((new settings).withSlots slots).Led := by
  refine ⟨issuing_begun settings slots, fun b member => ?_⟩
  rw [withSlots_bindings] at member
  simp [new] at member

theorem mem_blocks (bound : b ∈ d.bindings) (block : b.kind ≠ .texture) : b.ty ∈ d.blocks := by
  refine List.mem_flatMap.mpr ⟨b, Array.mem_toList_iff.mpr bound, ?_⟩
  unfold Binding.blocks
  cases kind : b.kind with
  | texture => exact absurd kind block
  | uniform | storage => exact List.mem_singleton_self _

/-- Blocks can be addressed by what a module says about them. A struct that is bound as a block has
a variable, which is found by its descriptor and points to the struct. Take any path from the struct
through members, elements, columns and rows. The offsets and strides along it are annotated, each
once, and lead to the scalar that is behind everything that is laid out before it, as long as all
sizes fit in a word. There is one exception: if the path goes into a matrix of several columns that
is an element of an array, the distance of its columns is not annotated anywhere, so that there is
no address. -/
theorem block_addresses (settings : Settings) (slots : List Ty) {first : Draft}
    (begun : withInputs settings slots = .ok () first) {program : List Call}
    (building : ∀ c ∈ program, c.restarts = false) {m : ShaderModule}
    (compiled : (first.after program).compilation.result = .ok m) {set binding : Word}
    {kind : BindingKind} {members : List Ty} {place : Place}
    (bound : ⟨set, binding, kind, .struct members, place⟩ ∈ (first.after program).bindings)
    (block : kind ≠ .texture) (small : ∀ ty ∈ (Ty.struct members).reach, ty.size < UInt32.size) :
    ∃ type root storage struct, .variableDecl type root storage ∈ m.instructions ∧
      m.decorations root = [.descriptorSet set, .binding binding] ∧
      m.form? type = some (.pointer storage struct) ∧
      ∀ path, m.locate none struct path =
        if (Ty.struct members).strays path then none else (Ty.struct members).offset? path := by
  obtain rfl := eq_of_withInputs begun
  have proper := (proper_begun False settings slots).after building
  have told := proper.told (exposes_begun settings slots building).sorted compiled
  obtain ⟨e, run, ids, interface, _, parts, put, _⟩ := proper.assemble_ok compiled
  obtain ⟨_, laid, _⟩ := assemble_blocked proper.listed run
  have shows := parts.shows proper put laid
  obtain ⟨type, root, storage, struct, declared, marks, points, known⟩ := proper.block_variable
    (coherent_after building) ((led_begun settings slots).after program).bindings told parts put
    shows bound
  refine ⟨type, root, storage, struct, declared, marks, points, fun path => ?_⟩
  apply shows.locate_eq path known
  · intro _ inner reached
    exact ⟨small inner reached, fun laid =>
      Ty.mem_laidFrom.mpr ⟨⟨_, mem_blocks bound block, reached⟩, laid⟩⟩
  · exact ShaderModule.held_of_plain rfl rfl

/-- Two blocks that share a struct with a matrix. In one of them there is also an array of matrices.
-/
def sharesMatrices : List Call :=
  [.storage 0 1 (.struct [.runtimeArray (.struct [.single, .mat 3 2])]),
    .uniform 0 0 (.struct [.vec 3, .array (.struct [.single, .mat 3 2]) 3, .array (.mat 4 4) 2])]

/-- The second column of a matrix in a struct is found, also when the struct is in an array; that of
a matrix which is itself an element is not, though it has its place. -/
theorem sharesMatrices_addresses :
    withInputs { stage := .fragment } [] = .ok () (fragment []) ∧
      (∀ c ∈ sharesMatrices, c.restarts = false) ∧
      ∃ m : ShaderModule,
        ((fragment []).after sharesMatrices).compilation.result = .ok m ∧
          ∃ type root storage struct, .variableDecl type root storage ∈ m.instructions ∧
            m.decorations root = [.descriptorSet 0, .binding 0] ∧
            m.form? type = some (.pointer storage struct) ∧
            m.locate none struct [1, 2, 1, 1, 0] = some 84 ∧
            (Ty.struct [.vec 3, .array (.struct [.single, .mat 3 2]) 3,
              .array (.mat 4 4) 2]).offset? [2, 1, 1, 0] = some 176 ∧
            m.locate none struct [2, 1, 1, 0] = none := by
  have building : ∀ c ∈ sharesMatrices, c.restarts = false := by decide
  refine ⟨withInputs_eq _ _, building, exists_and_of_toBool (by decide +kernel) fun m compiled => ?_⟩
  have bound : ⟨0, 0, .uniform, .struct [.vec 3, .array (.struct [.single, .mat 3 2]) 3,
      .array (.mat 4 4) 2], ⟨1⟩⟩ ∈ ((fragment []).after sharesMatrices).bindings := by
    decide +kernel
  obtain ⟨type, root, storage, struct, declared, marks, points, addresses⟩ :=
    block_addresses { stage := .fragment } [] (withInputs_eq _ _) building compiled bound
      (by decide) (by decide +kernel)
  refine ⟨type, root, storage, struct, declared, marks, points, ?_, by decide +kernel, ?_⟩
  · rw [addresses]
    decide +kernel
  · rw [addresses]
    decide +kernel

end Draft

end ShaderIR
