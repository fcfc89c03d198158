import ShaderIR.Proofs.Exposure
import ShaderIR.Proofs.LaidOut

/-! What a module says about layouts. The forms of types, the numbers of elements, offsets and
strides are read from its instructions alone. What is read about a type that some block is laid out
of is what belongs to that type, and nothing is said twice. -/
namespace ShaderIR

variable {index other : Nat} {id : Id} {ty : Ty}

/-! What can be read from a module. -/

def only? {α : Type} : List α → Option α
  | [a] => some a
  | _ => none

namespace Decoration

def offset? : Decoration → Option Word
  | .offset bytes => some bytes
  | _ => none

def arrayStride? : Decoration → Option Word
  | .arrayStride bytes => some bytes
  | _ => none

def matrixStride? : Decoration → Option Word
  | .matrixStride bytes => some bytes
  | _ => none

end Decoration

namespace Instruction

def formOf? (id : Id) : Instruction → Option TypeForm
  | .typeDecl result form => if result = id then some form else none
  | _ => none

def literalOf? (id : Id) : Instruction → Option Literal
  | .constant _ result literal => if result = id then some literal else none
  | _ => none

def decoration? (id : Id) : Instruction → Option Decoration
  | .decorate target decoration => if target = id then some decoration else none
  | _ => none

def memberDecoration? (struct : Id) (index : Nat) : Instruction → Option Decoration
  | .decorateMember target member decoration =>
      if target = struct ∧ member = index then some decoration else none
  | _ => none

end Instruction

def TypeForm.scalarSize? : TypeForm → Option Nat
  | .bool => some 4
  | .int width _ | .float width => some (width.toNat / 8)
  | _ => none

namespace ShaderModule

variable (m : ShaderModule)

def form? (id : Id) : Option TypeForm := m.instructions.findSome? (Instruction.formOf? id)

def count? (id : Id) : Option Word :=
  match m.instructions.findSome? (Instruction.literalOf? id) with
  | some (.uint count) => some count
  | _ => none

def scalarSize? (id : Id) : Option Nat := (m.form? id).bind TypeForm.scalarSize?

def arrayStride? (id : Id) : Option Word :=
  only? (m.instructions.filterMap fun i => (i.decoration? id).bind Decoration.arrayStride?)

def memberDecorations (struct : Id) (index : Nat) : List Decoration :=
  m.instructions.filterMap (Instruction.memberDecoration? struct index)

def offset? (struct : Id) (index : Nat) : Option Word :=
  only? ((m.memberDecorations struct index).filterMap Decoration.offset?)

def matrixStride? (struct : Id) (index : Nat) : Option Word :=
  only? ((m.memberDecorations struct index).filterMap Decoration.matrixStride?)

end ShaderModule

/-! What a module says about one type. -/

theorem only?_of_perm_singleton {α : Type} {items : List α} {a : α} (one : items.Perm [a]) :
    only? items = some a := by
  rw [List.perm_singleton.mp one]
  rfl

theorem only?_of_perm_nil {α : Type} {items : List α} (none : items.Perm []) :
    only? items = .none := by
  rw [List.perm_nil.mp none]
  rfl

namespace Ty

def matrixDecorations : Ty → List Decoration
  | .matrix component rows columns =>
      if 1 < columns then [.colMajor, .matrixStride (rows * component.sizeWord)] else []
  | _ => []

theorem matrixAnnotations_at (struct : Id) (index : Nat) (member : Ty) :
    (matrixAnnotations struct index member).filterMap
      (Instruction.memberDecoration? struct index) = member.matrixDecorations := by
  cases member with
  | matrix component rows columns =>
    rw [matrixAnnotations, matrixDecorations]
    split
    · simp [Instruction.memberDecoration?]
    · rfl
  | _ => rfl

theorem matrixAnnotations_other (struct : Id) (differs : index ≠ other) (member : Ty) :
    (matrixAnnotations struct index member).filterMap
      (Instruction.memberDecoration? struct other) = [] := by
  unfold matrixAnnotations
  split
  · split <;> simp [Instruction.memberDecoration?, differs]
  · rfl

theorem memberAnnotations_before (struct : Id) (before : other < index) (offset : Word)
    (members : List Ty) : (memberAnnotations struct index offset members).filterMap
      (Instruction.memberDecoration? struct other) = [] := by
  induction members generalizing index offset with
  | nil => rfl
  | cons member rest ih =>
    have differs : index ≠ other := Nat.ne_of_gt before
    rw [memberAnnotations, List.filterMap_append, ih (Nat.lt_succ_of_lt before),
      List.filterMap_cons_none (by simp [Instruction.memberDecoration?, differs]),
      matrixAnnotations_other struct differs, List.append_nil]

/-- A member is annotated with the size of the members before it. -/
theorem memberAnnotations_at (struct : Id) (first : Nat) (offset : Word) (members : List Ty)
    (index : Nat) :
    (memberAnnotations struct first offset members).filterMap
        (Instruction.memberDecoration? struct (first + index)) =
      members[index]?.elim [] fun member =>
        .offset (offset + sizeWords (members.take index)) :: member.matrixDecorations := by
  induction members generalizing first offset index with
  | nil => rfl
  | cons member rest ih =>
    rw [memberAnnotations, List.filterMap_append]
    cases index with
    | zero =>
      rw [Nat.add_zero, memberAnnotations_before struct (Nat.lt_succ_self first), List.append_nil,
        List.filterMap_cons_some (b := .offset offset) (by simp [Instruction.memberDecoration?]),
        matrixAnnotations_at, List.take_zero, sizeWords, UInt32.add_zero]
      rfl
    | succ index =>
      have differs : first ≠ first + (index + 1) := by omega
      rw [List.filterMap_cons_none (by simp [Instruction.memberDecoration?]),
        matrixAnnotations_other struct differs, List.nil_append,
        show first + (index + 1) = first + 1 + index by omega, ih, List.getElem?_cons_succ,
        List.take_succ_cons, sizeWords, UInt32.add_assoc]

theorem annotations_refer : ∀ i ∈ ty.annotations id, i.refers = [id] := by
  have members : ∀ (members : List Ty) (index : Nat) (offset : Word),
      ∀ i ∈ memberAnnotations id index offset members, i.refers = [id] := by
    intro members
    induction members with
    | nil =>
      intro index offset i member
      contradiction
    | cons first rest ih =>
      intro index offset i member
      rw [memberAnnotations, List.mem_append, List.mem_cons] at member
      rcases member with (rfl | own) | later
      · rfl
      · unfold matrixAnnotations at own
        split at own
        · split at own
          · simp only [List.mem_cons, List.not_mem_nil, or_false] at own
            rcases own with rfl | rfl <;> rfl
          · contradiction
        · contradiction
      · exact ih _ _ i later
  intro i member
  cases ty with
  | struct parts => exact members parts 0 0 i member
  | array | runtimeArray =>
    rw [List.mem_singleton.mp member]
    rfl
  | _ => contradiction

end Ty

theorem flatMap_filterMap_of_unique {α β γ : Type} {items : List α} (distinct : items.Nodup)
    {a : α} (member : a ∈ items) {f : α → List β} {key : β → Option γ}
    (others : ∀ b ∈ items, b ≠ a → (f b).filterMap key = []) :
    (items.flatMap f).filterMap key = (f a).filterMap key := by
  obtain ⟨before, after, rfl⟩ := List.append_of_mem member
  have apart := (List.nodup_middle.mp distinct).notMem
  have none : ∀ part : List α, (∀ b ∈ part, b ∈ before ++ after) →
      (part.flatMap f).filterMap key = [] := by
    intro part inside
    rw [List.filterMap_flatMap, List.flatMap_eq_nil_iff]
    intro b member
    have listed := inside b member
    refine others b ?_ fun same => apart (same ▸ listed)
    rw [List.mem_append, List.mem_cons]
    exact (List.mem_append.mp listed).imp_right .inr
  rw [List.flatMap_append, List.flatMap_cons, List.filterMap_append, List.filterMap_append,
    none before fun b inside => List.mem_append_left _ inside,
    none after fun b inside => List.mem_append_right _ inside, List.nil_append, List.append_nil]

theorem findSome?_of_result {α : Type} (id : Id) {code : List Instruction}
    (distinct : (code.filterMap Instruction.result?).Nodup) {key : Instruction → Option α}
    (named : ∀ i a, key i = some a → i.result? = some id) {i : Instruction} {a : α}
    (member : i ∈ code) (found : key i = some a) : code.findSome? key = some a := by
  induction code with
  | nil => contradiction
  | cons first rest ih =>
    cases here : key first with
    | none =>
      rw [List.findSome?_cons_of_isNone (by rw [here]; rfl)]
      have inside : i ∈ rest := by
        rcases List.mem_cons.mp member with rfl | inside
        · rw [here] at found
          contradiction
        · exact inside
      refine ih (distinct.sublist ?_) inside
      exact (List.sublist_cons_self first rest).filterMap _
    | some b =>
      rw [List.findSome?_cons_of_isSome (by rw [here]; rfl), here]
      rcases List.mem_cons.mp member with rfl | inside
      · exact here.symm.trans found
      · -- the result of the first instruction would be given again
        rw [List.filterMap_cons_some (named first b here), List.nodup_cons] at distinct
        exact absurd (List.mem_filterMap.mpr ⟨i, inside, named i a found⟩) distinct.1

namespace Emission

section Says

variable {d : Draft} {e : Emission} {ids : EntryIds} {interface : List Id} {roots : List Ty}

/-- What a module says about layouts is what is annotated. -/
theorem Sections.layouts (sections : e.Sections) {α : Type} {key : Instruction → Option α}
    (only : ∀ i a, key i = some a → i.isLayout = true) :
    (e.instructions d ids interface).filterMap key = e.layouts.filterMap key := by
  have outside : ∀ i : Instruction, i.part ≠ .decoration → key i = none := by
    intro i part
    cases known : key i with
    | none => rfl
    | some a =>
      have layout := only i a known
      cases i with
      | decorate | decorateMember => exact absurd rfl part
      | _ => contradiction
  rw [sections.decorations outside, Emission.layouts, List.filterMap_filter]
  refine List.filterMap_congr fun i _ => ?_
  cases layout : i.isLayout with
  | true => rw [if_pos rfl]
  | false =>
    rw [if_neg (by simp)]
    cases known : key i with
    | none => rfl
    | some a =>
      rw [only i a known] at layout
      contradiction

theorem Laid.about (laid : e.Laid roots)
    (unique : ∀ {ty ty' id}, e.IsType ty id → e.IsType ty' id → ty = ty') {ty : Ty} {id : Id}
    (known : e.IsType ty id) (member : ty ∈ Ty.laidFrom roots) {α : Type}
    {key : Instruction → Option α} (about : ∀ i a, key i = some a → i.refers = [id]) :
    (e.layouts.filterMap key).Perm ((ty.annotations id).filterMap key) := by
  have own : e.layoutOf ty = ty.annotations id := by
    rw [layoutOf, known]
    rfl
  refine (laid.layouts.filterMap key).trans ?_
  rw [flatMap_filterMap_of_unique (Ty.nodup_laidFrom roots) member fun other _ differs => ?_, own]
  rw [List.filterMap_eq_nil_iff]
  intro i annotates
  cases said : key i with
  | none => rfl
  | some a =>
    unfold layoutOf at annotates
    cases declared : e.types.id? other with
    | none =>
      rw [declared] at annotates
      contradiction
    | some id' =>
      rw [declared] at annotates
      have same := (about i a said).symm.trans (Ty.annotations_refer i annotates)
      obtain rfl := List.singleton_inj.mp same
      exact absurd (unique declared known) differs

end Says

end Emission

/-- What can be read from a module about the types that are declared in it, and about the layouts of
all that some of them are laid out of. -/
structure ShaderModule.Shows (m : ShaderModule) (e : Emission) (roots : List Ty) : Prop where
  form : ∀ {ty id}, e.IsType ty id → ∃ form, m.form? id = some form ∧ e.Forms ty form
  count : ∀ {length id}, e.IsLiteral (.uint length) id → m.count? id = some length
  members : ∀ {parts id}, e.IsType (.struct parts) id → .struct parts ∈ Ty.laidFrom roots →
    ∀ index, (m.memberDecorations id index).Perm (parts[index]?.elim [] fun member =>
      .offset (Ty.sizeWords (parts.take index)) :: member.matrixDecorations)
  stride : ∀ {ty element : Ty} {id}, e.IsType ty id → ty ∈ Ty.laidFrom roots →
    ty.annotations id = [.decorate id (.arrayStride element.sizeWord)] →
    m.arrayStride? id = some element.sizeWord

namespace Emission.Compiled

section Shown

variable {strict : Prop} {d : Draft} {ids : EntryIds} {interface : List Id}
  {e : Emission} {stages : Stages} {m : ShaderModule}
  (parts : Compiled strict d ids interface e stages) (proper : d.Proper strict)
  (put : m.instructions = e.instructions d ids interface)

include parts proper put

theorem form? (known : e.IsType ty id) : ∃ form, m.form? id = some form ∧ e.Forms ty form := by
  obtain ⟨form, forms, member⟩ := (parts.listed proper).types ty id known
  refine ⟨form, ?_, forms⟩
  rw [ShaderModule.form?, put]
  refine findSome?_of_result id (parts.distinct proper) (fun i form' named => ?_)
    (contains_instructions interface (.inl member)) (if_pos rfl)
  cases i with
  | typeDecl result =>
    obtain ⟨rfl, _⟩ := Option.ite_none_right_eq_some.mp named
    rfl
  | _ => contradiction

theorem count? {length : Word} (known : e.IsLiteral (.uint length) id) :
    m.count? id = some length := by
  obtain ⟨type, _, member⟩ := (parts.listed proper).constants _ id known
  have found : m.instructions.findSome? (Instruction.literalOf? id) = some (.uint length) := by
    rw [put]
    refine findSome?_of_result id (parts.distinct proper) (fun i literal named => ?_)
      (contains_instructions interface (.inl member)) (if_pos rfl)
    cases i with
    | constant _ result =>
      obtain ⟨rfl, _⟩ := Option.ite_none_right_eq_some.mp named
      rfl
    | _ => contradiction
  rw [ShaderModule.count?, found]

variable {roots : List Ty} (laid : e.Laid roots)

include laid

/-- What a module says about the layout of a type is what belongs to that type. -/
theorem about {ty : Ty} {id : Id} (known : e.IsType ty id) (member : ty ∈ Ty.laidFrom roots)
    {α : Type} {key : Instruction → Option α}
    (about : ∀ i a, key i = some a → i.isLayout = true ∧ i.refers = [id]) :
    (m.instructions.filterMap key).Perm ((ty.annotations id).filterMap key) := by
  rw [put, (parts.sections proper.sound).layouts fun i a said => (about i a said).1]
  exact laid.about (parts.type_unique proper) known member fun i a said => (about i a said).2

theorem memberDecorations {members : List Ty} {id : Id} (known : e.IsType (.struct members) id)
    (member : .struct members ∈ Ty.laidFrom roots) (index : Nat) :
    (m.memberDecorations id index).Perm (members[index]?.elim [] fun member =>
      .offset (Ty.sizeWords (members.take index)) :: member.matrixDecorations) := by
  refine (parts.about proper put laid known member fun i decoration said => ?_).trans ?_
  · cases i with
    | decorateMember target =>
      obtain ⟨⟨rfl, _⟩, _⟩ := Option.ite_none_right_eq_some.mp said
      exact ⟨rfl, rfl⟩
    | _ => contradiction
  · have own := Ty.memberAnnotations_at id 0 0 members index
    simp only [Nat.zero_add, UInt32.zero_add] at own
    exact .of_eq own

theorem arrayStride? {element : Ty} (known : e.IsType ty id) (member : ty ∈ Ty.laidFrom roots)
    (own : ty.annotations id = [.decorate id (.arrayStride element.sizeWord)]) :
    m.arrayStride? id = some element.sizeWord := by
  apply only?_of_perm_singleton
  refine (parts.about proper put laid known member fun i bytes said => ?_).trans ?_
  · cases i with
    | decorate target decoration =>
      obtain ⟨_, named, stride⟩ := Option.bind_eq_some_iff.mp said
      obtain ⟨rfl, same⟩ := Option.ite_none_right_eq_some.mp named
      obtain rfl := Option.some.inj same
      cases decoration with
      | arrayStride => exact ⟨rfl, rfl⟩
      | _ => contradiction
    | _ => contradiction
  · rw [own]
    simp [Instruction.decoration?, Decoration.arrayStride?]

theorem shows : m.Shows e roots where
  form := parts.form? proper put
  count := parts.count? proper put
  members := parts.memberDecorations proper put laid
  stride := parts.arrayStride? proper put laid

end Shown

end Emission.Compiled

namespace ShaderModule

variable {m : ShaderModule} {e : Emission} {roots : List Ty}

section Members

variable (shows : m.Shows e roots) {parts : List Ty}
  (known : e.IsType (.struct parts) id) (member : .struct parts ∈ Ty.laidFrom roots)

include shows known member

theorem Shows.offset? (index : Nat) :
    m.offset? id index = parts[index]?.map fun _ => Ty.sizeWords (parts.take index) := by
  have said := (shows.members known member index).filterMap Decoration.offset?
  have matrix : ∀ ty : Ty, ty.matrixDecorations.filterMap Decoration.offset? = [] := by
    intro ty
    unfold Ty.matrixDecorations
    split
    · split <;> rfl
    · rfl
  rw [ShaderModule.offset?]
  cases found : parts[index]? with
  | none =>
    rw [found] at said
    exact only?_of_perm_nil said
  | some part =>
    rw [found, Option.elim_some, List.filterMap_cons_some (f := Decoration.offset?) rfl, matrix]
      at said
    exact only?_of_perm_singleton said

theorem Shows.matrixStride? (index : Nat) :
    m.matrixStride? id index =
      (parts[index]?.bind Ty.column?).map Ty.sizeWord := by
  have said := (shows.members known member index).filterMap Decoration.matrixStride?
  rw [ShaderModule.matrixStride?]
  cases found : parts[index]? with
  | none =>
    rw [found] at said
    exact only?_of_perm_nil said
  | some part =>
    rw [found, Option.elim_some, List.filterMap_cons_none rfl] at said
    cases part with
    | matrix component rows columns =>
      have single : (Ty.vector component rows).sizeWord = rows * component.sizeWord := by
        rw [Ty.vector, Ty.sizeWord, UInt32.mul_one]
      simp only [Ty.matrixDecorations, Option.bind_some, Ty.column?] at said ⊢
      split
      · rename_i several
        rw [if_pos several] at said
        rw [Option.map_some, single]
        exact only?_of_perm_singleton said
      · rename_i few
        rw [if_neg few] at said
        exact only?_of_perm_nil said
    | _ => exact only?_of_perm_nil said

end Members

theorem Shows.scalarSize? (shows : m.Shows e roots) (known : e.IsType ty id) :
    m.scalarSize? id = if ty.isScalar then some ty.size else none := by
  obtain ⟨form, found, forms⟩ := shows.form known
  rw [ShaderModule.scalarSize?, found, Option.bind_some]
  cases forms <;> rfl

end ShaderModule

end ShaderIR
