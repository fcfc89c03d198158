import Mathlib.Algebra.GroupWithZero.Nat
import ShaderIR.Proofs.BlockKinds

/-! All that a module says about layouts. Each struct and each array that some block is laid out of
has its notes, under the id that it is declared with; every note is made once, and there are no
others. -/
namespace ShaderIR

variable {ty : Ty} {id : Id}

inductive LayoutMark where
  | offset (bytes : Word)
  | colMajor
  | matrixStride (bytes : Word)
  | arrayStride (bytes : Word)
deriving DecidableEq

structure LayoutNote where
  type : Id
  member : Option Nat
  mark : LayoutMark
deriving DecidableEq

def Decoration.layoutMark? : Decoration → Option LayoutMark
  | .offset bytes => some (.offset bytes)
  | .colMajor => some .colMajor
  | .matrixStride bytes => some (.matrixStride bytes)
  | .arrayStride bytes => some (.arrayStride bytes)
  | _ => none

def Instruction.layoutNote? : Instruction → Option LayoutNote
  | .decorate target decoration => decoration.layoutMark?.map (LayoutNote.mk target none)
  | .decorateMember target index decoration =>
      decoration.layoutMark?.map (LayoutNote.mk target (some index))
  | _ => none

theorem Instruction.refers_of_layoutNote {i : Instruction} {note : LayoutNote}
    (noted : i.layoutNote? = some note) : i.refers = [note.type] := by
  cases i with
  | decorate | decorateMember =>
    obtain ⟨mark, _, rfl⟩ := Option.map_eq_some_iff.mp noted
    rfl
  | _ => contradiction

def ShaderModule.layoutNotes (m : ShaderModule) : List LayoutNote :=
  m.instructions.filterMap Instruction.layoutNote?

/-- What has to be said about the layout of a type. A member of a struct is behind all members
before it, the columns of a matrix follow each other, and so do the elements of an array. -/
inductive Ty.Notes : Ty → Option Nat → LayoutMark → Prop where
  | offset {members : List Ty} {index : Nat} {bytes : Word} : index < members.length →
      bytes.toNat = ((members.take index).map Ty.size).sum →
      Notes (.struct members) (some index) (.offset bytes)
  | colMajor {members : List Ty} {index : Nat} {component : Ty} {rows columns : Word} :
      members[index]? = some (.matrix component rows columns) → 1 < columns →
      Notes (.struct members) (some index) .colMajor
  | matrixStride {members : List Ty} {index : Nat} {component : Ty} {rows columns bytes : Word} :
      members[index]? = some (.matrix component rows columns) → 1 < columns →
      bytes.toNat = rows.toNat * component.size →
      Notes (.struct members) (some index) (.matrixStride bytes)
  | array {element : Ty} {length bytes : Word} : bytes.toNat = element.size →
      Notes (.array element length) none (.arrayStride bytes)
  | runtimeArray {element : Ty} {bytes : Word} : bytes.toNat = element.size →
      Notes (.runtimeArray element) none (.arrayStride bytes)

/-! The notes of one type. -/

namespace Ty

theorem Notes.isLaid {position : Option Nat} {mark : LayoutMark} (notes : ty.Notes position mark) :
    ty.isLaid = true := by
  cases notes <;> rfl

theorem sizeAll_eq_sum (members : List Ty) : sizeAll members = (members.map Ty.size).sum := by
  induction members with
  | nil => rfl
  | cons member rest ih => rw [sizeAll, ih, List.map_cons, List.sum_cons]

theorem eq_ofNat_iff {bytes : Word} {n : Nat} (small : n < UInt32.size) :
    bytes = .ofNat n ↔ bytes.toNat = n := by
  constructor
  · rintro rfl
    exact UInt32.toNat_ofNat_of_lt' small
  · rintro rfl
    exact (UInt32.ofNat_toNat).symm

def memberMarks (offset : Word) (member : Ty) : List LayoutMark :=
  .offset offset :: member.matrixDecorations.filterMap Decoration.layoutMark?

section Members

variable (struct : Id) (first : Nat) (offset : Word)

theorem memberAnnotations_cons (member : Ty) (rest : List Ty) :
    (memberAnnotations struct first offset (member :: rest)).filterMap Instruction.layoutNote? =
      (memberMarks offset member).map (LayoutNote.mk struct (some first)) ++
        (memberAnnotations struct (first + 1) (offset + member.sizeWord) rest).filterMap
          Instruction.layoutNote? := by
  have matrix : (matrixAnnotations struct first member).filterMap Instruction.layoutNote? =
      (member.matrixDecorations.filterMap Decoration.layoutMark?).map
        (LayoutNote.mk struct (some first)) := by
    cases member with
    | matrix component rows columns =>
      rw [matrixAnnotations, matrixDecorations]
      split <;> rfl
    | _ => rfl
  rw [memberAnnotations, List.filterMap_append, memberMarks, List.map_cons, ← matrix]
  rfl

/-- The notes of a struct are those of its members, each behind the members before it. -/
theorem mem_memberAnnotations (members : List Ty) (note : LayoutNote) :
    note ∈ (memberAnnotations struct first offset members).filterMap Instruction.layoutNote? ↔
      ∃ index member, members[index]? = some member ∧
        ∃ mark ∈ memberMarks (offset + sizeWords (members.take index)) member,
          LayoutNote.mk struct (some (first + index)) mark = note := by
  induction members generalizing first offset with
  | nil => simp [memberAnnotations]
  | cons member rest ih =>
    rw [memberAnnotations_cons, List.mem_append, ih, List.mem_map]
    constructor
    · rintro (⟨mark, marks, same⟩ | ⟨index, inner, found, mark, marks, same⟩)
      · refine ⟨0, member, rfl, mark, ?_, same⟩
        rwa [List.take_zero, sizeWords, UInt32.add_zero]
      · refine ⟨index + 1, inner, found, mark, ?_, ?_⟩
        · rwa [List.take_succ_cons, sizeWords, ← UInt32.add_assoc]
        · rwa [Nat.add_assoc, Nat.add_comm 1 index] at same
    · rintro ⟨index, inner, found, mark, marks, same⟩
      cases index with
      | zero =>
        obtain rfl := Option.some.inj found
        rw [List.take_zero, sizeWords, UInt32.add_zero] at marks
        exact .inl ⟨mark, marks, same⟩
      | succ index =>
        refine .inr ⟨index, inner, found, mark, ?_, ?_⟩
        · rwa [List.take_succ_cons, sizeWords, ← UInt32.add_assoc] at marks
        · rwa [Nat.add_assoc, Nat.add_comm 1 index]

theorem nodup_memberMarks (member : Ty) : (memberMarks offset member).Nodup := by
  cases member with
  | matrix component rows columns =>
    rw [memberMarks, matrixDecorations]
    split
    · show [LayoutMark.offset offset, .colMajor, .matrixStride _].Nodup
      simp
    · exact List.nodup_singleton _
  | _ => exact List.nodup_singleton _

/-- Nothing is said twice about a struct, since its members are numbered one by one. -/
theorem nodup_memberAnnotations (members : List Ty) :
    ((memberAnnotations struct first offset members).filterMap Instruction.layoutNote?).Nodup := by
  induction members generalizing first offset with
  | nil => exact List.nodup_nil
  | cons member rest ih =>
    rw [memberAnnotations_cons]
    refine ((nodup_memberMarks offset member).map fun mark mark' same => ?_).append (ih _ _) ?_
    · exact (LayoutNote.mk.inj same).2.2
    · intro note own later
      obtain ⟨mark, _, rfl⟩ := List.mem_map.mp own
      obtain ⟨index, _, _, _, _, same⟩ := (mem_memberAnnotations ..).mp later
      have number := Option.some.inj (LayoutNote.mk.inj same).2.1
      omega

end Members

theorem mem_memberMarks {members : List Ty} {index : Nat} {member : Ty}
    (found : members[index]? = some member)
    (small : ∀ inner ∈ (Ty.struct members).reach, inner.size < UInt32.size) {mark : LayoutMark} :
    mark ∈ memberMarks (sizeWords (members.take index)) member ↔
      (Ty.struct members).Notes (some index) mark := by
  have whole : (members.map Ty.size).sum < UInt32.size := by
    have struct := small _ (mem_reach_self _)
    rwa [size, sizeAll_eq_sum] at struct
  have before : ((members.take index).map Ty.size).sum < UInt32.size := by
    rw [← sizeAll_eq_sum] at whole ⊢
    exact Nat.lt_of_le_of_lt (sizeAll_take_le members index) whole
  have column : ∀ component rows columns, member = .matrix component rows columns → 1 < columns →
      rows.toNat * component.size < UInt32.size := by
    rintro component rows columns rfl several
    have fits : (vector component rows).size ≤ (matrix component rows columns).size :=
      column_size_le (if_pos several)
    have single : (vector component rows).size = rows.toNat * component.size := by
      simp [vector, size]
    exact Nat.lt_of_le_of_lt (single ▸ fits) (small _ (member_reach found))
  have stride : ∀ (component : Ty) (rows : Word),
      rows * component.sizeWord = .ofNat (rows.toNat * component.size) := by
    intro component rows
    rw [sizeWord_eq, UInt32.ofNat_mul, UInt32.ofNat_toNat]
  rw [memberMarks, List.mem_cons, sizeWords_eq, sizeAll_eq_sum]
  constructor
  · rintro (rfl | matrix)
    · exact .offset (List.getElem?_eq_some_iff.mp found).1 ((eq_ofNat_iff before).mp rfl)
    · obtain ⟨decoration, listed, marked⟩ := List.mem_filterMap.mp matrix
      cases member with
      | matrix component rows columns =>
        rw [matrixDecorations] at listed
        split at listed
        · rename_i several
          simp only [List.mem_cons, List.not_mem_nil, or_false] at listed
          rcases listed with rfl | rfl
          · rw [← Option.some.inj marked]
            exact .colMajor found several
          · rw [← Option.some.inj marked]
            exact .matrixStride found several
              ((eq_ofNat_iff (column _ _ _ rfl several)).mp (stride component rows))
        · contradiction
      | _ => contradiction
  · intro notes
    cases notes with
    | offset _ bytes => exact .inl (congrArg LayoutMark.offset ((eq_ofNat_iff before).mpr bytes))
    | colMajor found' several =>
      obtain rfl := Option.mem_unique found found'
      exact .inr (List.mem_filterMap.mpr ⟨.colMajor, by simp [matrixDecorations, several], rfl⟩)
    | matrixStride found' several bytes =>
      obtain rfl := Option.mem_unique found found'
      rw [← eq_ofNat_iff (column _ _ _ rfl several), ← stride] at bytes
      exact .inr (List.mem_filterMap.mpr
        ⟨.matrixStride _, by simp [matrixDecorations, several, bytes], rfl⟩)

theorem mem_stride {element : Ty} (small : element.size < UInt32.size) {note : LayoutNote} :
    note ∈ [Instruction.decorate id (.arrayStride element.sizeWord)].filterMap
        Instruction.layoutNote? ↔
      note.type = id ∧ note.member = none ∧
        ∃ bytes : Word, bytes.toNat = element.size ∧ note.mark = .arrayStride bytes := by
  have one : [Instruction.decorate id (.arrayStride element.sizeWord)].filterMap
      Instruction.layoutNote? = [⟨id, none, .arrayStride (.ofNat element.size)⟩] := by
    rw [sizeWord_eq]
    rfl
  rw [one, List.mem_singleton]
  constructor
  · rintro rfl
    exact ⟨rfl, rfl, _, (eq_ofNat_iff small).mp rfl, rfl⟩
  · obtain ⟨type, position, mark⟩ := note
    rintro ⟨rfl, rfl, bytes, size, rfl⟩
    rw [(eq_ofNat_iff small).mpr size]

theorem mem_annotations (small : ∀ inner ∈ ty.reach, inner.size < UInt32.size)
    {note : LayoutNote} : note ∈ (ty.annotations id).filterMap Instruction.layoutNote? ↔
      note.type = id ∧ ty.Notes note.member note.mark := by
  obtain ⟨type, position, mark⟩ := note
  cases ty with
  | struct members =>
    rw [annotations, mem_memberAnnotations]
    simp only [Nat.zero_add, UInt32.zero_add]
    constructor
    · rintro ⟨index, member, found, mark, marks, ⟨⟩⟩
      exact ⟨rfl, (mem_memberMarks found small).mp marks⟩
    · rintro ⟨rfl, notes⟩
      obtain ⟨index, member, rfl, found⟩ :
          ∃ index member, position = some index ∧ members[index]? = some member := by
        cases notes with
        | offset inside => exact ⟨_, _, rfl, List.getElem?_eq_getElem inside⟩
        | colMajor found | matrixStride found => exact ⟨_, _, rfl, found⟩
      exact ⟨index, member, found, mark, (mem_memberMarks found small).mpr notes, rfl⟩
  | array element | runtimeArray element =>
    rw [annotations, mem_stride (small element (by simp [reach, mem_reach_self]))]
    refine and_congr_right fun _ => ⟨?_, fun notes => ?_⟩
    · rintro ⟨rfl, bytes, size, rfl⟩
      constructor
      exact size
    · cases notes
      exact ⟨rfl, _, ‹_›, rfl⟩
  | _ =>
    refine ⟨fun member => ?_, fun notes => ?_⟩
    · contradiction
    · obtain ⟨_, notes⟩ := notes
      cases notes

theorem nodup_annotations (id : Id) (ty : Ty) :
    ((ty.annotations id).filterMap Instruction.layoutNote?).Nodup := by
  cases ty with
  | struct members => exact nodup_memberAnnotations id 0 0 members
  | array | runtimeArray => exact List.nodup_singleton _
  | _ => exact List.nodup_nil

end Ty

namespace Emission

section Notes

variable {e : Emission} {roots : List Ty}

theorem isType_of_isDecorated (decorated : e.types.isDecorated ty = true) :
    ∃ id, e.IsType ty id := by
  rw [TypeTable.isDecorated] at decorated
  cases found : e.types.find? ty with
  | none =>
    rw [found] at decorated
    contradiction
  | some line => exact ⟨line.id, by rw [IsType, TypeTable.id?, found]; rfl⟩

theorem Laid.mem_notes (laid : e.Laid roots) {note : LayoutNote} :
    note ∈ e.layouts.filterMap Instruction.layoutNote? ↔ ∃ ty ∈ Ty.laidFrom roots, ∃ id,
      e.IsType ty id ∧ note ∈ (ty.annotations id).filterMap Instruction.layoutNote? := by
  rw [(laid.layouts.filterMap _).mem_iff, List.filterMap_flatMap, List.mem_flatMap]
  refine exists_congr fun ty => and_congr_right fun _ => ?_
  unfold layoutOf
  cases known : e.types.id? ty with
  | none => simp [IsType, known]
  | some id => simp [IsType, known]

/-- Types have different ids, so no two of them have a note in common. -/
theorem Laid.nodup_notes (laid : e.Laid roots)
    (unique : ∀ {ty ty' id}, e.IsType ty id → e.IsType ty' id → ty = ty') :
    (e.layouts.filterMap Instruction.layoutNote?).Nodup := by
  have own : ∀ {ty note}, note ∈ (e.layoutOf ty).filterMap Instruction.layoutNote? →
      e.IsType ty note.type := by
    intro ty note member
    obtain ⟨i, annotates, noted⟩ := List.mem_filterMap.mp member
    unfold layoutOf at annotates
    cases known : e.types.id? ty with
    | none =>
      rw [known] at annotates
      contradiction
    | some id =>
      rw [known] at annotates
      have target := Instruction.refers_of_layoutNote noted
      rw [Ty.annotations_refer i annotates] at target
      rw [← List.singleton_inj.mp target]
      exact known
  rw [(laid.layouts.filterMap _).nodup_iff, List.filterMap_flatMap, List.nodup_flatMap]
  refine ⟨fun ty _ => ?_, (Ty.nodup_laidFrom roots).imp fun differs note first second => ?_⟩
  · unfold layoutOf
    cases e.types.id? ty with
    | none => exact List.nodup_nil
    | some id => exact Ty.nodup_annotations id ty
  · exact differs (unique (own first) (own second))

end Notes

namespace Compiled

section Notes

variable {strict : Prop} {d : Draft} {ids : EntryIds} {interface : List Id}
  {e : Emission} {stages : Stages} {m : ShaderModule}
  (parts : Compiled strict d ids interface e stages)
  (put : m.instructions = e.instructions d ids interface)

include parts put

/-- All that a module says about layouts is annotated for types that have one. -/
theorem layoutNotes_eq (proper : d.Proper strict) {marked : List (Id × Decoration)}
    (signed : e.Signed d.bindings.toList marked) :
    m.layoutNotes = e.layouts.filterMap Instruction.layoutNote? := by
  have outside : ∀ i : Instruction, i.part ≠ .decoration → i.layoutNote? = none := by
    intro i part
    cases i with
    | decorate | decorateMember => exact absurd rfl part
    | _ => rfl
  rw [ShaderModule.layoutNotes, put, (parts.sections proper.sound).decorations outside, layouts,
    List.filterMap_filter]
  refine List.filterMap_congr fun i member => ?_
  split
  · rfl
  · rename_i other
    cases i with
    | decorate target decoration =>
      cases located : decoration.locates with
      | true => cases decoration <;> first | rfl | contradiction
      | false =>
        -- what is left marks the kind of a block
        have sign : (target, decoration) ∈ e.signs := by
          refine List.mem_filterMap.mpr ⟨_, member, ?_⟩
          rw [Instruction.sign?, located, Bool.false_or, if_neg other]
        have block := signed.blocks _ sign
        cases decoration <;> first | rfl | contradiction
    | decorateMember => exact absurd rfl other
    | _ => rfl

end Notes

end Compiled

end Emission

def Call.block? : Call → Option Ty
  | .uniform _ _ ty | .storage _ _ ty => some ty
  | _ => none

namespace Draft

/-- The types of the blocks are those that calls have bound as blocks. -/
theorem mem_blocks_begun (settings : Settings) (slots : List Ty) {program : List Call}
    (building : ∀ c ∈ program, c.restarts = false) (ty : Ty) :
    ty ∈ (((new settings).withSlots slots).after program).blocks ↔
      ty ∈ (((new settings).withSlots slots).accepted program).filterMap Call.block? := by
  have bound : ∀ b : Binding, ty ∈ b.blocks ↔ b.kind ≠ .texture ∧ b.ty = ty := by
    intro b
    unfold Binding.blocks
    cases b.kind <;> simp [Emit.blockDecoration?, eq_comm]
  have asked : ∀ c : Call, c.block? = some ty ↔
      ∃ r, c.resource? = some r ∧ r.kind ≠ .texture ∧ r.ty = ty := by
    intro c
    cases c <;> simp [Call.block?, Call.resource?]
  have each := resources_begun settings slots building
  generalize ((new settings).withSlots slots).after program = d at each ⊢
  rw [blocks, List.mem_flatMap, List.mem_filterMap]
  simp only [bound, asked]
  constructor
  · rintro ⟨b, member, block⟩
    have listed := (each b.resource).mp (mem_resources.mpr ⟨b, Array.mem_toList_iff.mp member, rfl⟩)
    obtain ⟨c, accepted, same⟩ := List.mem_filterMap.mp listed
    exact ⟨c, accepted, b.resource, same, block⟩
  · rintro ⟨c, accepted, r, same, block⟩
    obtain ⟨b, member, rfl⟩ :=
      mem_resources.mp ((each r).mpr (List.mem_filterMap.mpr ⟨c, accepted, same⟩))
    exact ⟨b, Array.mem_toList_iff.mpr member, block⟩

/-- The layouts of blocks are annotated in full and just once. Take the types that calls have bound as
blocks, and all structs and arrays that these are laid out of. Each of them is declared under one id.
The module says where every member of such a struct is, how the columns of a member lie that is a
matrix of several columns, and how far the elements of such an array are apart; it says so once, and
it says nothing else about layouts. -/
theorem layouts_annotated_once (settings : Settings) (slots : List Ty) {first : Draft}
    (begun : withInputs settings slots = .ok () first) {program : List Call}
    (building : ∀ c ∈ program, c.restarts = false) {m : ShaderModule}
    (compiled : (first.after program).compilation.result = .ok m) {blocks : List Ty}
    (bound : (first.accepted program).filterMap Call.block? = blocks)
    (small : ∀ block ∈ blocks, ∀ ty ∈ block.reach, ty.size < UInt32.size) :
    m.layoutNotes.Nodup ∧
      (∀ note, note ∈ m.layoutNotes ↔ ∃ block ∈ blocks, ∃ ty ∈ block.reach,
        m.Declares note.type ty ∧ ty.Notes note.member note.mark) ∧
      ∀ block ∈ blocks, ∀ ty ∈ block.reach, ty.isLaid = true →
        ∃ id, m.Declares id ty ∧ ∀ id' ty', m.Declares id' ty' → (id' = id ↔ ty' = ty) := by
  obtain rfl := eq_of_withInputs begun
  have proper := (proper_begun False settings slots).after building
  obtain ⟨e, run, ids, interface, _, parts, put, _⟩ := proper.assemble_ok compiled
  obtain ⟨marked, laid, signed⟩ := assemble_blocked proper.listed run
  have listed := mem_blocks_begun settings slots building
  rw [bound] at listed
  have member : ∀ ty, ty ∈ Ty.laidFrom (((new settings).withSlots slots).after program).blocks ↔
      (∃ block ∈ blocks, ty ∈ block.reach) ∧ ty.isLaid = true := by
    intro ty
    rw [Ty.mem_laidFrom]
    simp only [listed]
  have notes := parts.layoutNotes_eq put proper signed
  refine ⟨?_, fun note => ?_, fun block inside ty reached isLaid => ?_⟩
  · rw [notes]
    exact laid.nodup_notes (parts.type_unique proper)
  · rw [notes, laid.mem_notes]
    constructor
    · rintro ⟨ty, inside, id, known, noted⟩
      obtain ⟨⟨block, listed, reached⟩, _⟩ := (member ty).mp inside
      obtain ⟨rfl, has⟩ := (Ty.mem_annotations fun inner within =>
        small block listed inner (Ty.reach_trans block reached within)).mp noted
      exact ⟨block, listed, ty, reached, (parts.declares_iff proper put).mpr known, has⟩
    · rintro ⟨block, listed, ty, reached, known, has⟩
      refine ⟨ty, (member ty).mpr ⟨⟨block, listed, reached⟩, has.isLaid⟩, note.type,
        (parts.declares_iff proper put).mp known, ?_⟩
      exact (Ty.mem_annotations fun inner within =>
        small block listed inner (Ty.reach_trans block reached within)).mpr ⟨rfl, has⟩
  · have decorated := (laid.flags ty).mpr ((member ty).mpr ⟨⟨block, inside, reached⟩, isLaid⟩)
    obtain ⟨id, known⟩ := Emission.isType_of_isDecorated decorated
    refine ⟨id, (parts.declares_iff proper put).mpr known, fun id' ty' known' => ?_⟩
    rw [parts.declares_iff proper put] at known'
    constructor
    · rintro rfl
      exact parts.type_unique proper known' known
    · rintro rfl
      exact Option.some.inj (known'.symm.trans known)

/-- Three blocks that share a struct: it is an element of an array in two of them, and is the third.
-/
def nestsStruct : List Call :=
  [.storage 0 1 (.struct [.runtimeArray (.struct [.single, .mat 3 2])]),
    .uniform 0 0 (.struct [.vec 3, .array (.struct [.single, .mat 3 2]) 5]), .texture 0 2 .plane,
    .uniform 1 0 (.struct [.single, .mat 3 2])]

/-- The struct that is shared has the notes of its two members, and the matrix in it has two more. -/
theorem nestsStruct_annotated_once :
    withInputs { stage := .fragment } [] = .ok () (fragment []) ∧
      (∀ c ∈ nestsStruct, c.restarts = false) ∧
      ∃ m : ShaderModule,
        ((fragment []).after nestsStruct).compilation.result = .ok m ∧
          m.layoutNotes.Nodup ∧
          ∃ struct array, m.Declares struct (.struct [.single, .mat 3 2]) ∧
            m.Declares array (.array (.struct [.single, .mat 3 2]) 5) ∧
            (∀ note ∈ [⟨struct, some 0, .offset 0⟩, ⟨struct, some 1, .offset 4⟩,
              ⟨struct, some 1, .colMajor⟩, ⟨struct, some 1, .matrixStride 12⟩,
              ⟨array, none, .arrayStride 28⟩], note ∈ m.layoutNotes) ∧
            ⟨struct, some 0, .colMajor⟩ ∉ m.layoutNotes := by
  have building : ∀ c ∈ nestsStruct, c.restarts = false := by decide
  refine ⟨withInputs_eq _ _, building, exists_and_of_toBool (by decide +kernel) fun m compiled => ?_⟩
  have bound : ((fragment []).accepted nestsStruct).filterMap
      Call.block? = [.struct [.runtimeArray (.struct [.single, .mat 3 2])],
        .struct [.vec 3, .array (.struct [.single, .mat 3 2]) 5], .struct [.single, .mat 3 2]] := by
    decide +kernel
  obtain ⟨distinct, notes, declared⟩ := layouts_annotated_once { stage := .fragment } []
    (withInputs_eq _ _) building compiled bound (by decide +kernel)
  obtain ⟨struct, known, unique⟩ :=
    declared (.struct [.single, .mat 3 2]) (by decide +kernel) _ (Ty.mem_reach_self _) rfl
  obtain ⟨array, known', _⟩ :=
    declared (.struct [.vec 3, .array (.struct [.single, .mat 3 2]) 5]) (by decide +kernel)
      (.array (.struct [.single, .mat 3 2]) 5) (by decide +kernel) rfl
  refine ⟨distinct, struct, array, known, known', ?_, ?_⟩
  · have own : ∀ {position mark}, (Ty.struct [.single, .mat 3 2]).Notes position mark →
        ⟨struct, position, mark⟩ ∈ m.layoutNotes := fun has =>
      (notes _).mpr ⟨_, by decide +kernel, _, Ty.mem_reach_self (.struct [.single, .mat 3 2]),
        known, has⟩
    simp only [List.forall_mem_cons]
    refine ⟨own (.offset (by decide) (by decide +kernel)),
      own (.offset (by decide) (by decide +kernel)), own (.colMajor rfl (by decide)),
      own (.matrixStride rfl (by decide) (by decide +kernel)), ?_, by simp⟩
    exact (notes _).mpr ⟨.struct [.vec 3, .array (.struct [.single, .mat 3 2]) 5],
      by decide +kernel, _, by decide +kernel, known', .array (by decide +kernel)⟩
  · intro noted
    obtain ⟨_, _, ty, _, same, has⟩ := (notes _).mp noted
    obtain rfl := (unique _ _ same).mp rfl
    cases has with
    | colMajor found => simp [Ty.single] at found

end Draft

end ShaderIR
