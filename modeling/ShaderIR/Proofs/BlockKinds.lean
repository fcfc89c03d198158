import ShaderIR.Proofs.Addresses
import ShaderIR.Proofs.Resources

/-! How a module tells what its blocks are bound as. The struct of a block is marked for the kind of
block that it is bound as, once for each kind however many blocks share it. A struct that is bound as
both kinds has both marks, and then they do not tell which of its variables can be written. -/
namespace ShaderIR

variable {marked : List (Id × Decoration)} {id struct : Id} {ty : Ty} {resources : List Resource}

def Decoration.isBlock : Decoration → Bool
  | .block | .bufferBlock => true
  | _ => false

namespace Instruction

def blockMark? : Instruction → Option (Id × Decoration)
  | .decorate id decoration => if decoration.isBlock then some (id, decoration) else none
  | _ => none

theorem blockMark?_eq (i : Instruction) :
    i.blockMark? = i.sign?.filter fun sign => sign.2.isBlock := by
  cases i with
  | decorate id decoration => cases decoration <;> rfl
  | _ => rfl

end Instruction

theorem Emission.Signed.blocks {e : Emission} {bindings : List Binding}
    (signed : e.Signed bindings marked) : ∀ mark ∈ e.signs, mark.2.isBlock = true := by
  intro mark member
  rw [signed.signs, List.mem_reverse, signed.marks] at member
  obtain ⟨b, _, decorated, _⟩ := member
  cases kind : b.kind with
  | texture =>
    rw [kind] at decorated
    contradiction
  | uniform | storage =>
    rw [kind] at decorated
    rw [← Option.some.inj decorated]
    rfl

/-! What can be read from a module. -/

theorem Reading.types_foldl {r : Reading} {code : List Instruction}
    (known : (code.foldl next r).types.find? id = some ty) :
    r.types.find? id = some ty ∨ ∃ form r', .typeDecl id form ∈ code ∧ form.read r' = some ty := by
  induction code generalizing r with
  | nil => exact .inl known
  | cons i rest ih =>
    rcases ih known with before | ⟨form, r', member, read⟩
    · cases i with
      | typeDecl result form =>
        simp only [next] at before
        cases read : form.read r with
        | none =>
          rw [read] at before
          exact .inl before
        | some ty' =>
          rw [read] at before
          by_cases same : result = id
          · subst same
            have same' : ty' = ty := by simpa [Assoc.find?_insert] using before
            exact .inr ⟨form, r, List.mem_cons_self, same' ▸ read⟩
          · rw [Option.map_some, Option.getD_some, Assoc.find?_insert_of_ne _ _ same] at before
            exact .inl before
      | _ => exact .inl before
    · exact .inr ⟨form, r', List.mem_cons_of_mem i member, read⟩

namespace ShaderModule

variable (m : ShaderModule)

def Declares (id : Id) (ty : Ty) : Prop := (Reading.of m.instructions).types.find? id = some ty

def blockMarks : List (Id × Decoration) := m.instructions.filterMap Instruction.blockMark?

def blockKinds (struct : Id) : List Decoration :=
  (m.blockMarks.filter fun mark => mark.1 = struct).map Prod.snd

def kindOf? (struct : Id) : Option BindingKind :=
  match m.blockKinds struct with
  | [.block] => some .uniform
  | [.bufferBlock] => some .storage
  | _ => none

end ShaderModule

namespace Emission.Compiled

section Declares

variable {strict : Prop} {d : Draft} {ids : EntryIds} {interface : List Id}
  {e : Emission} {stages : Stages} {m : ShaderModule}
  (parts : Compiled strict d ids interface e stages) (proper : d.Proper strict)
  (put : m.instructions = e.instructions d ids interface)

include parts proper put

/-- The ids that a module declares for types are those that the compilation knows. -/
theorem declares_iff : m.Declares id ty ↔ e.IsType ty id := by
  rw [ShaderModule.Declares, put]
  refine ⟨fun known => ?_, parts.reads proper⟩
  rcases Reading.types_foldl known with none | ⟨form, r, member, read⟩
  · contradiction
  · rcases parts.of_typeDecl proper.sound member with ⟨ty', declared, _⟩ | ⟨_, rfl⟩
    · obtain rfl := Option.some.inj ((parts.reads proper declared).symm.trans known)
      exact declared
    · contradiction

theorem blockMarks_eq (signed : e.Signed d.bindings.toList marked) :
    m.blockMarks = marked.reverse := by
  have outside : ∀ i : Instruction, i.part ≠ .decoration → i.blockMark? = none := by
    intro i part
    cases i with
    | decorate => exact absurd rfl part
    | _ => rfl
  rw [ShaderModule.blockMarks, put, (parts.sections proper.sound).decorations outside,
    List.filterMap_congr fun i _ => Instruction.blockMark?_eq i, ← List.filter_filterMap]
  show e.signs.filter _ = _
  rw [List.filter_eq_self.mpr signed.blocks, signed.signs]

end Declares

end Emission.Compiled

namespace ShaderModule

variable {m : ShaderModule}

theorem mem_blockKinds {kind : Decoration} :
    kind ∈ m.blockKinds struct ↔ (struct, kind) ∈ m.blockMarks := by
  simp [blockKinds]

theorem nodup_blockKinds (distinct : m.blockMarks.Nodup) (struct : Id) :
    (m.blockKinds struct).Nodup := by
  refine (distinct.filter _).map_on fun mark member mark' member' same => ?_
  have own := of_decide_eq_true (List.mem_filter.mp member).2
  have own' := of_decide_eq_true (List.mem_filter.mp member').2
  exact Prod.ext (own.trans own'.symm) same

end ShaderModule

namespace Draft

/-- The marks of a struct that blocks of some resources are bound with: one for each kind. -/
def kindMarks (resources : List Resource) (ty : Ty) : List Decoration :=
  (if ∃ r ∈ resources, r.kind = .uniform ∧ r.ty = ty then [.block] else []) ++
    if ∃ r ∈ resources, r.kind = .storage ∧ r.ty = ty then [.bufferBlock] else []

theorem mem_kindMarks {decoration : Decoration} :
    decoration ∈ kindMarks resources ty ↔
      ∃ r ∈ resources, Emit.blockDecoration? r.kind = some decoration ∧ r.ty = ty := by
  unfold kindMarks
  constructor
  · intro member
    rcases List.mem_append.mp member with block | buffer
    · split at block
      · rename_i bound
        obtain ⟨r, listed, kind, same⟩ := bound
        rw [List.mem_singleton.mp block]
        exact ⟨r, listed, by rw [kind]; rfl, same⟩
      · contradiction
    · split at buffer
      · rename_i bound
        obtain ⟨r, listed, kind, same⟩ := bound
        rw [List.mem_singleton.mp buffer]
        exact ⟨r, listed, by rw [kind]; rfl, same⟩
      · contradiction
  · rintro ⟨r, listed, decorated, same⟩
    cases kind : r.kind with
    | texture =>
      rw [kind] at decorated
      contradiction
    | uniform =>
      rw [kind] at decorated
      rw [← Option.some.inj decorated, if_pos ⟨r, listed, kind, same⟩]
      exact List.mem_append_left _ (List.mem_singleton_self _)
    | storage =>
      rw [kind] at decorated
      rw [← Option.some.inj decorated, if_pos (c := ∃ r ∈ resources, r.kind = .storage ∧ r.ty = ty)
        ⟨r, listed, kind, same⟩]
      exact List.mem_append_right _ (List.mem_singleton_self _)

theorem nodup_kindMarks (resources : List Resource) (ty : Ty) : (kindMarks resources ty).Nodup := by
  unfold kindMarks
  split <;> split <;> decide

/-- The marks of a struct tell what it is bound as, unless it is bound as both kinds of blocks. -/
theorem kindOf?_eq_some {m : ShaderModule} {r : Resource} (listed : r ∈ resources)
    (block : r.kind ≠ .texture) (marks : (m.blockKinds struct).Perm (kindMarks resources r.ty)) :
    m.kindOf? struct = some r.kind ↔
      ∀ r' ∈ resources, r'.ty = r.ty → r'.kind ≠ .texture → r'.kind = r.kind := by
  have both : (∃ r' ∈ resources, r'.kind = .uniform ∧ r'.ty = r.ty) →
      (∃ r' ∈ resources, r'.kind = .storage ∧ r'.ty = r.ty) → m.kindOf? struct = none := by
    intro uniform storage
    rw [kindMarks, if_pos uniform, if_pos storage] at marks
    obtain ⟨a, b, two⟩ := List.length_eq_two.mp marks.length_eq
    rw [ShaderModule.kindOf?, two]
    cases a <;> rfl
  have one : ∀ r' ∈ resources, r'.ty = r.ty → r'.kind ≠ .texture →
      m.kindOf? struct = some r.kind → r'.kind = r.kind := by
    intro r' listed' same block' known
    cases kind : r.kind with
    | texture => exact absurd kind block
    | uniform =>
      cases kind' : r'.kind with
      | texture => exact absurd kind' block'
      | uniform => rfl
      | storage =>
        rw [both ⟨r, listed, kind, rfl⟩ ⟨r', listed', kind', same⟩] at known
        contradiction
    | storage =>
      cases kind' : r'.kind with
      | texture => exact absurd kind' block'
      | storage => rfl
      | uniform =>
        rw [both ⟨r', listed', kind', same⟩ ⟨r, listed, kind, rfl⟩] at known
        contradiction
  refine ⟨fun known r' listed' same block' => one r' listed' same block' known, fun alone => ?_⟩
  have others : ∀ kind, kind ≠ .texture → kind ≠ r.kind →
      ¬ ∃ r' ∈ resources, r'.kind = kind ∧ r'.ty = r.ty := by
    rintro _ other differs ⟨r', listed', rfl, same⟩
    exact differs (alone r' listed' same other)
  cases kind : r.kind with
  | texture => exact absurd kind block
  | uniform =>
    rw [kindMarks, if_pos ⟨r, listed, kind, rfl⟩,
      if_neg (others .storage (by decide) (by simp [kind]))] at marks
    rw [ShaderModule.kindOf?, List.perm_singleton.mp marks]
  | storage =>
    rw [kindMarks, if_neg (others .uniform (by decide) (by simp [kind])),
      if_pos ⟨r, listed, kind, rfl⟩] at marks
    rw [ShaderModule.kindOf?, List.perm_singleton.mp marks]

/-- The structs of blocks are marked for what they are bound as. A module marks just the structs that
calls have bound as blocks, each once for every kind that it is bound as. So the variable of a block
points to a struct that has the mark of its own kind, and that has the mark of the other kind exactly
if another block with the same struct is of that kind. The marks tell what can be written exactly if
there is no such block. -/
theorem block_kinds_marked (settings : Settings) (slots : List Ty) {first : Draft}
    (begun : withInputs settings slots = .ok () first) {program : List Call}
    (building : ∀ c ∈ program, c.restarts = false) {m : ShaderModule}
    (compiled : (first.after program).compilation.result = .ok m) {resources : List Resource}
    (asked : (first.accepted program).filterMap Call.resource? = resources) :
    m.blockMarks.Nodup ∧
      (∀ struct decoration, (struct, decoration) ∈ m.blockMarks ↔ ∃ r ∈ resources,
        Emit.blockDecoration? r.kind = some decoration ∧ m.Declares struct r.ty) ∧
      ∀ r ∈ resources, r.kind ≠ .texture →
        ∃ type root storage struct, .variableDecl type root storage ∈ m.instructions ∧
          m.decorations root = [.descriptorSet r.set, .binding r.binding] ∧
          m.form? type = some (.pointer storage struct) ∧ m.Declares struct r.ty ∧
          (m.blockKinds struct).Perm (kindMarks resources r.ty) ∧
          (m.kindOf? struct = some r.kind ↔
            ∀ r' ∈ resources, r'.ty = r.ty → r'.kind ≠ .texture → r'.kind = r.kind) := by
  obtain rfl := eq_of_withInputs begun
  have proper := (proper_begun False settings slots).after building
  have told := proper.told (exposes_begun settings slots building).sorted compiled
  obtain ⟨e, run, ids, interface, _, parts, put, _⟩ := proper.assemble_ok compiled
  obtain ⟨marked, laid, signed⟩ := assemble_blocked proper.listed run
  have shows := parts.shows proper put laid
  have same := parts.blockMarks_eq proper put signed
  have listed := resources_begun settings slots building
  rw [asked] at listed
  have distinct : m.blockMarks.Nodup := by
    rw [same]
    exact List.nodup_reverse.mpr signed.distinct
  have marks : ∀ struct decoration, (struct, decoration) ∈ m.blockMarks ↔ ∃ r ∈ resources,
      Emit.blockDecoration? r.kind = some decoration ∧ m.Declares struct r.ty := by
    intro struct decoration
    rw [same, List.mem_reverse, signed.marks]
    constructor
    · rintro ⟨b, bound, decorated, known⟩
      refine ⟨b.resource, (listed _).mp (mem_resources.mpr ⟨b, ?_, rfl⟩), decorated, ?_⟩
      · exact Array.mem_toList_iff.mp bound
      · exact (parts.declares_iff proper put).mpr known
    · rintro ⟨r, asked, decorated, known⟩
      obtain ⟨b, bound, rfl⟩ := mem_resources.mp ((listed r).mpr asked)
      exact ⟨b, Array.mem_toList_iff.mpr bound, decorated, (parts.declares_iff proper put).mp known⟩
  refine ⟨distinct, marks, fun r asked block => ?_⟩
  obtain ⟨b, bound, rfl⟩ := mem_resources.mp ((listed r).mpr asked)
  obtain ⟨type, root, storage, struct, declared, found, points, known⟩ := proper.block_variable
    (coherent_after building) ((led_begun settings slots).after program).bindings told parts put
    shows bound
  have own := (parts.declares_iff proper put).mpr known
  have kinds : (m.blockKinds struct).Perm (kindMarks resources b.ty) := by
    refine (List.perm_ext_iff_of_nodup (ShaderModule.nodup_blockKinds distinct struct)
      (nodup_kindMarks resources b.ty)).mpr fun decoration => ?_
    rw [ShaderModule.mem_blockKinds, marks, mem_kindMarks]
    refine exists_congr fun r => and_congr_right fun _ => and_congr_right fun _ => ⟨fun known' => ?_,
      fun same => same ▸ own⟩
    exact Option.some.inj (known'.symm.trans own)
  exact ⟨type, root, storage, struct, declared, found, points, own, kinds,
    kindOf?_eq_some asked block kinds⟩

/-- A program that binds a struct as a block that is only read and as one that is written, another
struct as a block that is written, and a texture. -/
def sharesStruct : List Call :=
  [.uniform 0 0 (.struct [.single]), .storage 0 1 (.struct [.single]), .texture 0 2 .plane,
    .storage 0 3 (.struct [.vec 4]), .uniform 0 0 (.struct [.single])]

/-- The struct that is shared has both marks, so they do not tell what it is bound as; those of the
other struct do. -/
theorem sharesStruct_marked :
    withInputs { stage := .fragment } [] = .ok () (fragment []) ∧
      (∀ c ∈ sharesStruct, c.restarts = false) ∧
      ∃ m : ShaderModule,
        ((fragment []).after sharesStruct).compilation.result = .ok m ∧
          (∃ type root storage struct, .variableDecl type root storage ∈ m.instructions ∧
            m.decorations root = [.descriptorSet 0, .binding 0] ∧
            m.form? type = some (.pointer storage struct) ∧
            (m.blockKinds struct).Perm [.block, .bufferBlock] ∧
            m.kindOf? struct ≠ some .uniform) ∧
          ∃ type root storage struct, .variableDecl type root storage ∈ m.instructions ∧
            m.decorations root = [.descriptorSet 0, .binding 3] ∧
            m.form? type = some (.pointer storage struct) ∧
            (m.blockKinds struct).Perm [.bufferBlock] ∧ m.kindOf? struct = some .storage := by
  have building : ∀ c ∈ sharesStruct, c.restarts = false := by decide
  refine ⟨withInputs_eq _ _, building, exists_and_of_toBool (by decide +kernel) fun m compiled => ?_⟩
  have asked : ((fragment []).accepted sharesStruct).filterMap
      Call.resource? = [⟨0, 0, .uniform, .struct [.single]⟩, ⟨0, 1, .storage, .struct [.single]⟩,
        ⟨0, 2, .texture, .sampler .plane⟩, ⟨0, 3, .storage, .struct [.vec 4]⟩,
        ⟨0, 0, .uniform, .struct [.single]⟩] := by
    decide +kernel
  obtain ⟨_, _, blocks⟩ := block_kinds_marked { stage := .fragment } [] (withInputs_eq _ _) building
    compiled asked
  constructor
  · obtain ⟨type, root, storage, struct, declared, marks, points, _, kinds, told⟩ :=
      blocks ⟨0, 0, .uniform, .struct [.single]⟩ (by decide +kernel) (by decide)
    refine ⟨type, root, storage, struct, declared, marks, points, kinds, fun known => ?_⟩
    exact absurd (told.mp known) (by decide +kernel)
  · obtain ⟨type, root, storage, struct, declared, marks, points, _, kinds, told⟩ :=
      blocks ⟨0, 3, .storage, .struct [.vec 4]⟩ (by decide +kernel) (by decide)
    exact ⟨type, root, storage, struct, declared, marks, points, kinds,
      told.mpr (by decide +kernel)⟩

end Draft

end ShaderIR
