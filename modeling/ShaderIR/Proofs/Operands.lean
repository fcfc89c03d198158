import ShaderIR.ShaderModule

/-! The ids in an instruction: the one it gives a meaning to, those that need a meaning before it, and
those that it only refers to. -/
namespace ShaderIR

variable {id : Id} {i : Instruction}

def TypeForm.ids : TypeForm → List Id
  | .void | .bool | .int _ _ | .float _ => []
  | .vector component _ => [component]
  | .matrix column _ => [column]
  | .image sampled _ _ _ => [sampled]
  | .sampledImage inner => [inner]
  | .array element length => [element, length]
  | .runtimeArray element => [element]
  | .struct members => members
  | .pointer _ pointee => [pointee]
  | .function result => [result]

namespace Instruction

def result? : Instruction → Option Id
  | .importSet result _ | .typeDecl result _ | .constant _ result _ | .variableDecl _ result _
  | .functionBegin _ result _ | .label result | .load _ result _ | .accessChain _ result _ _
  | .compute _ _ result _ | .select _ result _ _ _ | .construct _ result _ | .extract _ result _ _
  | .extractDynamic _ result _ _ | .sample _ result _ _ _ => some result
  | .capability _ | .memoryModel | .entryPoint _ _ _ _ | .originUpperLeft _ | .localSize _ _
  | .decorate _ _ | .decorateMember _ _ _ | .functionEnd | .store _ _ | .selectionMerge _
  | .loopMerge _ _ | .branch _ | .branchConditional _ _ _ | .returnVoid => none

/-- The ids that need a meaning before the instruction that uses them. -/
def uses : Instruction → List Id
  | .typeDecl _ form => form.ids
  | .constant type _ _ | .variableDecl type _ _ => [type]
  | .functionBegin type _ signature => [type, signature]
  | .load type _ source => [type, source]
  | .store target value => [target, value]
  | .accessChain type _ base indices => type :: base :: indices
  | .compute _ type _ operands => type :: operands
  | .select type _ condition accept reject => [type, condition, accept, reject]
  | .construct type _ parts => type :: parts
  | .extract type _ composite _ => [type, composite]
  | .extractDynamic type _ vector index => [type, vector, index]
  | .sample type _ image coordinates lod => [type, image, coordinates, lod]
  | .branchConditional condition _ _ => [condition]
  | .capability _ | .importSet _ _ | .memoryModel | .entryPoint _ _ _ _ | .originUpperLeft _
  | .localSize _ _ | .decorate _ _ | .decorateMember _ _ _ | .functionEnd | .label _
  | .selectionMerge _ | .loopMerge _ _ | .branch _ | .returnVoid => []

/-- The ids that may get their meaning anywhere in the module: those of the entry point and its
modes, the targets of decorations, and the labels that a branch or a merge leads to. -/
def refers : Instruction → List Id
  | .entryPoint _ function _ interface => function :: interface
  | .originUpperLeft function | .localSize function _ => [function]
  | .decorate target _ | .decorateMember target _ _ => [target]
  | .selectionMerge merge => [merge]
  | .loopMerge merge continuing => [merge, continuing]
  | .branch target => [target]
  | .branchConditional _ accept reject => [accept, reject]
  | .capability _ | .importSet _ _ | .memoryModel | .typeDecl _ _ | .constant _ _ _
  | .variableDecl _ _ _ | .functionBegin _ _ _ | .functionEnd | .label _ | .load _ _ _ | .store _ _
  | .accessChain _ _ _ _ | .compute _ _ _ _ | .select _ _ _ _ _ | .construct _ _ _
  | .extract _ _ _ _ | .extractDynamic _ _ _ _ | .sample _ _ _ _ _ | .returnVoid => []

end Instruction

/-- What is known after some code: what was known before, and what the code gives a meaning to. -/
def Gained (known : Id → Prop) (code : List Instruction) (id : Id) : Prop :=
  known id ∨ ∃ i ∈ code, i.result? = some id

/-- Code in which every instruction uses only ids that are known or got their meaning before. -/
def Ordered (known : Id → Prop) : List Instruction → Prop
  | [] => True
  | i :: rest =>
      (∀ id ∈ i.uses, known id) ∧ Ordered (fun id => known id ∨ i.result? = some id) rest

section Ordered

variable {known known' : Id → Prop} {code more : List Instruction}

theorem Gained.mono (gained : Gained known code id) (wider : ∀ id, known id → known' id) :
    Gained known' code id :=
  gained.imp_left (wider id)

@[simp] theorem gained_nil : Gained known [] id ↔ known id := by
  simp [Gained]

theorem gained_append : Gained known (code ++ more) id ↔ Gained (Gained known code) more id := by
  simp only [Gained, List.mem_append, or_and_right, exists_or, or_assoc]

theorem gained_cons :
    Gained known (i :: code) id ↔ Gained (fun id => known id ∨ i.result? = some id) code id := by
  simp only [Gained, List.mem_cons, or_and_right, exists_or, exists_eq_left, or_assoc]

theorem Ordered.mono (ordered : Ordered known code) (wider : ∀ id, known id → known' id) :
    Ordered known' code := by
  induction code generalizing known known' with
  | nil => trivial
  | cons i rest ih =>
    refine ⟨fun id used => wider id (ordered.1 id used), ih ordered.2 ?_⟩
    intro id before
    exact before.imp_left (wider id)

theorem ordered_append :
    Ordered known (code ++ more) ↔ Ordered known code ∧ Ordered (Gained known code) more := by
  induction code generalizing known with
  | nil => exact ⟨fun ordered => ⟨trivial, ordered.mono fun _ => gained_nil.mpr⟩,
      fun ordered => ordered.2.mono fun _ => gained_nil.mp⟩
  | cons i rest ih =>
    rw [List.cons_append, Ordered, Ordered, ih, and_assoc]
    have same : Gained (fun id => known id ∨ i.result? = some id) rest = Gained known (i :: rest) :=
      funext fun _ => propext gained_cons.symm
    rw [same]

theorem Ordered.append (ordered : Ordered known code) (after : Ordered (Gained known code) more) :
    Ordered known (code ++ more) :=
  ordered_append.mpr ⟨ordered, after⟩

theorem ordered_of_known (all : ∀ i ∈ code, ∀ id ∈ i.uses, known id) : Ordered known code := by
  induction code generalizing known with
  | nil => trivial
  | cons i rest ih =>
    refine ⟨all i (List.mem_cons_self ..), ih fun j member id used => ?_⟩
    exact .inl (all j (List.mem_cons_of_mem i member) id used)

theorem Ordered.before (ordered : Ordered known code) {earlier later : List Instruction}
    (split : code = earlier ++ i :: later) (used : id ∈ i.uses) : Gained known earlier id := by
  rw [split] at ordered
  exact (ordered_append.mp ordered).2.1 id used

end Ordered

end ShaderIR
