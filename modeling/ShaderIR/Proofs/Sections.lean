import ShaderIR.Proofs.Purpose

/-! The sections of a module. Every section holds the instructions that belong there, so that the
function can be read off the list of all instructions. -/
namespace ShaderIR

variable {i : Instruction} {interface : List Id} {e : Emission} {d : Draft} {ids : EntryIds}

def Instruction.isFunctionBegin : Instruction → Bool
  | .functionBegin _ _ _ => true
  | _ => false

def ShaderModule.function (m : ShaderModule) : List Instruction :=
  ((m.instructions.dropWhile fun i => !i.isFunctionBegin).drop 1).takeWhile (· ≠ .functionEnd)

namespace Emission

structure Sections (e : Emission) : Prop where
  annotations : ∀ i ∈ e.annotations, i.part = .decoration
  declarations : ∀ i ∈ e.declarations, i.part = .declaration
  locals : ∀ i ∈ e.locals, ∃ type id, i = .variableDecl type id .function
  body : ∀ i ∈ e.body, i.part = .body

section Purposes

variable {strict : Prop}

theorem Computes.part {n : Node} {type : Id} (computes : e.Computes d n type i) :
    i.part = .body := by
  cases computes <;> rfl

theorem Group.part {b : Boundary} {fresh : Nat} {group : List Instruction}
    (written : e.Group d b fresh group) : ∀ i ∈ group, i.part = .body := by
  cases written <;>
    simp [Selection.beginGroup, Selection.elseGroup, Selection.endGroup, CountedLoop.beginGroup,
      CountedLoop.endGroup, CountedLoop.leaveGroup, CountedLoop.nextGroup, Instruction.part]

theorem Declaration.part (declaration : e.Declaration d ids i) : i.part = .declaration := by
  cases declaration with
  | type | signature | constant => rfl
  | shared _ storage => exact if_neg storage

theorem Statement.part (statement : e.Statement d i) : i.part = .body := by
  cases statement with
  | load | store | chain => rfl
  | value _ _ computes => exact computes.part
  | boundary _ wrote member =>
    obtain ⟨e₁, fresh, written, _⟩ := wrote
    exact written.part i member

theorem Compiled.sections (sound : d.Sound strict) {stages : Stages}
    (compiled : Compiled strict d ids interface e stages) : e.Sections := by
  have purposeful := compiled.purposeful sound
  refine ⟨purposeful.annotations, fun i member => (purposeful.declarations i member).part,
    fun i member => ?_, fun i member => (purposeful.body i member).part⟩
  obtain ⟨p, data, type, _, storage, _, rfl⟩ := purposeful.locals i member
  exact ⟨type, data.id, by rw [storage]⟩

end Purposes

def heading (d : Draft) (ids : EntryIds) (interface : List Id) : List Instruction :=
  d.capabilities.map .capability ++
    [.importSet ids.glsl "GLSL.std.450", .memoryModel,
      .entryPoint d.settings.stage ids.function d.settings.entryPoint interface] ++
    d.settings.executionMode ids.function

theorem of_heading (member : i ∈ heading d ids interface) : i.part = .preamble ∧ i.uses = [] ∧
    ∀ id ∈ i.refers, id = ids.function ∨ id ∈ interface := by
  simp only [heading, List.mem_append, List.mem_map, List.mem_cons, List.not_mem_nil,
    or_false] at member
  rcases member with (⟨_, _, rfl⟩ | rfl | rfl | rfl) | mode
  · exact ⟨rfl, rfl, nofun⟩
  · exact ⟨rfl, rfl, nofun⟩
  · exact ⟨rfl, rfl, nofun⟩
  · exact ⟨rfl, rfl, fun id => List.mem_cons.mp⟩
  · unfold Settings.executionMode at mode
    split at mode <;> simp only [List.mem_singleton, List.not_mem_nil] at mode <;>
      exact mode ▸ ⟨rfl, rfl, fun id member => .inl (List.mem_singleton.mp member)⟩

def preamble (e : Emission) (d : Draft) (ids : EntryIds) (interface : List Id) : List Instruction :=
  heading d ids interface ++ e.annotations.toList ++ e.declarations.toList

theorem Sections.preamble (sections : e.Sections) (d : Draft) (ids : EntryIds) (interface : List Id)
    : ∀ i ∈ e.preamble d ids interface, i.part = .preamble ∨ i.part = .decoration ∨
      i.part = .declaration ∧ i ∈ e.declarations := by
  intro i member
  simp only [Emission.preamble, List.mem_append, Array.mem_toList_iff] at member
  rcases member with (head | decoration) | declaration
  · exact .inl (of_heading head).1
  · exact .inr (.inl (sections.annotations i decoration))
  · exact .inr (.inr ⟨sections.declarations i declaration, declaration⟩)

/-- The instructions of a module: what stands before the function, the function, and its end. -/
theorem instructions_eq (e : Emission) (d : Draft) (ids : EntryIds) (interface : List Id) :
    e.instructions d ids interface = e.preamble d ids interface ++
      .functionBegin ids.void ids.function ids.signature ::
        ((.label ids.label :: (e.locals.toList ++ e.body.toList ++ [.returnVoid])) ++
          [.functionEnd]) := by
  simp [instructions, Emission.preamble, heading]

theorem Sections.locate (sections : e.Sections) (member : i ∈ e.instructions d ids interface) :
    (i.part = .declaration → i ∈ e.declarations) ∧ (i.part = .own → i ∈ e.locals) ∧
      (i.part = .body → (∃ id, i = .label id) ∨ i = .returnVoid ∨ i ∈ e.body) := by
  rw [instructions_eq] at member
  simp only [List.mem_append, List.mem_cons, List.not_mem_nil, or_false,
    Array.mem_toList_iff] at member
  rcases member with before | rfl | (rfl | (own | body) | rfl) | rfl
  · rcases sections.preamble d ids interface i before with part | part | ⟨part, declared⟩ <;>
      simp_all
  · simp [Instruction.part]
  · simp [Instruction.part]
  · obtain ⟨_, _, rfl⟩ := sections.locals i own
    simp [Instruction.part, own]
  · simp [sections.body i body, body]
  · simp [Instruction.part]
  · simp [Instruction.part]

theorem Sections.function (sections : e.Sections) {m : ShaderModule}
    (listed : m.instructions = e.instructions d ids interface) :
    m.function = .label ids.label :: (e.locals.toList ++ e.body.toList ++ [.returnVoid]) := by
  have before : ∀ i ∈ e.preamble d ids interface, (!i.isFunctionBegin) = true := by
    intro i member
    have part := sections.preamble d ids interface i member
    cases i <;> simp [Instruction.part, Instruction.isFunctionBegin] at part ⊢
  have within : ∀ i ∈ Instruction.label ids.label ::
        (e.locals.toList ++ e.body.toList ++ [.returnVoid]),
      decide (i ≠ .functionEnd) = true := by
    intro i member
    have part : i.part ≠ .bracket := by
      simp only [List.mem_cons, List.mem_append, List.not_mem_nil, or_false,
        Array.mem_toList_iff] at member
      rcases member with rfl | (member | member) | rfl
      · simp [Instruction.part]
      · obtain ⟨_, _, rfl⟩ := sections.locals i member
        simp [Instruction.part]
      · simp [sections.body i member]
      · simp [Instruction.part]
    rw [decide_eq_true_iff]
    rintro rfl
    exact part rfl
  rw [ShaderModule.function, listed, instructions_eq, List.dropWhile_append_of_pos before,
    List.dropWhile_cons_of_neg (by simp [Instruction.isFunctionBegin]), List.drop_one, List.tail_cons,
    List.takeWhile_append_of_pos within, List.takeWhile_cons_of_neg (by simp), List.append_nil]

end Emission

end ShaderIR
