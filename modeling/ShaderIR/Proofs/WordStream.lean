import ShaderIR.Draft.Compile

/-! The words of a module. Most instructions are written at once; the import and the entry point get
their lengths after their texts, types are declared with a header of their own, and sections are
joined from separate buffers. What is left in the end is the same for all of them: a header word that
counts the words of the instruction, and its operands. -/
namespace ShaderIR

variable {out : Encoder} {m : ShaderModule} {d : Draft}

namespace Encoder

theorem toList_text (out : Encoder) (text : String) :
    (out.text text).words.toList = out.words.toList ++ textWords text := by
  have loop : ∀ (indices : List Nat) (out : Encoder),
      (indices.foldl (fun out index => out.push (Word.ofChunk text.toUTF8.data index))
        out).words.toList = out.words.toList ++ indices.map (Word.ofChunk text.toUTF8.data) := by
    intro indices
    induction indices with
    | nil => simp
    | cons index rest ih =>
      intro out
      rw [List.foldl_cons, ih]
      simp [push]
  exact loop _ out

/-- The length is filled in where the opcode was written, and what follows is left alone. -/
theorem toList_finish {before operands : List Word} {opcode : Word}
    (narrow : opcode &&& 0xffff = opcode)
    (written : out.words.toList = before ++ opcode :: operands) :
    (out.finish before.length).words.toList =
      before ++ header (operands.length + 1) opcode :: operands := by
  have size : out.words.size - before.length = operands.length + 1 := by
    rw [← Array.length_toList, written, List.length_append, List.length_cons, Nat.add_sub_cancel_left]
  have found : out.words[before.length]? = some opcode := by
    rw [← Array.getElem?_toList, written, List.getElem?_append_right (Nat.le_refl _), Nat.sub_self]
    rfl
  rw [finish, size, found, Option.getD_some, narrow, patch, Array.toList_setIfInBounds, written,
    List.set_append_right _ _ (Nat.le_refl _), Nat.sub_self, List.set_cons_zero]

end Encoder

namespace Instruction

def header (i : Instruction) : Word := Encoder.header i.wordCount i.opcode

def words (i : Instruction) : List Word := i.header :: i.operands

theorem toList_write (out : Encoder) (i : Instruction) :
    (i.write out).words.toList = out.words.toList ++ i.words := by
  cases i with
  | importSet result name =>
    exact Encoder.toList_finish (show (11 : Word) &&& 0xffff = 11 from rfl)
      (by simp [Encoder.toList_text, Encoder.start, Encoder.extend, Encoder.push, operands, opcode])
  | entryPoint stage function name interface =>
    exact Encoder.toList_finish (show (15 : Word) &&& 0xffff = 15 from rfl)
      (by simp [Encoder.toList_text, Encoder.start, Encoder.extend, Encoder.push, operands, opcode])
  | typeDecl result form =>
    cases form <;>
      simp [write, words, header, wordCount, operands, opcode, Encoder.instruction,
        Encoder.extend, Encoder.push, TypeForm.operands, TypeForm.opcode]
  | _ => simp [write, words, header, wordCount, Encoder.instruction, Encoder.extend, Encoder.push]

end Instruction

theorem Encoder.toList_writeAll (out : Encoder) (code : List Instruction) :
    (out.writeAll code).words.toList = out.words.toList ++ code.flatMap Instruction.words := by
  induction code generalizing out with
  | nil => simp [writeAll]
  | cons i rest ih =>
    have rest := ih (i.write out)
    rw [Instruction.toList_write, List.append_assoc] at rest
    exact rest

/-- The header of a module, once the bound of its ids is filled in. -/
def Settings.headerWith (s : Settings) (bound : Id) : List Word := s.header.set 3 (.ofId bound)

theorem Emission.toList_encode (e : Emission) (ids : EntryIds) (interface : List Id) :
    (e.encode d ids interface).words.toList = d.settings.headerWith e.nextId ++
      (e.instructions d ids interface).flatMap Instruction.words := by
  simp only [encode, instructions, Encoder.patch, Encoder.append, Encoder.extend,
    Array.toList_setIfInBounds, Array.toList_append, Encoder.toList_writeAll, List.flatMap_append,
    List.nil_append, List.append_assoc]
  rfl

theorem Draft.result_eq_ok (compiled : d.compilation.result = .ok m) : ∃ e, d.assemble = .ok m e := by
  unfold compilation at compiled
  cases run : d.assemble with
  | ok m' e =>
    rw [run] at compiled
    obtain rfl := Except.ok.inj compiled
    exact ⟨e, rfl⟩
  | error fault e =>
    rw [run] at compiled
    contradiction

/-- The writers leave the header and then the instructions of a module, one after the other. -/
theorem Draft.words_eq (compiled : d.compilation.result = .ok m) :
    m.words = d.settings.headerWith m.bound ++ m.instructions.flatMap Instruction.words := by
  obtain ⟨e, run⟩ := result_eq_ok compiled
  obtain ⟨ids, interface, _, put, bound, words⟩ := assemble_eq_ok run
  rw [words, Emission.toList_encode, put, bound]

end ShaderIR
