import ShaderIR.Proofs.Grounded

/-! The ids in the words of a module. Which operand words are ids follows from the opcode alone; as
long as there are no more ids than words, two ids are the same word only if they are the same. -/
namespace ShaderIR

/-- Where the ids are among the operand words of an instruction: its result, if it has one, the ids
that it uses, and from where on it uses all. -/
structure IdOperands where
  result : Option Nat
  used : List Nat
  rest : Option Nat

namespace Word

def idOperands (opcode : Word) : IdOperands :=
  if opcode ∈ [14, 15, 16, 17, 56, 71, 72, 246, 247, 249, 253] then ⟨none, [], none⟩
  else if opcode ∈ [11, 19, 20, 21, 22, 248] then ⟨some 0, [], none⟩
  else if opcode ∈ [23, 24, 25] then ⟨some 0, [1], none⟩
  else if opcode ∈ [27, 28, 29, 30, 33] then ⟨some 0, [], some 1⟩
  else if opcode = 32 then ⟨some 0, [2], none⟩
  else if opcode ∈ [43, 59] then ⟨some 1, [0], none⟩
  else if opcode = 54 then ⟨some 1, [0, 3], none⟩
  else if opcode = 62 then ⟨none, [], some 0⟩
  else if opcode = 81 then ⟨some 1, [0, 2], none⟩
  else if opcode = 88 then ⟨some 1, [0, 2, 3, 5], none⟩
  else if opcode = 250 then ⟨none, [0], none⟩
  else ⟨some 1, [0], some 2⟩

def result? (opcode : Word) (operands : List Word) : Option Word :=
  opcode.idOperands.result.bind (operands[·]?)

def uses (opcode : Word) (operands : List Word) : List Word :=
  opcode.idOperands.used.filterMap (operands[·]?) ++
    opcode.idOperands.rest.elim [] operands.drop

end Word

namespace Instruction

theorem result?_words (i : Instruction) :
    Word.result? i.opcode i.operands = i.result?.map .ofId := by
  cases i with
  | typeDecl result form => cases form <;> rfl
  | compute operation => cases operation <;> rfl
  | _ => rfl

theorem uses_words (i : Instruction) : Word.uses i.opcode i.operands = i.uses.map .ofId := by
  cases i with
  | typeDecl result form => cases form <;> rfl
  | compute operation => cases operation <;> rfl
  | _ => rfl

end Instruction

/-- An id below a bound that a word can hold, up to one past the last word. -/
theorem Word.id_lt {id bound : Nat} (range : 1 ≤ id ∧ id ≤ bound - 1)
    (small : bound ≤ UInt32.size) : id < UInt32.size := by
  omega

/-- The last id below a bound is one less than the word of the bound, also if that is zero. -/
theorem Word.ofId_range {id bound : Nat} (positive : 1 ≤ id) (below : id ≤ bound - 1)
    (small : bound ≤ UInt32.size) : 1 ≤ Word.ofId id ∧ Word.ofId id ≤ .ofId bound - 1 := by
  have last : Word.ofId bound - 1 = .ofId (bound - 1) := by
    obtain ⟨n, rfl⟩ : ∃ n, bound = n + 1 := ⟨bound - 1, by omega⟩
    rw [ofId, UInt32.ofNat_add, Nat.add_sub_cancel]
    exact UInt32.add_sub_cancel _ _
  rw [last, UInt32.le_iff_toNat_le, UInt32.le_iff_toNat_le, ofId, ofId,
    UInt32.toNat_ofNat_of_lt' (by omega), UInt32.toNat_ofNat_of_lt' (by omega)]
  exact ⟨positive, below⟩

namespace Draft

/-- In a module every id gets its meaning from one instruction and lies below the bound in the
header. Every id that an instruction uses got its meaning before, and every id that it refers to, as
a target of a branch, a merge or a decoration or in the entry point and its modes, gets one in the
module. All of this is also true of the ids as they stand in the words, as long as there are no more
ids than words. -/
theorem ids_meant_once_before_use (settings : Settings) (slots : List Ty) {first : Draft}
    (begun : withInputs settings slots = .ok () first) {program : List Call}
    (building : ∀ c ∈ program, c.restarts = false) {m : ShaderModule}
    (compiled : (first.after program).compilation.result = .ok m) :
    (m.instructions.filterMap Instruction.result?).Nodup ∧
      m.words[3]? = some (.ofId m.bound) ∧
      m.words.drop 5 = m.instructions.flatMap Instruction.words ∧
      (∀ i ∈ m.instructions, ∀ id, i.result? = some id → 1 ≤ id ∧ id ≤ m.bound - 1) ∧
      (m.bound ≤ UInt32.size →
        (m.instructions.filterMap fun i => Word.result? i.opcode i.operands).Nodup ∧
        ∀ i ∈ m.instructions, ∀ word, Word.result? i.opcode i.operands = some word →
          1 ≤ word ∧ word ≤ .ofId m.bound - 1) ∧
      ∀ before i after, m.instructions = before ++ i :: after →
        (∀ id ∈ i.uses, ∃ j ∈ before, j.result? = some id) ∧
        (∀ word ∈ Word.uses i.opcode i.operands,
          ∃ j ∈ before, Word.result? j.opcode j.operands = some word) ∧
        ∀ id ∈ i.refers, ∃ j ∈ m.instructions, j.result? = some id ∧
          Word.result? j.opcode j.operands = some (.ofId id) := by
  obtain rfl := eq_of_withInputs begun
  have proper := (proper_begun False settings slots).after building
  obtain ⟨e, _, ids, interface, _, parts, put, bound⟩ := proper.assemble_ok compiled
  have tidy := parts.tidy proper.toSteady
  have numbered := parts.numbered proper
  have results : (m.instructions.filterMap Instruction.result?).Perm (ids.reserved ++ e.defined) := by
    rw [put]
    exact (parts.sections proper.sound).results
  have distinct := results.nodup_iff.mpr numbered.distinct
  have range : ∀ i ∈ m.instructions, ∀ id, i.result? = some id → 1 ≤ id ∧ id ≤ m.bound - 1 := by
    intro i member id result
    have defined := results.mem_iff.mp (List.mem_filterMap.mpr ⟨i, member, result⟩)
    have within := (numbered.sources id defined).positive proper.owned tidy
    rw [bound]
    exact ⟨within.1, Nat.le_sub_one_of_lt within.2⟩
  have words := words_eq compiled
  refine ⟨distinct, by rw [words]; rfl, by rw [words]; rfl, range, fun small => ⟨?_, ?_⟩, ?_⟩
  · simp only [Instruction.result?_words, ← List.map_filterMap]
    refine distinct.map_on fun id member id' member' same => ?_
    obtain ⟨i, inside, result⟩ := List.mem_filterMap.mp member
    obtain ⟨i', inside', result'⟩ := List.mem_filterMap.mp member'
    exact Word.ofId_inj (Word.id_lt (range i inside id result) small)
      (Word.id_lt (range i' inside' id' result') small) same
  · intro i member word result
    rw [Instruction.result?_words, Option.map_eq_some_iff] at result
    obtain ⟨id, result, rfl⟩ := result
    obtain ⟨positive, below⟩ := range i member id result
    exact Word.ofId_range positive below small
  · intro before i after split
    have uses : ∀ id ∈ i.uses, ∃ j ∈ before, j.result? = some id := fun id used =>
      ((parts.ordered proper).before (put.symm.trans split) used).resolve_left False.elim
    refine ⟨uses, fun word used => ?_, fun id refers => ?_⟩
    · rw [Instruction.uses_words, List.mem_map] at used
      obtain ⟨id, used, rfl⟩ := used
      obtain ⟨j, earlier, result⟩ := uses id used
      exact ⟨j, earlier, by rw [Instruction.result?_words, result]; rfl⟩
    · have member : i ∈ m.instructions := by simp [split]
      rw [put] at member
      have defined := parts.refers proper member id refers
      obtain ⟨j, inModule, result⟩ := List.mem_filterMap.mp (results.mem_iff.mpr defined)
      exact ⟨j, inModule, result, by rw [Instruction.result?_words, result]; rfl⟩

theorem leavesLoop_ids :
    withInputs { stage := .vertex } [.single] = .ok () (vertex [.single]) ∧
      (∀ c ∈ leavesLoop ++ [.load ⟨1⟩, .release ⟨8, 8⟩], c.restarts = false) ∧
      ∃ m : ShaderModule,
        ((vertex [.single]).after
          (leavesLoop ++ [.load ⟨1⟩, .release ⟨8, 8⟩])).compilation.result = .ok m ∧
        m.bound ≤ UInt32.size ∧
        (m.instructions.filterMap fun i => Word.result? i.opcode i.operands).Nodup ∧
        ∀ before i after, m.instructions = before ++ i :: after →
          ∀ word ∈ Word.uses i.opcode i.operands,
            ∃ j ∈ before, Word.result? j.opcode j.operands = some word := by
  have building : ∀ c ∈ leavesLoop ++ [.load ⟨1⟩, .release ⟨8, 8⟩], c.restarts = false := by decide
  obtain ⟨m, compiled, small⟩ : ∃ m, ((vertex [.single]).after
      (leavesLoop ++ [.load ⟨1⟩, .release ⟨8, 8⟩])).compilation.result = .ok m ∧
        m.bound ≤ UInt32.size :=
    exists_of_any (by decide +kernel)
  obtain ⟨_, _, _, _, words, placed⟩ :=
    ids_meant_once_before_use { stage := .vertex } [.single] (withInputs_eq _ _) building compiled
  exact ⟨withInputs_eq _ _, building, m, compiled, small, (words small).1,
    fun before i after split => (placed before i after split).2.1⟩

end Draft

end ShaderIR
