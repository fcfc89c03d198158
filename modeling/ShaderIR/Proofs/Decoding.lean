import Mathlib.Algebra.GroupWithZero.Nat
import ShaderIR.Proofs.Session
import ShaderIR.Proofs.WordStream

/-! Reading the binary form of a module back. The reader knows only that a word has four bytes and
that the high half of a header word counts the words of its instruction; it refuses a count of zero
and a stream that ends inside an instruction. -/
namespace ShaderIR

variable {n : Nat} {w : Word}

namespace Word

def ofBytes (a b c d : UInt8) : Word :=
  a.toUInt32 ||| (b.toUInt32 <<< 8) ||| (c.toUInt32 <<< 16) ||| (d.toUInt32 <<< 24)

/-- The words of a sequence of bytes, low byte first. Bytes that do not fill a word are refused. -/
def ofStream : List UInt8 → Option (List Word)
  | a :: b :: c :: d :: rest => (ofStream rest).map (ofBytes a b c d :: ·)
  | [] => some []
  | _ => none

def count (w : Word) : Nat := (w >>> 16).toNat

def opcode (w : Word) : Word := w &&& 0xffff

def decode (words : List Word) : Option (List (Word × List Word)) :=
  match words with
  | [] => some []
  | head :: rest =>
      if head.count = 0 ∨ rest.length < head.count - 1 then none
      else
        (decode (rest.drop (head.count - 1))).map
          ((head.opcode, rest.take (head.count - 1)) :: ·)
termination_by words.length
decreasing_by
  rw [List.length_drop, List.length_cons]
  omega

/-! Bytes. -/

/-- A word that is put together from two parts that do not overlap. -/
theorem toNat_or_shiftLeft {low high : Word} (amount : n < 32) (fits : low.toNat < 2 ^ n)
    (room : high.toNat * 2 ^ n < UInt32.size) :
    (low ||| (high <<< UInt32.ofNat n)).toNat = high.toNat * 2 ^ n + low.toNat := by
  have shift : (UInt32.ofNat n).toNat % 32 = n := by
    rw [UInt32.toNat_ofNat_of_lt' (Nat.lt_trans amount (by decide)), Nat.mod_eq_of_lt amount]
  rw [UInt32.toNat_or, UInt32.toNat_shiftLeft, shift, Nat.shiftLeft_eq, Nat.mod_eq_of_lt room,
    Nat.or_comm, ← Nat.shiftLeft_eq, Nat.shiftLeft_add_eq_or_of_lt fits]

theorem toNat_shiftRight (amount : n < 32) : (w >>> UInt32.ofNat n).toNat = w.toNat / 2 ^ n := by
  rw [UInt32.toNat_shiftRight, UInt32.toNat_ofNat_of_lt' (Nat.lt_trans amount (by decide)),
    Nat.mod_eq_of_lt amount, Nat.shiftRight_eq_div_pow]

theorem toNat_ofBytes (a b c d : UInt8) :
    (ofBytes a b c d).toNat = d.toNat * 2 ^ 24 + (c.toNat * 2 ^ 16 + (b.toNat * 2 ^ 8 + a.toNat)) := by
  have byte : ∀ x : UInt8, x.toUInt32.toNat < 2 ^ 8 := UInt8.toNat_lt
  have size : UInt32.size = 2 ^ 32 := rfl
  have bytes := And.intro (And.intro (byte a) (byte b)) (And.intro (byte c) (byte d))
  have two : (a.toUInt32 ||| (b.toUInt32 <<< 8)).toNat = _ :=
    toNat_or_shiftLeft (n := 8) (by decide) (by omega) (by omega)
  have three : (a.toUInt32 ||| (b.toUInt32 <<< 8) ||| (c.toUInt32 <<< 16)).toNat = _ :=
    toNat_or_shiftLeft (n := 16) (by decide) (by omega) (by omega)
  have four : (ofBytes a b c d).toNat = _ :=
    toNat_or_shiftLeft (n := 24) (by decide) (by omega) (by omega)
  rw [four, three, two]
  rfl

theorem toNat_byte (amount : n < 32) :
    (w >>> UInt32.ofNat n).toUInt8.toNat = w.toNat / 2 ^ n % 2 ^ 8 := by
  rw [UInt32.toNat_toUInt8, toNat_shiftRight amount]

theorem ofBytes_bytes (w : Word) :
    ofBytes w.toUInt8 (w >>> 8).toUInt8 (w >>> 16).toUInt8 (w >>> 24).toUInt8 = w := by
  have second : (w >>> 8).toUInt8.toNat = _ := toNat_byte (n := 8) (by decide)
  have third : (w >>> 16).toUInt8.toNat = _ := toNat_byte (n := 16) (by decide)
  have fourth : (w >>> 24).toUInt8.toNat = _ := toNat_byte (n := 24) (by decide)
  have bound := w.toNat_lt
  apply UInt32.toNat.inj
  rw [toNat_ofBytes, second, third, fourth, UInt32.toNat_toUInt8]
  omega

theorem ofStream_wordBytes (words : List Word) : ofStream (wordBytes words) = some words := by
  induction words with
  | nil => rfl
  | cons w rest ih =>
    show (ofStream (wordBytes rest)).map _ = _
    rw [ih, ofBytes_bytes]
    rfl

end Word

/-! Instructions. -/

namespace Instruction

theorem opcode_lt (i : Instruction) : i.opcode.toNat < 2 ^ 16 := by
  cases i with
  | typeDecl result form => cases form <;> exact of_decide_eq_true rfl
  | compute operation => cases operation <;> exact of_decide_eq_true rfl
  | _ => exact of_decide_eq_true rfl

variable {i : Instruction} (short : i.wordCount ≤ 65535)

include short

theorem toNat_header : i.header.toNat = i.wordCount * 2 ^ 16 + i.opcode.toNat := by
  have size : UInt32.size = 2 ^ 32 := rfl
  have count : (UInt32.ofNat i.wordCount).toNat = i.wordCount :=
    UInt32.toNat_ofNat_of_lt' (by omega)
  have parts : (i.opcode ||| (UInt32.ofNat i.wordCount <<< 16)).toNat = _ :=
    Word.toNat_or_shiftLeft (n := 16) (by decide) i.opcode_lt (by omega)
  rw [header, Encoder.header, UInt32.or_comm, parts, count]

theorem count_header : i.header.count = i.wordCount := by
  have low := i.opcode_lt
  have high : i.header.count = _ := Word.toNat_shiftRight (n := 16) (by decide)
  rw [high, toNat_header short]
  omega

theorem opcode_header : i.header.opcode = i.opcode := by
  have low := i.opcode_lt
  have masked : (i.header &&& 0xffff).toNat = i.header.toNat % 2 ^ 16 := by
    rw [UInt32.toNat_and]
    exact Nat.and_two_pow_sub_one_eq_mod _ 16
  apply UInt32.toNat.inj
  rw [Word.opcode, masked, toNat_header short]
  omega

/-- The first instruction of a sequence of words is read as it was written, and the reader goes on
right behind it. -/
theorem decode_words_append (rest : List Word) :
    Word.decode (i.words ++ rest) = (Word.decode rest).map ((i.opcode, i.operands) :: ·) := by
  rw [words, List.cons_append, Word.decode, count_header short, opcode_header short, wordCount,
    Nat.add_sub_cancel, List.drop_left, List.take_left, if_neg (by simp)]

end Instruction

theorem decode_flatMap_words {code : List Instruction} (short : ∀ i ∈ code, i.wordCount ≤ 65535) :
    Word.decode (code.flatMap Instruction.words) =
      some (code.map fun i => (i.opcode, i.operands)) := by
  induction code with
  | nil => rw [List.flatMap_nil, Word.decode, List.map_nil]
  | cons i rest ih =>
    rw [List.flatMap_cons, Instruction.decode_words_append (short i List.mem_cons_self),
      ih fun j member => short j (List.mem_cons_of_mem i member)]
    rfl

namespace Draft

/-- However a draft was built, the bytes of its module are the bytes of the words, and these are what
the writers left: sections from separate buffers, behind a header whose bound is filled in last. From the
sixth word on they are read back as the instructions that were written, with nothing left over: also
the import and the entry point, whose lengths are filled in after their texts. -/
theorem compiled_bytes_decode {d : Draft} {m : ShaderModule}
    (compiled : d.compilation.result = .ok m)
    (short : ∀ i ∈ m.instructions, i.wordCount ≤ 65535) :
    Word.ofStream m.bytes = some m.words ∧
      Word.decode (m.words.drop 5) = some (m.instructions.map fun i => (i.opcode, i.operands)) ∧
      ∃ e ids interface, d.assemble = .ok m e ∧
        m.words = (e.encode d ids interface).words.toList ∧
        m.instructions = e.instructions d ids interface ∧
        .importSet ids.glsl "GLSL.std.450" ∈ m.instructions ∧
        .entryPoint d.settings.stage ids.function d.settings.entryPoint interface ∈
          m.instructions := by
  obtain ⟨e, run⟩ := result_eq_ok compiled
  obtain ⟨ids, interface, _, put, _, written⟩ := assemble_eq_ok run
  refine ⟨Word.ofStream_wordBytes m.words, ?_, e, ids, interface, run, written, put, ?_, ?_⟩
  · rw [words_eq compiled]
    exact decode_flatMap_words short
  · simp [put, Emission.instructions]
  · simp [put, Emission.instructions]

/-- A program on a draft that was compiled before, with an interface of two variables. -/
def outputsSum : List Call :=
  [.compile, .binary .add ⟨0, 1⟩ ⟨0, 1⟩, .output ⟨1, 2⟩]

theorem outputsSum_decodes :
    withInputs { stage := .vertex } [.single] = .ok () (vertex [.single]) ∧
      ∃ m : ShaderModule, ((vertex [.single]).after outputsSum).compilation.result = .ok m ∧
        (∀ i ∈ m.instructions, i.wordCount ≤ 65535) ∧
        Word.ofStream m.bytes = some m.words ∧
        Word.decode (m.words.drop 5) =
          some (m.instructions.map fun i => (i.opcode, i.operands)) := by
  obtain ⟨m, compiled, short⟩ : ∃ m, ((vertex [.single]).after
      outputsSum).compilation.result = .ok m ∧ ∀ i ∈ m.instructions, i.wordCount ≤ 65535 :=
    exists_of_any (by decide +kernel)
  obtain ⟨bytes, words, _⟩ := compiled_bytes_decode compiled short
  exact ⟨withInputs_eq _ _, m, compiled, short, bytes, words⟩

end Draft

end ShaderIR
