import ShaderIR.Word

/-! Buffers that words are written to. An instruction is a header word, which holds its word count in
the high and its opcode in the low 16 bits, followed by its operand words. -/
namespace ShaderIR

structure Encoder where
  words : Array Word := #[]

namespace Encoder

def push (out : Encoder) (word : Word) : Encoder := { words := out.words.push word }

def extend (out : Encoder) (words : List Word) : Encoder := { words := out.words ++ words }

def append (out other : Encoder) : Encoder := { words := out.words ++ other.words }

/-- Overwrites a word that is already written. -/
def patch (out : Encoder) (index : Nat) (word : Word) : Encoder :=
  { words := out.words.setIfInBounds index word }

def text (out : Encoder) (text : String) : Encoder :=
  (List.range (textWordCount text)).foldl
    (fun out index => out.push (Word.ofChunk text.toUTF8.data index)) out

def header (count : Nat) (opcode : Word) : Word := (UInt32.ofNat count <<< 16) ||| opcode

def instruction (out : Encoder) (opcode : Word) (operands : List Word) : Encoder :=
  (out.push (header (operands.length + 1) opcode)).extend operands

/-- Starts an instruction whose length is not known yet, and gives the place of its header. -/
def start (out : Encoder) (opcode : Word) : Encoder × Nat := (out.push opcode, out.words.size)

/-- Fills in the length of an instruction that ends here. -/
def finish (out : Encoder) (start : Nat) : Encoder :=
  out.patch start
    (header (out.words.size - start) ((out.words[start]?.getD 0) &&& 0xffff))

end Encoder

end ShaderIR
