import ShaderIR.Instruction.Encoding

/-! A complete module: its instructions, and the words that were written for them. -/
namespace ShaderIR

structure ShaderModule where
  /-- One past the highest id. -/
  bound : Id
  instructions : List Instruction
  words : List Word
deriving DecidableEq, Repr, Inhabited

namespace ShaderModule

/-- The first word of every module. -/
def magic : Word := 0x07230203

/-- The module as bytes, each word low byte first. -/
def bytes (m : ShaderModule) : List UInt8 :=
  wordBytes m.words

end ShaderModule

end ShaderIR
