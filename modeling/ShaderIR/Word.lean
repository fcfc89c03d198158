/-! Machine words of the binary module format: their bytes, low byte first, and texts in words. -/
namespace ShaderIR

abbrev Word := UInt32

/-- Names the result of one instruction. Ids are handed out in increasing order from 1. -/
abbrev Id := Nat

namespace Word

/-- The four bytes of a word, low byte first. -/
def bytes (w : Word) : List UInt8 :=
  [w.toUInt8, (w >>> 8).toUInt8, (w >>> 16).toUInt8, (w >>> 24).toUInt8]

/-- The word of a text at an index: the next four bytes, with zeros behind the end of the text. -/
def ofChunk (text : Array UInt8) (index : Nat) : Word :=
  (List.range 4).foldl
    (fun word byte => text[index * 4 + byte]?.elim word fun value =>
      word ||| (value.toUInt32 <<< UInt32.ofNat (byte * 8)))
    0

end Word

/-- How many words a text and the zero byte that ends it need. -/
def textWordCount (text : String) : Nat :=
  (text.utf8ByteSize + 4) / 4

def textWords (text : String) : List Word :=
  (List.range (textWordCount text)).map (Word.ofChunk text.toUTF8.data)

def wordBytes (words : List Word) : List UInt8 :=
  words.flatMap Word.bytes

end ShaderIR
