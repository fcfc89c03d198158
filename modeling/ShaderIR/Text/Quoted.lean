import ShaderIR.Text.Visible

/-! Quoted text: what cannot stand for itself between quotes is written with a backslash. -/
namespace ShaderIR.Text

/-- Whether a character stands for itself: it can be seen, and is not a mark on the one before it. -/
def isPlain (c : Char) : Bool :=
  !invisible.has c.toNat && !ignorable.has c.toNat && !extending.has c.toNat

def quoteChar (c : Char) : List Char :=
  if c = '"' then ['\\', '"']
  else if c = '\\' then ['\\', '\\']
  else if c = '\n' then ['\\', 'n']
  else if c = '\r' then ['\\', 'r']
  else if c = '\t' then ['\\', 't']
  else if c.toNat = 0 then ['\\', '0']
  else if isPlain c then [c]
  else ['\\', 'u', '\x7b'] ++ Nat.toDigits 16 c.toNat ++ ['\x7d']

def quote (text : String) : String :=
  String.ofList (['"'] ++ text.toList.flatMap quoteChar ++ ['"'])

end ShaderIR.Text
