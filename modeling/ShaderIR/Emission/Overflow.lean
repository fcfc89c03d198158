import ShaderIR.Draft.Compile

/-! Compilations that check their arithmetic. A number that does not fit in a word wraps around. Where
arithmetic is checked, a compilation stops instead, at the first such number or at the first
instruction that is too long for its header; up to there it does the same. -/
namespace ShaderIR

def Word.checkedAdd (a b : Word) : Option Word :=
  if a.toNat + b.toNat < UInt32.size then some (a + b) else none

def Word.checkedMul (a b : Word) : Option Word :=
  if a.toNat * b.toNat < UInt32.size then some (a * b) else none

namespace Ty

mutual

/-- The size of a type, if no number on the way to it is too big. -/
def checkedSize : Ty → Option Word
  | .bool => some 4
  | .int width _ => some (width / 8)
  | .float width => some (width / 8)
  | .matrix component rows columns =>
      (rows.checkedMul columns).bind fun count => (checkedSize component).bind count.checkedMul
  | .array element length => (checkedSize element).bind length.checkedMul
  | .struct members => checkedSum 0 members
  | .void | .runtimeArray _ | .pointer _ _ | .image _ _ _ | .texture _ => some 0

/-- The offset behind members that are laid out from a given offset on. -/
def checkedSum (offset : Word) : List Ty → Option Word
  | [] => some offset
  | member :: rest =>
      (checkedSize member).bind fun size =>
        (offset.checkedAdd size).bind fun offset => checkedSum offset rest

end

/-- Whether the numbers fit that the layout of a type is annotated with. The columns of a member are
not farther apart than it is big. -/
def layoutFits : Ty → Bool
  | .struct members => (checkedSum 0 members).isSome
  | .array element _ | .runtimeArray element => (checkedSize element).isSome
  | _ => true

end Ty

def Instruction.isShort (i : Instruction) : Bool := decide (i.wordCount ≤ 65535)

/-- Whether a compilation got to its present state without a number that does not fit. -/
def Emission.fits (e : Emission) : Bool :=
  decide (e.nextId < UInt32.size) &&
    (e.types.lines.all fun line => !e.types.isDecorated line.1 || line.1.layoutFits) &&
    (e.annotations ++ e.declarations ++ e.locals ++ e.body).all Instruction.isShort

/-- What a compilation that checks its arithmetic comes to, or nothing if it stops. -/
def Draft.checkedResult (d : Draft) : Option (Except Fault ShaderModule) :=
  match d.assemble with
  | .ok m e => if e.fits && m.instructions.all Instruction.isShort then some (.ok m) else none
  | .error fault e => if e.fits then some (.error fault) else none

end ShaderIR
