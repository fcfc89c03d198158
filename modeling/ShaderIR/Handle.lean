import ShaderIR.Word

/-! Handles that a draft gives out, and the points of a program they were made at. -/
namespace ShaderIR

/-- Names a node of an expression graph. Slots are used again after a release; serials never are,
so a handle cannot come to mean another node. -/
structure Handle where
  slot : Nat
  serial : Nat
deriving DecidableEq, Repr, Inhabited

def Handle.compare (a b : Handle) : Ordering :=
  (Ord.compare a.slot b.slot).then (Ord.compare a.serial b.serial)

/-- Names a memory location: a variable, or a part of one. -/
structure Place where
  index : Nat
deriving DecidableEq, Repr, Inhabited

/-- A point of the program. A region is a branch or a loop body, named by the event that opens it;
no region means the entry block. -/
structure Position where
  /-- The index of the next event. -/
  event : Nat := 0
  region : Option Nat := none
deriving DecidableEq, Repr, Inhabited

end ShaderIR
