import ShaderIR.Graph.Basic

/-! Releasing references. Dropping the last reference of a node frees it and releases each of its
operands in turn. -/
namespace ShaderIR.Graph

/-- The number of operand positions of all live nodes. It bounds how many further releases one
release can cause. -/
def operandCount (g : Graph) : Nat :=
  g.slots.toList.foldl
    (fun count node? => count + (node?.map fun node => node.operands.length).getD 0) 0

/-- Drops one reference for each handle of the work list, first come first served. A node without
another reference is freed and its operands go to the front of the list. A stale handle stops the
work; what was dropped before it stays dropped. -/
def releaseAll : Nat → List Handle → Graph → EStateM.Result Fault Graph Unit
  | _, [], g => .ok () g
  | 0, _ :: _, g => .error .cyclicValue g
  | steps + 1, h :: work, g =>
      match g.find? h with
      | none => .error (.staleValue h.slot) g
      | some node =>
          if 1 < node.refs then
            releaseAll steps work (g.setSlot h.slot (some { node with refs := node.refs - 1 }))
          else
            releaseAll steps (g.operandsAt h.slot ++ work) (g.erase h.slot)

def release (g : Graph) (h : Handle) : EStateM.Result Fault Graph Unit :=
  releaseAll (g.operandCount + 1) [h] g

end ShaderIR.Graph
