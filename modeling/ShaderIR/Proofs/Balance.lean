import Mathlib.Data.List.Perm.Basic
import ShaderIR.Proofs.Graph

/-! References are counted exactly. The count of a node is the number of references that are held on it
and of operand positions that it fills, so that a node is freed only when nothing needs it, and
dropping a reference that is held always succeeds. -/
namespace ShaderIR.Graph

variable {h : Handle} {n : Node} {g : Graph}

def slotOperands (content : Option Node) : List Handle := (content.map Node.operands).getD []

def operandList (g : Graph) : List Handle := g.slots.toList.flatMap slotOperands

/-- Every reference is accounted for by one that is held or by an operand position. -/
structure Balanced (g : Graph) (held : List Handle) : Prop where
  valid : g.Valid
  live : ∀ h ∈ held, (g.find? h).isSome
  operands : ∀ h ∈ g.operandList, (g.find? h).isSome
  refs : ∀ h n, g.find? h = some n → n.refs = held.count h + g.operandList.count h

theorem operandCount_eq (g : Graph) : g.operandCount = g.operandList.length := by
  have sums : ∀ (contents : List (Option Node)) (count : Nat),
      contents.foldl
        (fun count node? => count + (node?.map fun node => node.operands.length).getD 0) count =
          count + (contents.flatMap slotOperands).length := by
    intro contents
    induction contents with
    | nil => simp
    | cons content rest ih =>
      intro count
      rw [List.foldl_cons, ih, List.flatMap_cons, List.length_append]
      cases content with
      | none => simp [slotOperands]
      | some node =>
        simp only [slotOperands, Option.map_some, Option.getD_some]
        omega
  rw [operandCount, sums, operandList, Nat.zero_add]

theorem mem_operandList {o : Handle} (found : g.find? h = some n) (member : o ∈ n.operands) :
    o ∈ g.operandList := by
  obtain ⟨stored, _⟩ := find?_eq_some.mp found
  have listed : some n ∈ g.slots.toList := Array.mem_toList_iff.mpr (Array.mem_of_getElem? stored)
  exact List.mem_flatMap.mpr ⟨some n, listed, member⟩

theorem operandList_setSlot {slot : Nat} {old : Option Node} (stored : g.slots[slot]? = some old)
    (new : Option Node) :
    (slotOperands old ++ (g.setSlot slot new).operandList).Perm
      (slotOperands new ++ g.operandList) := by
  obtain ⟨bound, eq⟩ := Array.getElem?_eq_some_iff.mp stored
  have within : slot < g.slots.toList.length := by simpa using bound
  have before : g.operandList = (g.slots.toList.take slot).flatMap slotOperands ++
      (slotOperands old ++ (g.slots.toList.drop (slot + 1)).flatMap slotOperands) := by
    rw [← List.flatMap_cons, ← List.flatMap_append, ← eq, ← Array.getElem_toList,
      List.getElem_cons_drop, List.take_append_drop, operandList]
  have after : (g.setSlot slot new).operandList =
      (g.slots.toList.take slot).flatMap slotOperands ++
        (slotOperands new ++ (g.slots.toList.drop (slot + 1)).flatMap slotOperands) := by
    rw [operandList, setSlot, Array.toList_setIfInBounds, List.set_eq_take_append_cons_drop,
      if_pos within, List.flatMap_append, List.flatMap_cons]
  rw [before, after]
  apply List.perm_iff_count.mpr
  intro h
  simp only [List.count_append]
  omega

theorem operandList_setSlot_refs (found : g.find? h = some n) (refs : Nat) :
    (g.setSlot h.slot (some { n with refs })).operandList.Perm g.operandList := by
  have changed := operandList_setSlot (find?_eq_some.mp found).1 (some { n with refs })
  exact (List.perm_append_left_iff _).mp changed

theorem operandList_addRef (g : Graph) (target : Handle) :
    (g.addRef target).operandList.Perm g.operandList := by
  unfold addRef
  split
  · exact operandList_setSlot_refs ‹_› _
  · exact .refl _

theorem operandList_foldl_addRef (g : Graph) (targets : List Handle) :
    (targets.foldl addRef g).operandList.Perm g.operandList := by
  induction targets generalizing g with
  | nil => exact .refl _
  | cons target rest ih => exact (ih _).trans (operandList_addRef g target)

theorem operandList_place (valid : g.Valid) (node : Node) :
    (g.place node).1.operandList.Perm (node.operands ++ g.operandList) := by
  unfold place
  cases free : g.free with
  | nil =>
    apply List.perm_iff_count.mpr
    intro h
    simp only [operandList, Array.toList_push, List.flatMap_append, List.flatMap_singleton,
      List.count_append, slotOperands, Option.map_some, Option.getD_some]
    omega
  | cons slot rest => exact operandList_setSlot (valid.empty slot (by simp [free])) (some node)

theorem operandList_added (valid : g.Valid) (node : Node) :
    (g.added node).operandList.Perm (node.operands ++ g.operandList) :=
  (operandList_foldl_addRef _ _).trans (operandList_place valid.later _)

theorem operandList_erase (found : g.find? h = some n) :
    (n.operands ++ (g.erase h.slot).operandList).Perm g.operandList :=
  operandList_setSlot (find?_eq_some.mp found).1 none

theorem find?_erase_of_ne {k : Handle} {m : Node} (found : g.find? h = some n)
    (kept : g.find? k = some m) (other : k ≠ h) : (g.erase h.slot).find? k = some m := by
  have slot : k.slot ≠ h.slot := fun same => other (handle_unique kept found same).1
  exact (find?_setSlot_of_ne g none slot).trans kept

theorem erase_dead (found : g.find? h = some n) : (g.erase h.slot).find? h = none := by
  obtain ⟨stored, _⟩ := find?_eq_some.mp found
  have bound := (Array.getElem?_eq_some_iff.mp stored).1
  simp [find?, erase, setSlot, bound]

section Balanced

variable {held : List Handle}

theorem Balanced.perm {held' : List Handle} (balanced : g.Balanced held) (same : held.Perm held') :
    g.Balanced held' where
  valid := balanced.valid
  live h member := balanced.live h (same.mem_iff.mpr member)
  operands := balanced.operands
  refs h n found := by rw [balanced.refs h n found, same.count_eq]

/-- A node whose operands were all kept has them as its arguments. -/
theorem Balanced.arguments (balanced : g.Balanced held) (found : g.find? h = some n) :
    g.arguments n = n.operands :=
  List.filter_eq_self.mpr fun _ member => balanced.operands _ (mem_operandList found member)

theorem Balanced.operandsAt (balanced : g.Balanced held) (found : g.find? h = some n) :
    g.operandsAt h.slot = n.operands := by
  rw [balanced.valid.operandsAt_eq found, balanced.arguments found]

theorem balanced_empty (serial : Nat) : ({ nextSerial := serial } : Graph).Balanced [] where
  valid := valid_empty serial
  live := by simp
  operands := by simp [operandList]
  refs h n found := by simp [find?] at found

theorem Balanced.addRef (balanced : g.Balanced held) {target : Handle}
    (live : (g.find? target).isSome) : (g.addRef target).Balanced (target :: held) := by
  have kept : ∀ h, ((g.addRef target).find? h).isSome = (g.find? h).isSome := by
    intro h
    rw [find?_addRef, Option.isSome_map]
  refine ⟨balanced.valid.addRef target, fun h member => ?_, fun h member => ?_,
    fun h n found => ?_⟩
  · rw [kept]
    rcases List.mem_cons.mp member with rfl | before
    · exact live
    · exact balanced.live h before
  · rw [kept]
    exact balanced.operands h ((operandList_addRef g target).mem_iff.mp member)
  · rw [find?_addRef] at found
    obtain ⟨before, known, rfl⟩ := Option.map_eq_some_iff.mp found
    rw [(operandList_addRef g target).count_eq, List.count_cons, balanced.refs h before known]
    simp only [beq_iff_eq]
    omega

theorem Balanced.added (balanced : g.Balanced held) {node : Node}
    (live : ∀ o ∈ node.operands, (g.find? o).isSome) : (g.added node).Balanced held := by
  have valid := balanced.valid
  have kept : ∀ h, (g.find? h).isSome → ((g.added node).find? h).isSome := by
    intro h known
    rw [valid.find?_added node live]
    split
    · rfl
    · rw [Option.isSome_map]
      exact known
  have operands := operandList_added valid node
  refine ⟨valid.added node live, fun h member => kept h (balanced.live h member),
    fun h member => ?_, fun h n found => ?_⟩
  · rcases List.mem_append.mp (operands.mem_iff.mp member) with new | before
    · exact kept h (live h new)
    · exact kept h (balanced.operands h before)
  · rw [valid.find?_added node live] at found
    rw [operands.count_eq, List.count_append]
    split at found
    · -- The new node fills no position yet, since its handle was not given out.
      rename_i new
      obtain rfl := Option.some.inj found
      have dead : g.find? h = none := valid.find?_nextSlot (congrArg Handle.slot new)
      have unused : ∀ list : List Handle, (∀ k ∈ list, (g.find? k).isSome) → list.count h = 0 := by
        intro list known
        apply List.count_eq_zero.mpr
        intro member
        simpa [dead] using known h member
      rw [unused held balanced.live, unused node.operands live, unused _ balanced.operands]
    · obtain ⟨before, known, rfl⟩ := Option.map_eq_some_iff.mp found
      rw [balanced.refs h before known]
      dsimp only
      omega

theorem Balanced.drop (balanced : g.Balanced (h :: held)) (found : g.find? h = some n) :
    (g.setSlot h.slot (some { n with refs := n.refs - 1 })).Balanced held := by
  have operands := operandList_setSlot_refs found (n.refs - 1)
  have kept : ∀ k, (g.find? k).isSome →
      ((g.setSlot h.slot (some { n with refs := n.refs - 1 })).find? k).isSome := by
    intro k known
    rw [find?_setSlot_refs found]
    split
    · rfl
    · exact known
  refine ⟨balanced.valid.setSlot_refs found _,
    fun k member => kept k (balanced.live k (List.mem_cons_of_mem h member)),
    fun k member => kept k (balanced.operands k (operands.mem_iff.mp member)), fun k m known => ?_⟩
  rw [find?_setSlot_refs found] at known
  rw [operands.count_eq]
  split at known
  · rename_i same
    subst same
    obtain rfl := Option.some.inj known
    rw [balanced.refs k n found, List.count_cons_self]
    dsimp only
    omega
  · rename_i other
    rw [balanced.refs k m known, List.count_cons_of_ne (Ne.symm other)]

/-- A node that nothing else needs is freed, and what it needed is held in its place. -/
theorem Balanced.erase {others : List Handle} (balanced : g.Balanced others)
    (found : g.find? h = some n) (unheld : held.count h = 0) (unused : g.operandList.count h = 0)
    (same : ∀ k, k ≠ h → others.count k = held.count k) :
    (g.erase h.slot).Balanced (n.operands ++ held) := by
  have operands := operandList_erase found
  have kept : ∀ k, k ≠ h → (g.find? k).isSome → ((g.erase h.slot).find? k).isSome := by
    intro k other known
    obtain ⟨m, known⟩ := Option.isSome_iff_exists.mp known
    rw [find?_erase_of_ne found known other]
    rfl
  have filled : ∀ k ∈ g.operandList, ((g.erase h.slot).find? k).isSome := by
    intro k member
    refine kept k ?_ (balanced.operands k member)
    rintro rfl
    exact List.count_eq_zero.mp unused member
  refine ⟨balanced.valid.erase found, fun k member => ?_, fun k member => ?_, fun k m known => ?_⟩
  · rcases List.mem_append.mp member with operand | member
    · exact filled k (mem_operandList found operand)
    · have other : k ≠ h := by
        rintro rfl
        exact List.count_eq_zero.mp unheld member
      refine kept k other (balanced.live k (List.count_pos_iff.mp ?_))
      rw [same k other]
      exact List.count_pos_iff.mpr member
  · exact filled k (operands.mem_iff.mp (List.mem_append_right _ member))
  · have other : k ≠ h := by
      rintro rfl
      rw [erase_dead found] at known
      contradiction
    rw [balanced.refs k m (find?_erase known), same k other, ← operands.count_eq, List.count_append,
      List.count_append]
    omega

/-- Dropping references that are held succeeds and leaves the others. -/
theorem Balanced.releaseAll {steps : Nat} {work : List Handle} {g : Graph}
    (balanced : g.Balanced (work ++ held)) (enough : work.length + g.operandList.length ≤ steps) :
    ∃ g', Graph.releaseAll steps work g = .ok () g' ∧ g'.Balanced held := by
  -- Each step takes one handle off the work list, and operands move to it from the graph.
  induction steps generalizing work g with
  | zero =>
    cases work with
    | nil => exact ⟨g, rfl, balanced⟩
    | cons h rest =>
      rw [List.length_cons] at enough
      omega
  | succ steps ih =>
    cases work with
    | nil => exact ⟨g, rfl, balanced⟩
    | cons h rest =>
      obtain ⟨n, found⟩ := Option.isSome_iff_exists.mp (balanced.live h (by simp))
      have counted := balanced.refs h n found
      rw [List.cons_append, List.count_cons_self] at counted
      rw [List.length_cons] at enough
      rw [Graph.releaseAll, found]
      dsimp only
      split
      · have operands := (operandList_setSlot_refs found (n.refs - 1)).length_eq
        apply ih (balanced.drop found)
        omega
      · have operands := (operandList_erase found).length_eq
        rw [List.length_append] at operands
        rw [balanced.operandsAt found]
        apply ih
        · rw [List.append_assoc]
          apply balanced.erase found
          · omega
          · omega
          · intro k other
            rw [List.cons_append, List.count_cons_of_ne (Ne.symm other)]
        · rw [List.length_append]
          omega

theorem Balanced.release (balanced : g.Balanced (h :: held)) :
    ∃ g', g.release h = .ok () g' ∧ g'.Balanced held := by
  apply Balanced.releaseAll balanced
  rw [operandCount_eq, List.length_singleton]
  omega

/-- Dropping a last reference, or freeing a node that has none: the node itself goes first. -/
theorem Balanced.release_last (balanced : g.Balanced held) (found : g.find? h = some n)
    (due : h ∈ held ∨ n.refs = 0) (last : n.refs ≤ 1) :
    (g.erase h.slot).Balanced (n.operands ++ held.erase h) ∧
      g.release h = Graph.releaseAll g.operandCount n.operands (g.erase h.slot) := by
  have counted := balanced.refs h n found
  have rest : (held.erase h).count h = held.count h - 1 := List.count_erase_self
  have holds : h ∈ held → 0 < held.count h := List.count_pos_iff.mpr
  refine ⟨balanced.erase found ?_ ?_ fun k other => (List.count_erase_of_ne other).symm, ?_⟩
  · omega
  · rcases due with member | none
    · have := holds member
      omega
    · omega
  · rw [Graph.release, Graph.releaseAll, found]
    dsimp only
    rw [if_neg (by omega), balanced.operandsAt found, List.append_nil]

theorem Balanced.release_unreferenced (balanced : g.Balanced held) (found : g.find? h = some n)
    (none : n.refs = 0) : ∃ g', g.release h = .ok () g' ∧ g'.Balanced held := by
  have counted := balanced.refs h n found
  have unheld : h ∉ held := List.count_eq_zero.mp (by omega)
  have operands := (operandList_erase found).length_eq
  rw [List.length_append] at operands
  obtain ⟨freed, first⟩ := balanced.release_last found (.inr none) (by omega)
  rw [List.erase_of_not_mem unheld] at freed
  rw [first]
  apply freed.releaseAll
  rw [operandCount_eq]
  omega

end Balanced

end ShaderIR.Graph
