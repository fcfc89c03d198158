import Mathlib.Data.List.Basic
import Mathlib.Data.List.Induction
import ShaderIR.Graph.Release

/-! What handles stand for while a graph changes. Adding a node or a reference leaves the nodes of
all other handles alone, and a release only ever takes nodes away. The edges into a node are those of
its operands that are still there. -/
namespace ShaderIR

namespace Edge

theorem insertByPosition_last {e : Edge} {edges : List Edge}
    (before : ∀ f ∈ edges, f.position < e.position) : e.insertByPosition edges = edges ++ [e] := by
  induction edges with
  | nil => rfl
  | cons first rest ih =>
    have smaller := before first (by simp)
    rw [insertByPosition, if_neg (Nat.not_le.mpr smaller),
      ih fun f member => before f (List.mem_cons_of_mem _ member), List.cons_append]

theorem sortByPosition_reverse {edges : List Edge}
    (ordered : edges.Pairwise fun e f => e.position < f.position) :
    sortByPosition edges.reverse = edges := by
  induction edges using List.reverseRecOn with
  | nil => rfl
  | append_singleton init last ih =>
    rw [List.pairwise_append] at ordered
    rw [List.reverse_append, List.reverse_singleton, List.singleton_append, sortByPosition,
      ih ordered.1, insertByPosition_last fun f member => ordered.2.2 f member last (by simp)]

end Edge

namespace Graph

variable {g g' g'' : Graph} {h target : Handle} {node : Node} {slot : Nat}

/-- The operands of a node that were not released since it was built. -/
def arguments (g : Graph) (node : Node) : List Handle := node.operands.filter g.contains

/-- One edge for each operand of a node that was not released, in the order of their positions. -/
def edgesInto (g : Graph) (slot : Nat) (node : Node) : List Edge :=
  (node.operands.zipIdx.filter fun o => g.contains o.1).map (Edge.ofOperand slot)

/-- Freed slots are empty and listed once, serials in use were given out, and all edges are those of
operands that are there. -/
structure Valid (g : Graph) : Prop where
  empty : ∀ slot ∈ g.free, g.slots[slot]? = some none
  nodup : g.free.Nodup
  serial : ∀ (slot : Nat) (node : Node), g.slots[slot]? = some (some node) →
    node.serial < g.nextSerial
  older : ∀ (slot : Nat) (node : Node), g.slots[slot]? = some (some node) →
    ∀ o ∈ node.operands, o.serial < g.nextSerial
  targets : ∀ e ∈ g.edges, ∃ node, g.slots[e.target]? = some (some node)
  wired : ∀ (slot : Nat) (node : Node), g.slots[slot]? = some (some node) →
    (g.edges.filter fun e => e.target == slot) = (g.edgesInto slot node).reverse

theorem valid_empty (serial : Nat) : ({ nextSerial := serial } : Graph).Valid := by
  constructor <;> simp

def nextSlot (g : Graph) : Nat := g.free.headD g.slots.size

def nextHandle (g : Graph) : Handle := { slot := g.nextSlot, serial := g.nextSerial }

/-- A graph with one more node, on whose operands no references are taken yet. -/
def wired (g : Graph) (node : Node) : Graph :=
  ({ g with nextSerial := g.nextSerial + 1 }.place
    { node with serial := g.nextSerial, refs := 0 }).1.wire g.nextSlot node.operands

def added (g : Graph) (node : Node) : Graph := node.operands.foldl addRef (g.wired node)

theorem find?_eq_some :
    g.find? h = some node ↔ g.slots[h.slot]? = some (some node) ∧ node.serial = h.serial := by
  unfold find?
  split
  · rename_i stored eq
    rw [eq]
    split
    · rename_i same
      simp only [Option.some.injEq]
      constructor
      · rintro rfl
        exact ⟨rfl, same⟩
      · exact fun h => h.1
    · rename_i differs
      simp only [Option.some.injEq, reduceCtorEq, false_iff, not_and]
      rintro rfl
      exact differs
  · rename_i missing
    simp only [reduceCtorEq, false_iff, not_and]
    intro present
    exact absurd present (missing node)

theorem find?_congr (same : g'.slots[h.slot]? = g.slots[h.slot]?) : g'.find? h = g.find? h := by
  simp only [find?, same]

theorem node_eq_ok : g.node h = .ok node ↔ g.find? h = some node := by
  unfold Graph.node
  cases g.find? h <;> simp

theorem typeOf_ok (found : g.find? h = some node) : g.typeOf h = .ok node.ty := by
  simp [typeOf, Graph.node, found, bind, Except.bind, pure, Except.pure]

theorem typeOf_stale (dead : g.find? h = none) : g.typeOf h = .error (.staleValue h.slot) := by
  simp [typeOf, Graph.node, dead, bind, Except.bind]

theorem retain_ok (found : g.find? h = some node) : g.retain h = .ok (g.addRef h) := by
  simp [retain, Graph.node, found, bind, Except.bind, pure, Except.pure]

theorem retain_stale (dead : g.find? h = none) : g.retain h = .error (.staleValue h.slot) := by
  simp [retain, Graph.node, dead, bind, Except.bind]

theorem Valid.serial_lt (valid : g.Valid) (found : g.find? h = some node) :
    h.serial < g.nextSerial := by
  obtain ⟨stored, same⟩ := find?_eq_some.mp found
  exact same ▸ valid.serial _ _ stored

/-- Two handles of one slot cannot both be alive. -/
theorem handle_unique {k : Handle} {other : Node} (found : g.find? h = some node)
    (found' : g.find? k = some other) (slot : h.slot = k.slot) : h = k ∧ node = other := by
  obtain ⟨stored, serial⟩ := find?_eq_some.mp found
  obtain ⟨stored', serial'⟩ := find?_eq_some.mp found'
  rw [slot, stored', Option.some.injEq, Option.some.injEq] at stored
  subst stored
  refine ⟨?_, rfl⟩
  cases h
  cases k
  simp_all

/-! References. -/

theorem find?_setSlot_of_ne (g : Graph) (content : Option Node) (other : h.slot ≠ slot) :
    (g.setSlot slot content).find? h = g.find? h := by
  apply find?_congr
  simp [setSlot, Ne.symm other]

theorem find?_setSlot_refs (found : g.find? target = some node) (refs : Nat) (h : Handle) :
    (g.setSlot target.slot (some { node with refs })).find? h =
      if h = target then some { node with refs } else g.find? h := by
  obtain ⟨stored, serial⟩ := find?_eq_some.mp found
  have bound := (Array.getElem?_eq_some_iff.mp stored).1
  by_cases same : h = target
  · subst same
    rw [if_pos rfl]
    simp [find?, setSlot, bound, serial]
  · rw [if_neg same]
    by_cases slot : h.slot = target.slot
    · have differs : node.serial ≠ h.serial := by
        intro eq
        apply same
        cases h
        cases target
        simp_all
      have before : g.find? h = none := by simp [find?, slot, stored, differs]
      rw [before]
      simp [find?, setSlot, slot, bound, differs]
    · exact find?_setSlot_of_ne g _ slot

theorem find?_addRef (g : Graph) (target h : Handle) :
    (g.addRef target).find? h =
      (g.find? h).map fun node => { node with refs := node.refs + if target = h then 1 else 0 } := by
  by_cases same : target = h
  · subst same
    cases found : g.find? target with
    | none => simp [addRef, found]
    | some node => simp [addRef, found, find?_setSlot_refs found]
  · cases found : g.find? target with
    | none => simp [addRef, found, same]
    | some node => simp [addRef, found, find?_setSlot_refs found, same, Ne.symm same]

theorem find?_foldl_addRef (g : Graph) (targets : List Handle) (h : Handle) :
    (targets.foldl addRef g).find? h =
      (g.find? h).map fun node => { node with refs := node.refs + targets.count h } := by
  induction targets generalizing g with
  | nil => simp
  | cons target rest ih =>
    simp only [List.foldl_cons, ih, find?_addRef, Option.map_map, List.count_cons]
    congr 1
    funext node
    simp only [Function.comp_apply, Node.mk.injEq, true_and, beq_iff_eq]
    omega

@[simp] theorem addRef_free (g : Graph) (target : Handle) : (g.addRef target).free = g.free := by
  unfold addRef
  split <;> rfl

@[simp] theorem addRef_nextSerial (g : Graph) (target : Handle) :
    (g.addRef target).nextSerial = g.nextSerial := by
  unfold addRef
  split <;> rfl

theorem contains_iff : g.contains h = true ↔
    ∃ node, g.slots[h.slot]? = some (some node) ∧ node.serial = h.serial := by
  rw [contains, Option.isSome_iff_exists]
  simp only [find?_eq_some]

theorem edgesInto_congr (same : ∀ o ∈ node.operands, g'.contains o = g.contains o) :
    g'.edgesInto slot node = g.edgesInto slot node := by
  unfold edgesInto
  rw [List.filter_congr]
  exact fun o member => same o.1 (List.fst_mem_of_mem_zipIdx member)

/-- Validity has nothing to do with the counts of references. -/
theorem Valid.setSlot_refs (valid : g.Valid) (found : g.find? target = some node) (refs : Nat) :
    (g.setSlot target.slot (some { node with refs })).Valid := by
  obtain ⟨stored, _⟩ := find?_eq_some.mp found
  have bound := (Array.getElem?_eq_some_iff.mp stored).1
  have slots : ∀ k : Nat, (g.setSlot target.slot (some { node with refs })).slots[k]? =
      if target.slot = k then some (some { node with refs }) else g.slots[k]? := by
    intro k
    rw [setSlot, Array.getElem?_setIfInBounds]
    simp only [bound, if_true]
  -- What is stored there was stored before, with another count.
  have before : ∀ {k : Nat} {n : Node},
      (g.setSlot target.slot (some { node with refs })).slots[k]? = some (some n) →
      ∃ old : Node, g.slots[k]? = some (some old) ∧ old.serial = n.serial ∧
        old.operands = n.operands := by
    intro k n present
    rw [slots] at present
    split at present
    · obtain rfl := Option.some.inj (Option.some.inj present)
      exact ⟨node, ‹target.slot = k› ▸ stored, rfl, rfl⟩
    · exact ⟨n, present, rfl, rfl⟩
  have contains : ∀ h, (g.setSlot target.slot (some { node with refs })).contains h =
      g.contains h := by
    intro h
    rw [Graph.contains, Graph.contains, find?_setSlot_refs found]
    split
    · rename_i same
      rw [same, found]
      rfl
    · rfl
  refine ⟨fun k member => ?_, valid.nodup, fun k n present => ?_, fun k n present o member => ?_,
    fun e member => ?_, fun k n present => ?_⟩
  · have free := valid.empty k member
    have differs : target.slot ≠ k := by
      rintro rfl
      rw [stored] at free
      simp at free
    rw [slots, if_neg differs, free]
  · obtain ⟨old, present, serial, _⟩ := before present
    exact serial ▸ valid.serial k old present
  · obtain ⟨old, present, _, operands⟩ := before present
    exact valid.older k old present o (operands ▸ member)
  · obtain ⟨n, present⟩ := valid.targets e member
    rw [slots]
    split
    · exact ⟨_, rfl⟩
    · exact ⟨n, present⟩
  · obtain ⟨old, present, _, operands⟩ := before present
    refine (valid.wired k old present).trans (congrArg List.reverse ?_)
    unfold edgesInto
    simp only [contains, operands]

theorem Valid.addRef (valid : g.Valid) (target : Handle) : (g.addRef target).Valid := by
  unfold Graph.addRef
  split
  · exact valid.setSlot_refs ‹_› _
  · exact valid

theorem Valid.foldl_addRef (valid : g.Valid) (targets : List Handle) :
    (targets.foldl Graph.addRef g).Valid := by
  induction targets generalizing g with
  | nil => exact valid
  | cons target rest ih => exact ih (valid.addRef target)

/-! The laws of the arena. A new node is put into a vacant slot, and a node is taken out with all its
edges; nothing else moves. A slot that was vacated may be filled again. -/

structure Puts (g g' : Graph) (slot : Nat) (node : Node) : Prop where
  vacant : ∀ stored, g.slots[slot]? ≠ some (some stored)
  slots : ∀ k : Nat, g'.slots[k]? = if k = slot then some (some node) else g.slots[k]?
  edges : g'.edges = g.edges
  nextSerial : g'.nextSerial = g.nextSerial

structure Vacates (g g' : Graph) (slot : Nat) : Prop where
  vacant : ∀ stored, g'.slots[slot]? ≠ some (some stored)
  slots : ∀ k : Nat, k ≠ slot → g'.slots[k]? = g.slots[k]?
  edges : g'.edges = g.edges.filter fun e => e.source != slot && e.target != slot
  nextSerial : g'.nextSerial = g.nextSerial

theorem Valid.puts_place (valid : g.Valid) (node : Node) :
    g.Puts (g.place node).1 g.nextSlot node := by
  unfold place nextSlot
  cases eq : g.free with
  | nil =>
    refine ⟨by simp, fun k => ?_, rfl, rfl⟩
    simp only [List.headD_nil, Array.getElem?_push]
    congr
  | cons first rest =>
    have vacant := valid.empty first (by simp [eq])
    have bound := (Array.getElem?_eq_some_iff.mp vacant).1
    refine ⟨by simp [vacant], fun k => ?_, rfl, rfl⟩
    simp only [setSlot, List.headD_cons, Array.getElem?_setIfInBounds, bound, if_true]
    by_cases same : first = k
    · simp [same]
    · simp [same, Ne.symm same]

theorem vacates_erase (g : Graph) (slot : Nat) : g.Vacates (g.erase slot) slot := by
  refine ⟨fun stored present => ?_, fun k other => ?_, rfl, rfl⟩
  · simp only [erase, setSlot, Array.getElem?_setIfInBounds, if_true] at present
    split at present <;> simp at present
  · simp [erase, setSlot, Ne.symm other]

/-! New nodes. -/

theorem place_slot (g : Graph) (node : Node) : (g.place node).2 = g.nextSlot := by
  unfold place nextSlot
  cases g.free <;> rfl

theorem place_free (g : Graph) (node : Node) : (g.place node).1.free = g.free.tail := by
  unfold place
  cases g.free <;> rfl

theorem Valid.later (valid : g.Valid) : { g with nextSerial := g.nextSerial + 1 }.Valid :=
  ⟨valid.empty, valid.nodup, fun slot stored present =>
    Nat.lt_succ_of_lt (valid.serial slot stored present), fun slot stored present o member =>
    Nat.lt_succ_of_lt (valid.older slot stored present o member), valid.targets, valid.wired⟩

section Added

variable (valid : g.Valid) (node : Node)
include valid

theorem Valid.find?_nextSlot (slot : h.slot = g.nextSlot) : g.find? h = none := by
  cases found : g.find? h with
  | none => rfl
  | some stored =>
    have present := (find?_eq_some.mp found).1
    rw [slot] at present
    exact absurd present ((valid.puts_place default).vacant stored)

theorem Valid.wired_slots (k : Nat) : (g.wired node).slots[k]? =
    if k = g.nextSlot then some (some { node with serial := g.nextSerial, refs := 0 })
    else g.slots[k]? :=
  (valid.later.puts_place _).slots k

/-- A handle that was given out stands for a node after one is added if it did before. -/
theorem Valid.contains_wired (given : h.serial < g.nextSerial) :
    (g.wired node).contains h = g.contains h := by
  rw [Bool.eq_iff_iff, contains_iff, contains_iff, valid.wired_slots]
  by_cases slot : h.slot = g.nextSlot
  · rw [if_pos slot, slot]
    have vacant := (valid.puts_place default).vacant
    constructor
    · rintro ⟨stored, same, serial⟩
      obtain rfl := Option.some.inj (Option.some.inj same)
      exact absurd serial (Nat.ne_of_gt given)
    · rintro ⟨stored, same, _⟩
      exact absurd same (vacant stored)
  · rw [if_neg slot]

theorem Valid.wired_valid (live : ∀ operand ∈ node.operands, (g.find? operand).isSome) :
    (g.wired node).Valid := by
  have given : ∀ o ∈ node.operands, o.serial < g.nextSerial := by
    intro o member
    obtain ⟨stored, found⟩ := Option.isSome_iff_exists.mp (live o member)
    exact valid.serial_lt found
  have puts := valid.later.puts_place { node with serial := g.nextSerial, refs := 0 }
  have edges : (g.wired node).edges =
      (node.operands.zipIdx.map (Edge.ofOperand g.nextSlot)).reverse ++ g.edges :=
    congrArg (List.append _) puts.edges
  have serial : (g.wired node).nextSerial = g.nextSerial + 1 := puts.nextSerial
  have free : (g.wired node).free = g.free.tail := place_free _ _
  have vacant := (valid.puts_place default).vacant
  refine ⟨fun k member => ?_, ?_, fun k n present => ?_, fun k n present o member => ?_,
    fun e member => ?_, fun k n present => ?_⟩
  · have kept : k ∈ g.free ∧ k ≠ g.nextSlot := by
      have nodup := valid.nodup
      rw [free] at member
      unfold nextSlot
      cases eq : g.free with
      | nil => simp [eq] at member
      | cons first rest =>
        rw [eq] at member nodup
        refine ⟨List.mem_cons_of_mem _ member, ?_⟩
        rintro rfl
        exact (List.nodup_cons.mp nodup).1 member
    rw [valid.wired_slots, if_neg kept.2]
    exact valid.empty k kept.1
  · rw [free]
    exact valid.nodup.sublist (List.tail_sublist _)
  · rw [serial]
    rw [valid.wired_slots] at present
    split at present
    · obtain rfl := Option.some.inj (Option.some.inj present)
      exact Nat.lt_succ_self _
    · exact Nat.lt_succ_of_lt (valid.serial k n present)
  · rw [serial]
    rw [valid.wired_slots] at present
    split at present
    · obtain rfl := Option.some.inj (Option.some.inj present)
      exact Nat.lt_succ_of_lt (given o member)
    · exact Nat.lt_succ_of_lt (valid.older k n present o member)
  · rw [valid.wired_slots]
    split
    · exact ⟨_, rfl⟩
    · rename_i other
      rw [edges, List.mem_append, List.mem_reverse, List.mem_map] at member
      rcases member with ⟨_, _, rfl⟩ | member
      · exact absurd rfl other
      · exact valid.targets e member
  · rw [valid.wired_slots] at present
    rw [edges, List.filter_append]
    split at present
    · rename_i same
      subst same
      obtain rfl := Option.some.inj (Option.some.inj present)
      have none : (g.edges.filter fun e => e.target == g.nextSlot) = [] := by
        refine List.filter_eq_nil_iff.mpr fun e member here => ?_
        obtain ⟨n, stored⟩ := valid.targets e member
        rw [beq_iff_eq.mp here] at stored
        exact vacant n stored
      have all : ∀ o ∈ node.operands.zipIdx, (g.wired node).contains o.1 = true := by
        intro o member
        have operand := List.fst_mem_of_mem_zipIdx member
        rw [valid.contains_wired node (given _ operand)]
        exact live _ operand
      have new : ∀ e ∈ (node.operands.zipIdx.map (Edge.ofOperand g.nextSlot)).reverse,
          (e.target == g.nextSlot) = true := by
        intro e member
        obtain ⟨_, _, rfl⟩ := List.mem_map.mp (List.mem_reverse.mp member)
        exact beq_self_eq_true _
      rw [none, List.append_nil, List.filter_eq_self.mpr new, edgesInto,
        List.filter_eq_self.mpr all]
    · rename_i other
      have old : ∀ o ∈ n.operands, (g.wired node).contains o = g.contains o :=
        fun o member => valid.contains_wired node (valid.older k n present o member)
      have none : ((node.operands.zipIdx.map (Edge.ofOperand g.nextSlot)).reverse.filter
          fun e => e.target == k) = [] := by
        refine List.filter_eq_nil_iff.mpr fun e member here => ?_
        obtain ⟨_, _, rfl⟩ := List.mem_map.mp (List.mem_reverse.mp member)
        exact other (beq_iff_eq.mp here).symm
      rw [edgesInto_congr old, ← valid.wired k n present, none, List.nil_append]

/-- A new node stands behind the next handle, and every other node only gains the references that
the new one takes. -/
theorem Valid.find?_added (live : ∀ operand ∈ node.operands, (g.find? operand).isSome)
    (h : Handle) :
    (g.added node).find? h =
      if h = g.nextHandle then some { node with serial := g.nextSerial, refs := 0 }
      else (g.find? h).map fun old =>
        { old with refs := old.refs + node.operands.count h } := by
  unfold added
  rw [find?_foldl_addRef]
  simp only [find?, valid.wired_slots]
  by_cases slot : h.slot = g.nextSlot
  · rw [if_pos slot]
    by_cases serial : h.serial = g.nextSerial
    · have same : h = g.nextHandle := by
        cases h
        simp_all [nextHandle]
      have unused : node.operands.count h = 0 := by
        rw [List.count_eq_zero]
        intro member
        have dead := valid.find?_nextSlot slot
        simpa [dead] using live h member
      rw [if_pos same, unused]
      simp [serial]
    · have differs : h ≠ g.nextHandle := fun eq => serial (by rw [eq]; rfl)
      have dead := valid.find?_nextSlot slot
      rw [find?] at dead
      simp [Ne.symm serial, differs, dead]
  · rw [if_neg slot]
    have differs : h ≠ g.nextHandle := fun eq => slot (by rw [eq]; rfl)
    simp [differs]

theorem Valid.added (live : ∀ operand ∈ node.operands, (g.find? operand).isSome := by simp) :
    (g.added node).Valid :=
  (valid.wired_valid node live).foldl_addRef node.operands

end Added

theorem added_nextSerial (g : Graph) (node : Node) :
    (g.added node).nextSerial = g.nextSerial + 1 := by
  have kept : ∀ (targets : List Handle) (g : Graph),
      (targets.foldl addRef g).nextSerial = g.nextSerial := by
    intro targets
    induction targets with
    | nil => intro g; rfl
    | cons target rest ih => intro g; rw [List.foldl_cons, ih, addRef_nextSerial]
  rw [added, kept]
  unfold wired place
  cases g.free <;> rfl

theorem insert_eq (g : Graph) (node : Node) :
    g.insert node =
      (node.operands.forM fun h => do let _ ← g.node h : Except Fault PUnit).map
        fun _ => (g.added node, g.nextHandle) := by
  have slot := place_slot { g with nextSerial := g.nextSerial + 1 }
    { node with serial := g.nextSerial, refs := 0 }
  unfold Graph.insert
  cases (node.operands.forM fun h => do let _ ← g.node h : Except Fault PUnit) with
  | error fault => rfl
  | ok _ =>
    simp only [bind, Except.bind, pure, Except.pure, Except.map, added, wired, nextHandle]
    rw [slot]
    rfl

theorem insert_ok (live : ∀ operand ∈ node.operands, (g.find? operand).isSome) :
    g.insert node = .ok (g.added node, g.nextHandle) := by
  have checked : (node.operands.forM fun h => do let _ ← g.node h : Except Fault PUnit) =
      .ok ⟨⟩ := by
    generalize node.operands = operands at live
    induction operands with
    | nil => rfl
    | cons operand rest ih =>
      obtain ⟨found, eq⟩ := Option.isSome_iff_exists.mp (live operand (by simp))
      rw [List.forM_eq_forM, List.forM_cons, ← List.forM_eq_forM,
        ih fun h member => live h (by simp [member])]
      simp [Graph.node, eq, bind, Except.bind, pure, Except.pure]
  rw [insert_eq, checked]
  rfl

/-! Releases. -/

theorem contains_erase (g : Graph) (slot : Nat) (h : Handle) :
    (g.erase slot).contains h = (g.contains h && h.slot != slot) := by
  have vacates := g.vacates_erase slot
  by_cases same : h.slot = slot
  · have gone : (g.erase slot).contains h = false := by
      rw [Bool.eq_false_iff]
      intro present
      obtain ⟨node, stored, _⟩ := contains_iff.mp present
      rw [same] at stored
      exact vacates.vacant node stored
    simp [gone, same]
  · rw [contains, contains, find?_congr (vacates.slots _ same)]
    simp [same]

theorem find?_erase (found : (g.erase slot).find? h = some node) : g.find? h = some node := by
  obtain ⟨present, serial⟩ := find?_eq_some.mp found
  by_cases same : h.slot = slot
  · rw [same] at present
    exact absurd present ((g.vacates_erase slot).vacant node)
  · rw [(g.vacates_erase slot).slots _ same] at present
    exact find?_eq_some.mpr ⟨present, serial⟩

theorem Valid.erase (valid : g.Valid) (found : g.find? target = some node) :
    (g.erase target.slot).Valid := by
  obtain ⟨stored, _⟩ := find?_eq_some.mp found
  have bound := (Array.getElem?_eq_some_iff.mp stored).1
  have vacates := g.vacates_erase target.slot
  have before : ∀ {k : Nat} {n : Node}, (g.erase target.slot).slots[k]? = some (some n) →
      k ≠ target.slot ∧ g.slots[k]? = some (some n) := by
    intro k n present
    have other : k ≠ target.slot := by
      rintro rfl
      exact vacates.vacant n present
    exact ⟨other, vacates.slots k other ▸ present⟩
  refine ⟨fun k member => ?_, ?_, fun k n present => valid.serial k n (before present).2,
    fun k n present => valid.older k n (before present).2, fun e member => ?_,
    fun k n present => ?_⟩
  · by_cases same : k = target.slot
    · subst same
      simp [Graph.erase, setSlot, bound]
    · rw [vacates.slots k same]
      exact valid.empty k (List.mem_of_ne_of_mem same member)
  · refine List.nodup_cons.mpr ⟨fun member => ?_, valid.nodup⟩
    have free := valid.empty _ member
    rw [stored] at free
    simp at free
  · rw [vacates.edges, List.mem_filter] at member
    obtain ⟨old, apart⟩ := member
    obtain ⟨n, present⟩ := valid.targets e old
    rw [Bool.and_eq_true, bne_iff_ne, bne_iff_ne] at apart
    exact ⟨n, (vacates.slots _ apart.2).trans present⟩
  · obtain ⟨other, present⟩ := before present
    have edges : ((g.erase target.slot).edges.filter fun e => e.target == k) =
        (g.edges.filter fun e => e.target == k).filter fun e => e.source != target.slot := by
      rw [vacates.edges, List.filter_filter, List.filter_filter]
      refine List.filter_congr fun e _ => ?_
      by_cases here : e.target = k
      · simp [here, other]
      · simp [beq_false_of_ne here]
    rw [edges, valid.wired k n present, List.filter_reverse, edgesInto, edgesInto, List.filter_map,
      List.filter_filter]
    congr 2
    refine List.filter_congr fun o _ => ?_
    rw [contains_erase, Bool.and_comm]
    rfl

/-! Operands. -/

/-- The operands that are read from the edges, in the order of their positions, are those that the
node was built with and that were not released. -/
theorem Valid.operandsAt_eq (valid : g.Valid) (found : g.find? h = some node) :
    g.operandsAt h.slot = g.arguments node := by
  have ordered : (g.edgesInto h.slot node).Pairwise fun e f => e.position < f.position := by
    have indices : node.operands.zipIdx.Pairwise fun a b => a.2 < b.2 := by
      rw [← List.pairwise_map, List.zipIdx_map_snd]
      exact List.pairwise_lt_range'
    exact List.pairwise_map.mpr (indices.filter _)
  rw [operandsAt, valid.wired _ node (find?_eq_some.mp found).1,
    Edge.sortByPosition_reverse ordered, edgesInto, List.filterMap_map]
  have handles : ∀ o ∈ node.operands.zipIdx.filter fun o => g.contains o.1,
      ((fun e : Edge => g.handleAt? e.source) ∘ Edge.ofOperand h.slot) o = some o.1 := by
    intro o member
    obtain ⟨stored, present, serial⟩ := contains_iff.mp (List.mem_filter.mp member).2
    simp only [Function.comp_apply, Edge.ofOperand, handleAt?, present, serial]
  rw [List.filterMap_congr handles, arguments, ← Function.comp_def some, List.filterMap_eq_map,
    ← Function.comp_def g.contains, ← List.filter_map, List.zipIdx_map_fst]

/-- A node at a later time: only the count of its references may differ, and it never falls back to
zero. -/
structure Keeps (n n' : Node) : Prop where
  same : n' = { n with refs := n'.refs }
  refs : 0 < n.refs → 0 < n'.refs

theorem Keeps.refl (n : Node) : Keeps n n := ⟨rfl, id⟩

theorem Keeps.trans {n n' n'' : Node} (first : Keeps n n') (second : Keeps n' n'') :
    Keeps n n'' := by
  refine ⟨?_, fun held => second.refs (first.refs held)⟩
  rw [second.same, first.same]

/-- What a graph can become by releases: some of its nodes are gone, the others mean what they
meant. -/
structure Shrinks (g g' : Graph) : Prop where
  valid : g.Valid → g'.Valid
  nextSerial : g'.nextSerial = g.nextSerial
  old : ∀ h n', g'.find? h = some n' → ∃ n, g.find? h = some n ∧ Keeps n n'

theorem Shrinks.refl (g : Graph) : g.Shrinks g := ⟨id, rfl, fun _ n found => ⟨n, found, .refl n⟩⟩

theorem Shrinks.trans (first : g.Shrinks g') (second : g'.Shrinks g'') : g.Shrinks g'' := by
  refine ⟨fun valid => second.valid (first.valid valid),
    second.nextSerial.trans first.nextSerial, fun h n'' found => ?_⟩
  obtain ⟨n', found', kept'⟩ := second.old h n'' found
  obtain ⟨n, found, kept⟩ := first.old h n' found'
  exact ⟨n, found, kept.trans kept'⟩

theorem shrinks_setSlot (found : g.find? h = some node) (shared : 1 < node.refs) :
    g.Shrinks (g.setSlot h.slot (some { node with refs := node.refs - 1 })) := by
  refine ⟨fun valid => valid.setSlot_refs found _, rfl, fun k n' present => ?_⟩
  rw [find?_setSlot_refs found] at present
  split at present
  · rename_i same
    subst same
    obtain rfl := Option.some.inj present
    exact ⟨node, found, rfl, fun _ => Nat.sub_pos_of_lt shared⟩
  · exact ⟨n', present, .refl n'⟩

theorem shrinks_erase (found : g.find? h = some node) : g.Shrinks (g.erase h.slot) :=
  ⟨fun valid => valid.erase found, rfl, fun _ n' present => ⟨n', find?_erase present, .refl n'⟩⟩

theorem releaseAll_shrinks (steps : Nat) (work : List Handle) (g : Graph) :
    (∀ g', releaseAll steps work g = .ok () g' → g.Shrinks g') ∧
      ∀ fault g', releaseAll steps work g = .error fault g' → g.Shrinks g' := by
  induction steps generalizing work g with
  | zero =>
    cases work with
    | nil => simp [releaseAll, Shrinks.refl]
    | cons h rest => simp [releaseAll, Shrinks.refl]
  | succ steps ih =>
    cases work with
    | nil => simp [releaseAll, Shrinks.refl]
    | cons h rest =>
      rw [releaseAll]
      cases found : g.find? h with
      | none => simp [Shrinks.refl]
      | some node =>
        dsimp only
        split
        · rename_i shared
          have first := shrinks_setSlot found shared
          exact ⟨fun g' run => first.trans ((ih _ _).1 g' run),
            fun fault g' run => first.trans ((ih _ _).2 fault g' run)⟩
        · have first := shrinks_erase found
          exact ⟨fun g' run => first.trans ((ih _ _).1 g' run),
            fun fault g' run => first.trans ((ih _ _).2 fault g' run)⟩

/-- How a graph changes while a draft is built: a handle given out before names what it named, or
nothing. -/
structure Evolves (g g' : Graph) : Prop where
  nextSerial : g.nextSerial ≤ g'.nextSerial
  old : ∀ h n', h.serial < g.nextSerial → g'.find? h = some n' →
    ∃ n, g.find? h = some n ∧ Keeps n n'

theorem Evolves.refl (g : Graph) : g.Evolves g :=
  ⟨Nat.le_refl _, fun _ n _ found => ⟨n, found, .refl n⟩⟩

theorem Evolves.trans (first : g.Evolves g') (second : g'.Evolves g'') : g.Evolves g'' := by
  refine ⟨Nat.le_trans first.nextSerial second.nextSerial, fun h n'' given found => ?_⟩
  obtain ⟨n', found', kept'⟩ :=
    second.old h n'' (Nat.lt_of_lt_of_le given first.nextSerial) found
  obtain ⟨n, before, kept⟩ := first.old h n' given found'
  exact ⟨n, before, kept.trans kept'⟩

theorem Shrinks.evolves (shrinks : g.Shrinks g') : g.Evolves g' :=
  ⟨Nat.le_of_eq shrinks.nextSerial.symm, fun h n' _ found => shrinks.old h n' found⟩

theorem evolves_addRef (g : Graph) (target : Handle) : g.Evolves (g.addRef target) := by
  refine ⟨Nat.le_of_eq (addRef_nextSerial g target).symm, fun h n' _ found => ?_⟩
  rw [find?_addRef] at found
  obtain ⟨n, before, rfl⟩ := Option.map_eq_some_iff.mp found
  exact ⟨n, before, rfl, fun held => Nat.lt_of_lt_of_le held (Nat.le_add_right _ _)⟩

theorem evolves_added (valid : g.Valid) (live : ∀ operand ∈ node.operands, (g.find? operand).isSome)
    : g.Evolves (g.added node) := by
  refine ⟨by rw [added_nextSerial]; omega, fun h n' given found => ?_⟩
  rw [valid.find?_added node live, if_neg] at found
  · obtain ⟨n, before, rfl⟩ := Option.map_eq_some_iff.mp found
    exact ⟨n, before, rfl, fun held => Nat.lt_of_lt_of_le held (Nat.le_add_right _ _)⟩
  · rintro rfl
    exact Nat.lt_irrefl _ given

end Graph

end ShaderIR
