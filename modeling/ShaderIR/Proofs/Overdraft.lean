import ShaderIR.Proofs.Counting

/-! Releases that fail. A caller may drop references that are not theirs, and then a node can have
fewer references than the operand positions that it fills. A release of a live node fails only if it
frees more positions of one such node than the node has references; it stops there, and what it
freed before stays freed. Every other release happens as a whole or not at all. -/
namespace ShaderIR.Graph

variable {g g' : Graph} {h : Handle} {n : Node}

def refsOf (g : Graph) (h : Handle) : Nat := ((g.find? h).map Node.refs).getD 0

def Ordered (g : Graph) : Prop :=
  ∀ h n, g.find? h = some n → ∀ operand ∈ n.operands, operand.serial < h.serial

section RefsOf

variable {k : Handle} (found : g.find? h = some n)

include found

theorem refsOf_found : g.refsOf h = n.refs := by rw [refsOf, found]; rfl

theorem refsOf_setSlot_refs (refs : Nat) :
    (g.setSlot h.slot (some { n with refs })).refsOf k = if k = h then refs else g.refsOf k := by
  rw [refsOf, find?_setSlot_refs found]
  split <;> rfl

theorem refsOf_erase : (g.erase h.slot).refsOf k = if k = h then 0 else g.refsOf k := by
  split
  · rename_i same
    rw [refsOf, same, erase_dead found]
    rfl
  · rename_i other
    rw [refsOf, refsOf]
    cases known : g.find? k with
    | some m => rw [find?_erase_of_ne found known other]
    | none =>
      cases kept : (g.erase h.slot).find? k with
      | none => rfl
      | some m => simp [find?_erase kept] at known

end RefsOf

theorem Shrinks.ordered (shrinks : g.Shrinks g') (ordered : g.Ordered) : g'.Ordered := by
  intro h n found operand member
  obtain ⟨n₀, before, same⟩ := shrinks.operands found
  exact ordered h n₀ before operand (same ▸ member)

theorem count_arguments_erase (found : g.find? h = some n) (k : Handle) :
    (g.arguments n).count k + (g.erase h.slot).operandList.count k ≤ g.operandList.count k := by
  have positions := (operandList_erase found).count_eq k
  have kept : (g.arguments n).count k ≤ n.operands.count k := List.filter_sublist.count_le k
  rw [List.count_append] at positions
  omega

theorem length_arguments_erase (found : g.find? h = some n) :
    (g.arguments n).length + (g.erase h.slot).operandList.length ≤ g.operandList.length := by
  have positions := (operandList_erase found).length_eq
  have kept : (g.arguments n).length ≤ n.operands.length := List.filter_sublist.length_le
  rw [List.length_append] at positions
  omega

/-! The work of one release. -/

/-- While what a freed node `v` used is released, each operand position that is gone waits in the
work list or took a reference with it, so that a node never loses more references than positions.
All that is left to do is older than `v`. -/
structure Drawn (g₀ : Graph) (v : Handle) (work : List Handle) (g : Graph) : Prop where
  shrinks : g₀.Shrinks g
  pending : ∀ h ∈ work, (g₀.find? h).isSome ∧ h.serial < v.serial
  paid : ∀ h, h.serial < v.serial → g₀.refsOf h + work.count h + g.operandList.count h ≤
    g.refsOf h + g₀.operandList.count h

section Work

variable {g₀ : Graph} {v : Handle} {work : List Handle}

theorem drawn_first (ordered : g₀.Ordered) (found : g₀.find? v = some n) :
    Drawn g₀ v (g₀.arguments n) (g₀.erase v.slot) := by
  refine ⟨shrinks_erase found, fun h member => ?_, fun h older => ?_⟩
  · obtain ⟨operand, live⟩ := List.mem_filter.mp member
    exact ⟨live, ordered v n found h operand⟩
  · have other : h ≠ v := by
      rintro rfl
      exact Nat.lt_irrefl _ older
    have moved := count_arguments_erase found h
    rw [refsOf_erase found, if_neg other]
    omega

section Step

variable (drawn : Drawn g₀ v (h :: work) g) (found : g.find? h = some n)

include drawn found

theorem Drawn.drop (shared : 1 < n.refs) :
    Drawn g₀ v work (g.setSlot h.slot (some { n with refs := n.refs - 1 })) := by
  refine ⟨drawn.shrinks.trans (shrinks_setSlot found shared),
    fun k member => drawn.pending k (List.mem_cons_of_mem h member), fun k older => ?_⟩
  have paid := drawn.paid k older
  rw [(operandList_setSlot_refs found _).count_eq, refsOf_setSlot_refs found]
  by_cases same : k = h
  · subst same
    rw [List.count_cons_self, refsOf_found found] at paid
    rw [if_pos rfl]
    omega
  · rw [List.count_cons_of_ne (Ne.symm same)] at paid
    rw [if_neg same]
    exact paid

theorem Drawn.free (ordered : g₀.Ordered) (last : n.refs ≤ 1) :
    Drawn g₀ v (g.arguments n ++ work) (g.erase h.slot) := by
  refine ⟨drawn.shrinks.trans (shrinks_erase found), fun k member => ?_, fun k older => ?_⟩
  · rcases List.mem_append.mp member with argument | later
    · obtain ⟨operand, live⟩ := List.mem_filter.mp argument
      obtain ⟨m, known⟩ := Option.isSome_iff_exists.mp live
      obtain ⟨m₀, before, _⟩ := drawn.shrinks.old k m known
      have younger := (drawn.pending h List.mem_cons_self).2
      have older := drawn.shrinks.ordered ordered h n found k operand
      exact ⟨by simp [before], Nat.lt_trans older younger⟩
    · exact drawn.pending k (List.mem_cons_of_mem h later)
  · have paid := drawn.paid k older
    have moved := count_arguments_erase found k
    rw [List.count_append, refsOf_erase found]
    by_cases same : k = h
    · subst same
      rw [List.count_cons_self, refsOf_found found] at paid
      rw [if_pos rfl]
      omega
    · rw [List.count_cons_of_ne (Ne.symm same)] at paid
      rw [if_neg same]
      omega

end Step

/-- Work that stops has met a node that is gone and that was used more often than it had
references. -/
theorem Drawn.run {steps : Nat} {fault : Fault} (valid : g₀.Valid) (ordered : g₀.Ordered)
    (drawn : Drawn g₀ v work g) (enough : work.length + g.operandList.length ≤ steps)
    (failed : releaseAll steps work g = .error fault g') :
    ∃ x, fault = .staleValue x.slot ∧ x.serial < v.serial ∧ (g₀.find? x).isSome ∧
      g'.find? x = none ∧ g₀.refsOf x + g'.operandList.count x < g₀.operandList.count x := by
  induction steps generalizing work g with
  | zero =>
    cases work with
    | nil => contradiction
    | cons h rest =>
      rw [List.length_cons] at enough
      omega
  | succ steps ih =>
    cases work with
    | nil => contradiction
    | cons h rest =>
      rw [releaseAll] at failed
      rw [List.length_cons] at enough
      cases found : g.find? h with
      | none =>
        rw [found] at failed
        obtain ⟨rfl, rfl⟩ := EStateM.Result.error.inj failed
        obtain ⟨known, older⟩ := drawn.pending h List.mem_cons_self
        have paid := drawn.paid h older
        have gone : g.refsOf h = 0 := by rw [refsOf, found]; rfl
        rw [List.count_cons_self, gone] at paid
        exact ⟨h, rfl, older, known, found, by omega⟩
      | some n =>
        rw [found] at failed
        dsimp only at failed
        split at failed
        · have positions := (operandList_setSlot_refs found (n.refs - 1)).length_eq
          exact ih (drawn.drop found ‹_›) (by omega) failed
        · have moved := length_arguments_erase found
          rw [(drawn.shrinks.valid valid).operandsAt_eq found] at failed
          refine ih (drawn.free found ordered (Nat.le_of_not_lt ‹_›)) ?_ failed
          rw [List.length_append]
          omega

end Work

/-! Histories. -/

structure Ledger.Orderly (l : Ledger) : Prop where
  valid : l.graph.Valid
  ordered : l.graph.Ordered

namespace Ledger.Orderly

variable {l : Ledger}

theorem add (orderly : l.Orderly) (node : Node) : (l.step (.add node)).Orderly := by
  rw [step]
  cases inserted : l.graph.insert node with
  | error fault => exact orderly
  | ok result =>
    have live := insert_live inserted
    obtain rfl := Except.ok.inj (inserted.symm.trans (insert_ok live))
    refine ⟨orderly.valid.added node live, fun h n found operand member => ?_⟩
    dsimp only at found
    rw [orderly.valid.find?_added node live] at found
    split at found
    · rename_i new
      obtain rfl := Option.some.inj found
      obtain ⟨m, known⟩ := Option.isSome_iff_exists.mp (live operand member)
      rw [new]
      exact orderly.valid.serial_lt known
    · obtain ⟨n₀, before, rfl⟩ := Option.map_eq_some_iff.mp found
      exact orderly.ordered h n₀ before operand member

theorem retain (orderly : l.Orderly) (h : Handle) : (l.step (.retain h)).Orderly := by
  rw [step]
  cases found : l.graph.find? h with
  | none =>
    rw [retain_stale found]
    exact orderly
  | some n =>
    rw [retain_ok found]
    refine ⟨orderly.valid.addRef h, fun k m known operand member => ?_⟩
    dsimp only at known
    rw [find?_addRef] at known
    obtain ⟨m₀, before, rfl⟩ := Option.map_eq_some_iff.mp known
    exact orderly.ordered k m₀ before operand member

theorem shrunk (orderly : l.Orderly) (shrinks : l.graph.Shrinks g) (held : List Handle) :
    Orderly { l with graph := g, held := held } :=
  ⟨shrinks.valid orderly.valid, shrinks.ordered orderly.ordered⟩

theorem release (orderly : l.Orderly) (h : Handle) : (l.step (.release h)).Orderly := by
  have shrinks := releaseAll_shrinks (l.graph.operandCount + 1) [h] l.graph
  rw [step]
  cases ran : l.graph.release h with
  | ok _ g => exact orderly.shrunk (shrinks.1 g ran) _
  | error fault g => exact orderly.shrunk (shrinks.2 fault g ran) _

theorem run (orderly : l.Orderly) (ops : List Op) : (l.run ops).Orderly := by
  induction ops generalizing l with
  | nil => exact orderly
  | cons op rest ih =>
    cases op with
    | add node => exact ih (orderly.add node)
    | retain h => exact ih (orderly.retain h)
    | release h => exact ih (orderly.release h)

end Ledger.Orderly

theorem Ledger.orderly_empty (serial : Nat) : Orderly { graph := { nextSerial := serial } } := by
  refine ⟨valid_empty serial, fun h n found => ?_⟩
  simp [find?] at found

/-- After every history, a release that fails either was of a node that is gone, and then it changed
nothing, or it has freed its node and ran short: it freed more operand positions of some other node
than there were references on that one, having freed it as well. The nodes that are left differ from
what they were in their counts only. -/
theorem failed_release_overdraws (serial : Nat) {ops : List Op} {l : Ledger}
    (reached : Ledger.run { graph := { nextSerial := serial } } ops = l) {v : Handle}
    {fault : Fault} {g' : Graph} (failed : l.graph.release v = .error fault g') :
    (l.graph.find? v = none ∧ fault = .staleValue v.slot ∧ g' = l.graph) ∨
    (l.graph.Removed g' v ∧ l.graph.refsOf v ≤ 1 ∧
      (∀ h n', g'.find? h = some n' → ∃ n, l.graph.find? h = some n ∧ Keeps n n') ∧
      ∃ x ≠ v, fault = .staleValue x.slot ∧ l.graph.Removed g' x ∧
        l.graph.refsOf x + g'.operandList.count x < l.graph.operandList.count x) := by
  subst reached
  have orderly := (Ledger.orderly_empty serial).run ops
  generalize Ledger.run { graph := { nextSerial := serial } } ops = l at orderly failed
  have shrinks := (releaseAll_shrinks _ _ _).2 fault g' failed
  rw [release, releaseAll] at failed
  cases found : l.graph.find? v with
  | none =>
    rw [found] at failed
    obtain ⟨rfl, rfl⟩ := EStateM.Result.error.inj failed
    exact .inl ⟨rfl, rfl, rfl⟩
  | some n =>
    rw [found] at failed
    dsimp only at failed
    split at failed
    · rw [releaseAll] at failed
      contradiction
    · rename_i last
      rw [List.append_nil, orderly.valid.operandsAt_eq found] at failed
      have enough := length_arguments_erase found
      rw [← operandCount_eq l.graph] at enough
      obtain ⟨x, stale, older, known, gone, short⟩ :=
        (drawn_first orderly.ordered found).run orderly.valid orderly.ordered enough failed
      have other : x ≠ v := by
        rintro rfl
        exact Nat.lt_irrefl _ older
      refine .inr ⟨⟨by simp [found], ?_⟩, by rw [refsOf_found found]; omega, shrinks.old, x, other,
        stale, ⟨known, gone⟩, short⟩
      cases left : g'.find? v with
      | none => rfl
      | some m =>
        obtain ⟨_, before, _⟩ := ((releaseAll_shrinks _ _ _).2 fault g' failed).old v m left
        rw [erase_dead found] at before
        contradiction

/-- A sum of a term with itself, and one reference on the term dropped that only the sum had. -/
def dropsOperand : List Op :=
  let node (id : Id) (kind : NodeKind) (operands : List Handle) : Op :=
    .add { id, ty := .int 32 true, kind, operands, position := {} }
  [node 1 (.input 0) [], node 2 (.binary .add) [⟨0, 0⟩, ⟨0, 0⟩], .release ⟨0, 0⟩]

/-- The release of the sum fails, and both nodes are gone. -/
theorem dropsOperand_release_in_part :
    let l := Ledger.run { graph := {} } dropsOperand
    ∃ g', l.graph.release ⟨1, 1⟩ = .error (.staleValue 0) g' ∧ l.graph.Removed g' ⟨1, 1⟩ ∧
      l.graph.Removed g' ⟨0, 0⟩ ∧ l.graph.refsOf ⟨0, 0⟩ = 1 ∧
      l.graph.operandList.count ⟨0, 0⟩ = 2 := by
  have failed : (Ledger.run { graph := {} } dropsOperand).graph.release ⟨1, 1⟩ =
      .error (.staleValue 0) { slots := #[none, none], free := [0, 1], nextSerial := 2 } := by
    rfl
  intro l
  have used : (l.graph.find? ⟨0, 0⟩).isSome := by decide +kernel
  refine ⟨_, failed, ?_⟩
  obtain ⟨gone, _⟩ | ⟨removed, _, _, x, _, stale, removed', _⟩ :=
    failed_release_overdraws 0 rfl failed
  · have live : (l.graph.find? ⟨1, 1⟩).isSome := by decide +kernel
    rw [gone] at live
    contradiction
  · obtain ⟨m, known⟩ := Option.isSome_iff_exists.mp removed'.1
    obtain ⟨term, found⟩ := Option.isSome_iff_exists.mp used
    obtain ⟨rfl, _⟩ := handle_unique found known (Fault.staleValue.inj stale)
    exact ⟨removed, removed', by decide +kernel, by decide +kernel⟩

end ShaderIR.Graph
