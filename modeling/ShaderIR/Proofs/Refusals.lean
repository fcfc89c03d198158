import ShaderIR.Proofs.Accounts
import ShaderIR.Proofs.Overflow

/-! What a compilation can be refused for. What calls check while a draft is built is enough: after a
program that drops only references it holds, a compilation fails for an open block or for a type that
no module can declare, and for nothing else. If it checks its arithmetic, it can also stop. -/
namespace ShaderIR

variable {fault : Fault}

namespace Draft

section Whole

variable {strict : Prop} {d : Draft} (proper : d.Proper strict)

include proper

theorem Proper.refuses (refused : d.compilation.result = .error fault) : Emit.Refuses d fault :=
  (proper.toSteady.refuses refused).2 proper.listed

theorem Proper.result_of_open (opened : d.scopes ≠ []) :
    d.compilation.result = .error (.controlFlow .openAtCompile) := by
  cases result : d.compilation.result with
  | ok m =>
    obtain ⟨_, _, _, _, _, parts, _⟩ := proper.assemble_ok result
    exact absurd parts.scopes opened
  | error fault =>
    rcases proper.refuses result with ⟨_, rfl⟩ | ⟨closed, _⟩
    · rfl
    · exact absurd closed opened

/-- A whole draft without open blocks is refused only for a type, and only if it has such a type. -/
theorem Proper.refused_closed (whole : d.Whole) (closed : d.scopes = [])
    (refused : d.compilation.result = .error fault) : fault.Undeclarable ∧ ¬d.Declarable := by
  rcases proper.refuses refused with ⟨opened, _⟩ | ⟨_, allowed⟩
  · exact absurd closed opened
  · exact allowed.2 whole

end Whole

/-- After a program that drops only references it holds, a compilation is refused because a block is
open, exactly if one is, or for a type that no module can declare. If no block is open and all types
can be declared, there is a module. A compilation that checks its arithmetic gives the same, or it
stops. With an open block it stops only if the ids have run out; and it gives the module exactly if
the ids, the lengths of instructions and the sizes of all that blocks are laid out of fit. -/
theorem refused_only_if_open_or_undeclarable (settings : Settings) (slots : List Ty) {first : Draft}
    (begun : withInputs settings slots = .ok () first) {program : List Call}
    (building : ∀ c ∈ program, c.restarts = false) (thrifty : first.Thrifty [] program) {d : Draft}
    (reached : first.after program = d) :
    FlowFault.openAtCompile.message = "a block is still open at compile time" ∧
      (d.compilation.result = .error (.controlFlow .openAtCompile) ↔ d.scopes ≠ []) ∧
      (∀ fault, d.compilation.result = .error fault → fault = .controlFlow .openAtCompile ∨
        ∃ ty : Ty, fault = .unsupportedType ty ∧ ty.isRefused = true) ∧
      (∀ result, d.checkedResult = some result → result = d.compilation.result) ∧
      (d.scopes ≠ [] → (d.checkedResult = none ↔ UInt32.size ≤ d.nextId)) ∧
      (d.scopes = [] → d.Declarable → ∃ m, d.compilation.result = .ok m ∧
        (d.checkedResult = some (.ok m) ↔ m.bound < UInt32.size ∧
          (∀ i ∈ m.instructions, i.wordCount ≤ 65535) ∧
            ∀ block ∈ d.blocks, ∀ ty ∈ block.reach, ty.size < UInt32.size)) := by
  obtain rfl := eq_of_withInputs begun
  have proper := (proper_begun False settings slots).after building
  have whole := whole_after building thrifty
  have structs := blocks_struct settings slots building
  rw [reached] at proper whole structs
  refine ⟨rfl, ⟨fun refused closed => ?_, proper.result_of_open⟩, fun fault refused => ?_,
    fun result => eq_of_checkedResult, proper.checkedResult_of_open, fun closed declarable => ?_⟩
  · obtain ⟨⟨ty, differs, _⟩, _⟩ := proper.refused_closed whole closed refused
    contradiction
  · by_cases closed : d.scopes = []
    · exact .inr (proper.refused_closed whole closed refused).1
    · rw [proper.result_of_open closed] at refused
      exact .inl (Except.error.inj refused).symm
  · cases result : d.compilation.result with
    | ok m => exact ⟨m, rfl, proper.checkedResult_ok declarable structs result⟩
    | error fault => exact absurd declarable (proper.refused_closed whole closed result).2

end Draft

/-! Whether a program drops only references it holds can be computed. -/

instance (d : Draft) (owed : List Handle) (c : Call) : Decidable (c.Entitled d owed) :=
  match c with
  | .release value =>
      match found : d.graph.find? value with
      | none => .isTrue (by simp [Call.Entitled, found])
      | some n => decidable_of_iff (n.refs = 0 ∨ value ∈ owed) (by simp [Call.Entitled, found])
  | .addInput _ | .input _ | .constant _ | .binary .. | .negate _ | .select .. | .construct ..
  | .uniform .. | .storage .. | .texture .. | .localVariable _ | .member .. | .index .. | .pointee _
  | .load _ | .store .. | .beginIf _ | .beginElse | .endIf | .beginFor .. | .endFor | .breakLoop
  | .continueLoop | .output _ | .builtin .. | .retain _ | .typeOf _ | .compile | .reset =>
      .isTrue trivial

instance Draft.decideThrifty (d : Draft) (owed : List Handle) :
    (calls : List Call) → Decidable (d.Thrifty owed calls)
  | [] => .isTrue trivial
  | c :: rest =>
      have : Decidable ((c.leaves d).Thrifty (c.owing d owed) rest) :=
        decideThrifty (c.leaves d) (c.owing d owed) rest
      inferInstanceAs (Decidable (_ ∧ _))

namespace Draft

theorem declarable_of_all {d : Draft}
    (values : (d.graph.slots.all fun slot => slot.all fun n => n.ty.isDeclarable) = true)
    (places : (d.places.entries.all fun data => data.pointee.isDeclarable) = true) :
    d.Declarable where
  values h n found := by
    obtain ⟨slot, _⟩ := Graph.find?_eq_some.mp found
    simpa using Array.all_eq_true'.mp values _ (Array.mem_of_getElem? slot)
  places p data found := by
    unfold Places.find? at found
    split at found
    · contradiction
    · exact Array.all_eq_true'.mp places data (Array.mem_of_getElem? found)

/-- A program that takes a reference on a value, drops the product built from it and then its own
reference, and writes a value that gets the freed slot. It binds a block whose size does not fit. -/
def dropsHeld : List Call :=
  [.binary .add ⟨0, 0⟩ ⟨0, 0⟩, .retain ⟨1, 1⟩, .binary .mul ⟨1, 1⟩ ⟨1, 1⟩, .release ⟨2, 2⟩,
    .release ⟨1, 1⟩, .negate ⟨0, 0⟩, .output ⟨1, 3⟩,
    .uniform 0 0 (.struct [.array (.vec 4) 0x10000000, .single])]

theorem dropsHeld_accepted :
    withInputs { stage := .vertex } [.single] = .ok () (vertex [.single]) ∧
      (∀ c ∈ dropsHeld, c.restarts = false) ∧
      (vertex [.single]).Thrifty [] dropsHeld ∧
      ∃ d, (vertex [.single]).after dropsHeld = d ∧ d.scopes = [] ∧
        d.compilation.result ≠ .error (.controlFlow .openAtCompile) ∧
        (∀ result, d.checkedResult = some result → result = d.compilation.result) ∧
        d.Declarable ∧ ∃ m, d.compilation.result = .ok m ∧ d.checkedResult = none := by
  have building : ∀ c ∈ dropsHeld, c.restarts = false := by decide
  have thrifty : (vertex [.single]).Thrifty [] dropsHeld := by
    decide +kernel
  refine ⟨withInputs_eq _ _, building, thrifty, _, rfl, ?_⟩
  obtain ⟨_, opened, _, same, _, compiled⟩ := refused_only_if_open_or_undeclarable
    { stage := .vertex } [.single] (withInputs_eq _ _) building thrifty rfl
  have closed : ((vertex [.single]).after dropsHeld).scopes = [] := by
    decide +kernel
  have block : .struct [.array (.vec 4) 0x10000000, .single] ∈
      ((vertex [.single]).after dropsHeld).blocks := by
    decide +kernel
  have declarable := declarable_of_all (d := (vertex [.single]).after dropsHeld) (by decide +kernel)
    (by decide +kernel)
  refine ⟨closed, fun refused => opened.mp refused closed, same, declarable, ?_⟩
  obtain ⟨m, result, fits⟩ := compiled closed declarable
  refine ⟨m, result, Option.eq_none_iff_forall_ne_some.mpr fun given checked => ?_⟩
  rw [same given checked, result, fits] at checked
  exact absurd (checked.2.2 _ block _ (Ty.mem_reach_self _)) (by decide)

end Draft

end ShaderIR
