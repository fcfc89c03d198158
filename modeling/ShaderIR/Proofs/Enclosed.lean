import ShaderIR.Proofs.Handles
import ShaderIR.Proofs.Unpaired

/-! Open blocks. The calls between the begin and the end of a block leave it as it was opened, so
the call that closes it finds it innermost, and what was open before is open again. -/
namespace ShaderIR

variable {block : Scope} {index : Nat}

/-- The calls that build and have nothing to do with blocks, apart from jumps out of them. -/
def Call.isCalm (c : Call) : Bool := c.builds && !c.opens && !c.closes

def Scope.close : Scope → Call
  | .selection _ => .endIf
  | .loop _ => .endFor

namespace Draft

/-- The open blocks are as they were, and so is every selection that was there. Blocks that were
opened in the meantime are closed again. -/
structure Undisturbed (d d' : Draft) : Prop where
  scopes : d'.scopes = d.scopes
  selections : ∀ (i : Nat) s, d.selections[i]? = some s → d'.selections[i]? = some s

structure Encloses (d : Draft) (block : Scope) (d' : Draft) : Prop where
  scopes : d'.scopes = block :: d.scopes
  selections : ∀ (i : Nat) s, d.selections[i]? = some s → d'.selections[i]? = some s

structure Branches (d : Draft) (index : Nat) (d' : Draft) : Prop
    extends d.Encloses (.selection index) d' where
  new : d.selections[index]? = none
  single : ∃ s, d'.selections[index]? = some s ∧ s.hasElse = false

variable {d d₁ d₂ : Draft}

theorem Undisturbed.refl (d : Draft) : d.Undisturbed d := ⟨rfl, fun _ _ there => there⟩

theorem Undisturbed.trans (first : d.Undisturbed d₁) (second : d₁.Undisturbed d₂) :
    d.Undisturbed d₂ where
  scopes := second.scopes.trans first.scopes
  selections i s there := second.selections i s (first.selections i s there)

theorem Encloses.undisturbed (encloses : d.Encloses block d₁) (rest : d₁.Undisturbed d₂) :
    d.Encloses block d₂ where
  scopes := rest.scopes.trans encloses.scopes
  selections i s there := rest.selections i s (encloses.selections i s there)

theorem Undisturbed.encloses (first : d.Undisturbed d₁) (encloses : d₁.Encloses block d₂) :
    d.Encloses block d₂ where
  scopes := encloses.scopes.trans (congrArg (block :: ·) first.scopes)
  selections i s there := encloses.selections i s (first.selections i s there)

theorem Undisturbed.branches (first : d.Undisturbed d₁) (branches : d₁.Branches index d₂) :
    d.Branches index d₂ where
  toEncloses := first.encloses branches.toEncloses
  new := by
    cases before : d.selections[index]? with
    | none => rfl
    | some s =>
      have still := first.selections index s before
      rw [branches.new] at still
      contradiction
  single := branches.single

theorem Branches.undisturbed (branches : d.Branches index d₁) (rest : d₁.Undisturbed d₂) :
    d.Branches index d₂ where
  toEncloses := branches.toEncloses.undisturbed rest
  new := branches.new
  single := by
    obtain ⟨s, there, single⟩ := branches.single
    exact ⟨s, rest.selections index s there, single⟩

/-! Closing and switching. -/

theorem Encloses.close (encloses : d.Encloses block d₁) :
    ∃ d₂, block.close.run d₁ = .ok .done d₂ ∧ d.Undisturbed d₂ := by
  have closes : Outcome block.close.run d₁ (fun reply d₂ => reply = .done ∧ d.Undisturbed d₂)
      fun _ _ => False := by
    cases block with
    | selection index | loop index =>
      simp only [Scope.close, Call.run, endIf, endFor, outcome_map, outcome_bind, outcome_get,
        encloses.scopes]
      exact ⟨trivial, rfl, encloses.selections⟩
  obtain ⟨_, d₂, run, rfl, undisturbed⟩ := closes.exists_ok
  exact ⟨d₂, run, undisturbed⟩

/-- The second branch of a selection can be opened, and the selection stays innermost. -/
theorem Branches.switch (branches : d.Branches index d₁) :
    ∃ d₂, Call.beginElse.run d₁ = .ok .done d₂ ∧ d.Encloses (.selection index) d₂ := by
  obtain ⟨s, there, single⟩ := branches.single
  have others : ∀ (i : Nat) x, d.selections[i]? = some x →
      (d₁.switchSelection index s).selections[i]? = some x := by
    intro i x before
    have other : index ≠ i := by
      rintro rfl
      rw [branches.new] at before
      contradiction
    simp only [switchSelection, Array.getElem?_setIfInBounds_ne other]
    exact branches.selections i x before
  have switches : Outcome Call.beginElse.run d₁
      (fun reply d₂ => reply = .done ∧ d.Encloses (.selection index) d₂) fun _ _ => False := by
    simp only [Call.run, beginElse, outcome_map, outcome_bind, outcome_get, branches.scopes, there,
      single]
    exact ⟨trivial, rfl, others⟩
  obtain ⟨_, d₂, run, rfl, encloses⟩ := switches.exists_ok
  exact ⟨d₂, run, encloses⟩

end Draft

/-! Effects of calls. -/

section Effects

variable {d d' : Draft} {c : Call} {reply : Reply}

theorem Effect.undisturbed (effect : Effect d c reply d') (calm : c.isCalm = true) :
    d.Undisturbed d' := by
  cases effect with
  | beginIf | beginElse | endIf | beginFor | endFor => contradiction
  | uniform b | storage b | texture b => cases b <;> exact ⟨rfl, fun _ _ there => there⟩
  | _ => exact ⟨rfl, fun _ _ there => there⟩

theorem Effect.branches {condition : Handle} (effect : Effect d (.beginIf condition) reply d') :
    d.Branches d.selections.size d' := by
  cases effect with
  | beginIf =>
    refine ⟨⟨rfl, fun i s before => ?_⟩, by simp, ⟨d.nextSelection condition, ?_, rfl⟩⟩
    · obtain ⟨bound, _⟩ := Array.getElem?_eq_some_iff.mp before
      show (d.selections.push _)[i]? = some s
      rw [Array.getElem?_push_lt bound, ← before, Array.getElem?_eq_getElem bound]
    · exact Array.getElem?_push_size

theorem Effect.encloses {first last : Int32} (effect : Effect d (.beginFor first last) reply d') :
    d.Encloses (.loop d.loops.size) d' := by
  cases effect with
  | beginFor => exact ⟨rfl, fun _ _ before => before⟩

end Effects

namespace Draft

variable {d : Draft}

theorem undisturbed_leaves (valid : d.graph.Valid) {c : Call} (calm : c.isCalm = true) :
    d.Undisturbed (c.leaves d) := by
  have builds : c.builds = true := by
    simp only [Call.isCalm, Bool.and_eq_true] at calm
    exact calm.1.1
  rcases Call.leaves_cases valid builds with ⟨reply, _, effect⟩ | ⟨_, same⟩
  · exact effect.undisturbed calm
  · rw [same]
    exact .refl d

theorem undisturbed_after (issuing : d.Issuing) {calls : List Call}
    (calm : ∀ c ∈ calls, c.isCalm = true) : d.Undisturbed (d.after calls) := by
  induction calls generalizing d with
  | nil => exact .refl d
  | cons c rest ih =>
    have first := undisturbed_leaves issuing.valid (calm c (List.mem_cons_self ..))
    have next : (c.leaves d).Issuing := (issuing.after [c]).1
    exact first.trans (ih next fun c' member => calm c' (List.mem_cons_of_mem c member))

theorem restart_scopes (d : Draft) (types : TypeTable) : (d.restart types).scopes = [] := by
  rw [restart_eq]
  have slots : ∀ (d' : Draft) slots, (d'.withSlots slots).scopes = d'.scopes := by
    intro d' slots
    induction slots generalizing d' with
    | nil => rfl
    | cons ty rest ih => exact ih (d'.withInput ty)
  exact slots _ _

end Draft

end ShaderIR
