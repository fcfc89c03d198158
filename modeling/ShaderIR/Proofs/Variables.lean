import Mathlib.Data.List.Perm.Basic
import ShaderIR.Proofs.SoundSteps
import ShaderIR.Proofs.Whole

/-! The variables of a draft. Every variable is in exactly one of the lists from which variables are
declared, and there once. -/
namespace ShaderIR

namespace Draft

/-- The lists name every variable once, and a bound variable has the type it is bound with. -/
structure Enlisted (d : Draft) : Prop where
  distinct : d.variableList.Nodup
  rooted : ∀ p ∈ d.variableList, d.Rooted p
  complete : ∀ p, d.Rooted p → p ∈ d.variableList
  bindings : ∀ b ∈ d.bindings, ∀ data, d.places.find? b.place = some data → data.pointee = b.ty

theorem enlisted_cleared (d : Draft) (types : TypeTable) : (d.cleared types).Enlisted where
  distinct := by simp [cleared, variableList]
  rooted := by simp [cleared, variableList]
  complete := by simp [cleared, Rooted, Places.clear, Places.find?]
  bindings := by simp [cleared]

section Step

variable {strict : Prop} {d d' : Draft} (step : Step strict d d')

include step

/-- A step adds no variable, or one that it puts in one of the lists. -/
theorem Step.new_variable :
    (d'.variableList = d.variableList ∧ ∀ p data, d'.places.find? p = some data →
      d.places.find? p = none → data.origin ≠ .root) ∨
    ∃ ty writable, NewVariable d d' d.places.next ty writable ∧
      d'.variableList.Perm (d.places.next :: d.variableList) := by
  cases step with
  | input | binding | localVariable | output | builtin =>
    refine .inr ⟨_, _, ⟨rfl, _, rfl⟩, List.perm_iff_count.mpr fun p => ?_⟩
    simp only [variableList, withInput, withBinding, withLocal, withOutput, withBuiltin, withRef,
      withNode, withVariable, withPlace, Array.toList_push, List.map_append, List.map_cons,
      List.map_nil, List.count_append, List.count_cons, List.count_nil]
    omega
  | chain =>
    refine .inl ⟨rfl, fun p data found missing => ?_⟩
    obtain ⟨_, rfl⟩ := pushed_last found missing
    simp [chainData]
  | load | store =>
    refine .inl ⟨rfl, fun p data found missing => ?_⟩
    have marked : (d.places.markAccessed _).find? p = some data := found
    rw [Places.find?_markAccessed, missing] at marked
    contradiction
  | _ =>
    refine .inl ⟨rfl, fun p data found missing => ?_⟩
    exact absurd (found.symm.trans missing) (Option.some_ne_none _)

theorem Step.enlisted (valid : d.graph.Valid) (enlisted : d.Enlisted) : d'.Enlisted := by
  have extended := step.extends valid
  have bindings : ∀ b ∈ d'.bindings, ∀ data, d'.places.find? b.place = some data →
      data.pointee = b.ty := by
    intro b member data' found'
    rcases (step.new_lists valid).bindings b member with before | ⟨place, storage, places⟩
    · obtain ⟨data, found, _⟩ := enlisted.rooted b.place (by
        simp only [variableList, List.mem_append, List.mem_map]
        exact .inl (.inr ⟨b, Array.mem_toList_iff.mpr before, rfl⟩))
      obtain ⟨data'', found'', kept⟩ := extended.places b.place data found
      obtain rfl := Option.mem_unique found' found''
      rw [kept.same]
      exact enlisted.bindings b before data found
    · rw [places, place, Places.find?_push, if_pos rfl] at found'
      obtain rfl := Option.some.inj found'
      rfl
  -- A variable that was there before is in the lists already.
  have known : ∀ {p data data'}, d'.places.find? p = some data' → data'.origin = .root →
      d.places.find? p = some data → p ∈ d.variableList := by
    intro p data data' found' root found
    obtain ⟨data'', found'', kept⟩ := extended.places p data found
    obtain rfl := Option.mem_unique found' found''
    exact enlisted.complete p ⟨data, found, by rw [kept.same] at root; exact root⟩
  rcases step.new_variable with ⟨list, none⟩ | ⟨ty, writable, new, list⟩
  · refine ⟨list ▸ enlisted.distinct, fun p member => extended.rooted (enlisted.rooted p
      (list ▸ member)), fun p ⟨data', found', root⟩ => ?_, bindings⟩
    rw [list]
    cases found : d.places.find? p with
    | none => exact absurd root (none p data' found' found)
    | some data => exact known found' root found
  · refine ⟨list.nodup_iff.mpr (List.nodup_cons.mpr ⟨fun member => ?_, enlisted.distinct⟩),
      fun p member => ?_, fun p ⟨data', found', root⟩ => list.mem_iff.mpr ?_, bindings⟩
    · obtain ⟨data, found, _⟩ := enlisted.rooted _ member
      exact absurd (Places.find?_next _) (by rw [found]; nofun)
    · rcases List.mem_cons.mp (list.mem_iff.mp member) with rfl | before
      · exact new.rooted
      · exact extended.rooted (enlisted.rooted p before)
    · cases found : d.places.find? p with
      | none => exact List.mem_cons.mpr (.inl (step.new_place found' found).1)
      | some data => exact List.mem_cons_of_mem _ (known found' root found)

end Step

end Draft

end ShaderIR
