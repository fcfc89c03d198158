import ShaderIR.Proofs.Owners

/-! The ids of constants. Each is taken during the compilation, or was given out before to the literal
or to a node that stands for it; so no two literals share one. -/
namespace ShaderIR

variable {id : Id} {literal : Literal} {ids : EntryIds}

namespace Emission

def Taken (e : Emission) (d : Draft) (id : Id) : Prop := d.nextId ≤ id ∧ id < e.nextId

/-- The id of a constant: taken during the compilation, or given out before to the literal or to a
node that stands for it. -/
def Names (e : Emission) (d : Draft) (literal : Literal) (id : Id) : Prop :=
  e.Taken d id ∨ d.Owns id (.literal literal) ∨
    ∃ h n, d.graph.find? h = some n ∧ n.kind = .constant literal ∧ n.id = id

structure Tidy (d : Draft) (e : Emission) : Prop where
  nextId : d.nextId ≤ e.nextId
  literals : ∀ literal entry, e.constants.find? literal = some entry → e.Names d literal entry.id
  distinct : ∀ literal literal' entry entry', e.constants.find? literal = some entry →
    e.constants.find? literal' = some entry' → entry.id = entry'.id → literal = literal'

section Step

variable {strict : Prop} {d : Draft} {k : Nat} {e e' : Emission}

theorem tidy_start (owned : d.Owned) : Tidy d (.start d) where
  nextId := Nat.le_refl _
  literals _ entry found := .inr (.inl ⟨entry, found, rfl⟩)
  distinct _ _ entry entry' found found' same :=
    Owner.literal.inj (owned.unique _ _ _ ⟨entry, found, rfl⟩ ⟨entry', found', same.symm⟩)

theorem Grows.taken (grows : e.Grows e') (taken : e.Taken d id) : e'.Taken d id :=
  ⟨taken.1, Nat.lt_of_lt_of_le taken.2 grows.nextId⟩

theorem Grows.names (grows : e.Grows e') (names : e.Names d literal id) : e'.Names d literal id :=
  names.imp_left grows.taken

theorem Tidy.same (tidy : e.Tidy d) (grows : e.Grows e') (constants : e'.constants = e.constants) :
    e'.Tidy d where
  nextId := Nat.le_trans tidy.nextId grows.nextId
  literals literal entry found := grows.names (tidy.literals literal entry (constants ▸ found))
  distinct := constants ▸ tidy.distinct

theorem Names.lt (owned : d.Owned) (tidy : e.Tidy d) (names : e.Names d literal id) :
    id < e.nextId := by
  rcases names with taken | owns | ⟨h, n, found, _, same⟩
  · exact taken.2
  · exact Nat.lt_of_lt_of_le (owned.bound id _ owns) tidy.nextId
  · exact Nat.lt_of_lt_of_le (owned.bound id (.value h) ⟨n, found, same⟩) tidy.nextId

theorem Names.kind (owned : d.Owned) {h : Handle} {n : Node} (names : e.Names d literal n.id)
    (found : d.graph.find? h = some n) : n.kind = .constant literal := by
  have owns : d.Owns n.id (.value h) := ⟨n, found, rfl⟩
  rcases names with taken | other | ⟨h', n', found', kind, same⟩
  · exact absurd (owned.bound _ _ owns) (Nat.not_lt.mpr taken.1)
  · exact absurd (owned.unique _ _ _ owns other) (by simp)
  · obtain rfl := Owner.value.inj (owned.unique _ _ _ owns ⟨n', found', same⟩)
    obtain rfl := Option.mem_unique found found'
    exact kind

/-- A literal that had no id gets one that no other literal has. -/
theorem Tidy.register (tidy : e.Tidy d)
    (new : ∀ literal' entry', e.constants.find? literal' = some entry' → entry'.id = id →
      literal' = literal) (l l' : Literal) (entry entry' : ConstantEntry)
    (found : (e.constants.register literal id).find? l = some entry)
    (found' : (e.constants.register literal id).find? l' = some entry')
    (same : entry.id = entry'.id) : l = l' := by
  rw [ConstantTable.find?_register] at found found'
  split at found <;> split at found'
  · exact ‹literal = l› ▸ ‹literal = l'›
  · obtain rfl := Option.some.inj found
    exact (‹literal = l› ▸ new l' entry' found' same.symm).symm
  · obtain rfl := Option.some.inj found'
    exact ‹literal = l'› ▸ new l entry found same
  · exact tidy.distinct l l' entry entry' found found' same

theorem Quiet.tidy (owned : d.Owned) (step : Quiet d e e') (tidy : e.Tidy d) : e'.Tidy d := by
  have grows := step.grows
  have later := Nat.le_trans tidy.nextId grows.nextId
  have names : ∀ literal entry, e.constants.find? literal = some entry →
      e'.Names d literal entry.id := fun literal entry found =>
    grows.names (tidy.literals literal entry found)
  cases step with
  | fresh | announce | annotate | decorate => exact tidy.same grows rfl
  | @register literal missing =>
    refine ⟨later, fun other entry found => ?_, tidy.register fun l entry found same => ?_⟩
    · rw [ConstantTable.find?_register] at found
      split at found
      · obtain rfl := Option.some.inj found
        exact .inl ⟨tidy.nextId, Nat.lt_succ_self _⟩
      · exact names other entry found
    · have below := (tidy.literals l entry found).lt owned tidy
      rw [same] at below
      exact absurd below (Nat.lt_irrefl _)
  | @name h n literal known kind missing =>
    refine ⟨later, fun other entry found => ?_, tidy.register fun l entry found same => ?_⟩
    · rw [ConstantTable.find?_register] at found
      split at found
      · rename_i same
        subst same
        obtain rfl := Option.some.inj found
        exact .inr (.inr ⟨h, n, known, kind, rfl⟩)
      · exact names other entry found
    · have taken := tidy.literals l entry found
      rw [same] at taken
      exact NodeKind.constant.inj ((taken.kind owned known).symm.trans kind)
  | @declare literal id type registered =>
    have before : ∀ l entry, (e.constants.declare literal id).find? l = some entry →
        ∃ entry', e.constants.find? l = some entry' ∧ entry'.id = entry.id := by
      intro l entry found
      rw [ConstantTable.find?_declare] at found
      split at found
      · rename_i same
        subst same
        obtain rfl := Option.some.inj found
        exact ⟨_, registered, rfl⟩
      · exact ⟨entry, found, rfl⟩
    refine ⟨later, fun other entry found => ?_, fun l l' entry entry' found found' same => ?_⟩
    · obtain ⟨entry', found', same⟩ := before other entry found
      rw [← same]
      exact names other entry' found'
    · obtain ⟨old, found, eq⟩ := before l entry found
      obtain ⟨old', found', eq'⟩ := before l' entry' found'
      exact tidy.distinct l l' old old' found found' (eq.trans (same.trans eq'.symm))

theorem Enters.tidy (owned : d.Owned) (enters : Enters d ids e) : e.Tidy d := by
  obtain ⟨e₀, steps, _, _, _, _, _, rfl⟩ := enters
  exact (keeps_along (fun step => step.tidy owned) steps (tidy_start owned)).same
    (grows_entry e₀ _ 4) rfl

theorem Move.tidy {k' : Nat} (owned : d.Owned) (move : Move strict d k e k' e') (tidy : e.Tidy d) :
    e'.Tidy d := by
  have grows := move.grows
  cases move with
  | prepare step =>
    cases step with
    | quiet step => exact step.tidy owned tidy
    | shared | own => exact tidy.same grows rfl
  | ask step =>
    cases step with
    | quiet step => exact step.tidy owned tidy
    | literal | compute | chain => exact tidy.same grows rfl
  | mark | load | store | boundary | pass => exact tidy.same grows rfl

theorem Compiled.tidy (steady : d.Steady strict) {interface : List Id} {stages : Stages}
    (compiled : Compiled strict d ids interface e stages) : e.Tidy d :=
  compiled.keeps (P := fun _ e => e.Tidy d) (fun move => move.tidy steady.owned) steady.sound
    fun _ enters => enters.tidy steady.owned

end Step

end Emission

end ShaderIR
