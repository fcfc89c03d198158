import ShaderIR.Proofs.ShiftCalls
import ShaderIR.Proofs.StepwiseDemand

/-! What a type table remembers. A table forgets only the types that came in since it last forgot,
and a type that had a line before does not come in again; so a type that is declared in two
compilations stays declared for good. -/
namespace ShaderIR

variable {t t' : TypeTable} {n : Nat}

namespace TypeTable

structure Grows (t t' : TypeTable) : Prop where
  lines : ∀ ty, (t.lines.find? ty).isSome → (t'.lines.find? ty).isSome
  declared : ∀ ty, (t.find? ty).isSome → (t'.find? ty).isSome
  /-- A type is listed as recent only if it had no line. -/
  recent : ∀ ty ∈ t'.recent, ty ∈ t.recent ∨ t.lines.find? ty = none
  /-- A type that has a line now had one before or is listed as recent. -/
  listed : ∀ ty, (t'.lines.find? ty).isSome → (t.lines.find? ty).isSome ∨ ty ∈ t'.recent

theorem Grows.refl (t : TypeTable) : t.Grows t :=
  ⟨fun _ known => known, fun _ known => known, fun _ member => .inl member, fun _ known => .inl known⟩

theorem Grows.declare (grows : t.Grows t') (ty : Ty) (id : Id) : t.Grows (t'.declare ty id) where
  lines other known := by
    simp only [TypeTable.declare, Assoc.find?_insert]
    split
    · rfl
    · exact grows.lines other known
  declared other known := by
    rw [find?_declare]
    split
    · rfl
    · exact grows.declared other known
  recent other member := by
    simp only [TypeTable.declare] at member
    split at member
    · exact grows.recent other member
    · rename_i absent
      rcases List.mem_cons.mp member with rfl | before
      · cases known : t.lines.find? other with
        | none => exact .inr rfl
        | some line => exact absurd (grows.lines other (by rw [known]; rfl)) absent
      · exact grows.recent other before
  listed other known := by
    simp only [TypeTable.declare] at known ⊢
    rw [Assoc.find?_insert] at known
    split at known
    · rename_i same
      subst same
      split
      · rename_i present
        exact grows.listed ty present
      · exact .inr (by simp)
    · rcases grows.listed other known with before | member
      · exact .inl before
      · refine .inr ?_
        split
        · exact member
        · exact List.mem_cons_of_mem ty member

theorem Grows.markDecorated (grows : t.Grows t') (ty : Ty) : t.Grows (t'.markDecorated ty) := by
  have lines : ∀ other, ((t'.markDecorated ty).lines.find? other).isSome =
      (t'.lines.find? other).isSome := by
    intro other
    unfold TypeTable.markDecorated
    cases found : t'.find? ty with
    | none => rfl
    | some line =>
      simp only [Assoc.find?_insert]
      split
      · rename_i same
        subst same
        cases known : t'.lines.find? ty with
        | none => simp [TypeTable.find?, known] at found
        | some _ => rfl
      · rfl
  have recent : (t'.markDecorated ty).recent = t'.recent := by
    unfold TypeTable.markDecorated
    split <;> rfl
  refine ⟨?_, ?_, ?_, ?_⟩
  · intro other known
    rw [lines]
    exact grows.lines other known
  · intro other known
    rw [find?_markDecorated]
    have declared := grows.declared other known
    split
    · rwa [Option.isSome_map]
    · exact declared
  · rw [recent]
    exact grows.recent
  · intro other known
    rw [lines] at known
    rw [recent]
    exact grows.listed other known

structure Kept (Q : TypeTable → Prop) : Prop where
  declare : ∀ (t : TypeTable) (ty : Ty) (id : Id), Q t → Q (t.declare ty id)
  decorate : ∀ (t : TypeTable) (ty : Ty), Q t → Q (t.markDecorated ty)

theorem kept_grows (t : TypeTable) : Kept t.Grows :=
  ⟨fun _ ty id grows => grows.declare ty id, fun _ ty grows => grows.markDecorated ty⟩

theorem kept_declared (ty : Ty) : Kept fun t => (t.find? ty).isSome := by
  refine ⟨fun t other id declared => ?_, fun t other declared => ?_⟩
  · rw [find?_declare]
    split
    · rfl
    · exact declared
  · rw [find?_markDecorated]
    split
    · rwa [Option.isSome_map]
    · exact declared

theorem lines_forget (t : TypeTable) (ty : Ty) :
    t.forget.lines.find? ty = if ty ∈ t.recent then some none else t.lines.find? ty := by
  have erase : ∀ (recent : List Ty) (lines : Assoc Ty (Option Declared)),
      (recent.foldl (fun lines ty => Assoc.insert lines ty none) lines).find? ty =
        if ty ∈ recent then some none else lines.find? ty := by
    intro recent
    induction recent with
    | nil => simp
    | cons first rest ih =>
      intro lines
      rw [List.foldl_cons, ih, Assoc.find?_insert]
      by_cases later : ty ∈ rest
      · simp [later]
      · by_cases same : first = ty
        · simp [same]
        · have differs : ty ≠ first := fun eq => same eq.symm
          simp [later, same, differs]
  exact erase t.recent t.lines

/-- A table after a number of compilations, each ended by forgetting. -/
def Aged (t : TypeTable) : Nat → Prop
  | 0 => t.recent = [] ∧ ∀ ty, t.lines.find? ty = none
  | 1 => t.recent = [] ∧ (∀ ty, t.find? ty = none) ∧ (t.lines.find? .void).isSome
  | _ + 2 => t.recent = [] ∧ (t.find? .void).isSome

theorem Aged.recent (aged : t.Aged n) : t.recent = [] := by
  rcases n with _ | _ | n <;> exact aged.1

theorem Aged.undeclared (aged : t.Aged n) (young : n ≤ 1) (ty : Ty) : t.find? ty = none := by
  rcases n with _ | _ | n
  · simp [find?, aged.2 ty]
  · exact aged.2.1 ty
  · omega

theorem Aged.void_declared (aged : t.Aged n) (old : 1 < n) : (t.find? .void).isSome := by
  obtain ⟨n, rfl⟩ : ∃ m, n = m + 2 := ⟨n - 2, by omega⟩
  exact aged.2

theorem Aged.forget (aged : t.Aged n) : t.forget = t := by
  unfold TypeTable.forget
  rw [aged.recent]
  exact congrArg (TypeTable.mk t.lines) aged.recent.symm

/-- One compilation, which declares the empty type, and forgetting after it. -/
theorem Aged.next (aged : t.Aged n) (grows : t.Grows t') (declared : (t'.find? .void).isSome) :
    t'.forget.Aged (n + 1) := by
  have line : (t'.lines.find? .void).isSome := by
    cases known : t'.lines.find? .void with
    | none => simp [find?, known] at declared
    | some _ => rfl
  rcases n with _ | n
  · -- Every line is new, so all of them are forgotten.
    have all : ∀ ty, (t'.lines.find? ty).isSome → ty ∈ t'.recent := by
      intro ty known
      rcases grows.listed ty known with before | member
      · rw [aged.2 ty] at before
        contradiction
      · exact member
    refine ⟨rfl, fun ty => ?_, ?_⟩
    · unfold find?
      rw [lines_forget]
      split
      · rfl
      · rename_i absent
        cases known : t'.lines.find? ty with
        | none => rfl
        | some _ => exact absurd (all ty (by rw [known]; rfl)) absent
    · rw [lines_forget, if_pos (all .void line)]
      rfl
  · -- The empty type had a line, so it is not listed as recent and stays declared.
    have known : (t.lines.find? .void).isSome := by
      rcases n with _ | n
      · exact aged.2.2
      · cases line : t.lines.find? .void with
        | none => simp [TypeTable.Aged, find?, line] at aged
        | some _ => rfl
    have absent : Ty.void ∉ t'.recent := by
      intro member
      rcases grows.recent .void member with before | missing
      · simp [aged.recent] at before
      · rw [missing] at known
        contradiction
    refine ⟨rfl, ?_⟩
    unfold find? at declared ⊢
    rwa [lines_forget, if_neg absent]

end TypeTable

end ShaderIR
