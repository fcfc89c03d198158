import Mathlib.Data.List.Dedup
import Mathlib.Data.List.Perm.Basic
import ShaderIR.Proofs.Quiet
import ShaderIR.Proofs.StepwiseDemand

/-! How a layout is annotated. A struct or an array needs its own annotations and those of all that
it is laid out of. That a type has them is noted once they are all written, for the types inside of
it before itself; so what is noted is closed under going inside, and nothing is annotated twice. -/
namespace ShaderIR

variable {ty : Ty} {i : Instruction} {inner scope : List Ty}

/-! What a type is laid out of, and its annotations. -/

namespace Ty

mutual

/-- A type and all types that it is laid out of: members of structs and elements of arrays. -/
def reach : Ty → List Ty
  | .struct members => .struct members :: reachAll members
  | .array element length => .array element length :: reach element
  | .runtimeArray element => .runtimeArray element :: reach element
  | ty => [ty]

def reachAll : List Ty → List Ty
  | [] => []
  | member :: rest => reach member ++ reachAll rest

end

def isLaid : Ty → Bool
  | .struct _ | .array _ _ | .runtimeArray _ => true
  | _ => false

def laidFrom (roots : List Ty) : List Ty := ((roots.flatMap reach).filter isLaid).dedup

def matrixAnnotations (struct : Id) (index : Nat) : Ty → List Instruction
  | .matrix component rows columns =>
      if 1 < columns then
        [.decorateMember struct index .colMajor,
          .decorateMember struct index (.matrixStride (rows * component.sizeWord))]
      else []
  | _ => []

def memberAnnotations (struct : Id) (index : Nat) (offset : Word) : List Ty → List Instruction
  | [] => []
  | member :: rest =>
      .decorateMember struct index (.offset offset) :: matrixAnnotations struct index member ++
        memberAnnotations struct (index + 1) (offset + member.sizeWord) rest

def annotations (id : Id) : Ty → List Instruction
  | .struct members => memberAnnotations id 0 0 members
  | .array element _ | .runtimeArray element => [.decorate id (.arrayStride element.sizeWord)]
  | _ => []

mutual

/-- Words wrap around, so the size in words is what is left of the size. -/
theorem sizeWord_eq : ∀ ty : Ty, ty.sizeWord = .ofNat ty.size
  | .matrix component rows columns => by
    rw [sizeWord, size, sizeWord_eq component, UInt32.ofNat_mul, UInt32.ofNat_mul,
      UInt32.ofNat_toNat, UInt32.ofNat_toNat]
  | .array element length => by
    rw [sizeWord, size, sizeWord_eq element, UInt32.ofNat_mul, UInt32.ofNat_toNat]
  | .struct members => by rw [sizeWord, size, sizeWords_eq members]
  | .int width _ | .float width => by
    rw [sizeWord, size]
    apply UInt32.toNat.inj
    rw [UInt32.toNat_div, UInt32.toNat_ofNat_of_lt']
    · rfl
    · exact Nat.lt_of_le_of_lt (Nat.div_le_self _ _) width.toNat_lt
  | .bool | .void | .runtimeArray _ | .pointer _ _ | .image _ _ _ | .texture _ => by
    rw [sizeWord, size]
    rfl

theorem sizeWords_eq : ∀ members : List Ty, sizeWords members = .ofNat (sizeAll members)
  | [] => rfl
  | member :: rest => by
    rw [sizeWords, sizeAll, sizeWord_eq member, sizeWords_eq rest, UInt32.ofNat_add]

end

theorem reach_of_plain (plain : ty.isLaid = false) : ty.reach = [ty] := by
  cases ty with
  | struct | array | runtimeArray => contradiction
  | _ => simp only [reach]

theorem mem_reach_self (ty : Ty) : ty ∈ ty.reach := by
  cases ty <;> simp [reach]

theorem reach_subset_reachAll {member : Ty} {members : List Ty} (inside : member ∈ members) :
    ∀ ty ∈ member.reach, ty ∈ reachAll members := by
  induction members with
  | nil => contradiction
  | cons first rest ih =>
    intro ty reached
    rw [reachAll, List.mem_append]
    rcases List.mem_cons.mp inside with rfl | inside
    · exact .inl reached
    · exact .inr (ih inside ty reached)

mutual

theorem rank_le_of_reach : ∀ (ty : Ty) {inner : Ty}, inner ∈ ty.reach → inner.rank ≤ ty.rank
  | .struct members, inner, reached => by
    rw [reach, List.mem_cons] at reached
    rcases reached with rfl | reached
    · exact Nat.le_refl _
    · rw [rank]
      exact Nat.le_succ_of_le (rank_le_of_reachAll members reached)
  | .array element _, inner, reached | .runtimeArray element, inner, reached => by
    rw [reach, List.mem_cons] at reached
    rcases reached with rfl | reached
    · exact Nat.le_refl _
    · rw [rank]
      exact Nat.le_succ_of_le (rank_le_of_reach element reached)
  | .void, inner, reached | .bool, inner, reached | .int _ _, inner, reached
  | .float _, inner, reached | .matrix _ _ _, inner, reached | .pointer _ _, inner, reached
  | .image _ _ _, inner, reached | .texture _, inner, reached => by
    rw [reach_of_plain rfl, List.mem_singleton] at reached
    exact Nat.le_of_eq (congrArg rank reached)

theorem rank_le_of_reachAll : ∀ (members : List Ty) {inner : Ty}, inner ∈ reachAll members →
    inner.rank ≤ rankAll members
  | [], inner, reached => by simp [reachAll] at reached
  | member :: rest, inner, reached => by
    rw [reachAll, List.mem_append] at reached
    rw [rankAll]
    rcases reached with reached | reached
    · exact Nat.le_trans (rank_le_of_reach member reached) (Nat.le_max_left _ _)
    · exact Nat.le_trans (rank_le_of_reachAll rest reached) (Nat.le_max_right _ _)

end

mutual

theorem reach_trans : ∀ (ty : Ty) {middle inner : Ty}, middle ∈ ty.reach → inner ∈ middle.reach →
    inner ∈ ty.reach
  | .struct members, middle, inner, first, second => by
    rw [reach, List.mem_cons] at first
    rcases first with rfl | first
    · exact second
    · rw [reach, List.mem_cons]
      exact .inr (reachAll_trans members first second)
  | .array element _, middle, inner, first, second
  | .runtimeArray element, middle, inner, first, second => by
    rw [reach, List.mem_cons] at first
    rcases first with rfl | first
    · exact second
    · rw [reach, List.mem_cons]
      exact .inr (reach_trans element first second)
  | .void, _, _, first, second | .bool, _, _, first, second | .int _ _, _, _, first, second
  | .float _, _, _, first, second | .matrix _ _ _, _, _, first, second
  | .pointer _ _, _, _, first, second | .image _ _ _, _, _, first, second
  | .texture _, _, _, first, second => by
    rw [reach_of_plain rfl, List.mem_singleton] at first
    rwa [first] at second

theorem reachAll_trans : ∀ (members : List Ty) {middle inner : Ty}, middle ∈ reachAll members →
    inner ∈ middle.reach → inner ∈ reachAll members
  | [], _, _, first, _ => by simp [reachAll] at first
  | member :: rest, _, _, first, second => by
    rw [reachAll, List.mem_append] at first ⊢
    rcases first with first | first
    · exact .inl (reach_trans member first second)
    · exact .inr (reachAll_trans rest first second)

end

theorem mem_laidFrom {roots : List Ty} :
    ty ∈ laidFrom roots ↔ (∃ root ∈ roots, ty ∈ root.reach) ∧ ty.isLaid = true := by
  rw [laidFrom, List.mem_dedup, List.mem_filter, List.mem_flatMap]

theorem nodup_laidFrom (roots : List Ty) : (laidFrom roots).Nodup := List.nodup_dedup _

end Ty

theorem TypeTable.isDecorated_markDecorated (t : TypeTable) (ty other : Ty) :
    (t.markDecorated ty).isDecorated other = true ↔
      t.isDecorated other = true ∨ ty = other ∧ (t.find? other).isSome := by
  unfold isDecorated
  rw [find?_markDecorated]
  by_cases same : ty = other
  · subst same
    rw [if_pos rfl]
    cases t.find? ty <;> simp
  · simp [same]

/-! What annotating a layout leaves. -/

/-- A target, and a decoration of it that says neither where it is found nor how it is laid out. -/
def Instruction.sign? : Instruction → Option (Id × Decoration)
  | .decorate id decoration =>
      if decoration.locates || (Instruction.decorate id decoration).isLayout then none
      else some (id, decoration)
  | _ => none

theorem Instruction.sign?_of_isLayout (layout : i.isLayout = true) : i.sign? = none := by
  cases i with
  | decorate id decoration => rw [sign?, layout, Bool.or_true, if_pos rfl]
  | _ => rfl

namespace Emission

def layouts (e : Emission) : List Instruction := e.annotations.toList.filter Instruction.isLayout

def signs (e : Emission) : List (Id × Decoration) :=
  e.annotations.toList.filterMap Instruction.sign?

def layoutOf (e : Emission) (ty : Ty) : List Instruction := (e.types.id? ty).elim [] ty.annotations

/-- A step that writes the annotations of some types that had none, and notes that, besides a part
of the annotations of a type that is under way. -/
structure Lays (e : Emission) (own : List Instruction) (new : List Ty) (e' : Emission) : Prop where
  nextId : e'.nextId = e.nextId
  ids : ∀ ty, e'.types.id? ty = e.types.id? ty
  flags : ∀ ty, e'.types.isDecorated ty = true ↔ e.types.isDecorated ty = true ∨ ty ∈ new
  free : ∀ ty ∈ new, ¬ e.types.isDecorated ty = true
  distinct : new.Nodup
  signs : e'.signs = e.signs
  layouts : e'.layouts.Perm (e.layouts ++ own ++ new.flatMap e.layoutOf)

def Closed (e : Emission) : Prop :=
  ∀ ty, e.types.isDecorated ty = true → ∀ inner ∈ ty.reach, inner.isLaid = true →
    e.types.isDecorated inner = true

section Lays

variable {e e₁ e₂ : Emission} {own own' : List Instruction} {new new' : List Ty}

theorem Lays.refl (e : Emission) : Lays e [] [] e where
  nextId := rfl
  ids _ := rfl
  flags _ := by simp
  free := by simp
  distinct := .nil
  signs := rfl
  layouts := by simp

theorem Lays.layoutOf (lays : Lays e own new e₁) : e₁.layoutOf = e.layoutOf := by
  funext ty
  rw [Emission.layoutOf, lays.ids]
  rfl

theorem Lays.trans (first : Lays e own new e₁) (second : Lays e₁ own' new' e₂) :
    Lays e (own ++ own') (new ++ new') e₂ where
  nextId := second.nextId.trans first.nextId
  ids ty := (second.ids ty).trans (first.ids ty)
  flags ty := by rw [second.flags, first.flags, List.mem_append, or_assoc]
  free ty member := by
    rcases List.mem_append.mp member with early | late
    · exact first.free ty early
    · intro decorated
      exact second.free ty late ((first.flags ty).mpr (.inl decorated))
  distinct := by
    refine first.distinct.append second.distinct fun ty early late => ?_
    exact second.free ty late ((first.flags ty).mpr (.inr early))
  signs := second.signs.trans first.signs
  layouts := by
    have both := second.layouts.trans ((first.layouts.append_right own').append_right _)
    rw [first.layoutOf] at both
    refine both.trans ?_
    rw [List.flatMap_append]
    simp only [List.append_assoc]
    refine (List.Perm.append_left _ (List.Perm.append_left _ ?_))
    rw [← List.append_assoc, ← List.append_assoc]
    exact List.perm_append_comm.append_right _

theorem lays_annotate (e : Emission) (layout : i.isLayout = true) :
    Lays e [i] [] { e with annotations := e.annotations.push i } where
  nextId := rfl
  ids _ := rfl
  flags _ := by simp
  free := by simp
  distinct := .nil
  signs := by simp [Emission.signs, Instruction.sign?_of_isLayout layout]
  layouts := by simp [Emission.layouts, List.filter_append, layout]

theorem Lays.note {id : Id} (lays : Lays e (ty.annotations id) new e₁)
    (known : e.types.id? ty = some id) (free : ¬ e.types.isDecorated ty = true) (apart : ty ∉ new) :
    Lays e [] (ty :: new) { e₁ with types := e₁.types.markDecorated ty } where
  nextId := lays.nextId
  ids other := (TypeTable.id?_markDecorated ..).trans (lays.ids other)
  flags other := by
    have declared : (e₁.types.find? ty).isSome := by
      have id := (lays.ids ty).trans known
      rw [TypeTable.id?, Option.map_eq_some_iff] at id
      obtain ⟨line, found, _⟩ := id
      rw [found]
      rfl
    show (e₁.types.markDecorated ty).isDecorated other = true ↔ _
    rw [TypeTable.isDecorated_markDecorated, lays.flags, List.mem_cons, or_assoc]
    refine or_congr_right ?_
    constructor
    · rintro (old | ⟨rfl, _⟩)
      · exact .inr old
      · exact .inl rfl
    · rintro (rfl | old)
      · exact .inr ⟨rfl, declared⟩
      · exact .inl old
  free := List.forall_mem_cons.mpr ⟨free, lays.free⟩
  distinct := List.nodup_cons.mpr ⟨apart, lays.distinct⟩
  signs := lays.signs
  layouts := by
    have own : e.layoutOf ty = ty.annotations id := by rw [Emission.layoutOf, known]; rfl
    show e₁.layouts.Perm _
    rw [List.flatMap_cons, own, List.append_nil, ← List.append_assoc]
    exact lays.layouts

end Lays

end Emission

namespace Emit

open Ty

/-- A part of a compilation that writes some annotations of a type that is under way, and all that
the types of a list still need. -/
def LaysOut (x : Emit Unit) (own : List Instruction) (scope : List Ty) : Prop :=
  ∀ e : Emission, e.Closed → Outcome x e
    (fun _ e' => ∃ new, e.Lays own new e' ∧ (∀ ty ∈ new, ty ∈ scope ∧ ty.isLaid = true) ∧
      e'.Closed ∧ ∀ ty ∈ scope, ty.isLaid = true → e'.types.isDecorated ty = true)
    fun _ _ => True

theorem laysOut_pure (plain : ∀ ty ∈ scope, ty.isLaid = false) : LaysOut (pure ()) [] scope := by
  intro e closed
  refine ⟨[], .refl e, by simp, closed, fun ty member laid => ?_⟩
  rw [plain ty member] at laid
  contradiction

theorem laysOut_annotate (layout : i.isLayout = true) : LaysOut (annotate i) [i] [] := by
  intro e closed
  exact ⟨[], Emission.lays_annotate e layout, by simp, closed, by simp⟩

theorem LaysOut.bind {x y : Emit Unit} {own own' : List Instruction} {scope' : List Ty}
    (first : LaysOut x own scope) (second : LaysOut y own' scope') :
    LaysOut (x >>= fun _ => y) (own ++ own') (scope ++ scope') := by
  intro e closed
  rw [outcome_bind]
  apply (first e closed).imp
  rintro _ e₁ ⟨new, lays, inside, closed₁, covers⟩
  apply (second e₁ closed₁).imp
  rintro _ e₂ ⟨new', lays', inside', closed₂, covers'⟩
  refine ⟨new ++ new', lays.trans lays', fun ty member => ?_, closed₂, fun ty member laid => ?_⟩
  · rw [List.mem_append]
    rcases List.mem_append.mp member with early | late
    · exact ⟨.inl (inside ty early).1, (inside ty early).2⟩
    · exact ⟨.inr (inside' ty late).1, (inside' ty late).2⟩
  · rcases List.mem_append.mp member with early | late
    · exact (lays'.flags ty).mpr (.inl (covers ty early laid))
    · exact covers' ty late laid

theorem laysOut_matrixLayout (struct : Id) (index : Nat) (ty : Ty) :
    LaysOut (matrixLayout struct index ty) (matrixAnnotations struct index ty) [] := by
  cases ty with
  | matrix component rows columns =>
    rw [matrixLayout, matrixAnnotations]
    split
    · exact (laysOut_annotate rfl).bind (laysOut_annotate rfl)
    · exact laysOut_pure (by simp)
  | _ => exact laysOut_pure (by simp)

/-- A type is annotated and noted if it was not, and then so is all that it is laid out of. -/
theorem laysOut_once {annotating : Id → Emit Unit} (laid : ty.isLaid = true)
    (reaches : ty.reach = ty :: inner) (apart : ty ∉ inner)
    (each : ∀ id, LaysOut (annotating id) (ty.annotations id) inner) :
    LaysOut (onceLayout ty do
      let id ← declaredType ty
      annotating id) [] ty.reach := by
  intro e closed
  unfold onceLayout
  rw [outcome_bind, outcome_get]
  split
  · rename_i decorated
    exact ⟨[], .refl e, by simp, closed, closed ty decorated⟩
  · rename_i free
    unfold declaredType
    rw [outcome_bind, outcome_bind, outcome_bind, outcome_get]
    cases known : e.types.id? ty with
    | none => exact trivial
    | some id =>
      apply (each id e closed).imp
      rintro _ e₁ ⟨new, lays, inside, closed₁, covers⟩
      have noted := lays.note known free fun member => apart (inside ty member).1
      have own := (noted.flags ty).mpr (.inr List.mem_cons_self)
      have kept : ∀ other, e₁.types.isDecorated other = true →
          (e₁.types.markDecorated ty).isDecorated other = true :=
        fun other decorated => (TypeTable.isDecorated_markDecorated ..).mpr (.inl decorated)
      have whole : ∀ other ∈ ty.reach, other.isLaid = true →
          (e₁.types.markDecorated ty).isDecorated other = true := by
        intro other member laid
        rw [reaches, List.mem_cons] at member
        rcases member with rfl | member
        · exact own
        · exact kept other (covers other member laid)
      refine ⟨ty :: new, noted, fun other member => ?_, fun other decorated => ?_, whole⟩
      · rw [reaches]
        rcases List.mem_cons.mp member with rfl | member
        · exact ⟨List.mem_cons_self, laid⟩
        · exact ⟨List.mem_cons_of_mem _ (inside other member).1, (inside other member).2⟩
      · rcases (TypeTable.isDecorated_markDecorated ..).mp decorated with old | ⟨rfl, _⟩
        · exact fun inner reached laid => kept inner (closed₁ other old inner reached laid)
        · exact whole

/-- No type is laid out of itself. -/
theorem notMem_of_rank {rank : Nat} (below : ∀ other ∈ inner, other.rank ≤ rank)
    (higher : ty.rank = rank + 1) : ty ∉ inner := by
  intro member
  have bound := below ty member
  omega

theorem laysOut_strided {element : Ty} (laid : ty.isLaid = true)
    (reaches : ty.reach = ty :: element.reach) (higher : ty.rank = element.rank + 1)
    (stride : ∀ id, ty.annotations id = [.decorate id (.arrayStride element.sizeWord)])
    (inner : LaysOut (layout element) [] element.reach) :
    LaysOut (onceLayout ty do
      let id ← declaredType ty
      annotate (.decorate id (.arrayStride element.sizeWord))
      layout element) [] ty.reach := by
  refine laysOut_once laid reaches ?_ fun id => ?_
  · exact notMem_of_rank (fun _ => rank_le_of_reach element) higher
  · rw [stride]
    exact (laysOut_annotate rfl).bind inner

mutual

theorem laysOut_layout : ∀ ty, LaysOut (layout ty) [] ty.reach
  | .struct members => by
    rw [layout]
    refine laysOut_once rfl (by rw [reach]) ?_ fun id => laysOut_memberLayouts id 0 0 members
    exact notMem_of_rank (fun _ => rank_le_of_reachAll members) (by rw [rank])
  | .array element _ | .runtimeArray element => by
    rw [layout]
    exact laysOut_strided rfl (by rw [reach]) (by rw [rank]) (fun _ => rfl)
      (laysOut_layout element)
  | .void | .bool | .int _ _ | .float _ | .matrix _ _ _ | .pointer _ _ | .image _ _ _
  | .texture _ => by
    rw [layout, reach_of_plain rfl]
    exact laysOut_pure (by simp [isLaid])

theorem laysOut_memberLayouts (struct : Id) (index : Nat) (offset : Word) : ∀ members,
    LaysOut (memberLayouts struct index offset members)
      (memberAnnotations struct index offset members) (reachAll members)
  | [] => by
    rw [memberLayouts]
    exact laysOut_pure (by simp [reachAll])
  | member :: rest => by
    rw [memberLayouts, memberAnnotations, reachAll]
    exact (laysOut_annotate rfl).bind ((laysOut_matrixLayout struct index member).bind
      ((laysOut_layout member).bind
        (laysOut_memberLayouts struct (index + 1) (offset + member.sizeWord) rest)))

end

end Emit

end ShaderIR
