import ShaderIR.Emission.Overflow
import ShaderIR.Proofs.Applied
import ShaderIR.Proofs.Exposure
import ShaderIR.Proofs.LaidOut

/-! Compilations that check their arithmetic. What such a compilation gives is what any other one
gives. A layout stops it if a block has a part whose size does not fit in a word. -/
namespace ShaderIR

theorem Word.checkedAdd_eq_some {a b c : Word} (sum : a.checkedAdd b = some c) :
    c.toNat = a.toNat + b.toNat := by
  unfold checkedAdd at sum
  split at sum
  · obtain rfl := Option.some.inj sum
    rw [UInt32.toNat_add, Nat.mod_eq_of_lt ‹_›]
  · contradiction

theorem Word.checkedMul_eq_some {a b c : Word} (product : a.checkedMul b = some c) :
    c.toNat = a.toNat * b.toNat := by
  unfold checkedMul at product
  split at product
  · obtain rfl := Option.some.inj product
    rw [UInt32.toNat_mul, Nat.mod_eq_of_lt ‹_›]
  · contradiction

namespace Ty

mutual

theorem toNat_checkedSize : ∀ (ty : Ty) {w : Word}, ty.checkedSize = some w → w.toNat = ty.size
  | .matrix component rows columns, w, known => by
    obtain ⟨count, counted, rest⟩ := Option.bind_eq_some_iff.mp known
    obtain ⟨part, measured, product⟩ := Option.bind_eq_some_iff.mp rest
    rw [Word.checkedMul_eq_some product, Word.checkedMul_eq_some counted,
      toNat_checkedSize component measured, size]
  | .array element length, w, known => by
    obtain ⟨part, measured, product⟩ := Option.bind_eq_some_iff.mp known
    rw [Word.checkedMul_eq_some product, toNat_checkedSize element measured, size]
  | .struct members, w, known => by
    rw [toNat_checkedSum members known, size]
    exact Nat.zero_add _
  | .int width _, w, known | .float width, w, known => by
    obtain rfl := Option.some.inj known
    rw [UInt32.toNat_div, size]
    rfl
  | .bool, w, known | .void, w, known | .runtimeArray _, w, known | .pointer _ _, w, known
  | .image _ _ _, w, known | .texture _, w, known => by
    obtain rfl := Option.some.inj known
    rw [size]
    rfl

theorem toNat_checkedSum : ∀ (members : List Ty) {offset w : Word},
    checkedSum offset members = some w → w.toNat = offset.toNat + sizeAll members
  | [], offset, w, known => by
    obtain rfl := Option.some.inj known
    rfl
  | member :: rest, offset, w, known => by
    obtain ⟨part, measured, sum⟩ := Option.bind_eq_some_iff.mp known
    obtain ⟨next, added, others⟩ := Option.bind_eq_some_iff.mp sum
    rw [toNat_checkedSum rest others, Word.checkedAdd_eq_some added,
      toNat_checkedSize member measured, sizeAll, Nat.add_assoc]

end

theorem size_lt_of_checkedSize {ty : Ty} (fits : ty.checkedSize.isSome) :
    ty.size < UInt32.size := by
  obtain ⟨w, known⟩ := Option.isSome_iff_exists.mp fits
  rw [← toNat_checkedSize ty known]
  exact w.toNat_lt

theorem checkedSize_of_isScalar {ty : Ty} (scalar : ty.isScalar = true)
    (declarable : ty.isDeclarable = true) : ty.checkedSize = some 4 := by
  cases ty with
  | bool => rfl
  | int width | float width =>
    obtain rfl : width = 32 := by simpa [isDeclarable, isRefused] using declarable
    rfl
  | _ => contradiction

mutual

/-- If the sizes of all that a type is laid out of fit, no number on the way to its size or its
layout is too big. -/
theorem fits_of_size_lt : ∀ (ty : Ty), ty.isDeclarable = true →
    (∀ inner ∈ ty.reach, inner.size < UInt32.size) →
    ty.checkedSize.isSome ∧ ∀ inner ∈ ty.reach, inner.layoutFits = true
  | .matrix component rows columns, declarable, small => by
    rw [isDeclarable, Bool.and_eq_true, Bool.not_eq_true'] at declarable
    have known := checkedSize_of_isScalar (isRefused_matrix.mp declarable.1).1 declarable.2
    have fits := small _ (mem_reach_self _)
    rw [size, ← toNat_checkedSize component known] at fits
    have counted : rows.checkedMul columns = some (rows * columns) :=
      if_pos (Nat.lt_of_le_of_lt (Nat.le_mul_of_pos_right _ (by decide)) fits)
    rw [← Word.checkedMul_eq_some counted] at fits
    have product : (rows * columns).checkedMul 4 = some (rows * columns * 4) := if_pos fits
    simp [checkedSize, counted, known, product, reach, layoutFits]
  | .array element length, declarable, small => by
    rw [reach, List.forall_mem_cons] at small ⊢
    have inside := fits_of_size_lt element declarable small.2
    obtain ⟨w, known⟩ := Option.isSome_iff_exists.mp inside.1
    have fits := small.1
    rw [size, ← toNat_checkedSize element known] at fits
    have product : length.checkedMul w = some (length * w) := if_pos fits
    exact ⟨by simp [checkedSize, known, product], inside⟩
  | .runtimeArray element, declarable, small => by
    rw [reach, List.forall_mem_cons] at small ⊢
    exact ⟨rfl, fits_of_size_lt element declarable small.2⟩
  | .struct members, declarable, small => by
    rw [reach, List.forall_mem_cons] at small ⊢
    rw [size, ← Nat.zero_add (sizeAll members)] at small
    have inside := sum_fits_of_size_lt members 0 declarable small.2 small.1
    exact ⟨inside.1, inside⟩
  | .int _ _, _, _ | .float _, _, _ | .bool, _, _ | .void, _, _ | .pointer _ _, _, _
  | .image _ _ _, _, _ | .texture _, _, _ => ⟨rfl, by simp [reach, layoutFits]⟩

theorem sum_fits_of_size_lt : ∀ (members : List Ty) (offset : Word),
    areDeclarable members = true → (∀ inner ∈ reachAll members, inner.size < UInt32.size) →
    offset.toNat + sizeAll members < UInt32.size →
    (checkedSum offset members).isSome ∧ ∀ inner ∈ reachAll members, inner.layoutFits = true
  | [], _, _, _, _ => ⟨rfl, by simp [reachAll]⟩
  | member :: rest, offset, declarable, small, fits => by
    rw [areDeclarable, Bool.and_eq_true] at declarable
    rw [reachAll, List.forall_mem_append] at small ⊢
    have inside := fits_of_size_lt member declarable.1 small.1
    obtain ⟨w, known⟩ := Option.isSome_iff_exists.mp inside.1
    rw [sizeAll, ← toNat_checkedSize member known, ← Nat.add_assoc] at fits
    have sum : offset.checkedAdd w = some (offset + w) :=
      if_pos (Nat.lt_of_le_of_lt (Nat.le_add_right _ _) fits)
    rw [← Word.checkedAdd_eq_some sum] at fits
    have others := sum_fits_of_size_lt rest _ declarable.2 small.2 fits
    exact ⟨by simpa [checkedSum, known, sum] using others.1, inside.2, others.2⟩

end

mutual

/-- If the layouts of all that a type is laid out of could be annotated, the sizes of all of it
fit. -/
theorem size_lt_of_layoutFits : ∀ (ty : Ty), ty.checkedSize.isSome →
    (∀ inner ∈ ty.reach, inner.layoutFits = true) → ∀ inner ∈ ty.reach, inner.size < UInt32.size
  | .struct members, fits, laid => by
    rw [reach, List.forall_mem_cons] at laid ⊢
    exact ⟨size_lt_of_checkedSize fits, size_lt_of_layoutsFit members fits laid.2⟩
  | .array element _, fits, laid | .runtimeArray element, fits, laid => by
    rw [reach, List.forall_mem_cons] at laid ⊢
    exact ⟨size_lt_of_checkedSize fits, size_lt_of_layoutFits element laid.1 laid.2⟩
  | .matrix _ _ _, fits, _ | .int _ _, fits, _ | .float _, fits, _ | .bool, fits, _
  | .void, fits, _ | .pointer _ _, fits, _ | .image _ _ _, fits, _ | .texture _, fits, _ => by
    rw [reach_of_plain rfl, List.forall_mem_singleton]
    exact size_lt_of_checkedSize fits

theorem size_lt_of_layoutsFit : ∀ (members : List Ty) {offset : Word},
    (checkedSum offset members).isSome → (∀ inner ∈ reachAll members, inner.layoutFits = true) →
    ∀ inner ∈ reachAll members, inner.size < UInt32.size
  | [], _, _, _ => by simp [reachAll]
  | member :: rest, offset, fits, laid => by
    rw [reachAll, List.forall_mem_append] at laid ⊢
    obtain ⟨w, known⟩ := Option.isSome_iff_exists.mp fits
    obtain ⟨part, measured, sum⟩ := Option.bind_eq_some_iff.mp known
    obtain ⟨next, _, others⟩ := Option.bind_eq_some_iff.mp sum
    exact ⟨size_lt_of_layoutFits member (Option.isSome_of_eq_some measured) laid.1,
      size_lt_of_layoutsFit rest (Option.isSome_of_eq_some others) laid.2⟩

end

end Ty

/-! The blocks of a draft are structs. -/

namespace Draft

variable {d d' : Draft}

theorem bound_blocks {set binding : Word} {kind : BindingKind} {ty : Ty} {p : Place}
    (bound : Bound d set binding kind ty p d') :
    ∀ block ∈ d'.blocks, block ∈ d.blocks ∨ ∃ members, block = .struct members := by
  cases bound with
  | again => exact fun _ => .inl
  | @new storage _ fits =>
    intro block member
    have list : (d.withBinding set binding kind ty storage).blocks =
        d.blocks ++ Binding.blocks ⟨set, binding, kind, ty, d.places.next⟩ := by
      simp [blocks, withBinding, withVariable, withPlace]
    rw [list, List.mem_append] at member
    refine member.imp_right fun new => ?_
    unfold Binding.blocks at new
    unfold bindingStorage at fits
    split at fits
    · exact ⟨_, List.mem_singleton.mp new⟩
    · exact ⟨_, List.mem_singleton.mp new⟩
    · contradiction
    · contradiction
    · contradiction

theorem effect_blocks {c : Call} {reply : Reply} (effect : Effect d c reply d') :
    ∀ block ∈ d'.blocks, block ∈ d.blocks ∨ ∃ members, block = .struct members := by
  cases effect with
  | uniform bound | storage bound => exact bound_blocks bound
  | texture bound => exact fun block member => bound_blocks bound block member
  | _ => exact fun _ => .inl

theorem blocks_struct (settings : Settings) (slots : List Ty) {program : List Call}
    (building : ∀ c ∈ program, c.restarts = false) :
    ∀ block ∈ (((new settings).withSlots slots).after program).blocks,
      ∃ members, block = .struct members := by
  refine @after_accepts _ (fun _ d => ∀ block ∈ d.blocks, ∃ members, block = .struct members)
    (fun past d _ structs c reply d' effect block member =>
      (effect_blocks effect block member).elim (structs block) id)
    (fun past d structs value g => ⟨structs, structs⟩) [] _ building
    (valid_withSlots (valid_new settings) slots) ?_
  intro block member
  rw [blocks, withSlots_bindings] at member
  simp [new] at member

/-! What a compilation that checks its arithmetic gives. -/

theorem eq_of_checkedResult {result : Except Fault ShaderModule}
    (given : d.checkedResult = some result) : result = d.compilation.result := by
  unfold checkedResult at given
  unfold compilation
  split at given <;> split at given <;> simp_all

end Draft

theorem Assoc.mem_of_find? {α β : Type} [DecidableEq α] {m : Assoc α β} {key : α} {value : β}
    (found : m.find? key = some value) : (key, value) ∈ m := by
  induction m with
  | nil => contradiction
  | cons entry rest ih =>
    rw [find?] at found
    split at found
    · obtain rfl := Option.some.inj found
      simp [← ‹entry.1 = key›]
    · exact List.mem_cons_of_mem entry (ih found)

theorem TypeTable.all_isDecorated (t : TypeTable) (P : Ty → Bool) :
    (t.lines.all fun line => !t.isDecorated line.1 || P line.1) = true ↔
      ∀ ty, t.isDecorated ty = true → P ty = true := by
  rw [List.all_eq_true]
  constructor
  · intro all ty decorated
    have found : (t.find? ty).isSome := by
      unfold isDecorated at decorated
      split at decorated
      · simp_all
      · contradiction
    obtain ⟨line, known⟩ := Option.isSome_iff_exists.mp found
    have member := Assoc.mem_of_find? (Option.join_eq_some_iff.mp known)
    simpa [decorated] using all _ member
  · intro all line _
    cases decorated : t.isDecorated line.1 with
    | false => rfl
    | true => exact all line.1 decorated

theorem Emission.fits_iff (e : Emission) :
    e.fits = true ↔ e.nextId < UInt32.size ∧
      (∀ ty, e.types.isDecorated ty = true → ty.layoutFits = true) ∧
        ∀ i ∈ e.annotations ++ e.declarations ++ e.locals ++ e.body, i.isShort = true := by
  rw [fits, Bool.and_eq_true, Bool.and_eq_true, decide_eq_true_eq, TypeTable.all_isDecorated,
    Array.all_eq_true', and_assoc]

namespace Draft

variable {strict : Prop} {d : Draft} (proper : d.Proper strict)

include proper

theorem Proper.checkedResult_of_open (opened : d.scopes ≠ []) :
    d.checkedResult = none ↔ UInt32.size ≤ d.nextId := by
  have plain : ∀ ty, (Emission.start d).types.isDecorated ty = true → ty.layoutFits = true := by
    intro ty decorated
    rw [(Emission.laid_start proper.listed).flags] at decorated
    contradiction
  have fits : (Emission.start d).fits = true ↔ d.nextId < UInt32.size := by
    rw [Emission.fits_iff]
    exact ⟨fun fits => fits.1, fun fits => ⟨fits, plain, by simp [Emission.start]⟩⟩
  have run : d.assemble = .error (.controlFlow .openAtCompile) (.start d) := by
    have stops : (!d.scopes.isEmpty) = true := by simpa using opened
    simp only [assemble, Emit.everything, stops, if_true]
    rfl
  simp only [checkedResult, run]
  rw [← Nat.not_lt, ← fits]
  split <;> simp_all

/-- The types of blocks can be declared if those of all locations can. -/
theorem Proper.blocks_declarable (declarable : d.Declarable) :
    ∀ block ∈ d.blocks, block.isDeclarable = true := by
  intro block member
  obtain ⟨b, bound, of⟩ := List.mem_flatMap.mp member
  have bound := Array.mem_toList_iff.mp bound
  obtain ⟨data, found, _⟩ := proper.sound.lists.bindings b bound
  have same := proper.enlisted.bindings b bound data found
  unfold Binding.blocks at of
  split at of
  · obtain rfl := List.mem_singleton.mp of
    exact same ▸ declarable.places _ _ found
  · contradiction

/-- A module is given exactly if its ids, its instructions and all that its blocks are laid out of
fit. -/
theorem Proper.checkedResult_ok (declarable : d.Declarable)
    (structs : ∀ block ∈ d.blocks, ∃ members, block = .struct members) {m : ShaderModule}
    (compiled : d.compilation.result = .ok m) :
    d.checkedResult = some (.ok m) ↔ m.bound < UInt32.size ∧
      (∀ i ∈ m.instructions, i.wordCount ≤ 65535) ∧
        ∀ block ∈ d.blocks, ∀ ty ∈ block.reach, ty.size < UInt32.size := by
  obtain ⟨e, run⟩ := result_eq_ok compiled
  obtain ⟨_, laid, _⟩ := assemble_blocked proper.listed run
  obtain ⟨ids, interface, _, put, bound, _⟩ := assemble_eq_ok run
  have layouts : (∀ ty, e.types.isDecorated ty = true → ty.layoutFits = true) ↔
      ∀ block ∈ d.blocks, ∀ ty ∈ block.reach, ty.size < UInt32.size := by
    constructor
    · intro fits block member
      have each : ∀ inner ∈ block.reach, inner.layoutFits = true := by
        intro inner reached
        cases isLaid : inner.isLaid with
        | false => cases inner <;> simp_all [Ty.isLaid, Ty.layoutFits]
        | true =>
          exact fits inner ((laid.flags inner).mpr
            (Ty.mem_laidFrom.mpr ⟨⟨block, member, reached⟩, isLaid⟩))
      obtain ⟨members, rfl⟩ := structs block member
      exact Ty.size_lt_of_layoutFits _ (each _ (Ty.mem_reach_self _)) each
    · intro small ty decorated
      obtain ⟨⟨block, member, reached⟩, _⟩ := Ty.mem_laidFrom.mp ((laid.flags ty).mp decorated)
      exact (Ty.fits_of_size_lt block (proper.blocks_declarable declarable block member)
        (small block member)).2 ty reached
  have fits : (e.fits && m.instructions.all Instruction.isShort) = true ↔ m.bound < UInt32.size ∧
      (∀ i ∈ m.instructions, i.wordCount ≤ 65535) ∧
        ∀ block ∈ d.blocks, ∀ ty ∈ block.reach, ty.size < UInt32.size := by
    have short : m.instructions.all Instruction.isShort = true ↔
        ∀ i ∈ m.instructions, i.wordCount ≤ 65535 := by
      simp only [List.all_eq_true, Instruction.isShort, decide_eq_true_eq]
    rw [Bool.and_eq_true, Emission.fits_iff, layouts, short, bound]
    constructor
    · rintro ⟨⟨ids, small, _⟩, short⟩
      exact ⟨ids, short, small⟩
    · rintro ⟨ids, short, small⟩
      refine ⟨⟨ids, small, fun i member => decide_eq_true (short i ?_)⟩, short⟩
      simp only [put, Emission.instructions, List.mem_append, Array.mem_append,
        Array.mem_toList_iff] at member ⊢
      tauto
  rw [← fits, checkedResult, run]
  simp

end Draft

end ShaderIR
