import ShaderIR.Proofs.Layouts

/-! How all blocks are marked and laid out. Between two blocks, types are declared and other things
are annotated, but what is noted about layouts stays; so in the end every struct and array that some
block is laid out of is annotated once, whatever it is shared with. The struct of a block is marked
for the kind of block that it is bound as, once for each kind however many blocks share it. -/
namespace ShaderIR

variable {e e' : Emission} {b : Binding} {d : Draft}

/-! What has nothing to do with blocks. -/

namespace Emission

/-- A step that may declare types, and annotates nothing of a block. -/
structure Renews (e e' : Emission) : Prop where
  layouts : e'.layouts = e.layouts
  signs : e'.signs = e.signs
  lines : ∀ ty, e'.types.find? ty = e.types.find? ty ∨ e'.types.isDecorated ty = false

/-- A step that may declare types that were not declared, and annotates nothing of a block. -/
structure Keeps (e e' : Emission) : Prop where
  layouts : e'.layouts = e.layouts
  signs : e'.signs = e.signs
  lines : ∀ ty line, e.types.find? ty = some line → e'.types.find? ty = some line
  plain : ∀ ty, e.types.find? ty = none → e'.types.isDecorated ty = false

section Keeps

variable {e₁ e₂ : Emission}

theorem Renews.trans (first : e.Renews e₁) (second : e₁.Renews e₂) : e.Renews e₂ where
  layouts := second.layouts.trans first.layouts
  signs := second.signs.trans first.signs
  lines ty := by
    rcases second.lines ty with same | plain
    · rw [TypeTable.isDecorated, same]
      exact first.lines ty
    · exact .inr plain

theorem Renews.keeps (renews : e.Renews e₁) (further : e.Extends e₁) : e.Keeps e₁ where
  layouts := renews.layouts
  signs := renews.signs
  lines ty line found := by
    rcases renews.lines ty with same | plain
    · exact same.trans found
    · obtain ⟨later, found'⟩ := further.types ty line found
      rw [TypeTable.isDecorated, found'] at plain
      have plain : (line.decorated || later) = false := plain
      rw [found', plain, ← (Bool.or_eq_false_iff.mp plain).1]
  plain ty none := by
    rcases renews.lines ty with same | plain
    · rw [TypeTable.isDecorated, same, none]
    · exact plain

theorem Keeps.refl (e : Emission) : e.Keeps e where
  layouts := rfl
  signs := rfl
  lines _ _ found := found
  plain ty none := by rw [TypeTable.isDecorated, none]

theorem Keeps.trans (first : e.Keeps e₁) (second : e₁.Keeps e₂) : e.Keeps e₂ where
  layouts := second.layouts.trans first.layouts
  signs := second.signs.trans first.signs
  lines ty line found := second.lines ty line (first.lines ty line found)
  plain ty none := by
    cases found : e₁.types.find? ty with
    | none => exact second.plain ty found
    | some line =>
      have plain := first.plain ty none
      rw [TypeTable.isDecorated, found] at plain
      rw [TypeTable.isDecorated, second.lines ty line found]
      exact plain

theorem Keeps.types (keeps : e.Keeps e₁) {ty : Ty} {id : Id} (known : e.IsType ty id) :
    e₁.IsType ty id := by
  rw [IsType, TypeTable.id?, Option.map_eq_some_iff] at known ⊢
  obtain ⟨line, found, same⟩ := known
  exact ⟨line, keeps.lines ty line found, same⟩

end Keeps

end Emission

namespace Emit

abbrev Keeping {α : Type} (x : Emit α) : Prop := Leads Emission.Keeps x

theorem renews_of_same (annotations : e'.annotations = e.annotations) (types : e'.types = e.types) :
    e.Renews e' where
  layouts := by rw [Emission.layouts, annotations]; rfl
  signs := by rw [Emission.signs, annotations]; rfl
  lines _ := .inl (by rw [types])

theorem announcing_renewing : Announcing .still (Alone (Leads Emission.Renews)) := by
  refine announcing_leads (fun _ => renews_of_same rfl rfl) Emission.Renews.trans
    (fun _ => renews_of_same rfl rfl) (fun _ _ _ => renews_of_same rfl rfl)
    (fun _ _ same => renews_of_same same.annotations same.types)
    fun e ty => ⟨rfl, rfl, fun other => ?_⟩
  rw [TypeTable.isDecorated, TypeTable.find?_declare]
  split
  · exact .inr rfl
  · exact .inl rfl

theorem keeps_of_same (layouts : e'.layouts = e.layouts) (signs : e'.signs = e.signs)
    (types : e'.types = e.types) : e.Keeps e' where
  layouts := layouts
  signs := signs
  lines _ _ found := by rwa [types]
  plain _ none := by rw [types, TypeTable.isDecorated, none]

/-- A type that is declared had no line, since those that were declared keep their ids. -/
theorem keeping_type (ty : Ty) : Keeping (type ty) := by
  intro e
  have renews := walk_type announcing_renewing ty e
  have quiet := quietly_type (d := default) ty e
  cases run : type ty e with
  | error fault e' =>
    exact (Outcome.of_error run).mpr ((renews.error run).keeps (quiet.error run).1.extends)
  | ok id e' => exact (Outcome.of_ok run).mpr ((renews.ok run).keeps (quiet.ok run).1.extends)

theorem marking_keeping : Marking .still (Alone Keeping) :=
  marking_leads .refl .trans (fun _ => keeps_of_same rfl rfl rfl)
    (fun _ _ _ => keeps_of_same rfl rfl rfl) fun _ _ same =>
      keeps_of_same (by rw [Emission.layouts, same.annotations]; rfl)
        (by rw [Emission.signs, same.annotations]; rfl) same.types

theorem noting_keeping : Noting .still (Alone Keeping) := marking_keeping.noting keeping_type

theorem exposing_keeping : Exposing .still (Alone Keeping) where
  inner := noting_keeping.inner
  variableDecl _ _ _ _ := keeps_of_same rfl rfl rfl
  locate id decoration locates := by
    have layout : (Instruction.decorate id decoration).isLayout = false := by
      cases decoration with
      | arrayStride => contradiction
      | _ => rfl
    refine fun e => keeps_of_same ?_ ?_ rfl
    · simp [Emission.layouts, List.filter_append, layout]
    · simp [Emission.signs, Instruction.sign?, locates]

end Emit

/-! The blocks. -/

def Binding.blocks (b : Binding) : List Ty :=
  if (Emit.blockDecoration? b.kind).isSome then [b.ty] else []

def Draft.blocks (d : Draft) : List Ty := d.bindings.toList.flatMap Binding.blocks

/-- The layout annotations so far are those of all that some types are laid out of, each once. -/
structure Emission.Laid (e : Emission) (roots : List Ty) : Prop where
  flags : ∀ ty, e.types.isDecorated ty = true ↔ ty ∈ Ty.laidFrom roots
  layouts : e.layouts.Perm ((Ty.laidFrom roots).flatMap e.layoutOf)

namespace Emission

section Laid

variable {roots : List Ty}

theorem Laid.closed (laid : e.Laid roots) : e.Closed := by
  intro ty decorated inner reached isLaid
  rw [laid.flags, Ty.mem_laidFrom] at decorated ⊢
  obtain ⟨⟨root, member, inside⟩, _⟩ := decorated
  exact ⟨⟨root, member, Ty.reach_trans root inside reached⟩, isLaid⟩

theorem Keeps.isDecorated (keeps : e.Keeps e') (ty : Ty) :
    e'.types.isDecorated ty = e.types.isDecorated ty := by
  cases found : e.types.find? ty with
  | none => rw [keeps.plain ty found, TypeTable.isDecorated, found]
  | some line => simp only [TypeTable.isDecorated, found, keeps.lines ty line found]

theorem Laid.keeps (laid : e.Laid roots) (keeps : e.Keeps e') : e'.Laid roots where
  flags ty := by rw [keeps.isDecorated, laid.flags]
  layouts := by
    have same : ∀ ty ∈ Ty.laidFrom roots, e'.layoutOf ty = e.layoutOf ty := by
      intro ty member
      have decorated := (laid.flags ty).mpr member
      cases found : e.types.find? ty with
      | none =>
        rw [TypeTable.isDecorated, found] at decorated
        contradiction
      | some line =>
        simp only [layoutOf, TypeTable.id?, found, keeps.lines ty line found]
    rw [keeps.layouts, List.flatMap_congr same]
    exact laid.layouts

theorem Laid.mark (laid : e.Laid roots) {kind : BindingKind} {struct : Id} {decoration : Decoration}
    (block : Emit.blockDecoration? kind = some decoration) :
    { e with annotations := e.annotations.push (.decorate struct decoration) }.Laid roots where
  flags := laid.flags
  layouts := by
    have other : (Instruction.decorate struct decoration).isLayout = false := by
      cases kind with
      | texture => contradiction
      | uniform | storage =>
        obtain rfl := Option.some.inj block
        rfl
    have before := laid.layouts
    simp only [Emission.layouts] at before ⊢
    rwa [Array.toList_push, List.filter_append, List.filter_singleton, other, cond_false,
      List.append_nil]

theorem Laid.lays (laid : e.Laid roots) {root : Ty} {new : List Ty} (lays : e.Lays [] new e')
    (inside : ∀ ty ∈ new, ty ∈ root.reach ∧ ty.isLaid = true)
    (covers : ∀ ty ∈ root.reach, ty.isLaid = true → e'.types.isDecorated ty = true) :
    e'.Laid (roots ++ [root]) := by
  have flags : ∀ ty, e'.types.isDecorated ty = true ↔ ty ∈ Ty.laidFrom (roots ++ [root]) := by
    intro ty
    have more : ty ∈ Ty.laidFrom (roots ++ [root]) ↔
        ty ∈ Ty.laidFrom roots ∨ ty ∈ root.reach ∧ ty.isLaid = true := by
      simp only [Ty.mem_laidFrom, List.mem_append, List.mem_singleton, or_and_right, exists_or,
        exists_eq_left]
    rw [more]
    constructor
    · intro decorated
      rw [lays.flags, laid.flags] at decorated
      exact decorated.imp_right (inside ty)
    · rintro (old | ⟨reached, isLaid⟩)
      · exact (lays.flags ty).mpr (.inl ((laid.flags ty).mpr old))
      · exact covers ty reached isLaid
  have parts : (Ty.laidFrom roots ++ new).Perm (Ty.laidFrom (roots ++ [root])) := by
    have distinct : (Ty.laidFrom roots ++ new).Nodup :=
      (Ty.nodup_laidFrom roots).append lays.distinct fun ty old late =>
        lays.free ty late ((laid.flags ty).mpr old)
    refine (List.perm_ext_iff_of_nodup distinct (Ty.nodup_laidFrom _)).mpr fun ty => ?_
    rw [List.mem_append, ← flags, lays.flags, laid.flags]
  refine ⟨flags, ?_⟩
  rw [lays.layoutOf]
  refine (lays.layouts.trans ?_).trans (parts.flatMap_right _)
  rw [List.append_nil, List.flatMap_append]
  exact laid.layouts.append_right _

end Laid

end Emission

namespace Emission

structure Signed (e : Emission) (bindings : List Binding) (marked : List (Id × Decoration)) :
    Prop where
  signs : e.signs = marked.reverse
  distinct : marked.Nodup
  marks : ∀ mark, mark ∈ marked ↔
    ∃ b ∈ bindings, Emit.blockDecoration? b.kind = some mark.2 ∧ e.IsType b.ty mark.1
  declared : ∀ b ∈ bindings, (Emit.blockDecoration? b.kind).isSome → ∃ id, e.IsType b.ty id

section Signed

variable {bindings : List Binding} {marked : List (Id × Decoration)}

theorem Signed.keeps (signed : e.Signed bindings marked) (signs : e'.signs = e.signs)
    (types : ∀ {ty id}, e.IsType ty id → e'.IsType ty id) : e'.Signed bindings marked where
  signs := signs.trans signed.signs
  distinct := signed.distinct
  marks mark := by
    rw [signed.marks]
    refine exists_congr fun b => and_congr_right fun member => and_congr_right fun decorated => ?_
    refine ⟨types, fun known => ?_⟩
    -- the type was declared before, under the id that it has kept
    obtain ⟨id, before⟩ := signed.declared b member (by rw [decorated]; rfl)
    obtain rfl := Option.some.inj ((types before).symm.trans known)
    exact before
  declared b member block := by
    obtain ⟨id, known⟩ := signed.declared b member block
    exact ⟨id, types known⟩

theorem Signed.skip (signed : e.Signed bindings marked)
    (other : Emit.blockDecoration? b.kind = none) : e.Signed (bindings ++ [b]) marked where
  signs := signed.signs
  distinct := signed.distinct
  marks mark := by simp [signed.marks, or_and_right, exists_or, other]
  declared := by
    intro c member block
    rcases List.mem_append.mp member with member | last
    · exact signed.declared c member block
    · rw [List.mem_singleton.mp last, other] at block
      contradiction

section Mark

variable (signed : e.Signed bindings marked) {decoration : Decoration} {struct : Id}
  (block : Emit.blockDecoration? b.kind = some decoration) (known : e.IsType b.ty struct)

include signed block known

theorem Signed.marks_append (mark : Id × Decoration) :
    (∃ c ∈ bindings ++ [b], Emit.blockDecoration? c.kind = some mark.2 ∧ e.IsType c.ty mark.1) ↔
      mark ∈ marked ∨ mark = (struct, decoration) := by
  rw [signed.marks]
  simp only [List.mem_append, List.mem_singleton, or_and_right, exists_or, exists_eq_left]
  refine or_congr_right ?_
  rw [block]
  constructor
  · rintro ⟨same, known'⟩
    exact Prod.ext (Option.mem_unique known' known) (Option.some.inj same).symm
  · rintro rfl
    exact ⟨rfl, known⟩

omit block in
theorem Signed.declared_append : ∀ c ∈ bindings ++ [b],
    (Emit.blockDecoration? c.kind).isSome → ∃ id, e.IsType c.ty id := by
  intro c member block
  rcases List.mem_append.mp member with member | last
  · exact signed.declared c member block
  · rw [List.mem_singleton.mp last]
    exact ⟨struct, known⟩

theorem Signed.again (before : (struct, decoration) ∈ marked) :
    e.Signed (bindings ++ [b]) marked where
  signs := signed.signs
  distinct := signed.distinct
  marks mark := by
    rw [signed.marks_append block known, or_iff_left_of_imp]
    rintro rfl
    exact before
  declared := signed.declared_append known

theorem Signed.mark (fresh : (struct, decoration) ∉ marked) :
    { e with annotations := e.annotations.push (.decorate struct decoration) }.Signed
      (bindings ++ [b]) ((struct, decoration) :: marked) where
  signs := by
    have sign : (Instruction.decorate struct decoration).sign? = some (struct, decoration) := by
      cases kind : b.kind with
      | texture =>
        rw [kind] at block
        contradiction
      | uniform | storage =>
        rw [kind] at block
        obtain rfl := Option.some.inj block
        rfl
    have before := signed.signs
    simp only [Emission.signs] at before ⊢
    simp [sign, before]
  distinct := List.nodup_cons.mpr ⟨fresh, signed.distinct⟩
  marks mark := by
    rw [List.mem_cons, or_comm]
    exact (signed.marks_append block known mark).symm
  declared := signed.declared_append known

end Mark

end Signed

structure Blocked (e : Emission) (bindings : List Binding) (marked : List (Id × Decoration)) :
    Prop where
  laid : e.Laid (bindings.flatMap Binding.blocks)
  signed : e.Signed bindings marked

theorem Blocked.keeps {bindings : List Binding} {marked : List (Id × Decoration)}
    (blocked : e.Blocked bindings marked) (keeps : e.Keeps e') : e'.Blocked bindings marked :=
  ⟨blocked.laid.keeps keeps, blocked.signed.keeps keeps.signs keeps.types⟩

end Emission

namespace Emit

section Blocks

variable {α β : Type}

/-- A part of a compilation that is given the marks made so far, marks and lays out the blocks of
some more bindings, and gives all marks. -/
def Blocks (x : List (Id × Decoration) → Emit (List (Id × Decoration))) (bindings : List Binding) :
    Prop :=
  ∀ (e : Emission) (before : List Binding) (marked : List (Id × Decoration)),
    e.Blocked before marked →
      Outcome (x marked) e (fun made e' => e'.Blocked (before ++ bindings) made) fun _ _ => True

/-- A part that has nothing to do with blocks can come first. -/
theorem Blocks.after {x : Emit α} {f : α → List (Id × Decoration) → Emit (List (Id × Decoration))}
    {bindings : List Binding} (first : Keeping x) (rest : ∀ a, Blocks (f a) bindings) :
    Blocks (fun marked => x >>= fun a => f a marked) bindings := by
  intro e before marked blocked
  rw [outcome_bind]
  exact (first e).mono (fun a e₁ kept => rest a e₁ before marked (blocked.keeps kept))
    fun _ _ _ => trivial

theorem blocked_layout {before : List Binding} {marks : List (Id × Decoration)}
    (laid : e.Laid (before.flatMap Binding.blocks)) (signed : e.Signed (before ++ [b]) marks)
    (block : (blockDecoration? b.kind).isSome) :
    Outcome (do layout b.ty; return marks) e (fun made e' => e'.Blocked (before ++ [b]) made)
      fun _ _ => True := by
  rw [outcome_bind]
  refine (laysOut_layout b.ty e laid.closed).imp ?_
  rintro _ e' ⟨new, lays, inside, _, covers⟩
  refine ⟨?_, signed.keeps lays.signs fun known => (lays.ids _).trans known⟩
  rw [List.flatMap_append, List.flatMap_singleton, Binding.blocks, if_pos block]
  exact laid.lays lays inside covers

variable (d : Draft)

theorem blocks_bindingDecl (b : Binding) : Blocks (fun marked => bindingDecl d marked b) [b] := by
  unfold bindingDecl
  have locate := exposing_keeping.locate
  refine Blocks.after (walk_variableDecl exposing_keeping d.types d b.place) fun id =>
    Blocks.after (locate id rfl) fun _ => Blocks.after (locate id rfl) fun _ => ?_
  intro e before marked blocked
  cases block : blockDecoration? b.kind with
  | none =>
    refine ⟨?_, blocked.signed.skip block⟩
    rw [List.flatMap_append, List.flatMap_singleton, Binding.blocks, block,
      if_neg (by simp), List.append_nil]
    exact blocked.laid
  | some decoration =>
    have isBlock : (blockDecoration? b.kind).isSome := by rw [block]; rfl
    unfold declaredType
    rw [outcome_bind, outcome_bind, outcome_get]
    cases known : e.types.id? b.ty with
    | none => exact trivial
    | some struct =>
      show Outcome (if (struct, decoration) ∉ marked then _ else _) e _ _
      by_cases made : (struct, decoration) ∈ marked
      · rw [if_neg (not_not_intro made)]
        simp only [if_pos made]
        exact blocked_layout blocked.laid (blocked.signed.again block known made) isBlock
      · rw [if_pos made, outcome_bind]
        simp only [if_neg made]
        exact blocked_layout (blocked.laid.mark block) (blocked.signed.mark block known made)
          isBlock

theorem blocks_bindings (bindings : List Binding) :
    Blocks (fun marked => bindings.foldlM (bindingDecl d) marked) bindings := by
  induction bindings with
  | nil =>
    intro e before marked blocked
    rwa [List.append_nil]
  | cons b rest ih =>
    intro e before marked blocked
    simp only [List.foldlM_cons]
    rw [outcome_bind]
    refine (blocks_bindingDecl d b e before marked blocked).imp fun made e₁ blocked₁ => ?_
    have others := ih e₁ _ made blocked₁
    rwa [List.append_assoc] at others

def BlocksAll (x : Emit α) : Prop :=
  ∀ e : Emission, e.Blocked [] [] →
    Outcome x e (fun _ e' => ∃ marked, e'.Blocked d.bindings.toList marked) fun _ _ => True

theorem BlocksAll.after {x : Emit α} {f : α → Emit β} (first : Keeping x)
    (rest : ∀ a, BlocksAll d (f a)) : BlocksAll d (x >>= f) := by
  intro e blocked
  rw [outcome_bind]
  exact (first e).mono (fun a e₁ kept => rest a e₁ (blocked.keeps kept)) fun _ _ _ => trivial

theorem BlocksAll.last {x : Emit α} {f : α → Emit β} (first : BlocksAll d x)
    (rest : ∀ a, Keeping (f a)) : BlocksAll d (x >>= f) := by
  intro e blocked
  rw [outcome_bind]
  refine (first e blocked).imp fun a e₁ done => ?_
  obtain ⟨marked, blocked₁⟩ := done
  exact (rest a e₁).mono (fun _ _ kept => ⟨marked, blocked₁.keeps kept⟩) fun _ _ _ => trivial

theorem blocksAll_allVariables : BlocksAll d (allVariables d) := by
  have outer := exposing_keeping
  have bindings : BlocksAll d (d.bindings.toList.foldlM (bindingDecl d) []) := fun e blocked =>
    (blocks_bindings d d.bindings.toList e [] [] blocked).imp fun made _ blocked' =>
      ⟨made, blocked'⟩
  exact BlocksAll.after d (walk_located outer d.types d 0 _) fun inputs =>
    BlocksAll.after d (walk_located outer d.types d 0 _) fun outputs =>
      BlocksAll.after d (walk_mapM outer.core (walk_builtinDecl outer d.types d) _)
        fun builtins => BlocksAll.last d bindings fun _ =>
          outer.next (walk_locals outer d.types d _) fun _ => outer.pure id _

/-- A whole compilation marks and lays out the blocks of a draft. -/
theorem blocksAll_everything : BlocksAll d (everything d) := by
  unfold everything
  have run : BlocksAll d (do
      let ids ← entry
      let interface ← allVariables d
      functionBody d
      return (ids, interface)) :=
    BlocksAll.after d (walk_entry exposing_keeping.inner) fun ids =>
      BlocksAll.last d (blocksAll_allVariables d) fun interface =>
        noting_keeping.next (noting_keeping.functionBody d.types d) fun _ => noting_keeping.pure id _
  split
  · exact fun _ _ => trivial
  · exact run

end Blocks

end Emit

/-- A draft of which nothing was compiled yet starts with no layouts. -/
theorem Emission.laid_start (listed : (start d).Listed) : (start d).Laid [] := by
  have none : ∀ ty, (start d).types.find? ty = none := by
    intro ty
    cases found : (start d).types.find? ty with
    | none => rfl
    | some line =>
      obtain ⟨_, _, declared⟩ := listed.types ty line.id (by rw [IsType, TypeTable.id?, found]; rfl)
      simp [start] at declared
  refine ⟨fun ty => ?_, by simp [layouts, start, Ty.laidFrom]⟩
  simp [TypeTable.isDecorated, none, Ty.laidFrom]

theorem Draft.assemble_blocked (listed : (Emission.start d).Listed) {m : ShaderModule}
    (run : d.assemble = .ok m e) : ∃ marked, e.Blocked d.bindings.toList marked := by
  have start : (Emission.start d).Blocked [] [] :=
    ⟨Emission.laid_start listed, rfl, .nil, by simp, by simp⟩
  obtain ⟨_, _, done, _⟩ := assemble_eq_ok run
  exact (Emit.blocksAll_everything d _ start).ok done

end ShaderIR
