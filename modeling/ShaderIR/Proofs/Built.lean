import Mathlib.Data.List.Induction
import ShaderIR.Proofs.Handles
import ShaderIR.Proofs.Fitting

/-! Where the nodes of a draft come from. A node over operands was built by a call of the program,
the one that gave its handle, and still has the kind and the operands that it was built with, also
when some of them were released. -/
namespace ShaderIR

variable {operands : List Handle} {h : Handle} {n' : Node} {program : List Call} {d : Draft}

def Call.node? : Call → Option (NodeKind × List Handle)
  | .negate value => some (.unary .negate, [value])
  | .binary op lhs rhs => some (.binary op, [lhs, rhs])
  | .select condition accept reject => some (.select, [condition, accept, reject])
  | .construct _ parts => some (.construct, parts)
  | _ => none

/-- All that is new in a graph are leaves. A node that can have operands was there before, over the
same ones. -/
def Graph.OnlyLeaves (g g' : Graph) : Prop :=
  ∀ h n', g'.find? h = some n' → n'.kind.arity? ≠ some 0 →
    ∃ n, g.find? h = some n ∧ n'.kind = n.kind ∧ n'.operands = n.operands

namespace Graph

variable {g g' g'' : Graph}

theorem OnlyLeaves.refl (g : Graph) : g.OnlyLeaves g := fun _ n found _ => ⟨n, found, rfl, rfl⟩

theorem OnlyLeaves.trans (first : g.OnlyLeaves g') (second : g'.OnlyLeaves g'') :
    g.OnlyLeaves g'' := by
  intro h n'' found derived
  obtain ⟨n', found', kind', operands'⟩ := second h n'' found derived
  obtain ⟨n, before, kind, operands⟩ := first h n' found' (kind' ▸ derived)
  exact ⟨n, before, kind'.trans kind, operands'.trans operands⟩

theorem Shrinks.onlyLeaves (shrinks : g.Shrinks g') : g.OnlyLeaves g' := by
  intro h n' found _
  obtain ⟨n, before, kept⟩ := shrinks.old h n' found
  exact ⟨n, before, by rw [kept.same], by rw [kept.same]⟩

theorem onlyLeaves_addRef (g : Graph) (target : Handle) : g.OnlyLeaves (g.addRef target) := by
  intro h n' found _
  rw [find?_addRef] at found
  obtain ⟨n, before, rfl⟩ := Option.map_eq_some_iff.mp found
  exact ⟨n, before, rfl, rfl⟩

end Graph

namespace Draft

section Node

variable (valid : d.graph.Valid) {ty : Ty} {kind : NodeKind}

include valid

theorem withNode_cases (live : ∀ operand ∈ operands, (d.graph.find? operand).isSome)
    (found : (d.withNode ty kind operands).graph.find? h = some n') :
    (h = d.graph.nextHandle ∧ n'.kind = kind ∧ n'.operands = operands) ∨
      ∃ n, d.graph.find? h = some n ∧ n'.kind = n.kind ∧ n'.operands = n.operands := by
  rw [find?_withNode valid live] at found
  split at found
  · obtain rfl := Option.some.inj found
    exact .inl ⟨‹_›, rfl, rfl⟩
  · obtain ⟨n, before, rfl⟩ := Option.map_eq_some_iff.mp found
    exact .inr ⟨n, before, rfl, rfl⟩

theorem onlyLeaves_withNode (leaf : kind.arity? = some 0) :
    d.graph.OnlyLeaves (d.withNode ty kind []).graph := by
  intro h n' found derived
  rcases withNode_cases valid (by simp) found with ⟨_, same, _⟩ | before
  · exact absurd leaf (same ▸ derived)
  · exact before

theorem onlyLeaves_withLoad (p : Place) : d.graph.OnlyLeaves (d.withLoad p ty).graph :=
  onlyLeaves_withNode valid rfl

theorem onlyLeaves_withInput : d.graph.OnlyLeaves (d.withInput ty).graph :=
  (onlyLeaves_withNode (d := d.withVariable .input ty false) valid rfl).trans
    (Graph.onlyLeaves_addRef _ _)

theorem onlyLeaves_withBounds (low high : Int32) :
    d.graph.OnlyLeaves (d.withBounds low high).graph := by
  have valid₁ := valid_withNode valid .sint (.constant (.int low)) []
  have valid₂ := valid_withNode valid₁ .sint (.constant (.int high)) []
  exact ((((onlyLeaves_withNode valid rfl).trans (onlyLeaves_withNode valid₁ rfl)).trans
    (onlyLeaves_withNode valid₂ rfl)).trans (Graph.onlyLeaves_addRef _ _)).trans
    ((Graph.onlyLeaves_addRef _ _).trans (Graph.onlyLeaves_addRef _ _))

end Node

end Draft

open Draft

section Effect

variable {d' : Draft} {c : Call} {reply : Reply} (effect : Effect d c reply d')
  (valid : d.graph.Valid)

include effect valid

/-- A call that builds no node over operands adds leaves only. -/
theorem Effect.onlyLeaves (none : c.node? = none) : d.graph.OnlyLeaves d'.graph := by
  cases effect with
  | binary | sample | extract | negate | select | construct => contradiction
  | addInput => exact onlyLeaves_withInput valid
  | constant => exact onlyLeaves_withNode valid rfl
  | uniform b | storage b => cases b <;> exact .refl _
  | texture b =>
    cases b with
    | again => exact onlyLeaves_withLoad valid _
    | new => exact onlyLeaves_withLoad (d := d.withBinding ..) valid _
  | load => exact onlyLeaves_withLoad valid _
  | beginFor =>
    refine Graph.OnlyLeaves.trans ?_ (onlyLeaves_withLoad (valid_withLoop valid _ _) _)
    rw [withLoop_graph]
    exact onlyLeaves_withBounds valid _ _
  | index | store | beginIf | output | builtin | retain => exact Graph.onlyLeaves_addRef _ _
  | input | localVariable | member | pointee | beginElse | endIf | endFor | breakLoop
  | continueLoop | typeOf => exact .refl _

/-- A node over operands was there before, or the call that gave its handle built it. -/
theorem Effect.built (found : d'.graph.find? h = some n') (derived : n'.kind.arity? ≠ some 0) :
    (∃ n, d.graph.find? h = some n ∧ n'.kind = n.kind ∧ n'.operands = n.operands) ∨
      reply = .value h ∧ c.node? = some (n'.kind, n'.operands) := by
  have live : ∀ {h : Handle} {n : Node}, d.graph.find? h = some n →
      (d.graph.find? h).isSome := fun known => Option.isSome_of_eq_some known
  have new : ∀ {b : Draft} {ty kind operands}, b.graph = d.graph →
      (∀ o ∈ operands, (d.graph.find? o).isSome) →
      (b.withNode ty kind operands).graph.find? h = some n' →
      (∃ n, d.graph.find? h = some n ∧ n'.kind = n.kind ∧ n'.operands = n.operands) ∨
        Reply.value d.graph.nextHandle = .value h ∧
          some (kind, operands) = some (n'.kind, n'.operands) := by
    intro b ty kind operands same known found
    rw [← same] at valid known ⊢
    rcases withNode_cases valid known found with ⟨rfl, rfl, rfl⟩ | before
    · exact .inr ⟨rfl, rfl⟩
    · exact .inl before
  cases none : c.node? with
  | none => exact .inl (effect.onlyLeaves valid none h n' found derived)
  | some made =>
    rw [← none]
    cases effect with
    | binary _ left right | extract left right =>
      exact new rfl (by simp [live left, live right]) found
    | sample left right =>
      exact new (b := d.withSampleLevel) rfl (by simp [live left, live right]) found
    | negate known => exact new rfl (by simp [live known]) found
    | select condition accept reject =>
      exact new rfl (by simp [live condition, live accept, live reject]) found
    | construct _ _ parts =>
      refine new rfl (fun o member => ?_) found
      obtain ⟨v, known, _⟩ := parts o member
      exact live known
    | _ => contradiction

end Effect

namespace Draft

/-- A call of the program gave the handle, and built the node of this kind over these operands. -/
def Built (first : Draft) (program : List Call) (h : Handle) (kind : NodeKind)
    (operands : List Handle) : Prop :=
  ∃ before c rest, program = before ++ c :: rest ∧
    c.answer (first.after before) = .ok (.value h) ∧ c.node? = some (kind, operands)

theorem Built.later {first : Draft} {kind : NodeKind} (built : first.Built program h kind operands)
    (c : Call) : first.Built (program ++ [c]) h kind operands := by
  obtain ⟨before, b, rest, rfl, answer, node⟩ := built
  exact ⟨before, b, rest ++ [c], by simp, answer, node⟩

theorem leaves_built (valid : d.graph.Valid) {c : Call} (building : c.restarts = false)
    (found : (c.leaves d).graph.find? h = some n') (derived : n'.kind.arity? ≠ some 0) :
    (∃ n, d.graph.find? h = some n ∧ n'.kind = n.kind ∧ n'.operands = n.operands) ∨
      c.answer d = .ok (.value h) ∧ c.node? = some (n'.kind, n'.operands) := by
  rcases Call.building_cases valid building with
    ⟨reply, answer, effect⟩ | ⟨_, _, same⟩ | ⟨value, g, rfl, shrinks, left⟩
  · rcases effect.built valid found derived with before | ⟨rfl, node⟩
    · exact .inl before
    · exact .inr ⟨answer, node⟩
  · rw [same] at found
    exact .inl ⟨n', found, rfl, rfl⟩
  · rw [left] at found
    exact .inl (shrinks.onlyLeaves h n' found derived)

theorem onlyLeaves_withSlots (valid : d.graph.Valid) (slots : List Ty) :
    d.graph.OnlyLeaves (d.withSlots slots).graph := by
  induction slots generalizing d with
  | nil => exact .refl _
  | cons ty rest ih => exact (onlyLeaves_withInput valid).trans (ih (valid_withInput valid ty))

/-- Every node over operands was built by a call of the program. -/
theorem built_after (settings : Settings) (slots : List Ty)
    (building : ∀ c ∈ program, c.restarts = false) {n : Node}
    (found : (((new settings).withSlots slots).after program).graph.find? h = some n)
    (derived : n.kind.arity? ≠ some 0) :
    ((new settings).withSlots slots).Built program h n.kind n.operands := by
  induction program using List.reverseRecOn generalizing n with
  | nil =>
    obtain ⟨_, before, _⟩ := onlyLeaves_withSlots (valid_new settings) slots h n found derived
    simp [new, Graph.find?] at before
  | append_singleton program c ih =>
    rw [after_append] at found
    have valid := ((issuing_begun settings slots).after program).1.valid
    rcases leaves_built valid (building c (by simp)) found derived with
      ⟨n₀, before, kind, operands⟩ | ⟨answer, node⟩
    · rw [kind, operands]
      exact (ih (fun b member => building b (by simp [member])) before (kind ▸ derived)).later c
    · exact ⟨program, c, [], rfl, answer, node⟩

end Draft

end ShaderIR
