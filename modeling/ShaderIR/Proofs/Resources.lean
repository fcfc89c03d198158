import ShaderIR.Proofs.Applied
import ShaderIR.Proofs.Recorded

/-! The resources of a draft are those that calls asked for and got. A call that asks for a resource
again gets the same one, so nothing is bound that no call has asked for, and nothing is lost. -/
namespace ShaderIR

/-- A resource as it is asked for: its descriptor, how it is used, and its type. -/
structure Resource where
  set : Word
  binding : Word
  kind : BindingKind
  ty : Ty
deriving DecidableEq

def Call.resource? : Call → Option Resource
  | .uniform set binding ty => some ⟨set, binding, .uniform, ty⟩
  | .storage set binding ty => some ⟨set, binding, .storage, ty⟩
  | .texture set binding dim => some ⟨set, binding, .texture, .sampler dim⟩
  | _ => none

def Binding.resource (b : Binding) : Resource := ⟨b.set, b.binding, b.kind, b.ty⟩

namespace Draft

def resources (d : Draft) : List Resource := d.bindings.toList.map Binding.resource

variable {d d' : Draft}

theorem mem_resources {r : Resource} : r ∈ d.resources ↔ ∃ b ∈ d.bindings, b.resource = r := by
  simp [resources]

theorem bound_resources {set binding : Word} {kind : BindingKind} {ty : Ty} {p : Place}
    (bound : Bound d set binding kind ty p d') (r : Resource) :
    r ∈ d'.resources ↔ r ∈ d.resources ∨ some ⟨set, binding, kind, ty⟩ = some r := by
  rw [Option.some.injEq]
  cases bound with
  | @again b found same same' =>
    subst same same'
    obtain ⟨rfl, rfl⟩ : b.set = set ∧ b.binding = binding := by
      simpa using Array.find?_some found
    refine ⟨.inl, ?_⟩
    rintro (before | rfl)
    · exact before
    · exact mem_resources.mpr ⟨b, Array.mem_of_find?_eq_some found, rfl⟩
  | @new storage missing =>
    have list : (d.withBinding set binding kind ty storage).resources =
        d.resources ++ [⟨set, binding, kind, ty⟩] := by
      simp [resources, withBinding, withVariable, withPlace, Binding.resource]
    rw [list, List.mem_append, List.mem_singleton, eq_comm]

end Draft

theorem Effect.resources {d d' : Draft} {c : Call} {reply : Reply} (effect : Effect d c reply d')
    (r : Resource) : r ∈ d'.resources ↔ r ∈ d.resources ∨ c.resource? = some r := by
  cases effect with
  | uniform bound | storage bound | texture bound => exact Draft.bound_resources bound r
  | _ => exact (or_iff_left (by simp [Call.resource?])).symm

namespace Draft

variable {d : Draft}

/-- What a program keeps with the calls of it that were accepted, if every accepted call does. -/
theorem after_accepts {I : List Call → Draft → Prop}
    (effect : ∀ past d, d.graph.Valid → I past d → ∀ c reply d', Effect d c reply d' →
      I (past ++ [c]) d')
    (release : ∀ past d, I past d → ∀ value g, I past { d with graph := g } ∧
      I (past ++ [.release value]) { d with graph := g })
    {past : List Call} {calls : List Call} (building : ∀ c ∈ calls, c.restarts = false)
    (valid : d.graph.Valid) (start : I past d) : I (past ++ d.accepted calls) (d.after calls) := by
  induction calls generalizing past d with
  | nil =>
    rw [accepted, List.append_nil]
    exact start
  | cons c rest ih =>
    have plain := building c (by simp)
    have others := fun b member => building b (List.mem_cons_of_mem c member)
    have step : ∀ accepted, I (past ++ accepted) (c.leaves d) → (c.leaves d).graph.Valid →
        I (past ++ (accepted ++ (c.leaves d).accepted rest)) (d.after (c :: rest)) := by
      intro accepted next valid
      rw [← List.append_assoc]
      exact ih others valid next
    rw [accepted]
    rcases Call.building_cases valid plain with
      ⟨reply, answer, change⟩ | ⟨⟨fault, answer⟩, _, same⟩ | ⟨value, g, rfl, shrinks, same⟩
    · rw [answer]
      exact step [c] (effect past d valid start c reply _ change) (change.valid valid)
    · rw [answer]
      refine step [] ?_ (same.symm ▸ valid)
      rwa [same, List.append_nil]
    · have left := release past d start value g
      rw [← same] at left
      have valid' : ((Call.release value).leaves d).graph.Valid := by
        rw [same]
        exact shrinks.valid valid
      split
      · exact step [.release value] left.2 valid'
      · exact step [] (by rw [List.append_nil]; exact left.1) valid'

theorem filterMap_snoc {α β : Type} (f : α → Option β) (items : List α) (last : α) :
    (items ++ [last]).filterMap f = items.filterMap f ++ (f last).toList := by
  cases known : f last <;> simp [known]

/-- The resources after a program are those that its accepted calls have asked for. -/
theorem resources_begun (settings : Settings) (slots : List Ty) {program : List Call}
    (building : ∀ c ∈ program, c.restarts = false) (r : Resource) :
    r ∈ (((new settings).withSlots slots).after program).resources ↔
      r ∈ (((new settings).withSlots slots).accepted program).filterMap Call.resource? := by
  have start : ∀ r, r ∈ ((new settings).withSlots slots).resources ↔
      r ∈ ([] : List Call).filterMap Call.resource? := by
    intro r
    rw [resources, withSlots_bindings]
    simp [new]
  refine after_accepts (I := fun past d => ∀ r, r ∈ d.resources ↔ r ∈ past.filterMap Call.resource?)
    ?_ ?_ building (valid_withSlots (valid_new settings) slots) start r
  · intro past d _ known c reply d' effect r
    rw [effect.resources, known, filterMap_snoc, List.mem_append, Option.mem_toList]
  · intro past d known value g
    refine ⟨known, fun r => ?_⟩
    have none : (Call.release value).resource? = none := rfl
    rw [filterMap_snoc, none, Option.toList_none, List.append_nil]
    exact known r

end Draft

end ShaderIR
