import ShaderIR.Proofs.Session

/-! What a program of calls records. The trace of a draft and its outputs are lists of what the
accepted calls asked for, in the order of the calls. -/
namespace ShaderIR

def Trace.actions (t : Trace) : List Action := t.events.toList.map Event.action

def Draft.boundPlace (d : Draft) (set binding : Word) : Place :=
  match d.bindings.find? fun b => b.set == set && b.binding == binding with
  | some b => b.place
  | none => d.places.next

/-- What a call records when it is accepted. A loop records its begin and the load of its counter. -/
def Call.records (d : Draft) : Call → Reply → List Action
  | .load p, .value h => [.load p h (d.trace.stores.find? p)]
  | .texture set binding _, .value h =>
      [.load (d.boundPlace set binding) h (d.trace.stores.find? (d.boundPlace set binding))]
  | .store p value, _ => [.store p value]
  | .beginIf _, _ => [.boundary (.ifBegin d.selections.size)]
  | .beginElse, _ =>
      match d.scopes with
      | .selection opened :: _ => [.boundary (.ifElse opened)]
      | _ => []
  | .endIf, _ =>
      match d.scopes with
      | .selection opened :: _ => [.boundary (.ifEnd opened)]
      | _ => []
  | .beginFor _ _, .value h =>
      [.boundary (.loopBegin d.loops.size), .load d.places.next h (d.trace.stores.find? d.places.next)]
  | .endFor, _ =>
      match d.scopes with
      | .loop opened :: _ => [.boundary (.loopEnd opened)]
      | _ => []
  | .breakLoop, _ =>
      match Draft.innermostLoop? d.scopes with
      | some inner => [.boundary (.leave inner d.nextId)]
      | none => []
  | .continueLoop, _ =>
      match Draft.innermostLoop? d.scopes with
      | some inner => [.boundary (.next inner d.nextId)]
      | none => []
  | _, _ => []

namespace Draft

def recorded (d : Draft) : List Call → List Action
  | [] => []
  | c :: rest =>
      (match c.answer d with
        | .ok reply => c.records d reply
        | .error _ => []) ++ (c.leaves d).recorded rest

def accepted (d : Draft) : List Call → List Call
  | [] => []
  | c :: rest => (if (c.answer d).toBool then [c] else []) ++ (c.leaves d).accepted rest

end Draft

def Call.output? : Call → Option Handle
  | .output value => some value
  | _ => none

def Call.builtin? : Call → Option (Builtin × Handle)
  | .builtin role value => some (role, value)
  | _ => none

section Step

variable {d d' : Draft} {c : Call} {reply : Reply}

theorem Trace.actions_push (t : Trace) (action : Action) :
    (t.push action).actions = t.actions ++ [action] := by
  simp [Trace.push, Trace.actions]

theorem Trace.actions_pushBoundary (t : Trace) (b : Boundary) :
    (t.pushBoundary b).actions = t.actions ++ [.boundary b] := by
  cases b <;> exact t.actions_push _

theorem Bound.frame {set binding : Word} {kind : BindingKind} {ty : Ty} {p : Place}
    (bound : Bound d set binding kind ty p d') :
    d'.trace = d.trace ∧ d'.outputs = d.outputs ∧ d'.builtins = d.builtins ∧
      p = d.boundPlace set binding := by
  cases bound with
  | again found => exact ⟨rfl, rfl, rfl, by simp only [Draft.boundPlace, found]⟩
  | new missing => exact ⟨rfl, rfl, rfl, by simp only [Draft.boundPlace, missing]⟩

theorem Effect.actions (effect : Effect d c reply d') :
    d'.trace.actions = d.trace.actions ++ c.records d reply := by
  cases effect with
  | load => exact d.trace.actions_push _
  | store => exact d.trace.actions_push _
  | texture bound =>
    obtain ⟨trace, _, _, rfl⟩ := bound.frame
    rw [Call.records, ← trace]
    exact Trace.actions_push _ _
  | beginIf => exact d.trace.actions_pushBoundary _
  | beginElse scopes | endIf scopes | endFor scopes =>
    simp only [Call.records, scopes]
    exact d.trace.actions_pushBoundary _
  | breakLoop inside | continueLoop inside =>
    simp only [Call.records, inside]
    exact d.trace.actions_pushBoundary _
  | beginFor =>
    refine (Trace.actions_push _ _).trans ?_
    rw [Draft.withLoop, Draft.openLoop, Trace.actions_pushBoundary, List.append_assoc]
    rfl
  | uniform bound | storage bound =>
    rw [bound.frame.1]
    exact (List.append_nil _).symm
  | _ => exact (List.append_nil _).symm

theorem Effect.outputs (effect : Effect d c reply d') :
    d'.outputs.toList.map Output.value =
        d.outputs.toList.map Output.value ++ c.output?.toList ∧
      d'.builtins.toList.map (fun o => (o.builtin, o.value)) =
        d.builtins.toList.map (fun o => (o.builtin, o.value)) ++ c.builtin?.toList := by
  cases effect with
  | output => simp [Draft.withOutput, Draft.withVariable, Draft.withPlace, Draft.withRef,
      Call.output?, Call.builtin?]
  | builtin => simp [Draft.withBuiltin, Draft.withVariable, Draft.withPlace, Draft.withRef,
      Call.output?, Call.builtin?]
  | uniform bound | storage bound =>
    rw [bound.frame.2.1, bound.frame.2.2.1]
    simp [Call.output?, Call.builtin?]
  | texture bound =>
    obtain ⟨_, outputs, builtins, _⟩ := bound.frame
    simp [Draft.withLoad, Draft.withNode, outputs, builtins, Call.output?, Call.builtin?]
  | _ => exact ⟨(List.append_nil _).symm, (List.append_nil _).symm⟩

end Step

namespace Draft

variable {d : Draft}

theorem leaves_records (valid : d.graph.Valid) {c : Call} (building : c.restarts = false) :
    (c.leaves d).graph.Valid ∧
    (c.leaves d).trace.actions = d.trace.actions ++ d.recorded [c] ∧
    (c.leaves d).outputs.toList.map Output.value =
      d.outputs.toList.map Output.value ++ (d.accepted [c]).filterMap Call.output? ∧
    (c.leaves d).builtins.toList.map (fun o => (o.builtin, o.value)) =
      d.builtins.toList.map (fun o => (o.builtin, o.value)) ++
        (d.accepted [c]).filterMap Call.builtin? := by
  rcases Call.building_cases valid building with
    ⟨reply, answer, effect⟩ | ⟨⟨fault, answer⟩, _, same⟩ | ⟨value, g, rfl, shrinks, same⟩
  · have accepted : d.accepted [c] = [c] := by
      simp [Draft.accepted, answer, Except.toBool]
    have recorded : d.recorded [c] = c.records d reply := by
      simp [Draft.recorded, answer]
    have written := effect.outputs
    have single {β : Type} (f : Call → Option β) : [c].filterMap f = (f c).toList := by
      cases made : f c <;> simp [made]
    rw [accepted, recorded, single, single]
    exact ⟨effect.valid valid, effect.actions, written.1, written.2⟩
  · have refused : d.accepted [c] = [] := by
      simp [accepted, answer, Except.toBool]
    have nothing : d.recorded [c] = [] := by
      simp [recorded, answer]
    simp [refused, nothing, same, valid]
  · have nothing : d.recorded [.release value] = [] := by
      unfold recorded
      split <;> rfl
    have others : ∀ {β : Type} (f : Call → Option β), f (.release value) = none →
        (d.accepted [.release value]).filterMap f = [] := by
      intro β f none
      unfold accepted
      split <;> simp [accepted, none]
    rw [nothing, others _ rfl, others _ rfl, same]
    simp [shrinks.valid valid]

/-- The record of a program, in the order of its calls. -/
theorem after_records {calls : List Call} (building : ∀ c ∈ calls, c.restarts = false)
    (valid : d.graph.Valid) :
    (d.after calls).trace.actions = d.trace.actions ++ d.recorded calls ∧
    (d.after calls).outputs.toList.map Output.value =
      d.outputs.toList.map Output.value ++ (d.accepted calls).filterMap Call.output? ∧
    (d.after calls).builtins.toList.map (fun o => (o.builtin, o.value)) =
      d.builtins.toList.map (fun o => (o.builtin, o.value)) ++
        (d.accepted calls).filterMap Call.builtin? := by
  induction calls generalizing d with
  | nil => simp [after, recorded, accepted]
  | cons c rest ih =>
    obtain ⟨valid', actions, outputs, builtins⟩ := leaves_records valid (building c (by simp))
    obtain ⟨actions', outputs', builtins'⟩ :=
      ih (fun b member => building b (List.mem_cons_of_mem c member)) valid'
    simp only [after, recorded, accepted, List.append_nil, List.filterMap_append] at *
    rw [actions', outputs', builtins', actions, outputs, builtins]
    simp only [List.append_assoc, and_self]

theorem withSlots_records (d : Draft) (slots : List Ty) :
    (d.withSlots slots).trace = d.trace ∧ (d.withSlots slots).outputs = d.outputs ∧
      (d.withSlots slots).builtins = d.builtins := by
  induction slots generalizing d with
  | nil => exact ⟨rfl, rfl, rfl⟩
  | cons ty rest ih => exact ih (d.withInput ty)

end Draft

end ShaderIR
