import ShaderIR.Proofs.SoundSteps
import ShaderIR.Proofs.Whole

/-! The boundaries of a draft come in order. A block is opened once, a selection is switched at most
once and while it is open, jumps come while their loop is open, and a block that was opened and is no
longer open was closed. -/
namespace ShaderIR

variable {b : Boundary} {d' : Draft} {index : Nat} {outer : List Scope}

namespace Trace

variable {t t' : Trace} {action : Action} {scope : Scope}

theorem phaseAt_succ {k : Nat} (recorded : t.action? k = some (.boundary b)) :
    t.phaseAt scope (k + 1) = if b.scope = scope then b.phase else t.phaseAt scope k := by
  rw [phaseAt, recorded]

theorem phaseAt_grow (grows : Grows t t' action) {n : Nat} (bound : n ≤ t.size) :
    t'.phaseAt scope n = t.phaseAt scope n := by
  induction n with
  | zero => rfl
  | succ n ih =>
    have kept : t'.action? n = t.action? n := by rw [grows.action?, if_neg (by omega)]
    rw [phaseAt, phaseAt, kept, ih (by omega)]

theorem phaseAt_boundary (grows : Grows t t' (.boundary b)) :
    t'.phaseAt scope t'.size = if b.scope = scope then b.phase else t.phaseAt scope t.size := by
  have last : t'.action? t.size = some (.boundary b) := by rw [grows.action?, if_pos rfl]
  rw [grows.size, phaseAt_succ last, phaseAt_grow grows (Nat.le_refl _)]

theorem phaseAt_quiet (grows : Grows t t' action) (quiet : ∀ b, action ≠ .boundary b) :
    t'.phaseAt scope t'.size = t.phaseAt scope t.size := by
  have last : t'.action? t.size = some action := by rw [grows.action?, if_pos rfl]
  rw [grows.size, phaseAt, last, phaseAt_grow grows (Nat.le_refl _)]
  cases action with
  | load | store => rfl
  | boundary b => exact absurd rfl (quiet b)

end Trace

namespace Draft

def openPhase (d : Draft) : Scope → Phase
  | .selection s => if (d.selections[s]?.map Selection.hasElse).getD false then .switched else .opened
  | .loop _ => .opened

structure Orderly (d : Draft) : Prop where
  paced : ∀ event b, d.trace.action? event = some (.boundary b) →
    d.trace.phaseAt b.scope event ∈ b.expects
  distinct : d.scopes.Nodup
  opened : ∀ scope ∈ d.scopes, d.trace.phaseAt scope d.trace.size = d.openPhase scope
  closed : ∀ scope, d.Opened scope → scope ∉ d.scopes →
    d.trace.phaseAt scope d.trace.size = .closed
  unopened : ∀ scope, ¬d.Opened scope → d.trace.phaseAt scope d.trace.size = .built
  switched : ∀ (s : Nat) x, d.selections[s]? = some x →
    (x.hasElse = true ↔ ∃ event, d.trace.action? event = some (.boundary (.ifElse s)))

section Step

variable {d : Draft} (orderly : d.Orderly)

include orderly

/-- A step that leaves the blocks alone, and records a load or a store at most. -/
theorem Orderly.same (trace : d'.trace = d.trace ∨
      ∃ action, Trace.Grows d.trace d'.trace action ∧ ∀ b, action ≠ .boundary b)
    (scopes : d'.scopes = d.scopes) (selections : d'.selections = d.selections)
    (loops : d'.loops = d.loops) : d'.Orderly := by
  have phases : ∀ scope, d'.openPhase scope = d.openPhase scope := by
    intro scope
    cases scope with
    | selection s => rw [openPhase, openPhase, selections]
    | loop => rfl
  have opens : ∀ scope, d'.Opened scope ↔ d.Opened scope := by
    intro scope
    cases scope with
    | selection s => rw [Opened, Opened, selections]
    | loop l => rw [Opened, Opened, loops]
  obtain ⟨recorded, before, now⟩ : (∀ event b, d'.trace.action? event = some (.boundary b) ↔
      d.trace.action? event = some (.boundary b)) ∧
      (∀ scope, ∀ event < d.trace.size, d'.trace.phaseAt scope event = d.trace.phaseAt scope event) ∧
      ∀ scope, d'.trace.phaseAt scope d'.trace.size = d.trace.phaseAt scope d.trace.size := by
    rcases trace with same | ⟨action, grows, quiet⟩
    · simp [same]
    · refine ⟨fun event b => ?_, fun scope event bound => Trace.phaseAt_grow grows
        (Nat.le_of_lt bound), fun scope => Trace.phaseAt_quiet grows quiet⟩
      rw [grows.action?]
      split
      · have none : d.trace.action? event ≠ some (.boundary b) := fun found =>
          absurd (Trace.action?_lt found) (by omega)
        simp [none, quiet b]
      · exact Iff.rfl
  refine ⟨fun event b found => ?_, ?_, ?_, ?_, ?_, ?_⟩
  · have found := (recorded event b).mp found
    rw [before _ event (Trace.action?_lt found)]
    exact orderly.paced event b found
  all_goals simp only [now, scopes, selections, phases, opens, recorded]
  · exact orderly.distinct
  · exact orderly.opened
  · exact orderly.closed
  · exact orderly.unopened
  · exact orderly.switched

theorem Orderly.boundary (grows : Trace.Grows d.trace d'.trace (.boundary b))
    (turn : d.trace.phaseAt b.scope d.trace.size ∈ b.expects) (distinct : d'.scopes.Nodup)
    (opened : ∀ scope ∈ d'.scopes,
      (if b.scope = scope then b.phase else d.trace.phaseAt scope d.trace.size) = d'.openPhase scope)
    (closed : ∀ scope, d'.Opened scope → scope ∉ d'.scopes →
      (if b.scope = scope then b.phase else d.trace.phaseAt scope d.trace.size) = .closed)
    (unopened : ∀ scope, ¬d'.Opened scope →
      (if b.scope = scope then b.phase else d.trace.phaseAt scope d.trace.size) = .built)
    (switched : ∀ (s : Nat) x', d'.selections[s]? = some x' → (x'.hasElse = true ↔
      b = .ifElse s ∨ ∃ event, d.trace.action? event = some (.boundary (.ifElse s)))) :
    d'.Orderly where
  paced event other found := by
    by_cases before : event < d.trace.size
    · rw [Trace.phaseAt_grow grows (Nat.le_of_lt before)]
      rw [grows.action?, if_neg (by omega)] at found
      exact orderly.paced event other found
    · obtain ⟨rfl, same⟩ := recorded_last grows found (by omega)
      obtain rfl := Action.boundary.inj same
      rw [Trace.phaseAt_grow grows (Nat.le_refl _)]
      exact turn
  distinct := distinct
  opened scope member := (Trace.phaseAt_boundary grows).trans (opened scope member)
  closed scope exists' outside := (Trace.phaseAt_boundary grows).trans (closed scope exists' outside)
  unopened scope missing := (Trace.phaseAt_boundary grows).trans (unopened scope missing)
  switched s x found := by
    rw [switched s x found]
    constructor
    · rintro (rfl | ⟨event, before⟩)
      · exact ⟨d.trace.size, by rw [grows.action?, if_pos rfl]⟩
      · exact ⟨event, by rw [grows.action?, if_neg (by have := Trace.action?_lt before; omega),
          before]⟩
    · rintro ⟨event, found'⟩
      rw [grows.action?] at found'
      split at found'
      · exact .inl (Action.boundary.inj (Option.some.inj found'))
      · exact .inr ⟨event, found'⟩

end Step

theorem orderly_cleared (d : Draft) (types : TypeTable) : (d.cleared types).Orderly where
  paced := by simp [cleared, Trace.action?]
  distinct := by simp [cleared]
  opened := by simp [cleared]
  closed scope opened := by cases scope <;> simp [cleared, Opened] at opened
  unopened scope _ := rfl
  switched := by simp [cleared]

section Boundaries

variable {strict : Prop} {d : Draft} (sound : d.Sound strict) (orderly : d.Orderly)

include sound orderly

theorem Orderly.opens (grows : Trace.Grows d.trace d'.trace (.boundary b))
    (turn : .built ∈ b.expects) (scopes : d'.scopes = b.scope :: d.scopes)
    (fresh : ¬d.Opened b.scope)
    (exist : ∀ scope, d'.Opened scope ↔ b.scope = scope ∨ d.Opened scope)
    (phase : b.phase = d'.openPhase b.scope)
    (kept : ∀ scope, d.Opened scope → d'.openPhase scope = d.openPhase scope)
    (switched : ∀ (s : Nat) x', d'.selections[s]? = some x' → (x'.hasElse = true ↔
      b = .ifElse s ∨ ∃ event, d.trace.action? event = some (.boundary (.ifElse s)))) :
    d'.Orderly := by
  have other : ∀ scope ∈ d.scopes, b.scope ≠ scope := by
    rintro _ member rfl
    exact fresh (sound.flow.opened _ member)
  refine orderly.boundary grows (by rw [orderly.unopened _ fresh]; exact turn) ?_
    (fun scope member => ?_) (fun scope exists' outside => ?_) (fun scope missing => ?_) switched
  · rw [scopes]
    exact List.nodup_cons.mpr ⟨fun member => other _ member rfl, orderly.distinct⟩
  · rw [scopes] at member
    rcases List.mem_cons.mp member with rfl | before
    · rw [if_pos rfl, phase]
    · rw [if_neg (other scope before), orderly.opened scope before,
        kept scope (sound.flow.opened _ before)]
  · rw [scopes] at outside
    have other : b.scope ≠ scope := fun same => outside (same ▸ List.mem_cons_self ..)
    rw [if_neg other]
    exact orderly.closed scope (((exist scope).mp exists').resolve_left other)
      fun member => outside (List.mem_cons_of_mem _ member)
  · rw [exist, not_or] at missing
    rw [if_neg missing.1]
    exact orderly.unopened scope missing.2

theorem Orderly.beginIf (condition : Handle) : (d.openSelection condition).Orderly := by
  refine orderly.opens sound (Trace.grows_pushBoundary (.ifBegin d.selections.size))
    (List.mem_singleton.mpr rfl) rfl (Nat.lt_irrefl _) (fun scope => ?_) ?_ (fun scope opened => ?_)
    fun s x found => ?_
  · cases scope with
    | selection s =>
      simp only [Opened, openSelection, Array.size_push, Boundary.scope, Scope.selection.injEq]
      omega
    | loop l => simp [Boundary.scope, Opened, openSelection]
  · rw [Boundary.scope, openPhase, openSelection, Array.getElem?_push_size]
    rfl
  · cases scope with
    | loop l => rfl
    | selection s =>
      rw [openPhase, openPhase, openSelection, Array.getElem?_push, if_neg (Nat.ne_of_lt opened)]
  · rw [openSelection] at found
    simp only [reduceCtorEq, false_or]
    rcases pushed_or found with before | ⟨rfl, rfl⟩
    · exact orderly.switched s x before
    · refine ⟨fun isElse => by simp [nextSelection] at isElse, ?_⟩
      rintro ⟨event, recorded⟩
      exact absurd (sound.actions event _ recorded).1 (Nat.lt_irrefl _)

theorem Orderly.beginFor (first last increment : Handle) (counter : Place) :
    (d.openLoop first last increment counter).Orderly := by
  refine orderly.opens sound (Trace.grows_pushBoundary (.loopBegin d.loops.size))
    (List.mem_singleton.mpr rfl) rfl (Nat.lt_irrefl _) (fun scope => ?_) rfl
    (fun scope _ => by cases scope <;> rfl) fun s x found => ?_
  · cases scope with
    | selection s => simp [Boundary.scope, Opened, openLoop]
    | loop l =>
      simp only [Opened, openLoop, Array.size_push, Boundary.scope, Scope.loop.injEq]
      omega
  · rw [orderly.switched s x found]
    simp

theorem Orderly.beginElse {s : Selection} (opened : d.scopes = .selection index :: outer)
    (stored : d.selections[index]? = some s) (single : s.hasElse = false) :
    (d.switchSelection index s).Orderly := by
  have inside : .selection index ∈ d.scopes := by simp [opened]
  have now : d.trace.phaseAt (.selection index) d.trace.size = .opened := by
    rw [orderly.opened _ inside, openPhase, stored, Option.map_some, single]
    rfl
  have selections : ∀ k, (d.switchSelection index s).selections[k]? =
      if index = k then some { s with hasElse := true } else d.selections[k]? := by
    intro k
    simp only [switchSelection, Array.getElem?_setIfInBounds]
    split
    · rw [if_pos (Array.getElem?_eq_some_iff.mp stored).1]
    · rfl
  have opens : ∀ scope, (d.switchSelection index s).Opened scope ↔ d.Opened scope := by
    intro scope
    cases scope with
    | selection k => simp only [Opened, switchSelection, Array.size_setIfInBounds]
    | loop l => exact Iff.rfl
  refine orderly.boundary (Trace.grows_pushBoundary (.ifElse index))
    (by rw [Boundary.scope, now]; exact List.mem_singleton.mpr rfl) orderly.distinct
    (fun scope member => ?_) (fun scope exists' outside => ?_) (fun scope missing => ?_)
    fun k x found => ?_
  · rw [Boundary.scope]
    split
    · rename_i same
      subst same
      rw [openPhase, selections, if_pos rfl]
      rfl
    · rename_i other
      rw [orderly.opened scope member]
      cases scope with
      | loop l => rfl
      | selection k =>
        have differs : index ≠ k := by
          rintro rfl
          exact other rfl
        rw [openPhase, openPhase, selections, if_neg differs]
  · rw [Boundary.scope, if_neg (by rintro rfl; exact outside inside)]
    exact orderly.closed scope ((opens scope).mp exists') outside
  · rw [Boundary.scope, if_neg]
    · exact orderly.unopened scope fun exists' => missing ((opens scope).mpr exists')
    · rintro rfl
      exact missing ((opens _).mpr (sound.flow.opened _ inside))
  · rw [selections] at found
    split at found
    · rename_i same
      subst same
      obtain rfl := Option.some.inj found
      simp
    · rename_i other
      rw [orderly.switched k x found, Boundary.ifElse.injEq]
      exact (or_iff_right other).symm

theorem Orderly.close {scope : Scope} (opened : d.scopes = scope :: outer)
    (belongs : b.scope = scope) (closes : b.phase = .closed) (turn : d.openPhase scope ∈ b.expects)
    (notElse : ∀ s, b ≠ .ifElse s) : (d.closeBlock outer b).Orderly := by
  have inside : scope ∈ d.scopes := by simp [opened]
  have distinct := orderly.distinct
  rw [opened, List.nodup_cons] at distinct
  refine orderly.boundary (Trace.grows_pushBoundary b)
    (by rw [belongs, orderly.opened scope inside]; exact turn)
    distinct.2 (fun other member => ?_) (fun other exists' outside => ?_) (fun other missing => ?_)
    fun s x found => ?_
  · rw [belongs, if_neg (by rintro rfl; exact distinct.1 member)]
    have before : other ∈ d.scopes := by
      rw [opened]
      exact List.mem_cons_of_mem _ member
    exact orderly.opened other before
  · rw [belongs, closes]
    split
    · rfl
    · rename_i different
      refine orderly.closed other exists' fun member => ?_
      rw [opened] at member
      rcases List.mem_cons.mp member with same | before
      · exact different same.symm
      · exact outside before
  · rw [belongs, if_neg]
    · exact orderly.unopened other missing
    · rintro rfl
      exact missing (sound.flow.opened _ inside)
  · rw [orderly.switched s x found]
    exact (or_iff_right (notElse s)).symm

omit sound in
/-- A jump comes while its loop is open, and leaves it open. -/
theorem Orderly.jump {boundary : Id → Boundary} (inside : innermostLoop? d.scopes = some index)
    (jumps : boundary d.nextId = .leave index d.nextId ∨ boundary d.nextId = .next index d.nextId) :
    (d.withJump boundary).Orderly := by
  have member := mem_of_innermostLoop? inside
  have now : d.trace.phaseAt (.loop index) d.trace.size = .opened := orderly.opened _ member
  have scope : (boundary d.nextId).scope = .loop index := by
    rcases jumps with jump | jump <;> rw [jump] <;> rfl
  have phase : (boundary d.nextId).phase = .opened := by
    rcases jumps with jump | jump <;> rw [jump] <;> rfl
  have expects : (boundary d.nextId).expects = [.opened] := by
    rcases jumps with jump | jump <;> rw [jump] <;> rfl
  have kept : ∀ other, (if (boundary d.nextId).scope = other then (boundary d.nextId).phase
      else d.trace.phaseAt other d.trace.size) = d.trace.phaseAt other d.trace.size := by
    intro other
    rw [scope, phase]
    split
    · rename_i same
      rw [← same, now]
    · rfl
  refine orderly.boundary (Trace.grows_pushBoundary (boundary d.nextId))
    (by rw [scope, now, expects]; exact List.mem_singleton.mpr rfl) orderly.distinct ?_ ?_ ?_
    fun s x found => ?_
  · intro other within
    rw [kept, orderly.opened other within]
    cases other <;> rfl
  · intro other exists' outside
    rw [kept]
    exact orderly.closed other exists' outside
  · intro other missing
    rw [kept]
    exact orderly.unopened other missing
  · rw [orderly.switched s x found]
    rcases jumps with jump | jump <;> rw [jump] <;> simp

end Boundaries

theorem Step.orderly {strict : Prop} {d : Draft} (step : Step strict d d') (sound : d.Sound strict)
    (orderly : d.Orderly) : d'.Orderly := by
  cases step with
  | node | input | level | ref | binding | localVariable | output | builtin | chain | release =>
    exact orderly.same (.inl rfl) rfl rfl rfl
  | @load p =>
    exact orderly.same (.inr ⟨_, Trace.grows_pushLoad p d.graph.nextHandle, by simp⟩) rfl rfl rfl
  | @store p _ value =>
    exact orderly.same (.inr ⟨_, Trace.grows_pushStore p value, by simp⟩) rfl rfl rfl
  | beginIf => exact orderly.beginIf sound _
  | beginElse opened stored single => exact orderly.beginElse sound opened stored single
  | @endIf index outer opened =>
    refine orderly.close sound opened rfl rfl ?_ (by simp)
    rw [openPhase, Boundary.expects]
    split <;> simp
  | beginFor => exact orderly.beginFor sound ..
  | endFor opened => exact orderly.close sound opened rfl rfl (List.mem_singleton.mpr rfl) (by simp)
  | breakLoop inside => exact orderly.jump inside (.inl rfl)
  | continueLoop inside => exact orderly.jump inside (.inr rfl)

end Draft

end ShaderIR
