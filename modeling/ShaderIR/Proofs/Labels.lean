import Mathlib.Data.List.Nodup
import ShaderIR.Proofs.Owners

/-! The labels of blocks. Each boundary writes labels of its own, so no label is written twice; and
once every block is closed, every label that a branch or a merge leads to is written. -/
namespace ShaderIR

variable {b b' : Boundary} {j k : Nat} {scope : Scope} {id : Id}

def Phase.rank : Phase → Nat
  | .built => 0
  | .opened => 1
  | .switched => 2
  | .closed => 3

def Scope.opener : Scope → Boundary
  | .selection s => .ifBegin s
  | .loop l => .loopBegin l

def Scope.closer : Scope → Boundary
  | .selection s => .ifEnd s
  | .loop l => .loopEnd l

namespace Boundary

/-- Whether a boundary is a jump. Any number of them can belong to a loop. -/
def isJump : Boundary → Bool
  | .leave _ _ | .next _ _ => true
  | _ => false

def source (b : Boundary) : Boundary := if b.isJump then b else b.scope.opener

/-- Which of the labels taken there a boundary writes: from which one on, and how many. -/
def share : Boundary → Nat × Nat
  | .ifBegin _ => (0, 1)
  | .ifElse _ => (1, 1)
  | .ifEnd _ => (2, 1)
  | .loopBegin _ => (0, 3)
  | .loopEnd _ => (3, 2)
  | .leave _ _ | .next _ _ => (0, 1)

theorem rank_lt (lasting : b.isJump = false) : ∀ phase ∈ b.expects, phase.rank < b.phase.rank := by
  cases b with
  | leave | next => contradiction
  | _ => simp [expects, phase, Phase.rank]

theorem rank_le (b : Boundary) : ∀ phase ∈ b.expects, phase.rank ≤ b.phase.rank := by
  cases b with
  | leave | next => simp [expects, phase]
  | _ => exact fun phase member => Nat.le_of_lt (rank_lt rfl phase member)

/-- Boundaries that belong together write different labels. -/
theorem eq_of_share {part part' : Nat} (sources : b.source = b'.source)
    (parts : b.share.1 + part = b'.share.1 + part') (bound : part < b.share.2)
    (bound' : part' < b'.share.2) : b = b' := by
  cases b <;> cases b' <;>
    simp only [source, isJump, scope, Scope.opener, share, if_true, if_false, Bool.false_eq_true,
      ifBegin.injEq, loopBegin.injEq, leave.injEq, next.injEq, reduceCtorEq]
      at sources parts bound bound' <;>
    first
      | omega
      | rw [sources]
      | rw [sources.1, sources.2]

end Boundary

namespace Draft

def writes (d : Draft) (b : Boundary) : List Id :=
  ((d.labels b.source).drop b.share.1).take b.share.2

section Phases

variable {d : Draft} (orderly : d.Orderly)

include orderly

theorem Orderly.rank_succ (scope : Scope) (k : Nat) :
    (d.trace.phaseAt scope k).rank ≤ (d.trace.phaseAt scope (k + 1)).rank := by
  rw [Trace.phaseAt]
  split
  · rename_i b recorded
    split
    · rename_i same
      rw [← same]
      exact b.rank_le _ (orderly.paced k b recorded)
    · exact Nat.le_refl _
  · exact Nat.le_refl _

theorem Orderly.rank_mono (scope : Scope) (before : j ≤ k) :
    (d.trace.phaseAt scope j).rank ≤ (d.trace.phaseAt scope k).rank := by
  induction before with
  | refl => exact Nat.le_refl _
  | step _ ih => exact Nat.le_trans ih (orderly.rank_succ scope _)

theorem Orderly.once (lasting : b.isJump = false) (first : d.trace.action? j = some (.boundary b))
    (second : d.trace.action? k = some (.boundary b)) : j = k := by
  have apart : ∀ {j k}, d.trace.action? j = some (.boundary b) →
      d.trace.action? k = some (.boundary b) → ¬j < k := by
    intro j k first second before
    have later := orderly.rank_mono b.scope (Nat.succ_le_of_lt before)
    have now := b.rank_lt lasting _ (orderly.paced k b second)
    rw [Trace.phaseAt_succ first, if_pos rfl] at later
    omega
  have := apart first second
  have := apart second first
  omega

theorem Orderly.opener (begun : d.trace.phaseAt scope k ≠ .built) :
    ∃ j < k, d.trace.action? j = some (.boundary scope.opener) := by
  induction k with
  | zero => exact absurd rfl begun
  | succ k ih =>
    rw [Trace.phaseAt] at begun
    split at begun
    · rename_i b recorded
      split at begun
      · rename_i same
        by_cases isOpener : b = scope.opener
        · exact ⟨k, Nat.lt_succ_self k, by rw [recorded, isOpener]⟩
        · have expected := orderly.paced k b recorded
          rw [same] at expected
          have begun : d.trace.phaseAt scope k ≠ .built := by
            intro built
            rw [built] at expected
            cases b with
            | ifBegin s => exact isOpener (by rw [← same]; rfl)
            | loopBegin l => exact isOpener (by rw [← same]; rfl)
            | _ => simp [Boundary.expects] at expected
          obtain ⟨j, before, found⟩ := ih begun
          exact ⟨j, Nat.lt_succ_of_lt before, found⟩
      · obtain ⟨j, before, found⟩ := ih begun
        exact ⟨j, Nat.lt_succ_of_lt before, found⟩
    · obtain ⟨j, before, found⟩ := ih begun
      exact ⟨j, Nat.lt_succ_of_lt before, found⟩

omit orderly in
theorem closer_recorded (closed : d.trace.phaseAt scope k = .closed) :
    ∃ j < k, d.trace.action? j = some (.boundary scope.closer) := by
  induction k with
  | zero => simp [Trace.phaseAt] at closed
  | succ k ih =>
    rw [Trace.phaseAt] at closed
    split at closed
    · rename_i b recorded
      split at closed
      · rename_i same
        refine ⟨k, Nat.lt_succ_self k, ?_⟩
        rw [recorded, ← same]
        cases b <;> first | rfl | simp [Boundary.phase] at closed
      · obtain ⟨j, before, found⟩ := ih closed
        exact ⟨j, Nat.lt_succ_of_lt before, found⟩
    · obtain ⟨j, before, found⟩ := ih closed
      exact ⟨j, Nat.lt_succ_of_lt before, found⟩

/-- The boundary that took the labels of a boundary is recorded. -/
theorem Orderly.source_recorded (recorded : d.trace.action? k = some (.boundary b)) :
    ∃ j ≤ k, d.trace.action? j = some (.boundary b.source) := by
  by_cases already : b = b.source
  · exact ⟨k, Nat.le_refl _, by rw [← already, recorded]⟩
  · have expected := orderly.paced k b recorded
    have begun : d.trace.phaseAt b.scope k ≠ .built := by
      intro built
      rw [built] at expected
      cases b with
      | ifBegin | loopBegin => exact already rfl
      | _ => simp [Boundary.expects] at expected
    obtain ⟨j, before, found⟩ := orderly.opener begun
    refine ⟨j, Nat.le_of_lt before, ?_⟩
    rw [found]
    cases b with
    | leave | next => exact absurd rfl already
    | _ => rfl

end Phases

section Labels

variable {strict : Prop} {d : Draft} (proper : d.Proper strict)

include proper

theorem Proper.owns_written (recorded : d.trace.action? k = some (.boundary b))
    (member : id ∈ d.writes b) :
    ∃ j part, j ≤ k ∧ d.trace.action? j = some (.boundary b.source) ∧
      d.Owns id (.label j (b.share.1 + part)) ∧ part < b.share.2 := by
  obtain ⟨j, before, found⟩ := proper.orderly.source_recorded recorded
  obtain ⟨part, taken⟩ := List.mem_iff_getElem?.mp member
  rw [writes, List.getElem?_take] at taken
  split at taken
  · rename_i within
    rw [List.getElem?_drop] at taken
    exact ⟨j, part, before, found, ⟨b.source, found, taken⟩, within⟩
  · contradiction

/-- No label is written by two boundaries. -/
theorem Proper.writes_unique (first : d.trace.action? j = some (.boundary b))
    (member : id ∈ d.writes b) (second : d.trace.action? k = some (.boundary b'))
    (member' : id ∈ d.writes b') : j = k := by
  obtain ⟨j', part, _, found, owns, bound⟩ := proper.owns_written first member
  obtain ⟨k', part', _, found', owns', bound'⟩ := proper.owns_written second member'
  obtain ⟨rfl, parts⟩ := Owner.label.inj (proper.owned.unique _ _ _ owns owns')
  have sources : b.source = b'.source :=
    Action.boundary.inj (Option.mem_unique found found')
  obtain rfl := Boundary.eq_of_share sources parts bound bound'
  by_cases lasting : b.isJump = false
  · exact proper.orderly.once lasting first second
  · -- The label of a jump is taken by the jump itself.
    have jumps : b.isJump = true := by simpa using lasting
    have own : ∀ {k}, d.trace.action? k = some (.boundary b) → d.Owns id (.label k 0) := by
      intro k recorded
      refine ⟨b, recorded, ?_⟩
      cases b with
      | leave | next =>
        rw [List.mem_singleton.mp member]
        rfl
      | _ => contradiction
    exact (Owner.label.inj (proper.owned.unique _ _ _ (own first) (own second))).1

theorem Proper.writes_nodup (recorded : d.trace.action? k = some (.boundary b)) :
    (d.writes b).Nodup := by
  obtain ⟨j, _, found⟩ := proper.orderly.source_recorded recorded
  have labels : (d.labels b.source).Nodup := by
    rw [List.nodup_iff_getElem?_ne_getElem?]
    intro i i' before bound same
    have known := List.getElem?_eq_getElem bound
    have owns : d.Owns _ (.label j i') := ⟨_, found, known⟩
    have owns' : d.Owns _ (.label j i) := ⟨_, found, same.trans known⟩
    have := (Owner.label.inj (proper.owned.unique _ _ _ owns owns')).2
    omega
  exact (labels.sublist (List.drop_sublist _ _)).sublist (List.take_sublist _ _)

end Labels

def Writes (d : Draft) (id : Id) : Prop :=
  ∃ event b, d.trace.action? event = some (.boundary b) ∧ id ∈ d.writes b

section Targets

variable {strict : Prop} {d : Draft} (proper : d.Proper strict) (scopes : d.scopes = [])

/-- Once every block is closed, the labels of a block that closing writes are written. -/
theorem Orderly.writes_closer (orderly : d.Orderly) (scopes : d.scopes = []) (scope : Scope)
    (opened : d.Opened scope) (member : id ∈ d.writes scope.closer) : d.Writes id := by
  obtain ⟨j, _, found⟩ := closer_recorded (orderly.closed scope opened (by simp [scopes]))
  exact ⟨j, _, found, member⟩

theorem Orderly.writes_opener (orderly : d.Orderly)
    (recorded : d.trace.action? k = some (.boundary b)) (lasting : b.isJump = false)
    (member : id ∈ d.writes b.scope.opener) : d.Writes id := by
  obtain ⟨j, _, found⟩ := orderly.source_recorded recorded
  rw [Boundary.source, if_neg (by simp [lasting])] at found
  exact ⟨j, _, found, member⟩

variable {s : Selection} {l : CountedLoop} {index : Nat}

theorem writes_selection (found : d.selections[index]? = some s) :
    d.writes (.ifBegin index) = [s.thenLabel] ∧ d.writes (.ifElse index) = [s.elseLabel] ∧
      d.writes (.ifEnd index) = [s.mergeLabel] := by
  have labels : d.labels (.ifBegin index) = s.labels := by rw [labels, found]; rfl
  exact ⟨by rw [writes]; exact congrArg (fun ids => (ids.drop 0).take 1) labels,
    by rw [writes]; exact congrArg (fun ids => (ids.drop 1).take 1) labels,
    by rw [writes]; exact congrArg (fun ids => (ids.drop 2).take 1) labels⟩

theorem writes_loop (found : d.loops[index]? = some l) :
    d.writes (.loopBegin index) = [l.header, l.check, l.body] ∧
      d.writes (.loopEnd index) = [l.increment, l.post] := by
  have labels : d.labels (.loopBegin index) = l.labels := by rw [labels, found]; rfl
  exact ⟨by rw [writes]; exact congrArg (fun ids => (ids.drop 0).take 3) labels,
    by rw [writes]; exact congrArg (fun ids => (ids.drop 3).take 2) labels⟩

include proper scopes

theorem Proper.writes_merge (found : d.selections[index]? = some s) : d.Writes s.mergeLabel := by
  refine proper.orderly.writes_closer scopes (.selection index)
    (Array.getElem?_eq_some_iff.mp found).1 ?_
  rw [Scope.closer, (writes_selection found).2.2]
  exact List.mem_singleton.mpr rfl

theorem Proper.writes_post (found : d.loops[index]? = some l) :
    d.Writes l.post ∧ d.Writes l.increment := by
  have closer : ∀ id ∈ [l.increment, l.post], d.Writes id := fun id member =>
    proper.orderly.writes_closer scopes (.loop index)
      (Array.getElem?_eq_some_iff.mp found).1 (by
        rw [Scope.closer, (writes_loop found).2]
        exact member)
  exact ⟨closer _ (by simp), closer _ (by simp)⟩

theorem Proper.writes_false (found : d.selections[index]? = some s) : d.Writes s.falseLabel := by
  unfold Selection.falseLabel
  split
  · rename_i hasElse
    obtain ⟨event, recorded⟩ := (proper.orderly.switched index s found).mp hasElse
    exact ⟨event, _, recorded, by rw [(writes_selection found).2.1]; exact List.mem_singleton.mpr rfl⟩
  · exact proper.writes_merge scopes found

end Targets

end Draft

end ShaderIR
