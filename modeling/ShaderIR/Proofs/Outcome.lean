import Mathlib.Logic.Relation
import ShaderIR.Emission.Basic

/-! Outcomes of computations that can fail. A statement about a run names what holds of the result
and the state when the run succeeds, and what holds of the fault and the state when it does not; the
rules below take a run apart along its definition. -/
namespace ShaderIR

variable {ε σ α β : Type}

/-- What a run from a state gives: `good` when it succeeds, `bad` when it fails. -/
def Outcome (x : EStateM ε σ α) (s : σ) (good : α → σ → Prop) (bad : ε → σ → Prop) : Prop :=
  match x s with
  | .ok a t => good a t
  | .error fault t => bad fault t

section Rules

variable {x : EStateM ε σ α} {s : σ} {good : α → σ → Prop} {bad : ε → σ → Prop}

theorem Outcome.of_ok {a : α} {t : σ} (run : x s = .ok a t) :
    Outcome x s good bad ↔ good a t := by
  simp only [Outcome, run]

theorem Outcome.of_error {fault : ε} {t : σ} (run : x s = .error fault t) :
    Outcome x s good bad ↔ bad fault t := by
  simp only [Outcome, run]

theorem Outcome.ok {a : α} {t : σ} (outcome : Outcome x s good bad) (run : x s = .ok a t) :
    good a t :=
  (Outcome.of_ok run).mp outcome

theorem Outcome.error {fault : ε} {t : σ} (outcome : Outcome x s good bad)
    (run : x s = .error fault t) : bad fault t :=
  (Outcome.of_error run).mp outcome

theorem Outcome.exists_ok (outcome : Outcome x s good fun _ _ => False) :
    ∃ a t, x s = .ok a t ∧ good a t := by
  cases run : x s with
  | ok a t => exact ⟨a, t, rfl, outcome.ok run⟩
  | error fault t => exact (outcome.error run).elim

theorem Outcome.mono {good' : α → σ → Prop} {bad' : ε → σ → Prop}
    (outcome : Outcome x s good bad) (onGood : ∀ a t, good a t → good' a t)
    (onBad : ∀ fault t, bad fault t → bad' fault t) : Outcome x s good' bad' := by
  cases run : x s with
  | ok a t => exact (Outcome.of_ok run).mpr (onGood a t (outcome.ok run))
  | error fault t => exact (Outcome.of_error run).mpr (onBad fault t (outcome.error run))

theorem Outcome.imp {good' : α → σ → Prop} (outcome : Outcome x s good bad)
    (onGood : ∀ a t, good a t → good' a t) : Outcome x s good' bad :=
  outcome.mono onGood fun _ _ failed => failed

@[simp] theorem outcome_pure (a : α) : Outcome (pure a) s good bad ↔ good a s := Iff.rfl

@[simp] theorem outcome_throw (fault : ε) :
    Outcome (throw fault : EStateM ε σ α) s good bad ↔ bad fault s := Iff.rfl

@[simp] theorem outcome_bind (x : EStateM ε σ α) (f : α → EStateM ε σ β) {good : β → σ → Prop} :
    Outcome (x >>= f) s good bad ↔ Outcome x s (fun a t => Outcome (f a) t good bad) bad := by
  cases run : x s <;> simp only [Outcome, bind, EStateM.bind, run]

@[simp] theorem outcome_map (f : α → β) (x : EStateM ε σ α) {good : β → σ → Prop} :
    Outcome (f <$> x) s good bad ↔ Outcome x s (fun a t => good (f a) t) bad := by
  cases run : x s <;> simp only [Outcome, Functor.map, EStateM.map, run]

@[simp] theorem outcome_get {good : σ → σ → Prop} :
    Outcome (get : EStateM ε σ σ) s good bad ↔ good s s := Iff.rfl

@[simp] theorem outcome_set (t : σ) {good : PUnit → σ → Prop} :
    Outcome (set t : EStateM ε σ PUnit) s good bad ↔ good ⟨⟩ t := Iff.rfl

@[simp] theorem outcome_modify (f : σ → σ) {good : PUnit → σ → Prop} :
    Outcome (modify f : EStateM ε σ PUnit) s good bad ↔ good ⟨⟩ (f s) := Iff.rfl

@[simp] theorem outcome_modifyGet (f : σ → α × σ) :
    Outcome (modifyGet f : EStateM ε σ α) s good bad ↔ good (f s).1 (f s).2 := Iff.rfl

theorem bind_eq_ok {f : α → EStateM ε σ β} {b : β} {u : σ} :
    (x >>= f) s = .ok b u ↔ ∃ a t, x s = .ok a t ∧ f a t = .ok b u := by
  show EStateM.bind x f s = _ ↔ _
  cases run : x s with
  | ok a t => simp [EStateM.bind, run, and_assoc]
  | error fault t => simp [EStateM.bind, run]

theorem exists_of_toBool {x : Except ε α} (ok : x.toBool = true) : ∃ a, x = .ok a := by
  cases x with
  | ok a => exact ⟨a, rfl⟩
  | error fault => contradiction

theorem exists_and_of_toBool {x : Except ε α} {P : α → Prop} (ok : x.toBool = true)
    (holds : ∀ a, x = .ok a → P a) : ∃ a, x = .ok a ∧ P a :=
  (exists_of_toBool ok).imp fun a same => ⟨same, holds a same⟩

theorem exists_of_any {x : Except ε α} {P : α → Prop} [DecidablePred P]
    (checked : x.toOption.any (fun a => decide (P a)) = true) : ∃ a, x = .ok a ∧ P a := by
  cases x with
  | ok a => exact ⟨a, rfl, of_decide_eq_true checked⟩
  | error fault => contradiction

end Rules

/-- States that follow each other, one for each item of a list. -/
inductive Chain (R : α → σ → σ → Prop) : List α → σ → σ → Prop where
  | nil (s : σ) : Chain R [] s s
  | cons {a : α} {rest : List α} {s t u : σ} : R a s t → Chain R rest t u → Chain R (a :: rest) s u

theorem Chain.append {R : α → σ → σ → Prop} {first second : List α} {s t u : σ}
    (before : Chain R first s t) (after : Chain R second t u) : Chain R (first ++ second) s u := by
  induction before with
  | nil => exact after
  | cons step _ ih => exact .cons step (ih after)

theorem Chain.keeps {R : α → σ → σ → Prop} {I : σ → Prop} {items : List α} {s t : σ}
    (chain : Chain R items s t) (step : ∀ a ∈ items, ∀ s t, R a s t → I s → I t) (start : I s) :
    I t := by
  induction chain with
  | nil => exact start
  | @cons a rest s t u first _ ih =>
    exact ih (fun b member => step b (List.mem_cons_of_mem a member))
      (step a (List.mem_cons_self ..) s t first start)

theorem Chain.states {R : Nat → σ → σ → Prop} {n : Nat} {s t : σ}
    (chain : Chain R (List.range n) s t) :
    ∃ f : Nat → σ, f 0 = s ∧ f n = t ∧ ∀ k < n, R k (f k) (f (k + 1)) := by
  have onwards : ∀ n k {s t}, Chain R (List.range' k n) s t →
      ∃ f : Nat → σ, f 0 = s ∧ f n = t ∧ ∀ j < n, R (k + j) (f j) (f (j + 1)) := by
    intro n
    induction n with
    | zero =>
      intro k s t chain
      cases chain
      exact ⟨fun _ => s, rfl, rfl, by simp⟩
    | succ n ih =>
      intro k s t chain
      rw [List.range'_succ] at chain
      cases chain with
      | @cons _ _ _ u _ first rest =>
        obtain ⟨f, begins, ends, steps⟩ := ih (k + 1) rest
        refine ⟨fun j => j.casesOn s f, rfl, ends, fun j bound => ?_⟩
        cases j with
        | zero =>
          subst begins
          exact first
        | succ j =>
          have step := steps j (Nat.lt_of_succ_lt_succ bound)
          rwa [Nat.add_right_comm] at step
  rw [List.range_eq_range'] at chain
  obtain ⟨f, begins, ends, steps⟩ := onwards n 0 chain
  refine ⟨f, begins, ends, fun k bound => ?_⟩
  have step := steps k bound
  rwa [Nat.zero_add] at step

/-- What moves on with every number moves on with all of them. -/
theorem Chain.advances {R : Nat → σ → σ → Prop} {I : Nat → σ → Prop} {n : Nat} {s t : σ}
    (chain : Chain R (List.range n) s t) (step : ∀ k s t, R k s t → I k s → I (k + 1) t)
    (start : I 0 s) : I n t := by
  obtain ⟨f, rfl, rfl, steps⟩ := chain.states
  have reached : ∀ k ≤ n, I k (f k) := by
    intro k
    induction k with
    | zero => exact fun _ => start
    | succ k ih => exact fun bound => step k _ _ (steps k bound) (ih (Nat.le_of_lt bound))
  exact reached n (Nat.le_refl n)

/-! Loops over lists. The state after each round is described by a family of invariants. -/

section Loops

variable {s : σ} {bad : ε → σ → Prop}

theorem Outcome.chain {I : σ → Prop} {R : α → σ → σ → Prop} {f : α → EStateM ε σ PUnit}
    {items : List α}
    (step : ∀ a ∈ items, ∀ t, I t → Outcome (f a) t (fun _ u => R a t u ∧ I u) bad) (start : I s) :
    Outcome (items.forM f) s (fun _ t => Chain R items s t ∧ I t) bad := by
  induction items generalizing s with
  | nil => exact ⟨.nil s, start⟩
  | cons a rest ih =>
    rw [List.forM_eq_forM, List.forM_cons, outcome_bind]
    refine (step a (by simp) s start).imp ?_
    rintro _ t ⟨first, kept⟩
    refine (ih (fun b member => step b (List.mem_cons_of_mem a member)) kept).imp ?_
    rintro _ u ⟨others, last⟩
    exact ⟨.cons first others, last⟩

theorem Outcome.chain_range {I : Nat → σ → Prop} {R : Nat → σ → σ → Prop}
    {f : Nat → EStateM ε σ PUnit} {n : Nat}
    (step : ∀ k < n, ∀ t, I k t → Outcome (f k) t (fun _ u => R k t u ∧ I (k + 1) u) bad)
    (start : I 0 s) :
    Outcome ((List.range n).forM f) s (fun _ t => Chain R (List.range n) s t ∧ I n t) bad := by
  induction n with
  | zero => exact ⟨.nil s, start⟩
  | succ n ih =>
    rw [List.range_succ, List.forM_eq_forM, List.forM_append, outcome_bind]
    refine (ih fun k bound => step k (by omega)).imp ?_
    rintro _ t ⟨before, reached⟩
    rw [List.forM_cons, outcome_bind]
    refine (step n (by omega) t reached).imp ?_
    rintro _ u ⟨last, next⟩
    exact ⟨before.append (.cons last (.nil u)), next⟩

end Loops

@[simp] theorem outcome_buildCheck (x : Except Fault α) {d : Draft} {good : α → Draft → Prop}
    {bad : Fault → Draft → Prop} :
    Outcome (Build.check x) d good bad ↔
      (∀ a, x = .ok a → good a d) ∧ ∀ fault, x = .error fault → bad fault d := by
  cases x <;> simp [Build.check]

@[simp] theorem outcome_emitCheck (x : Except Fault α) {e : Emission} {good : α → Emission → Prop}
    {bad : Fault → Emission → Prop} :
    Outcome (Emit.check x) e good bad ↔
      (∀ a, x = .ok a → good a e) ∧ ∀ fault, x = .error fault → bad fault e := by
  cases x <;> simp [Emit.check]

theorem keeps_along {α : Type} {R : α → α → Prop} {P : α → Prop}
    (step : ∀ {a b}, R a b → P a → P b) {a b : α} (steps : Relation.ReflTransGen R a b)
    (first : P a) : P b := by
  induction steps with
  | refl => exact first
  | tail _ last ih => exact step last ih

theorem mem_push_or {α : Type} {items : Array α} {new : α} {P : α → Prop} (now : P new) :
    ∀ a ∈ items.push new, a ∈ items ∨ P a := by
  intro a member
  rcases Array.mem_push.mp member with before | rfl
  · exact .inl before
  · exact .inr now

end ShaderIR
