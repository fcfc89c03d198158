import ShaderIR.Emission.Basic

/-! Two runs side by side. Both succeed or both fail, and what they give and leave is related. The
rules follow the two computations step by step; they are never compared as functions. -/
namespace ShaderIR

variable {ε σ τ α β γ δ : Type}

/-- Two runs that both succeed, with related results and states, or both fail. -/
def Alike (x : EStateM ε σ α) (s : σ) (y : EStateM ε τ β) (t : τ)
    (good : α → σ → β → τ → Prop) (bad : ε → σ → ε → τ → Prop) : Prop :=
  match x s, y t with
  | .ok a s', .ok b t' => good a s' b t'
  | .error f s', .error g t' => bad f s' g t'
  | _, _ => False

section Rules

variable {x : EStateM ε σ α} {y : EStateM ε τ β} {s : σ} {t : τ}
  {good : α → σ → β → τ → Prop} {bad : ε → σ → ε → τ → Prop}

theorem Alike.ok (alike : Alike x s y t good bad) {a : α} {s' : σ} (run : x s = .ok a s') :
    ∃ b t', y t = .ok b t' ∧ good a s' b t' := by
  unfold Alike at alike
  rw [run] at alike
  cases other : y t with
  | ok b t' =>
    rw [other] at alike
    exact ⟨b, t', rfl, alike⟩
  | error g t' =>
    rw [other] at alike
    exact alike.elim

theorem Alike.error (alike : Alike x s y t good bad) {f : ε} {s' : σ} (run : x s = .error f s') :
    ∃ g t', y t = .error g t' ∧ bad f s' g t' := by
  unfold Alike at alike
  rw [run] at alike
  cases other : y t with
  | ok b t' =>
    rw [other] at alike
    exact alike.elim
  | error g t' =>
    rw [other] at alike
    exact ⟨g, t', rfl, alike⟩

theorem Alike.mono {good' : α → σ → β → τ → Prop} {bad' : ε → σ → ε → τ → Prop}
    (alike : Alike x s y t good bad) (onGood : ∀ a s' b t', good a s' b t' → good' a s' b t')
    (onBad : ∀ f s' g t', bad f s' g t' → bad' f s' g t') : Alike x s y t good' bad' := by
  cases run : x s with
  | ok a s' =>
    obtain ⟨b, t', other, related⟩ := alike.ok run
    simpa only [Alike, run, other] using onGood _ _ _ _ related
  | error f s' =>
    obtain ⟨g, t', other, related⟩ := alike.error run
    simpa only [Alike, run, other] using onBad _ _ _ _ related

theorem Alike.imp {good' : α → σ → β → τ → Prop} (alike : Alike x s y t good bad)
    (onGood : ∀ a s' b t', good a s' b t' → good' a s' b t') : Alike x s y t good' bad :=
  alike.mono onGood fun _ _ _ _ failed => failed

theorem Alike.bind {f : α → EStateM ε σ γ} {g : β → EStateM ε τ δ}
    {last : γ → σ → δ → τ → Prop}
    (first : Alike x s y t (fun a s' b t' => Alike (f a) s' (g b) t' last bad) bad) :
    Alike (x >>= f) s (y >>= g) t last bad := by
  cases run : x s with
  | ok a s' =>
    obtain ⟨b, t', other, related⟩ := first.ok run
    simpa only [Alike, Bind.bind, EStateM.bind, run, other] using related
  | error fault s' =>
    obtain ⟨fault', t', other, related⟩ := first.error run
    simpa only [Alike, Bind.bind, EStateM.bind, run, other] using related

theorem Alike.map {f : α → γ} {g : β → δ} {last : γ → σ → δ → τ → Prop}
    (first : Alike x s y t (fun a s' b t' => last (f a) s' (g b) t') bad) :
    Alike (f <$> x) s (g <$> y) t last bad := by
  rw [map_eq_pure_bind, map_eq_pure_bind]
  exact Alike.bind first

end Rules

/-- Computations that run alike from all states that a relation allows and keep it, with results
that differ by the given renaming and with faults that stand in the given relation. -/
def Agree (S : σ → τ → Prop) (F : ε → ε → Prop) (value : α → β) (x : EStateM ε σ α)
    (y : EStateM ε τ β) : Prop :=
  ∀ s t, S s t → Alike x s y t (fun a s' b t' => b = value a ∧ S s' t')
    fun f s' g t' => F f g ∧ S s' t'

section Agree

variable {S : σ → τ → Prop} {F : ε → ε → Prop}

theorem agree_pure (value : α → β) (a : α) : Agree S F value (pure a) (pure (value a)) :=
  fun _ _ related => ⟨rfl, related⟩

theorem agree_throw (value : α → β) {f g : ε} (faults : F f g) :
    Agree S F value (throw f) (throw g) :=
  fun _ _ related => ⟨faults, related⟩

theorem agree_modify {f : σ → σ} {g : τ → τ} (kept : ∀ s t, S s t → S (f s) (g t)) :
    Agree S F id (modify f : EStateM ε σ PUnit) (modify g : EStateM ε τ PUnit) :=
  fun s t related => ⟨rfl, kept s t related⟩

/-- Reading the state first. What is read is the state that the rest starts from. -/
theorem agree_get {value : α → β} {f : σ → EStateM ε σ α} {g : τ → EStateM ε τ β}
    (rest : ∀ s t, S s t → Alike (f s) s (g t) t (fun a s' b t' => b = value a ∧ S s' t')
      fun f s' g t' => F f g ∧ S s' t') :
    Agree S F value (get >>= f) (get >>= g) :=
  rest

variable {value : α → β} {x : EStateM ε σ α} {y : EStateM ε τ β}

theorem Agree.mono {F' : ε → ε → Prop} (agree : Agree S F value x y)
    (faults : ∀ f g, F f g → F' f g) : Agree S F' value x y := fun s t related =>
  (agree s t related).mono (fun _ _ _ _ good => good) fun f _ g _ bad => bad.imp_left (faults f g)

theorem Agree.bind {last : γ → δ} {f : α → EStateM ε σ γ} {g : β → EStateM ε τ δ}
    (first : Agree S F value x y) (rest : ∀ a, Agree S F last (f a) (g (value a))) :
    Agree S F last (x >>= f) (y >>= g) := by
  intro s t related
  refine Alike.bind ((first s t related).imp ?_)
  rintro a s' _ t' ⟨rfl, kept⟩
  exact rest a s' t' kept

/-- The rule for a first step that gives the same on both sides. -/
theorem Agree.andThen {y : EStateM ε τ α} {last : γ → δ} {f : α → EStateM ε σ γ}
    {g : α → EStateM ε τ δ} (first : Agree S F id x y)
    (rest : ∀ a, Agree S F last (f a) (g a)) : Agree S F last (x >>= f) (y >>= g) :=
  first.bind rest

theorem Agree.map {last : γ → δ} {f : α → γ} {g : β → δ} (first : Agree S F value x y)
    (same : ∀ a, g (value a) = last (f a)) : Agree S F last (f <$> x) (g <$> y) := by
  intro s t related
  refine Alike.map ((first s t related).imp ?_)
  rintro a s' _ t' ⟨rfl, kept⟩
  exact ⟨same a, kept⟩

theorem Agree.forM {value : α → β} {f : α → EStateM ε σ PUnit} {g : β → EStateM ε τ PUnit}
    {items : List α} (step : ∀ a ∈ items, Agree S F id (f a) (g (value a))) :
    Agree S F id (items.forM f) ((items.map value).forM g) := by
  induction items with
  | nil => exact agree_pure id PUnit.unit
  | cons a rest ih =>
    rw [List.map_cons, List.forM_eq_forM, List.forM_eq_forM, List.forM_cons, List.forM_cons]
    exact (step a (by simp)).bind fun _ => ih fun b member => step b (List.mem_cons_of_mem a member)

end Agree

end ShaderIR
