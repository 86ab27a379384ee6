import Mathlib.Logic.Basic

/-!
# Runs of a fallible step function

A machine is a function `step s a` that either fails or gives the next state.
`Reaches` collects the states of the runs whose steps all meet a condition on the
state before, `Runs` names the actions as well. What the end of a run on given
actions meets is decidable.
-/

namespace Lib

variable {σ α β ε : Type}

theorem bind_eq_ok {x : Except ε α} {f : α → Except ε β} {b : β} :
    (x >>= f) = .ok b ↔ ∃ a, x = .ok a ∧ f a = .ok b := by
  cases x with
  | error e => simp [Bind.bind, Except.bind]
  | ok a => simp [Bind.bind, Except.bind]

@[simp] theorem ok_bind (a : α) (f : α → Except ε β) :
    ((Except.ok a : Except ε α) >>= f) = f a := rfl

@[simp] theorem error_bind (e : ε) (f : α → Except ε β) :
    ((Except.error e : Except ε α) >>= f) = .error e := rfl

@[simp] theorem pure_eq_ok (a : α) : (pure a : Except ε α) = .ok a := rfl

theorem map_snd_eq_ok {x : Except ε (α × β)} {b : β} (h : x.map Prod.snd = .ok b) :
    ∃ a, x = .ok (a, b) := by
  cases x with
  | error e => cases h
  | ok r =>
    obtain ⟨a, b'⟩ := r
    cases h
    exact ⟨a, rfl⟩

def okTest (x : Except ε α) (p : α → Bool) : Bool :=
  match x with
  | .ok a => p a
  | .error _ => false

/-! ### Results -/

section

variable {x : Except ε α}

instance decidableExistsOk {P : α → Prop} [DecidablePred P] : Decidable (∃ a, x = .ok a ∧ P a) :=
  match x with
  | .ok a => decidable_of_iff (P a) (by simp)
  | .error _ => isFalse (by simp)

instance decidableIsOk : Decidable (∃ a, x = .ok a) :=
  match x with
  | .ok a => isTrue ⟨a, rfl⟩
  | .error _ => isFalse (by simp)

instance decidableForallOk {P : α → Prop} [DecidablePred P] : Decidable (∀ a, x = .ok a → P a) :=
  match x with
  | .ok a => decidable_of_iff (P a) (by simp)
  | .error _ => isTrue (by simp)

instance decidableEqOk [DecidableEq α] {a : α} : Decidable (x = .ok a) :=
  match x with
  | .ok b => decidable_of_iff (b = a) (by simp)
  | .error _ => isFalse (by simp)

instance decidableEqError [DecidableEq ε] {e : ε} : Decidable (x = .error e) :=
  match x with
  | .ok _ => isFalse (by simp)
  | .error e' => decidable_of_iff (e' = e) (by simp)

instance decidableExistsSome {x : Option α} {P : α → Prop} [DecidablePred P] :
    Decidable (∃ a, x = some a ∧ P a) :=
  match x with
  | some a => decidable_of_iff (P a) (by simp)
  | none => isFalse (by simp)

instance decidableForallSome {x : Option α} {P : α → Prop} [DecidablePred P] :
    Decidable (∀ a, x = some a → P a) :=
  match x with
  | some a => decidable_of_iff (P a) (by simp)
  | none => isTrue (by simp)

end

/-! ### Runs -/

inductive Reaches (step : σ → α → Except ε σ) (ok : σ → α → Prop) (s₀ : σ) :
    σ → Prop
  | start : Reaches step ok s₀ s₀
  | next {s s' : σ} {a : α} : Reaches step ok s₀ s → ok s a →
      step s a = .ok s' → Reaches step ok s₀ s'

variable {step : σ → α → Except ε σ} {ok ok' : σ → α → Prop} {s₀ s : σ}

theorem Reaches.invariant (I : σ → Prop) (h0 : I s₀)
    (hstep : ∀ s a s', I s → ok s a → step s a = .ok s' → I s')
    (h : Reaches step ok s₀ s) : I s := by
  induction h with
  | start => exact h0
  | next _ hok hs ih => exact hstep _ _ _ ih hok hs

theorem Reaches.mono (h : Reaches step ok s₀ s)
    (hsub : ∀ s a, ok s a → ok' s a) : Reaches step ok' s₀ s := by
  induction h with
  | start => exact .start
  | next _ hok hs ih => exact ih.next (hsub _ _ hok) hs

theorem Reaches.map {τ : Type} {step' : τ → α → Except ε τ} {ok' : τ → α → Prop} (f : σ → τ)
    (hstep : ∀ s a s', ok s a → step s a = .ok s' →
      ok' (f s) a ∧ step' (f s) a = .ok (f s')) (h : Reaches step ok s₀ s) :
    Reaches step' ok' (f s₀) (f s) := by
  induction h with
  | start => exact .start
  | next _ hok hs ih =>
    obtain ⟨hok', hs'⟩ := hstep _ _ _ hok hs
    exact ih.next hok' hs'

/-! ### Runs with their actions -/

/-- The actions `as`, all admitted, lead from one state to another. -/
inductive Runs (step : σ → α → Except ε σ) (ok : σ → α → Prop) : σ → List α → σ → Prop
  | nil {s : σ} : Runs step ok s [] s
  | cons {s s' s'' : σ} {a : α} {as : List α} : ok s a → step s a = .ok s' →
      Runs step ok s' as s'' → Runs step ok s (a :: as) s''

section

variable {s' : σ} {a : α} {as : List α} {P : σ → Prop}

/-- **The fold rule**: a relation between the state and a value that every
admitted step keeps holds at the end between the state and the fold. -/
theorem Runs.foldl {f : β → α → β} {b : β} (R : σ → β → Prop)
    (hstep : ∀ s a s' b, R s b → ok s a → step s a = .ok s' → R s' (f b a))
    (h : Runs step ok s as s') (h0 : R s b) : R s' (as.foldl f b) := by
  induction h generalizing b with
  | nil => exact h0
  | cons hok hs _ ih => exact ih (hstep _ _ _ _ h0 hok hs)

theorem Runs.reaches (h : Runs step ok s as s') (h₀ : Reaches step ok s₀ s) :
    Reaches step ok s₀ s' := by
  induction h with
  | nil => exact h₀
  | cons hok hs _ ih => exact ih (h₀.next hok hs)

theorem exists_runs_nil : (∃ s', Runs step ok s [] s' ∧ P s') ↔ P s := by
  constructor
  · rintro ⟨s', ⟨⟩, h⟩
    exact h
  · exact fun h => ⟨s, .nil, h⟩

theorem exists_runs_cons : (∃ s', Runs step ok s (a :: as) s' ∧ P s') ↔
    ok s a ∧ ∃ s₁, step s a = .ok s₁ ∧ ∃ s', Runs step ok s₁ as s' ∧ P s' := by
  constructor
  · rintro ⟨s', hrun, h⟩
    cases hrun with
    | cons hok hs hrun => exact ⟨hok, _, hs, s', hrun, h⟩
  · rintro ⟨hok, s₁, hs, s', hrun, h⟩
    exact ⟨s', .cons hok hs hrun, h⟩

instance decidableExistsRuns [∀ s a, Decidable (ok s a)] [DecidablePred P] :
    ∀ (as : List α) (s : σ), Decidable (∃ s', Runs step ok s as s' ∧ P s')
  | [], _ => decidable_of_iff _ exists_runs_nil.symm
  | _ :: as, _ =>
    have : DecidablePred fun s₁ => ∃ s', Runs step ok s₁ as s' ∧ P s' := decidableExistsRuns as
    decidable_of_iff _ exists_runs_cons.symm

end

end Lib
