/-!
# Computations that may stop

What a computation in `Except` returns when it returns, and that it never stops
with an error of a bad kind, with rules for `pure`, `bind` and weakening. `Leaves`
says of a part of the state that it stays as it is. `Follows` compares two
computations, of which the first keeps account of more.
-/

namespace Lib

variable {ε α β : Type} {bad : ε → Prop} {x : Except ε α} {a : α} {P Q : α → Prop}

/-- A result of `x` satisfies `P`, and `x` does not stop with a bad error. -/
def Yields (bad : ε → Prop) (x : Except ε α) (P : α → Prop) : Prop :=
  (∀ a, x = .ok a → P a) ∧ ∀ e, x = .error e → ¬ bad e

theorem Yields.of_ok (h : P a) : Yields bad (.ok a : Except ε α) P := by
  constructor
  · rintro b ⟨⟩
    exact h
  · rintro e ⟨⟩

theorem Yields.of_error {e : ε} (h : ¬ bad e) : Yields bad (.error e : Except ε α) P := by
  constructor
  · rintro a ⟨⟩
  · rintro e' ⟨⟩
    exact h

theorem Yields.of_eq (hx : x = .ok a) (h : P a) : Yields bad x P := hx ▸ Yields.of_ok h

theorem Yields.of_eq_error {e : ε} (hx : x = .error e) (h : ¬ bad e) : Yields bad x P :=
  hx ▸ Yields.of_error h

theorem Yields.mono (h : Yields bad x P) (hPQ : ∀ a, P a → Q a) : Yields bad x Q :=
  ⟨fun a ha => hPQ a (h.1 a ha), h.2⟩

theorem Yields.self (h : Yields bad x P) : Yields bad x (fun a => x = .ok a) :=
  ⟨fun _ ha => ha, h.2⟩

theorem Yields.bind {f : α → Except ε β} {R : β → Prop} (h : Yields bad x P)
    (hf : ∀ a, P a → Yields bad (f a) R) : Yields bad (x >>= f) R := by
  cases x with
  | error e => exact Yields.of_error (h.2 e rfl)
  | ok a => exact hf a (h.1 a rfl)

theorem Yields.map {f : α → β} {R : β → Prop} (h : Yields bad x P) (hf : ∀ a, P a → R (f a)) :
    Yields bad (x.map f) R := by
  cases x with
  | error e => exact Yields.of_error (h.2 e rfl)
  | ok a => exact Yields.of_ok (hf a (h.1 a rfl))

/-! ## A part of the state that stays -/

section

variable {γ : Type} {π : α → γ} {ρ : β → γ} {c : γ}

def Leaves (π : α → γ) (c : γ) (x : Except ε α) : Prop :=
  ∀ a, x = .ok a → π a = c

theorem Leaves.of_ok (h : π a = c) : Leaves π c (.ok a : Except ε α) := by
  rintro b ⟨⟩
  exact h

theorem Leaves.of_error (e : ε) : Leaves π c (.error e : Except ε α) := by rintro b ⟨⟩

theorem Leaves.bind {f : α → Except ε β} (h : Leaves π c x)
    (hf : ∀ a, π a = c → Leaves ρ c (f a)) : Leaves ρ c (x >>= f) := by
  cases x with
  | error e => exact Leaves.of_error e
  | ok a => exact hf a (h a rfl)

theorem Leaves.read {f : α → Except ε β} (hf : ∀ a, Leaves ρ c (f a)) : Leaves ρ c (x >>= f) := by
  cases x with
  | error e => exact Leaves.of_error e
  | ok a => exact hf a

theorem Leaves.map {f : α → β} (h : Leaves π c x) (hf : ∀ a, ρ (f a) = π a) :
    Leaves ρ c (x.map f) := by
  cases x with
  | error e => exact Leaves.of_error e
  | ok a => exact Leaves.of_ok ((hf a).trans (h a rfl))

end

/-! ## Two computations side by side -/

section

variable {α' β' : Type} {π : α → α'} {ρ : β → β'} {y : Except ε α'}

/-- Where `x` succeeds, `y` does, with what `π` leaves of the result. -/
def Follows (π : α → α') (x : Except ε α) (y : Except ε α') : Prop :=
  ∀ a, x = .ok a → y = .ok (π a)

theorem Follows.of_ok (a : α) : Follows π (.ok a : Except ε α) (.ok (π a)) := by
  rintro b ⟨⟩
  rfl

theorem Follows.of_error (e : ε) : Follows π (.error e : Except ε α) y := by rintro b ⟨⟩

theorem Follows.bind {f : α → Except ε β} {g : α' → Except ε β'} (h : Follows π x y)
    (hf : ∀ a, Follows ρ (f a) (g (π a))) : Follows ρ (x >>= f) (y >>= g) := by
  cases x with
  | error e => exact Follows.of_error e
  | ok a =>
    rw [h a rfl]
    exact hf a

theorem Follows.bind_same {f : α → Except ε β} {g : α → Except ε β'}
    (hf : ∀ a, Follows ρ (f a) (g a)) : Follows ρ (x >>= f) (x >>= g) := by
  cases x with
  | error e => exact Follows.of_error e
  | ok a => exact hf a

theorem Follows.bind_left {f : α → Except ε β} {z : Except ε β'}
    (hf : ∀ a, x = .ok a → Follows ρ (f a) z) : Follows ρ (x >>= f) z := by
  cases x with
  | error e => exact Follows.of_error e
  | ok a => exact hf a rfl

end

end Lib
