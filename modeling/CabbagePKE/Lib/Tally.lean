import Mathlib.Algebra.Order.BigOperators.Group.Finset

/-!
# Counting over numbered slots

A table of numbered slots, each of which contributes to a total: how many
slots hold a pointer to `k` (`holders`), or how often a key occurs in lists
kept in the slots. The rules say what one changed slot does to the total.
-/

namespace Lib

open Finset Function

variable {f g : Nat → Nat} {i j n : Nat}

theorem sum_change (hi : i < n) (h : ∀ j, j ≠ i → g j = f j) :
    ∑ j ∈ range n, g j + f i = ∑ j ∈ range n, f j + g i := by
  have hmem : i ∈ range n := mem_range.mpr hi
  have hrest : ∑ j ∈ (range n).erase i, g j = ∑ j ∈ (range n).erase i, f j :=
    sum_congr rfl (fun j hj => h j (ne_of_mem_erase hj))
  rw [← add_sum_erase _ g hmem, ← add_sum_erase _ f hmem, hrest]
  omega

theorem le_sum_of_lt (f : Nat → Nat) (hi : i < n) : f i ≤ ∑ j ∈ range n, f j :=
  single_le_sum (fun _ _ => Nat.zero_le _) (mem_range.mpr hi)

theorem add_le_sum (f : Nat → Nat) (hi : i < n) (hj : j < n) (hne : i ≠ j) :
    f i + f j ≤ ∑ k ∈ range n, f k := by
  have hrest : f j ≤ ∑ k ∈ (range n).erase i, f k :=
    single_le_sum (fun _ _ => Nat.zero_le _) (mem_erase.mpr ⟨hne.symm, mem_range.mpr hj⟩)
  rw [← add_sum_erase _ f (mem_range.mpr hi)]
  omega

/-! ## One slot of a table -/

theorem update_eq_some_iff {A B : Type} [DecidableEq A] {t : A → Option B} {a k : A} {x : Option B}
    {b : B} : Function.update t a x k = some b ↔ (k = a ∧ x = some b) ∨ (k ≠ a ∧ t k = some b) := by
  by_cases hk : k = a
  · subst hk
    simp
  · simp [hk]

/-! ## The first match of a list -/

section

variable {α : Type} {l : List α} {a : α} {t u : α → Bool}

theorem countP_eraseP (h : l.find? t = some a) :
    (l.eraseP t).countP u + (if u a then 1 else 0) = l.countP u := by
  induction l with
  | nil => cases h
  | cons x l ih =>
    by_cases hx : t x = true
    · rw [List.find?_cons_of_pos hx] at h
      cases h
      rw [List.eraseP_cons_of_pos hx, List.countP_cons]
    · rw [List.find?_cons_of_neg hx] at h
      rw [List.eraseP_cons_of_neg hx, List.countP_cons, List.countP_cons]
      have hl := ih h
      omega

theorem find?_eraseP (h : ∀ x, u x = true → t x = false) : (l.eraseP t).find? u = l.find? u := by
  induction l with
  | nil => rfl
  | cons x l ih =>
    by_cases hx : t x = true
    · have hu : ¬ u x = true := fun hu => by simp [h x hu] at hx
      rw [List.eraseP_cons_of_pos hx, List.find?_cons_of_neg hu]
    · rw [List.eraseP_cons_of_neg hx]
      simp only [List.find?_cons, ih]

end

/-! ## Pointers to an object -/

variable {κ : Type} [DecidableEq κ] {p : Nat → Option κ} {k : κ}

def holders (n : Nat) (p : Nat → Option κ) (k : κ) : Nat :=
  ∑ i ∈ range n, if p i = some k then 1 else 0

theorem holders_set (hi : i < n) (x : Option κ) :
    holders n (Function.update p i x) k + (if p i = some k then 1 else 0)
      = holders n p k + (if x = some k then 1 else 0) := by
  have hsum := sum_change (f := fun j => if p j = some k then 1 else 0)
    (g := fun j => if update p i x j = some k then 1 else 0) hi
    (fun j hj => by simp only [update_of_ne hj])
  simp only [update_self] at hsum
  exact hsum

theorem holders_push (x : Option κ) :
    holders (n + 1) (Function.update p n x) k
      = holders n p k + (if x = some k then 1 else 0) := by
  rw [holders, sum_range_succ, update_self]
  congr 1
  apply sum_congr rfl
  intro i hi
  rw [update_of_ne (Nat.ne_of_lt (mem_range.mp hi))]

theorem holders_pos (hi : i < n) (h : p i = some k) : 0 < holders n p k := by
  have hle := le_sum_of_lt (fun j => if p j = some k then 1 else 0) hi
  simp only [h, if_true] at hle
  exact hle

theorem holders_eq_zero (h : ∀ i, i < n → p i ≠ some k) : holders n p k = 0 :=
  sum_eq_zero (fun i hi => by simp [h i (mem_range.mp hi)])

end Lib
