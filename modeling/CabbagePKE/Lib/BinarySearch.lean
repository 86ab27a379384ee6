import Mathlib.Order.Basic

/-!
# Binary search over an indexed key

Two loops over a half-open index range `[lo, hi)`: `search` looks for an
exact key, `firstGe` for the first key that is not below the given one and
keeps the last candidate in `idx`. Both take the number of rounds they may
make; the length of the range is always enough.
-/

namespace Lib

variable {key : Nat → Nat} {x fuel lo hi idx : Nat}

def middle (lo hi : Nat) : Nat := (lo + (hi - 1)) / 2

def search (key : Nat → Nat) (x : Nat) : Nat → Nat → Nat → Option Nat
  | 0, _, _ => none
  | fuel + 1, lo, hi =>
    if lo < hi then
      if key (middle lo hi) = x then some (middle lo hi)
      else if key (middle lo hi) < x then search key x fuel (middle lo hi + 1) hi
      else search key x fuel lo (middle lo hi)
    else none

/-- Look for the first index in `[lo, hi)` whose key is at least `x`; `idx`
is the answer when there is none. -/
def firstGe (key : Nat → Nat) (x : Nat) : Nat → Nat → Nat → Nat → Nat
  | 0, _, _, idx => idx
  | fuel + 1, lo, hi, idx =>
    if lo < hi then
      if key (middle lo hi) < x then firstGe key x fuel (middle lo hi + 1) hi idx
      else firstGe key x fuel lo (middle lo hi) (middle lo hi)
    else idx

def Ascending (key : Nat → Nat) (lo hi : Nat) : Prop :=
  ∀ i j, lo ≤ i → i < j → j < hi → key i < key j

theorem Ascending.sub {lo' hi' : Nat} (h : Ascending key lo hi)
    (hlo : lo ≤ lo') (hhi : hi' ≤ hi) : Ascending key lo' hi' :=
  fun i j hi hij hj => h i j (by omega) hij (by omega)

theorem middle_bounds (h : lo < hi) : lo ≤ middle lo hi ∧ middle lo hi < hi := by
  unfold middle
  omega

theorem search_sound {i : Nat} (h : search key x fuel lo hi = some i) :
    lo ≤ i ∧ i < hi ∧ key i = x := by
  induction fuel generalizing lo hi with
  | zero => simp [search] at h
  | succ fuel ih =>
    simp only [search] at h
    split at h
    · rename_i hlt
      have hm := middle_bounds hlt
      split at h
      · rename_i hk
        cases h
        exact ⟨hm.1, hm.2, hk⟩
      · split at h
        · obtain ⟨h1, h2, h3⟩ := ih h
          exact ⟨by omega, h2, h3⟩
        · obtain ⟨h1, h2, h3⟩ := ih h
          exact ⟨h1, by omega, h3⟩
    · cases h

theorem search_none (hs : Ascending key lo hi) (hf : hi - lo ≤ fuel)
    (h : search key x fuel lo hi = none) :
    ∀ i, lo ≤ i → i < hi → key i ≠ x := by
  induction fuel generalizing lo hi with
  | zero => intro i h1 h2; omega
  | succ fuel ih =>
    intro i h1 h2
    have hlt : lo < hi := by omega
    have hm := middle_bounds hlt
    simp only [search, if_pos hlt] at h
    split at h
    · cases h
    · rename_i hne
      rcases Nat.lt_trichotomy i (middle lo hi) with hi1 | rfl | hi1
      · have hki := hs i (middle lo hi) h1 hi1 hm.2
        split at h
        · -- the keys below the middle are below `x`
          omega
        · exact ih (hs.sub (Nat.le_refl _) (by omega)) (by omega) h i h1 hi1
      · exact hne
      · have hki := hs (middle lo hi) i hm.1 hi1 h2
        split at h
        · exact ih (hs.sub (by omega) (Nat.le_refl _)) (by omega) h i (by omega) h2
        · omega

/-- On ascending keys the result splits the range at `x`, provided that
everything from `hi` on is at least `x` and the candidate is `hi`. -/
theorem firstGe_split (hs : Ascending key lo hi) (hf : hi - lo ≤ fuel)
    (hidx : idx = hi) (hle : lo ≤ hi) :
    lo ≤ firstGe key x fuel lo hi idx ∧ firstGe key x fuel lo hi idx ≤ hi ∧
      (∀ i, lo ≤ i → i < firstGe key x fuel lo hi idx → key i < x) ∧
      (∀ i, firstGe key x fuel lo hi idx ≤ i → i < hi → x ≤ key i) := by
  induction fuel generalizing lo hi idx with
  | zero =>
    subst hidx
    refine ⟨hle, Nat.le_refl _, ?_, ?_⟩
    · intro i h1 h2
      change i < idx at h2
      omega
    · intro i h1 h2
      change idx ≤ i at h1
      omega
  | succ fuel ih =>
    simp only [firstGe]
    split
    · rename_i hlt
      have hm := middle_bounds hlt
      split
      · rename_i hk
        obtain ⟨h1, h2, h3, h4⟩ := ih
          (hs.sub (by omega : lo ≤ middle lo hi + 1) (Nat.le_refl _)) (by omega) hidx (by omega)
        refine ⟨by omega, h2, ?_, h4⟩
        intro i hi1 hi2
        rcases Nat.lt_or_ge i (middle lo hi + 1) with hi3 | hi3
        · rcases Nat.lt_or_eq_of_le (Nat.le_of_lt_succ hi3) with hi4 | rfl
          · exact Nat.lt_trans (hs i (middle lo hi) hi1 hi4 hm.2) hk
          · exact hk
        · exact h3 i hi3 hi2
      · rename_i hk
        obtain ⟨h1, h2, h3, h4⟩ := ih
          (hs.sub (Nat.le_refl lo) (by omega : middle lo hi ≤ hi)) (by omega) rfl hm.1
        refine ⟨h1, by omega, h3, ?_⟩
        intro i hi1 hi2
        rcases Nat.lt_trichotomy i (middle lo hi) with hi3 | rfl | hi3
        · exact h4 i hi1 hi3
        · exact Nat.le_of_not_lt hk
        · have := hs (middle lo hi) i hm.1 hi3 hi2
          omega
    · subst hidx
      exact ⟨hle, Nat.le_refl _, fun i h1 h2 => by omega, fun i h1 h2 => by omega⟩

theorem firstGe_of_exists {idx' : Nat} (hs : Ascending key lo hi)
    (hf : hi - lo ≤ fuel) (h : ∃ i, lo ≤ i ∧ i < hi ∧ x ≤ key i) :
    firstGe key x fuel lo hi idx = firstGe key x fuel lo hi idx' := by
  induction fuel generalizing lo hi with
  | zero =>
    obtain ⟨i, h1, h2, -⟩ := h
    omega
  | succ fuel ih =>
    simp only [firstGe]
    split
    · rename_i hlt
      have hm := middle_bounds hlt
      split
      · rename_i hk
        refine ih (hs.sub (by omega) (Nat.le_refl _)) (by omega) ?_
        obtain ⟨i, h1, h2, h3⟩ := h
        refine ⟨i, ?_, h2, h3⟩
        rcases Nat.lt_trichotomy i (middle lo hi) with hi3 | rfl | hi3
        · have := hs i (middle lo hi) h1 hi3 hm.2
          omega
        · omega
        · omega
      · rfl
    · obtain ⟨i, h1, h2, -⟩ := h
      omega

theorem firstGe_of_forall (h : ∀ i, lo ≤ i → i < hi → key i < x) :
    firstGe key x fuel lo hi idx = idx := by
  induction fuel generalizing lo with
  | zero => rfl
  | succ fuel ih =>
    simp only [firstGe]
    split
    · rename_i hlt
      have hm := middle_bounds hlt
      rw [if_pos (h _ hm.1 hm.2)]
      exact ih fun i hi => h i (by omega)
    · rfl

end Lib
