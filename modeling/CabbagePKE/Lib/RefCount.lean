import Mathlib.Data.Finset.Card

/-!
# Reference counts that cover their holders

`holds h f` says that holder `h` has a reference to the object `f`. A
count is sound when it is at least the number of holders: an object that
is still held then never counts down to zero. References that were
dropped without being given back only make the count larger.
-/

namespace Lib

open Finset

variable {F H : Type} {count count' : F → Nat} {holds holds' : H → F → Prop}

/-- Every object counts at least as many references as it has holders. -/
def Covers (count : F → Nat) (holds : H → F → Prop) : Prop :=
  ∃ holders : F → Finset H, (∀ f, (holders f).card ≤ count f) ∧
    ∀ h f, holds h f → h ∈ holders f

theorem Covers.pos (hc : Covers count holds) {h : H} {f : F} (hh : holds h f) : 1 ≤ count f := by
  obtain ⟨holders, hcard, hmem⟩ := hc
  have h1 : 0 < (holders f).card := card_pos.mpr ⟨h, hmem h f hh⟩
  exact Nat.le_trans h1 (hcard f)

theorem Covers.two_le (hc : Covers count holds) {h h' : H} {f : F} (hne : h ≠ h')
    (hh : holds h f) (hh' : holds h' f) : 2 ≤ count f := by
  obtain ⟨holders, hcard, hmem⟩ := hc
  have h2 : 1 < (holders f).card := one_lt_card.mpr ⟨h, hmem h f hh, h', hmem h' f hh', hne⟩
  exact Nat.le_trans h2 (hcard f)

theorem Covers.mono (hc : Covers count holds) (hcount : ∀ f, count f ≤ count' f)
    (hholds : ∀ h f, holds' h f → holds h f) : Covers count' holds' := by
  obtain ⟨holders, hcard, hmem⟩ := hc
  exact ⟨holders, fun f => Nat.le_trans (hcard f) (hcount f),
    fun h f hh => hmem h f (hholds h f hh)⟩

variable [DecidableEq F] [DecidableEq H]

theorem Covers.acquire (hc : Covers count holds) (h : H) (f : F)
    (hcount : ∀ g, count g + (if g = f then 1 else 0) ≤ count' g)
    (hholds : ∀ h' g, holds' h' g → holds h' g ∨ (h' = h ∧ g = f)) :
    Covers count' holds' := by
  obtain ⟨holders, hcard, hmem⟩ := hc
  refine ⟨fun g => if g = f then insert h (holders g) else holders g, fun g => ?_,
    fun h' g hh => ?_⟩
  · have h1 := hcard g
    have h2 := hcount g
    by_cases hg : g = f
    · have h3 := card_insert_le h (holders g)
      simp only [hg, if_true] at h1 h2 h3 ⊢
      omega
    · simp only [hg, if_false] at h2 ⊢
      omega
  · by_cases hg : g = f
    · subst hg
      rcases hholds h' g hh with hold | ⟨rfl, -⟩
      · simp [hmem h' g hold]
      · simp
    · rcases hholds h' g hh with hold | ⟨-, rfl⟩
      · simpa [hg] using hmem h' g hold
      · exact absurd rfl hg

omit [DecidableEq H] in
theorem Covers.first (hc : Covers count holds) (h : H) (f : F) (hpos : 1 ≤ count f)
    (hnone : ∀ h', ¬ holds h' f)
    (hholds : ∀ h' g, holds' h' g → holds h' g ∨ (h' = h ∧ g = f)) :
    Covers count holds' := by
  obtain ⟨holders, hcard, hmem⟩ := hc
  refine ⟨fun g => if g = f then {h} else holders g, fun g => ?_, fun h' g hh => ?_⟩
  · by_cases hg : g = f
    · simpa [hg] using hpos
    · simpa [hg] using hcard g
  · rcases hholds h' g hh with hold | ⟨rfl, rfl⟩
    · have hg : g ≠ f := fun he => hnone h' (he ▸ hold)
      simpa [hg] using hmem h' g hold
    · simp

theorem Covers.release (hc : Covers count holds) {h : H} {f : F} (hh : holds h f)
    (hcount : ∀ g, count g - (if g = f then 1 else 0) ≤ count' g)
    (hholds : ∀ h' g, holds' h' g → holds h' g ∧ ¬ (h' = h ∧ g = f)) :
    Covers count' holds' := by
  obtain ⟨holders, hcard, hmem⟩ := hc
  refine ⟨fun g => if g = f then (holders g).erase h else holders g, fun g => ?_,
    fun h' g hh' => ?_⟩
  · have h1 := hcard g
    have h2 := hcount g
    by_cases hg : g = f
    · have h3 := card_erase_of_mem (hmem h f hh)
      simp only [hg, if_true] at h1 h2 ⊢
      omega
    · simp only [hg, if_false] at h2 ⊢
      omega
  · obtain ⟨hold, hne⟩ := hholds h' g hh'
    by_cases hg : g = f
    · subst hg
      have hne' : h' ≠ h := fun he => hne ⟨he, rfl⟩
      simp [hne', hmem h' g hold]
    · simpa [hg] using hmem h' g hold

end Lib
