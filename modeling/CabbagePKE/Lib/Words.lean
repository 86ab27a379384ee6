import CabbagePKE.Lib.Bytes
import Mathlib.Data.List.GetD

/-!
# Signed words and strings in a byte memory

Records of 32-bit signed words (`getWord`, `putWords`) and zero-terminated
strings (`cstr`, `putString`) laid out in a byte memory, with the rules for
reading back what was stored and for reading elsewhere.
-/

namespace Lib

open List

variable {m m' : Mem} {a b k n : Nat} {ws : List Int} {s : List UInt8}

/-! ## Words -/

def wrap32 (x : Int) : Int := x.bmod (2 ^ 32)

def Fits32 (x : Int) : Prop := -2 ^ 31 ≤ x ∧ x < 2 ^ 31

theorem wrap32_of_fits {x : Int} (h : Fits32 x) : wrap32 x = x := by
  unfold Fits32 at h
  rw [wrap32, Int.bmod_def]
  split <;> omega

theorem wrap32_natCast_le (n : Nat) : wrap32 n ≤ n := by
  rw [wrap32, Int.bmod_def]
  omega

theorem fits_wrap32 (x : Int) : Fits32 (wrap32 x) := by
  unfold Fits32 wrap32
  rw [Int.bmod_def]
  split <;> omega

theorem fits_natCast {x : Nat} (h : x < 2 ^ 31) : Fits32 (x : Int) := by
  unfold Fits32
  omega

def getWord (m : Mem) (a : Nat) : Int := wrap32 (readLE m a 4)

def putWords (m : Mem) (a : Nat) (ws : List Int) : Mem := fun x =>
  if a ≤ x ∧ x < a + 4 * ws.length then
    UInt8.ofNat ((ws.getD ((x - a) / 4) 0 % 2 ^ 32).toNat / 256 ^ ((x - a) % 4))
  else m x

theorem fits_getWord (m : Mem) (a : Nat) : Fits32 (getWord m a) := fits_wrap32 _

theorem getWord_congr (h : ∀ i, i < 4 → m (a + i) = m' (b + i)) :
    getWord m a = getWord m' b := by rw [getWord, getWord, readLE_congr h]

theorem putWords_outside {x : Nat} (h : x < a ∨ a + 4 * ws.length ≤ x) :
    putWords m a ws x = m x := by
  have hn : ¬ (a ≤ x ∧ x < a + 4 * ws.length) := by omega
  simp only [putWords, hn, if_false]

theorem getWord_putWords (m : Mem) (a : Nat) (hk : k < ws.length) :
    getWord (putWords m a ws) (a + 4 * k) = wrap32 (ws.get ⟨k, hk⟩) := by
  have hget : ws.getD k 0 = ws.get ⟨k, hk⟩ := by simp [hk]
  have hd : readLE (putWords m a ws) (a + 4 * k) 4 = (ws.get ⟨k, hk⟩ % 2 ^ 32).toNat % 256 ^ 4 := by
    refine readLE_of_digits (fun i hi => ?_)
    have hin : a ≤ a + 4 * k + i ∧ a + 4 * k + i < a + 4 * ws.length := by omega
    have hdiv : (a + 4 * k + i - a) / 4 = k := by omega
    have hmod : (a + 4 * k + i - a) % 4 = i := by omega
    simp only [putWords, hin, and_self, if_true, hdiv, hmod, hget]
    simp
  rw [getWord, hd]
  have hlt : (ws.get ⟨k, hk⟩ % 2 ^ 32).toNat % 256 ^ 4 = (ws.get ⟨k, hk⟩ % 2 ^ 32).toNat := by omega
  have hnn : 0 ≤ ws.get ⟨k, hk⟩ % 2 ^ 32 := Int.emod_nonneg _ (by decide)
  rw [hlt, Int.toNat_of_nonneg hnn]
  exact Int.emod_bmod ..

theorem getWord_putWords_of_fits (m : Mem) (a : Nat) {x : Int}
    (hx : ws[k]? = some x) (hf : Fits32 x) : getWord (putWords m a ws) (a + 4 * k) = x := by
  obtain ⟨hk, hget⟩ := List.getElem?_eq_some_iff.mp hx
  rw [getWord_putWords m a hk]
  show wrap32 ws[k] = x
  rw [hget, wrap32_of_fits hf]


theorem getWord_putWords_of_disjoint (h : b + 4 ≤ a ∨ a + 4 * ws.length ≤ b) :
    getWord (putWords m a ws) b = getWord m b := by
  apply getWord_congr
  intro i hi
  exact putWords_outside (by omega)

-- from here on words are reached through the lemmas above only
attribute [irreducible] wrap32 getWord

/-! ## Strings -/

def cstr (m : Mem) (a : Nat) : Nat → List UInt8
  | 0 => []
  | n + 1 => if m a = 0 then [] else m a :: cstr m (a + 1) n

def putString (m : Mem) (a : Nat) (s : List UInt8) : Mem := fun x =>
  if a ≤ x ∧ x < a + s.length + 1 then s.getD (x - a) 0 else m x

/-- Is the string at `a` equal to `s`? `none` if the comparison runs into
`stop`. -/
def strEq? (m : Mem) (stop : Nat) : Nat → List UInt8 → Option Bool
  | a, [] => if a < stop then some (m a == 0) else none
  | a, c :: s =>
    if a < stop then if m a = c then strEq? m stop (a + 1) s else some false else none

theorem cstr_congr (h : ∀ i, i < n → m (a + i) = m' (b + i)) : cstr m a n = cstr m' b n := by
  induction n generalizing a b with
  | zero => rfl
  | succ n ih =>
    have h0 : m a = m' b := h 0 (by omega)
    have ht : cstr m (a + 1) n = cstr m' (b + 1) n := by
      apply ih
      intro i hi
      have hi' := h (i + 1) (by omega)
      rwa [show a + (i + 1) = a + 1 + i from by omega,
        show b + (i + 1) = b + 1 + i from by omega] at hi'
    rw [cstr, cstr, h0, ht]

theorem putString_outside {x : Nat} (h : x < a ∨ a + s.length + 1 ≤ x) :
    putString m a s x = m x := by
  have hn : ¬ (a ≤ x ∧ x < a + s.length + 1) := by omega
  simp only [putString, hn, if_false]

theorem cstr_of_bytes (hn : s.length < n) (h0 : (0 : UInt8) ∉ s)
    (h : ∀ i, i ≤ s.length → m (a + i) = s.getD i 0) : cstr m a n = s := by
  induction s generalizing a n with
  | nil =>
    cases n with
    | zero => rfl
    | succ n =>
      have hz : m a = 0 := by simpa using h 0 (by simp)
      rw [cstr, if_pos hz]
  | cons c s ih =>
    cases n with
    | zero => simp at hn
    | succ n =>
      have hc : m a = c := by simpa using h 0 (by simp)
      have hc0 : c ≠ 0 := fun hz => h0 (by simp [hz])
      rw [cstr, hc, if_neg hc0]
      congr 1
      apply ih
      · simpa using hn
      · exact fun hmem => h0 (.tail _ hmem)
      · intro i hi
        have hi' := h (i + 1) (by simpa using hi)
        rw [show a + (i + 1) = a + 1 + i from by omega] at hi'
        rw [hi']
        simp

theorem cstr_putString (m : Mem) (a : Nat) (hn : s.length < n)
    (h0 : (0 : UInt8) ∉ s) : cstr (putString m a s) a n = s := by
  apply cstr_of_bytes hn h0
  intro i hi
  have hin : a ≤ a + i ∧ a + i < a + s.length + 1 := by omega
  have hsub : a + i - a = i := by omega
  simp only [putString, hin, and_self, if_true, hsub]

theorem strEq?_eq {stop : Nat} (h0 : (0 : UInt8) ∉ s)
    (hterm : (cstr m a n).length < n ∨ s.length < n) (hstop : a + n ≤ stop) :
    strEq? m stop a s = some (decide (cstr m a n = s)) := by
  induction n generalizing a s with
  | zero => simp at hterm
  | succ n ih =>
    have hlt : a < stop := by omega
    cases s with
    | nil =>
      by_cases hz : m a = 0
      · simp [strEq?, cstr, hlt, hz]
      · simp [strEq?, cstr, hlt, hz]
    | cons c s =>
      have hc0 : c ≠ 0 := fun hz => h0 (by simp [hz])
      simp only [strEq?, if_pos hlt]
      by_cases hc : m a = c
      · have hz : m a ≠ 0 := by rw [hc]; exact hc0
        simp only [cstr, if_neg hz, length_cons, Nat.add_lt_add_iff_right] at hterm
        rw [if_pos hc, ih (fun hmem => h0 (.tail _ hmem)) hterm (by omega)]
        simp [cstr, hc, hc0]
      · rw [if_neg hc]
        by_cases hz : m a = 0
        · simp [cstr, hz]
        · simp [cstr, hz, hc]

theorem cstr_length_le (m : Mem) (a n : Nat) : (cstr m a n).length ≤ n := by
  induction n generalizing a with
  | zero => exact Nat.le_refl 0
  | succ n ih =>
    rw [cstr]
    split
    · exact Nat.zero_le _
    · rw [length_cons]
      exact Nat.succ_le_succ (ih (a + 1))

theorem cstr_getD {j : Nat} (h : j < (cstr m a n).length) :
    (cstr m a n).getD j 0 = m (a + j) ∧ m (a + j) ≠ 0 := by
  induction n generalizing a j with
  | zero => simp [cstr] at h
  | succ n ih =>
    rw [cstr] at h ⊢
    split at h
    · simp at h
    · rename_i hc
      rw [if_neg hc]
      cases j with
      | zero => exact ⟨rfl, hc⟩
      | succ j =>
        rw [length_cons] at h
        rw [getD_cons_succ, show a + (j + 1) = a + 1 + j from by omega]
        exact ih (by omega)

theorem cstr_end (h : (cstr m a n).length < n) : m (a + (cstr m a n).length) = 0 := by
  induction n generalizing a with
  | zero => simp at h
  | succ n ih =>
    rw [cstr] at h ⊢
    split
    · assumption
    · rename_i hc
      rw [if_neg hc, length_cons] at h
      rw [length_cons, show ∀ k, a + (k + 1) = a + 1 + k from fun k => by omega]
      exact ih (by omega)

theorem cstr_of_terminated {k : Nat} (h : (cstr m a n).length < n) (hnk : n ≤ k) :
    cstr m a k = cstr m a n := by
  induction n generalizing a k with
  | zero => simp at h
  | succ n ih =>
    cases k with
    | zero => omega
    | succ k =>
      rw [cstr] at h
      rw [cstr, cstr]
      split at h
      · rename_i hz
        rw [if_pos hz, if_pos hz]
      · rename_i hz
        rw [length_cons] at h
        rw [if_neg hz, if_neg hz, ih (by omega) (by omega)]

theorem cstr_noNul (m : Mem) (a n : Nat) : (0 : UInt8) ∉ cstr m a n := by
  intro hmem
  obtain ⟨j, hj, hget⟩ := mem_iff_getElem.mp hmem
  have hbyte := cstr_getD hj
  rw [getD_eq_getElem _ _ hj, hget] at hbyte
  exact hbyte.2 hbyte.1.symm

theorem cstr_eq_iff (hn : s.length < n) (h0 : (0 : UInt8) ∉ s) :
    cstr m a n = s ↔ ∀ i, i ≤ s.length → m (a + i) = s.getD i 0 := by
  constructor
  · rintro rfl i hi
    rcases Nat.lt_or_eq_of_le hi with hlt | rfl
    · exact (cstr_getD hlt).1.symm
    · rw [cstr_end hn, getD_eq_default _ _ le_rfl]
  · exact fun h => cstr_of_bytes hn h0 h

theorem cstr_length_lt_iff {j : Nat} (hj : j ≤ n) :
    (cstr m a n).length < j ↔ ∃ i, i < j ∧ m (a + i) = 0 := by
  constructor
  · intro hlt
    exact ⟨_, hlt, cstr_end (hlt.trans_le hj)⟩
  · rintro ⟨i, hi, hzero⟩
    by_contra hge
    exact (cstr_getD (hi.trans_le (not_lt.mp hge))).2 hzero

/-! ## Copying a string -/

theorem putString_cstr_within (m src : Mem) (a b : Nat) {j : Nat} (hn : j < n)
    (hj : j ≤ (cstr src b n).length) : putString m a (cstr src b n) (a + j) = src (b + j) := by
  have hin : a ≤ a + j ∧ a + j < a + (cstr src b n).length + 1 := by omega
  rw [putString, if_pos hin, Nat.add_sub_cancel_left]
  rcases Nat.lt_or_eq_of_le hj with hlt | rfl
  · exact (cstr_getD hlt).1
  · rw [getD_eq_default _ _ le_rfl, cstr_end hn]

/-- Copying a string of at most `n` bytes gives back the `n` bytes if and only if the target
holds those after a `NUL` already. -/
theorem putString_cstr_eq_iff (m src : Mem) (a b n : Nat) :
    (∀ j, j < n → putString m a (cstr src b n) (a + j) = src (b + j)) ↔
      ∀ j, j < n → (∃ i, i < j ∧ src (b + i) = 0) → m (a + j) = src (b + j) := by
  have hkept : ∀ j, j < n → (∃ i, i < j ∧ src (b + i) = 0) →
      putString m a (cstr src b n) (a + j) = m (a + j) := by
    intro j hj hzero
    have hlt := (cstr_length_lt_iff hj.le).mpr hzero
    exact putString_outside (by omega)
  constructor
  · intro hcopy j hj hzero
    rw [← hkept j hj hzero]
    exact hcopy j hj
  · intro hold j hj
    by_cases hzero : ∃ i, i < j ∧ src (b + i) = 0
    · rw [hkept j hj hzero]
      exact hold j hj hzero
    · refine putString_cstr_within m src a b hj ?_
      by_contra hlt
      exact hzero ((cstr_length_lt_iff hj.le).mp (not_le.mp hlt))

/-- Copying a string of at most `n` bytes gives back the `n` bytes, whatever the target held, if
and only if no byte but the last is a `NUL`. -/
theorem putString_cstr_iff (src : Mem) (a b n : Nat) :
    (∀ m : Mem, ∀ j, j < n → putString m a (cstr src b n) (a + j) = src (b + j)) ↔
      ∀ j, j + 1 < n → src (b + j) ≠ 0 := by
  simp only [putString_cstr_eq_iff]
  constructor
  · intro hcopy j hj hzero
    -- a target that holds another byte after the `NUL`
    have hkept := hcopy (fun _ => if src (b + (j + 1)) = 0 then 1 else 0) (j + 1) hj
      ⟨j, Nat.lt_succ_self j, hzero⟩
    split at hkept
    · rename_i hnul
      rw [hnul] at hkept
      exact absurd hkept (by decide)
    · rename_i hchar
      exact hchar hkept.symm
  · rintro hne m j hj ⟨i, hi, hzero⟩
    exact absurd hzero (hne i (by omega))

/-- Copying a string of at most `n` bytes changes nothing outside the `n` bytes of the target if
and only if the string ends before, or the target holds its `NUL` already. -/
theorem putString_cstr_outside_iff (m src : Mem) (a b n : Nat) :
    (∀ x, x < a ∨ a + n ≤ x → putString m a (cstr src b n) x = m x) ↔
      (∃ j, j < n ∧ src (b + j) = 0) ∨ m (a + n) = 0 := by
  have hle := cstr_length_le src b n
  rw [← cstr_length_lt_iff le_rfl]
  constructor
  · intro hframe
    by_cases hlt : (cstr src b n).length < n
    · exact .inl hlt
    · right
      have hfull : (cstr src b n).length = n := by omega
      rw [← hframe (a + n) (.inr le_rfl), putString, if_pos (by omega),
        getD_eq_default _ _ (by omega)]
  · intro h x hx
    by_cases hlast : x = a + n ∧ (cstr src b n).length = n
    · obtain ⟨rfl, hfull⟩ := hlast
      have hzero : m (a + n) = 0 := h.resolve_left (by omega)
      rw [putString, if_pos (by omega), getD_eq_default _ _ (by omega), hzero]
    · exact putString_outside (by omega)

theorem cstr_putString_cstr (m src : Mem) (a b : Nat) (hk : n ≤ k) :
    cstr (putString m a (cstr src b n)) a k = cstr src b n := by
  have hle := cstr_length_le src b n
  by_cases hlt : (cstr src b n).length < k
  · exact cstr_putString m a hlt (cstr_noNul src b n)
  · obtain rfl : n = k := by omega
    refine cstr_congr fun i hi => ?_
    exact putString_cstr_within m src a b hi (by omega)

end Lib
