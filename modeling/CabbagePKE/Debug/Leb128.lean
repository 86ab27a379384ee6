import CabbagePKE.Base
import Mathlib.Data.Nat.Bitwise
import Mathlib.Tactic.Ring

/-!
# LEB128

The readers of `kernel/elf.c` for the numbers in the debug sections, `read_sleb128`,
`read_uleb128` and those of fixed width, against the encodings of DWARF. The cursor is the list of
the bytes that are left.
-/

namespace CabbagePKE

open Lib List

/-- The loop that collects groups of seven bits, up to a byte without the bit 7: `value`, `shift`
and that byte, with the cursor. A shift of a `uint64` by 64 or more is undefined. -/
def readGroups (value shift : Nat) : List UInt8 → Outcome (Nat × Nat × UInt8 × List UInt8)
  | [] => .error .undefined
  | b :: off =>
    if 64 ≤ shift then .error .undefined
    else
      let value := value ||| u64 ((b.toNat &&& 0x7F) <<< shift)
      if b.toNat &&& 0x80 = 0 then return (value, shift + 7, b, off)
      else readGroups value (shift + 7) off

def readSleb128 (off : List UInt8) : Outcome (Int × List UInt8) := do
  let (value, shift, b, off) ← readGroups 0 0 off
  if shift < 64 ∧ b.toNat &&& 0x40 ≠ 0 then
    if 31 ≤ shift then .error .undefined
    else return (Int.bmod (value ||| (2 ^ 64 - 2 ^ shift) : Nat) (2 ^ 64), off)
  else return (Int.bmod value (2 ^ 64), off)

/-! ## The encoding -/

/-- The shortest encoding: groups of seven bits, lowest first, until the sign of the last one is
that of the number. -/
def sleb128 (v : Int) : List UInt8 :=
  if -64 ≤ v ∧ v < 64 then [.ofNat (v % 128).toNat]
  else .ofNat ((v % 128).toNat + 128) :: sleb128 (v / 128)
termination_by v.natAbs
decreasing_by omega

theorem sleb128_of_small {v : Int} (h : -64 ≤ v ∧ v < 64) :
    sleb128 v = [.ofNat (v % 128).toNat] := by rw [sleb128, if_pos h]

theorem sleb128_of_large {v : Int} (h : ¬ (-64 ≤ v ∧ v < 64)) :
    sleb128 v = .ofNat ((v % 128).toNat + 128) :: sleb128 (v / 128) := by rw [sleb128, if_neg h]

theorem sleb128_length_pos (v : Int) : 0 < (sleb128 v).length := by
  rw [sleb128]
  split_ifs <;> simp

theorem sleb128_length_le_iff (v : Int) (k : Nat) :
    (sleb128 v).length ≤ k + 1 ↔ -(64 * 128 ^ k) ≤ v ∧ v < 64 * 128 ^ k := by
  induction k generalizing v with
  | zero =>
    by_cases h : -64 ≤ v ∧ v < 64
    · rw [sleb128_of_small h]
      simp
      omega
    · have hpos := sleb128_length_pos (v / 128)
      rw [sleb128_of_large h, length_cons]
      omega
  | succ k ih =>
    have hk : (0 : Int) < 128 ^ k := Int.pow_pos (by decide)
    rw [pow_succ]
    by_cases h : -64 ≤ v ∧ v < 64
    · rw [sleb128_of_small h, length_singleton]
      omega
    · rw [sleb128_of_large h, length_cons, Nat.add_le_add_iff_right, ih]
      omega

theorem le_of_sleb128_length (v : Int) : -2 ^ (7 * (sleb128 v).length) ≤ v := by
  obtain ⟨n, hn⟩ := Nat.exists_eq_add_one_of_ne_zero (sleb128_length_pos v).ne'
  have hbound := ((sleb128_length_le_iff v n).mp hn.le).1
  have hpow : (2 : Int) ^ (7 * (n + 1)) = 128 * 128 ^ n := by
    rw [pow_mul, pow_succ, mul_comm]
    rfl
  have hpos : (0 : Int) < 128 ^ n := Int.pow_pos (by decide)
  rw [hn, hpow]
  omega

def groupsOf (v : Int) (n : Nat) : Int := if v < 0 then v + 2 ^ (7 * n) else v

theorem groupsOf_succ (v : Int) (n : Nat) :
    groupsOf v (n + 1) = (v % 128).toNat + 128 * groupsOf (v / 128) n := by
  have hpow : (2 : Int) ^ (7 * (n + 1)) = 128 * 2 ^ (7 * n) := by ring
  unfold groupsOf
  split_ifs <;> omega

/-! ## Decoding -/

theorem or_group {a d s w : Nat} (ha : a < 2 ^ s) (hs : s < w) :
    a ||| d <<< s % 2 ^ w = (a + 2 ^ s * d) % 2 ^ w := by
  have hpow : 2 ^ w = 2 ^ s * 2 ^ (w - s) := by
    rw [← Nat.pow_add]
    congr 1
    omega
  have hmod : (a + 2 ^ s * d) % 2 ^ s = a := by rw [Nat.add_mul_mod_self_left, Nat.mod_eq_of_lt ha]
  have hdiv : (a + 2 ^ s * d) / 2 ^ s = d := by
    rw [Nat.add_mul_div_left _ _ (Nat.two_pow_pos s), Nat.div_eq_of_lt ha, Nat.zero_add]
  rw [Nat.shiftLeft_eq, mul_comm d, hpow, Nat.mul_mod_mul_left, Nat.mod_mul, hmod, hdiv,
    Nat.or_comm, ← Nat.two_pow_add_eq_or_of_lt ha, Nat.add_comm]

theorem group_lt {a d s k : Nat} (ha : a < 2 ^ s) (hd : d < 2 ^ k) :
    a + 2 ^ s * d < 2 ^ (s + k) := by
  have hmul : 2 ^ s * (d + 1) ≤ 2 ^ s * 2 ^ k := Nat.mul_le_mul_left _ hd
  rw [Nat.pow_add]
  rw [Nat.mul_succ] at hmul
  omega

theorem group_join (s k v : Nat) : 2 ^ s * (v % 2 ^ k) + 2 ^ (s + k) * (v / 2 ^ k) = 2 ^ s * v := by
  rw [Nat.pow_add, Nat.mul_assoc, ← Nat.mul_add, Nat.mod_add_div]

theorem byte_low {d : Nat} (h : d < 128) :
    (UInt8.ofNat d).toNat &&& 0x7F = d ∧ (UInt8.ofNat d).toNat &&& 0x80 = 0 ∧
      ((UInt8.ofNat d).toNat &&& 0x40 ≠ 0 ↔ 64 ≤ d) := by
  revert d
  decide

theorem byte_high {d : Nat} (h : d < 128) :
    (UInt8.ofNat (d + 128)).toNat &&& 0x7F = d ∧ (UInt8.ofNat (d + 128)).toNat &&& 0x80 ≠ 0 := by
  revert d
  decide

theorem readGroups_last {a d s : Nat} (ha : a < 2 ^ s) (hs : s < 64) (hd : d < 128)
    (off : List UInt8) :
    readGroups a s (.ofNat d :: off) = .ok ((a + 2 ^ s * d) % 2 ^ 64, s + 7, .ofNat d, off) := by
  obtain ⟨hlow, hstop, -⟩ := byte_low hd
  rw [readGroups, if_neg (by omega), if_pos hstop, hlow, u64, or_group ha hs]
  rfl

theorem readGroups_more {a d s : Nat} (ha : a < 2 ^ s) (hs : s + 7 ≤ 64) (hd : d < 128)
    (off : List UInt8) :
    readGroups a s (.ofNat (d + 128) :: off) = readGroups (a + 2 ^ s * d) (s + 7) off := by
  obtain ⟨hlow, hmore⟩ := byte_high hd
  have hfit : 2 ^ (s + 7) ≤ 2 ^ 64 := Nat.pow_le_pow_right (by decide) hs
  have hacc : a + 2 ^ s * d < 2 ^ (s + 7) := group_lt ha hd
  rw [readGroups, if_neg (by omega), if_neg hmore, hlow, u64, or_group ha (by omega),
    Nat.mod_eq_of_lt (hacc.trans_le hfit)]

theorem readGroups_sleb128 {v : Int} {a s : Nat} (ha : a < 2 ^ s)
    (hlen : s + 7 * (sleb128 v).length < 71) (rest : List UInt8) :
    ∃ (value : Nat) (b : UInt8),
      readGroups a s (sleb128 v ++ rest) = .ok (value, s + 7 * (sleb128 v).length, b, rest) ∧
      (value : Int) = (a + 2 ^ s * groupsOf v (sleb128 v).length) % 2 ^ 64 ∧
      (b.toNat &&& 0x40 ≠ 0 ↔ v < 0) := by
  induction v using sleb128.induct generalizing a s with
  | case1 v h =>
    have hd : (v % 128).toNat < 128 := by omega
    rw [sleb128_of_small h] at hlen ⊢
    simp only [length_singleton] at hlen ⊢
    refine ⟨_, _, readGroups_last ha (by omega) hd rest, ?_, (byte_low hd).2.2.trans (by omega)⟩
    have hgroup : groupsOf v 1 = (v % 128).toNat := by
      unfold groupsOf
      split_ifs <;> omega
    rw [hgroup]
    push_cast
    rfl
  | case2 v h ih =>
    have hd : (v % 128).toNat < 128 := by omega
    rw [sleb128_of_large h] at hlen ⊢
    simp only [length_cons] at hlen ⊢
    have hpos := sleb128_length_pos (v / 128)
    obtain ⟨value, b, hrun, hvalue, hsign⟩ := ih (group_lt (k := 7) ha hd) (by omega)
    refine ⟨value, b, ?_, ?_, hsign.trans (by omega)⟩
    · rw [cons_append, readGroups_more ha (by omega) hd, hrun]
      congr 3
      omega
    · rw [hvalue, groupsOf_succ]
      congr 1
      push_cast
      ring

theorem or_sign {value k : Nat} (hv : value < 2 ^ k) (hk : k ≤ 64) :
    value ||| (2 ^ 64 - 2 ^ k) = 2 ^ 64 - 2 ^ k + value := by
  have hpow : 2 ^ 64 - 2 ^ k = 2 ^ k * (2 ^ (64 - k) - 1) := by
    rw [Nat.mul_sub, ← Nat.pow_add, Nat.mul_one]
    congr 2
    omega
  rw [hpow, Nat.or_comm, Nat.two_pow_add_eq_or_of_lt hv]

theorem bmod_of_emod {x v : Int} (h : -2 ^ 63 ≤ v ∧ v < 2 ^ 63) (hx : x % 2 ^ 64 = v % 2 ^ 64) :
    x.bmod (2 ^ 64) = v := by
  rw [Int.bmod_def]
  split_ifs <;> omega

/-- `read_sleb128` gives a number back exactly if it is not negative or its encoding has less than
five bytes, or ten. -/
theorem sleb128_inverts_iff {v : Int} (h : -2 ^ 63 ≤ v ∧ v < 2 ^ 63) (rest : List UInt8) :
    readSleb128 (sleb128 v ++ rest) = .ok (v, rest) ↔ 0 ≤ v ∨ -2 ^ 27 ≤ v ∨ v < -2 ^ 62 := by
  have h4 := sleb128_length_le_iff v 3
  have h9 := sleb128_length_le_iff v 8
  have h10 := sleb128_length_le_iff v 9
  obtain ⟨value, b, hrun, hvalue, hsign⟩ := readGroups_sleb128 (v := v) (a := 0) (s := 0)
    (by decide) (by omega) rest
  rw [readSleb128, hrun, ok_bind]
  simp only [hsign, Nat.zero_add]
  have hlower := le_of_sleb128_length v
  generalize (sleb128 v).length = n at *
  split_ifs with hneg hwide
  · simp only [false_iff]
    omega
  · refine iff_of_true ?_ (by omega)
    have hle : 2 ^ (7 * n) ≤ 2 ^ 64 := Nat.pow_le_pow_right (by decide) hneg.1.le
    have hcast : ((2 ^ (7 * n) : Nat) : Int) = 2 ^ (7 * n) := by push_cast; rfl
    rw [groupsOf, if_pos hneg.2] at hvalue
    rw [or_sign (by omega) hneg.1.le, bmod_of_emod h (by omega)]
    rfl
  · refine iff_of_true ?_ (by omega)
    rw [bmod_of_emod h]
    · rfl
    by_cases hv : v < 0
    · obtain rfl : n = 10 := by omega
      rw [groupsOf, if_pos hv] at hvalue
      omega
    · rw [groupsOf, if_neg hv] at hvalue
      omega

/-- `-1` is one byte. -/
theorem sleb128_inverts_minus_one :
    (-2 ^ 27 : Int) ≤ -1 ∧
      (readSleb128 (sleb128 (-1) ++ []) = .ok (-1, []) ↔
        (0 : Int) ≤ -1 ∨ -2 ^ 27 ≤ (-1 : Int) ∨ (-1 : Int) < -2 ^ 62) :=
  ⟨by decide, sleb128_inverts_iff (by decide) []⟩

/-- The encoding of `-2 ^ 27 - 1`. -/
theorem sleb128_loses_five_bytes :
    sleb128 (-2 ^ 27 - 1) = [0xff, 0xff, 0xff, 0xbf, 0x7f] ∧
      readSleb128 (sleb128 (-2 ^ 27 - 1)) = .error .undefined := by
  have hbytes : sleb128 (-2 ^ 27 - 1) = [0xff, 0xff, 0xff, 0xbf, 0x7f] := by simp [sleb128]
  rw [hbytes]
  exact ⟨rfl, by decide⟩

/-! ## Unsigned numbers -/

def readUleb128 (off : List UInt8) : Outcome (Nat × List UInt8) := do
  let (value, _, _, off) ← readGroups 0 0 off
  return (value, off)

/-- The loop of the readers of fixed width: `n` bytes from byte `i` of `out`, which has `w` bits.
A plain `char` is unsigned. -/
def readBytes (w : Nat) : (n i out : Nat) → List UInt8 → Outcome (Nat × List UInt8)
  | 0, _, out, off => .ok (out, off)
  | _ + 1, _, _, [] => .error .undefined
  | n + 1, i, out, b :: off => readBytes w n (i + 1) (out ||| b.toNat <<< (8 * i) % 2 ^ w) off

def readUint64 : List UInt8 → Outcome (Nat × List UInt8) := readBytes 64 8 0 0

def readUint32 : List UInt8 → Outcome (Nat × List UInt8) := readBytes 32 4 0 0

def readUint16 : List UInt8 → Outcome (Nat × List UInt8) := readBytes 16 2 0 0

/-- The shortest encoding. -/
def uleb128 (v : Nat) : List UInt8 :=
  if v < 128 then [.ofNat v] else .ofNat (v % 128 + 128) :: uleb128 (v / 128)
termination_by v
decreasing_by omega

def leBytes : (n v : Nat) → List UInt8
  | 0, _ => []
  | n + 1, v => .ofNat v :: leBytes n (v / 256)

theorem uleb128_length_le {v k : Nat} (h : v < 128 ^ (k + 1)) : (uleb128 v).length ≤ k + 1 := by
  induction k generalizing v with
  | zero =>
    rw [uleb128, if_pos (by simpa using h)]
    rfl
  | succ k ih =>
    rw [uleb128]
    split_ifs
    · exact Nat.le_add_left 1 _
    · exact Nat.succ_le_succ (ih (Nat.div_lt_of_lt_mul (by rwa [← Nat.pow_succ'])))

theorem readGroups_uleb128 {v a s : Nat} (ha : a < 2 ^ s) (hs : s < 64) (hv : v < 2 ^ (64 - s))
    (rest : List UInt8) :
    ∃ shift b, readGroups a s (uleb128 v ++ rest) = .ok (a + 2 ^ s * v, shift, b, rest) := by
  induction v using uleb128.induct generalizing a s with
  | case1 v h =>
    have hlt := group_lt ha hv
    rw [Nat.add_sub_cancel' hs.le] at hlt
    rw [uleb128, if_pos h, singleton_append, readGroups_last ha hs h, Nat.mod_eq_of_lt hlt]
    exact ⟨_, _, rfl⟩
  | case2 v h ih =>
    have hd : v % 128 < 128 := Nat.mod_lt _ (by decide)
    -- another group is left, so its shift is below 64
    have hmore : 7 < 64 - s := (Nat.pow_lt_pow_iff_right (by decide : 1 < 2)).mp (by omega)
    have hnext : v / 128 < 2 ^ (64 - (s + 7)) := by
      have hpow : 2 ^ (64 - s) = 2 ^ 7 * 2 ^ (64 - (s + 7)) := by
        rw [← Nat.pow_add]
        congr 1
        omega
      omega
    have hjoin : 2 ^ s * (v % 128) + 2 ^ (s + 7) * (v / 128) = 2 ^ s * v := group_join s 7 v
    obtain ⟨shift, b, hrun⟩ := ih (group_lt (k := 7) ha hd) (by omega) hnext
    rw [uleb128, if_neg h, cons_append, readGroups_more ha (by omega) hd, hrun, add_assoc, hjoin]
    exact ⟨shift, b, rfl⟩

theorem readBytes_leBytes {w n i out v : Nat} (hw : 8 * (i + n) ≤ w) (hout : out < 2 ^ (8 * i))
    (hv : v < 2 ^ (8 * n)) (rest : List UInt8) :
    readBytes w n i out (leBytes n v ++ rest) = .ok (out + 2 ^ (8 * i) * v, rest) := by
  induction n generalizing i out v with
  | zero =>
    obtain rfl : v = 0 := Nat.lt_one_iff.mp hv
    rfl
  | succ n ih =>
    have hd : v % 256 < 2 ^ 8 := Nat.mod_lt _ (by decide)
    have hacc := group_lt hout hd
    have hfit : 2 ^ (8 * i + 8) ≤ 2 ^ w := Nat.pow_le_pow_right (by decide) (by omega)
    have hnext : v / 256 < 2 ^ (8 * n) := by
      have hpow : 2 ^ (8 * (n + 1)) = 2 ^ (8 * n) * 2 ^ 8 := Nat.pow_add 2 (8 * n) 8
      omega
    have hjoin : 2 ^ (8 * i) * (v % 256) + 2 ^ (8 * (i + 1)) * (v / 256) = 2 ^ (8 * i) * v :=
      group_join (8 * i) 8 v
    rw [leBytes, cons_append, readBytes, UInt8.toNat_ofNat', or_group hout (by omega),
      Nat.mod_eq_of_lt (hacc.trans_le hfit), ih (by omega) hacc hnext, add_assoc, hjoin]

/-- **The unsigned readers invert their encodings**, whatever follows them. -/
theorem unsigned_readers_invert (rest : List UInt8) :
    (∀ v : UInt64, (uleb128 v.toNat).length ≤ 10 ∧
      readUleb128 (uleb128 v.toNat ++ rest) = .ok (v.toNat, rest)) ∧
    (∀ v : UInt64, (leBytes 8 v.toNat).length = 8 ∧
      readUint64 (leBytes 8 v.toNat ++ rest) = .ok (v.toNat, rest)) ∧
    (∀ v : UInt32, (leBytes 4 v.toNat).length = 4 ∧
      readUint32 (leBytes 4 v.toNat ++ rest) = .ok (v.toNat, rest)) ∧
    ∀ v : UInt16, (leBytes 2 v.toNat).length = 2 ∧
      readUint16 (leBytes 2 v.toNat ++ rest) = .ok (v.toNat, rest) := by
  have hfixed : ∀ w n v, 8 * n ≤ w → v < 2 ^ (8 * n) →
      readBytes w n 0 0 (leBytes n v ++ rest) = .ok (v, rest) := by
    intro w n v hw hv
    simpa using readBytes_leBytes (i := 0) (by omega) Nat.one_pos hv rest
  refine ⟨fun v => ⟨uleb128_length_le (v.toNat_lt.trans (by decide)), ?_⟩,
    fun v => ⟨rfl, hfixed 64 8 _ (by decide) v.toNat_lt⟩,
    fun v => ⟨rfl, hfixed 32 4 _ (by decide) v.toNat_lt⟩,
    fun v => ⟨rfl, hfixed 16 2 _ (by decide) v.toNat_lt⟩⟩
  obtain ⟨shift, b, hrun⟩ := readGroups_uleb128 (a := 0) (s := 0) Nat.one_pos (by decide)
    v.toNat_lt rest
  rw [readUleb128, hrun, ok_bind, Nat.zero_add, Nat.pow_zero, Nat.one_mul]
  rfl

end CabbagePKE
