import Mathlib.Algebra.Order.Ring.Nat
import Mathlib.Data.Nat.ModEq

/-!
# Little-endian words in a byte memory

A memory is a function from addresses to bytes. `readLE m a k` is the
unsigned `k`-byte word at `a`, `writeLE m a k v` stores one; a copy is
given pointwise by `copyBytes`.
-/

namespace Lib

abbrev Mem := Nat → UInt8

def readLE (m : Mem) (a : Nat) : Nat → Nat
  | 0 => 0
  | k + 1 => (m a).toNat + 256 * readLE m (a + 1) k

def writeLE (m : Mem) (a k v : Nat) : Mem := fun x =>
  if a ≤ x ∧ x < a + k then UInt8.ofNat (v / 256 ^ (x - a)) else m x

def copyBytes (dst : Mem) (d : Nat) (src : Mem) (s n : Nat) : Mem := fun x =>
  if d ≤ x ∧ x < d + n then src (s + (x - d)) else dst x

def fillBytes (dst : Mem) (d : Nat) (b : UInt8) (n : Nat) : Mem := fun x =>
  if d ≤ x ∧ x < d + n then b else dst x

theorem copyBytes_outside {m m' : Mem} {d o n x : Nat} (h : x < d ∨ d + n ≤ x) :
    copyBytes m d m' o n x = m x := by
  have hn : ¬ (d ≤ x ∧ x < d + n) := by omega
  simp [copyBytes, hn]

theorem fillBytes_outside {m : Mem} {p n x : Nat} {b : UInt8} (h : x < p ∨ p + n ≤ x) :
    fillBytes m p b n x = m x := by
  have hn : ¬ (p ≤ x ∧ x < p + n) := by omega
  simp [fillBytes, hn]

def storeBytes (m : Mem) (a : Nat) (bs : List UInt8) : Mem := fun x =>
  if a ≤ x ∧ x < a + bs.length then bs.getD (x - a) 0 else m x

variable {m m' : Mem} {a b k j v : Nat}

theorem readLE_congr (h : ∀ i, i < k → m (a + i) = m' (b + i)) : readLE m a k = readLE m' b k := by
  induction k generalizing a b with
  | zero => rfl
  | succ k ih =>
    have h0 : m a = m' b := h 0 (by omega)
    have ht : readLE m (a + 1) k = readLE m' (b + 1) k := by
      refine ih (fun i hi => ?_)
      have := h (i + 1) (by omega)
      rwa [show a + (i + 1) = a + 1 + i from by omega,
        show b + (i + 1) = b + 1 + i from by omega] at this
    rw [readLE, readLE, h0, ht]

theorem readLE_lt (m : Mem) (a k : Nat) : readLE m a k < 256 ^ k := by
  induction k generalizing a with
  | zero => simp [readLE]
  | succ k ih =>
    have hb : (m a).toNat < 256 := UInt8.toNat_lt (m a)
    have ht := ih (a + 1)
    rw [readLE, pow_succ]
    omega

theorem readLE_of_digits (h : ∀ i, i < k → (m (a + i)).toNat = v / 256 ^ i % 256) :
    readLE m a k = v % 256 ^ k := by
  induction k generalizing a v with
  | zero => simp [readLE, Nat.mod_one]
  | succ k ih =>
    have h0 : (m a).toNat = v % 256 := by simpa using h 0 (by omega)
    have ht : readLE m (a + 1) k = v / 256 % 256 ^ k := by
      refine ih (fun i hi => ?_)
      have := h (i + 1) (by omega)
      rw [show a + (i + 1) = a + 1 + i from by omega] at this
      rw [this, pow_succ', Nat.div_div_eq_div_mul]
    rw [readLE, h0, ht, pow_succ', Nat.mod_mul]

theorem readLE_writeLE_self (m : Mem) (a : Nat) (h : v < 256 ^ k) :
    readLE (writeLE m a k v) a k = v := by
  have hd : readLE (writeLE m a k v) a k = v % 256 ^ k := by
    refine readLE_of_digits (fun i hi => ?_)
    have hin : a ≤ a + i ∧ a + i < a + k := by omega
    simp [writeLE, hin]
  rw [hd, Nat.mod_eq_of_lt h]

theorem writeLE_of_outside {x : Nat} (h : x < a ∨ a + k ≤ x) : writeLE m a k v x = m x := by
  have hn : ¬ (a ≤ x ∧ x < a + k) := by omega
  simp [writeLE, hn]

theorem readLE_writeLE_of_disjoint (h : b + j ≤ a ∨ a + k ≤ b) :
    readLE (writeLE m a k v) b j = readLE m b j :=
  readLE_congr (fun i hi => writeLE_of_outside (by omega))

-- from here on words are reached through the lemmas above only
attribute [irreducible] readLE

theorem storeBytes_outside {x : Nat} {bs : List UInt8} (h : x < a ∨ a + bs.length ≤ x) :
    storeBytes m a bs x = m x := by
  have hn : ¬ (a ≤ x ∧ x < a + bs.length) := by omega
  simp [storeBytes, hn]

end Lib
