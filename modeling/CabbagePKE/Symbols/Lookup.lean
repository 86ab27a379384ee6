import CabbagePKE.Console.Print

/-!
# The name behind a return address

`func_name_printer` of `kernel/symbol.c`, the binary search of a backtrace over the sorted symbols.
-/

namespace CabbagePKE

open Lib

structure ElfSymbol where
  st_name : UInt32
  st_info : UInt8
  st_other : UInt8
  st_shndx : UInt16
  st_value : UInt64
  st_size : UInt64
  deriving DecidableEq, Repr

/-- A row of `sym_names`, or `temp_name`: 32 bytes with a `NUL` among them. -/
structure SymName where
  buf : Mem
  terminated : (cstr buf 0 32).length < 32

def SymName.str (n : SymName) : List UInt8 := cstr n.buf 0 32

/-- `symbols[i]` with `sym_names[i]`. -/
structure SymRow where
  symbol : ElfSymbol
  name : SymName

def SymRow.value (r : SymRow) : Nat := r.symbol.st_value.toNat

abbrev SymTab := Nat → SymRow

/-- `"%s\n"` -/
def nameFormat : List UInt8 := [37, 115, 10]

/-- The loop over the symbols from `left` to `right = hi - 1`, with what it prints. -/
def printFrom (t : SymTab) (retAddr : Nat) : Nat → Nat → Nat → Outcome (List UInt8)
  | 0, left, hi => if left < hi then .error .diverges else return []
  | fuel + 1, left, hi =>
    if left < hi then
      let mid := left + (hi - 1 - left) / 2
      let beginAddr := (t mid).value
      let endAddr := u64 ((t mid).value + (t mid).symbol.st_size.toNat)
      if beginAddr ≤ retAddr ∧ retAddr < endAddr then sprint nameFormat [.str (t mid).name.str]
      else if retAddr < beginAddr then printFrom t retAddr fuel left mid
      else printFrom t retAddr fuel (mid + 1) hi
    else return []

/-- `a` is in the range of the symbol. -/
def SymRow.Holds (r : SymRow) (a : Nat) : Prop :=
  r.value ≤ a ∧ a < r.value + r.symbol.st_size.toNat

/-- A table as a linker leaves it, sorted. -/
structure SymTab.Ranges (t : SymTab) (n : Nat) : Prop where
  sorted : ∀ i j, i ≤ j → j < n → (t i).value ≤ (t j).value
  nonempty : ∀ i, i < n → 0 < (t i).symbol.st_size.toNat
  noWrap : ∀ i, i < n → (t i).value + (t i).symbol.st_size.toNat < 2 ^ 64
  disjoint : ∀ i j a, i < n → j < n → (t i).Holds a → (t j).Holds a → i = j

section

variable {t : SymTab} {n : Nat}

theorem SymTab.Ranges.before (h : t.Ranges n) {i j : Nat} (hij : i < j) (hj : j < n) :
    (t i).value + (t i).symbol.st_size.toNat ≤ (t j).value := by
  by_contra hlt
  have hpos := h.nonempty j hj
  have heq := h.disjoint i j (t j).value (by omega) hj ⟨h.sorted i j hij.le hj, by omega⟩
    ⟨le_rfl, by omega⟩
  omega

theorem sprint_name (name : SymName) :
    sprint nameFormat [.str name.str] = .ok (name.str ++ [10]) := by
  refine vprintk_eq (f := ⟨false, false, name.str ++ [10], []⟩) rfl ?_
  have hlen : name.str.length < 32 := name.terminated
  rw [List.length_append, List.length_singleton]
  omega

/-- The output tells the symbol that holds `a`, of those from `left` up to `hi`. -/
structure PrintsName (t : SymTab) (a left hi : Nat) (out : List UInt8) : Prop where
  found : ∀ i, left ≤ i → i < hi → (t i).Holds a → out = (t i).name.str ++ [10]
  absent : (∀ i, left ≤ i → i < hi → ¬ (t i).Holds a) → out = []

theorem PrintsName.empty {a left hi : Nat} (h : hi ≤ left) : PrintsName t a left hi [] :=
  ⟨fun i _ _ => by omega, fun _ => rfl⟩

theorem PrintsName.widen {a left hi left' hi' : Nat} {out : List UInt8}
    (h : PrintsName t a left' hi' out)
    (hsub : ∀ i, left ≤ i → i < hi → (t i).Holds a → left' ≤ i ∧ i < hi')
    (hl : left ≤ left') (hh : hi' ≤ hi) : PrintsName t a left hi out where
  found i hi₀ hi₁ hin := h.found i (hsub i hi₀ hi₁ hin).1 (hsub i hi₀ hi₁ hin).2 hin
  absent hno := h.absent fun i hi₀ hi₁ => hno i (by omega) (by omega)

theorem SymTab.Ranges.printFrom (h : t.Ranges n) (a : Nat) {fuel left hi : Nat}
    (hfuel : hi - left ≤ fuel) (hn : hi ≤ n) :
    ∃ out, printFrom t a fuel left hi = .ok out ∧ PrintsName t a left hi out := by
  induction fuel generalizing left hi with
  | zero => exact ⟨[], if_neg (by omega), .empty (by omega)⟩
  | succ fuel ih =>
    rw [CabbagePKE.printFrom]
    split_ifs with hlt
    · obtain ⟨mid, hmid⟩ : ∃ mid, mid = left + (hi - 1 - left) / 2 := ⟨_, rfl⟩
      have hend := u64_of_lt (h.noWrap mid (by omega))
      simp only [← hmid, hend]
      split_ifs with hin hbelow
      · refine ⟨_, sprint_name _, fun i hi₀ hi₁ hi => ?_, fun hno => ?_⟩
        · rw [h.disjoint i mid a (by omega) (by omega) hi hin]
        · exact absurd hin (hno mid (by omega) (by omega))
      · -- every symbol from `mid` on starts above `a`
        obtain ⟨out, hrun, hprints⟩ := @ih left mid (by omega) (by omega)
        refine ⟨out, hrun, hprints.widen (fun i hi₀ hi₁ hold => ⟨hi₀, ?_⟩) (by omega) (by omega)⟩
        by_contra hge
        have := h.sorted mid i (by omega) (by omega)
        have := hold.1
        omega
      · -- every symbol up to `mid` ends at or below `a`
        obtain ⟨out, hrun, hprints⟩ := @ih (mid + 1) hi (by omega) hn
        refine ⟨out, hrun, hprints.widen (fun i hi₀ hi₁ hold => ⟨?_, hi₁⟩) (by omega) (by omega)⟩
        by_contra hle
        rcases Nat.eq_or_lt_of_le (Nat.le_of_lt_succ (not_le.mp hle)) with rfl | hless
        · exact hin hold
        · have := h.before hless (by omega)
          have := hold.2
          omega
    · exact ⟨[], rfl, .empty (not_lt.mp hlt)⟩

end

end CabbagePKE
