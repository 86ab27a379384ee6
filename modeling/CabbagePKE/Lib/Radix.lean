import Mathlib.Data.List.Induction

/-!
# Radix trees of tables

A tree whose nodes are tables in a store: `tab p i` is entry `i` of the table at
`p`, and `ptr` reads an entry as a pointer to a table one level down. The rules
say what two changes do to every path from the root: storing an entry of a
last-level table, and hanging an empty table into an entry that points nowhere.
-/

namespace Lib.Radix

open List

variable {α ι ω : Type} {ptr : ω → Option α} {tab tab' : α → ι → ω} {root p q : α} {i : ι}
  {π π₀ : List ι} {d : Nat}

def node (ptr : ω → Option α) (tab : α → ι → ω) (root : α) : List ι → Option α
  | [] => some root
  | i :: π => (ptr (tab root i)).bind (fun p => node ptr tab p π)

theorem node_snoc (ptr : ω → Option α) (tab : α → ι → ω) (root : α) (π : List ι) (i : ι) :
    node ptr tab root (π ++ [i]) = (node ptr tab root π).bind (fun p => ptr (tab p i)) := by
  induction π generalizing root with
  | nil => exact Option.bind_fun_some _
  | cons j π ih =>
    show (ptr (tab root j)).bind (fun p => node ptr tab p (π ++ [i])) = _
    rw [node, Option.bind_assoc]
    simp only [ih]

/-- `p` is a table of the tree, at most `d` levels below the root. -/
def IsTable (ptr : ω → Option α) (d : Nat) (tab : α → ι → ω) (root p : α) : Prop :=
  ∃ π, π.length ≤ d ∧ node ptr tab root π = some p

def Separate (ptr : ω → Option α) (d : Nat) (tab : α → ι → ω) (root : α) : Prop :=
  ∀ π π' p, π.length ≤ d → π'.length ≤ d → node ptr tab root π = some p →
    node ptr tab root π' = some p → π = π'

theorem node_congr (h : ∀ ρ r i, ρ.length < d → node ptr tab root ρ = some r →
    tab' r i = tab r i) (hπ : π.length ≤ d) :
    node ptr tab' root π = node ptr tab root π := by
  induction π using reverseRecOn with
  | nil => rfl
  | append_singleton ρ i ih =>
    rw [length_append, length_singleton] at hπ
    rw [node_snoc, node_snoc, ih (by omega)]
    cases hρ : node ptr tab root ρ with
    | none => rfl
    | some r => simp only [Option.bind_some, h ρ r i (by omega) hρ]

/-! ## Storing in a table of the last level -/

theorem Separate.node_store (h : Separate ptr d tab root) (hq : node ptr tab root π₀ = some q)
    (hd : π₀.length = d) (hkeep : ∀ r, IsTable ptr d tab root r → r ≠ q → tab' r = tab r)
    (hπ : π.length ≤ d) : node ptr tab' root π = node ptr tab root π := by
  refine node_congr (fun ρ r i hρ hr => ?_) hπ
  have hrq : r ≠ q := by
    rintro rfl
    have hpath := h ρ π₀ r (by omega) (by omega) hr hq
    rw [hpath] at hρ
    omega
  rw [hkeep r ⟨ρ, by omega, hr⟩ hrq]

/-! ## Adding a table -/

/-- The table `p` is new: it is not in the tree, none of its entries points
to a table, and it hangs below entry `i` of table `q`, which was not in use.
All other entries stay. -/
structure Adds (ptr : ω → Option α) (d : Nat) (tab tab' : α → ι → ω) (root : α) (π₀ : List ι)
    (i : ι) (p : α) : Prop where
  short : π₀.length < d
  fresh : ¬ IsTable ptr d tab root p
  empty : ∀ j, ptr (tab' p j) = none
  unused : node ptr tab root (π₀ ++ [i]) = none
  hangs : ∃ q, node ptr tab root π₀ = some q ∧ ptr (tab' q i) = some p ∧
    ∀ r j, IsTable ptr d tab root r → ¬ (r = q ∧ j = i) → tab' r j = tab r j

variable [DecidableEq ι]

theorem Adds.node_eq (h : Adds ptr d tab tab' root π₀ i p) (hsep : Separate ptr d tab root)
    (hπ : π.length ≤ d) :
    node ptr tab' root π = if π = π₀ ++ [i] then some p else node ptr tab root π := by
  obtain ⟨q, hq, hp, hkeep⟩ := h.hangs
  have hshort := h.short
  induction π using reverseRecOn with
  | nil =>
    rw [if_neg (by simp)]
    rfl
  | append_singleton ρ j ih =>
    rw [length_append, length_singleton] at hπ
    rw [node_snoc, ih (by omega), node_snoc]
    by_cases hρ : ρ = π₀ ++ [i]
    · -- below the new table there is nothing, and there was nothing before
      have hlong : ρ ++ [j] ≠ π₀ ++ [i] := by
        intro hc
        have hlen := congrArg length hc
        rw [hρ] at hlen
        simp at hlen
      rw [if_pos hρ, if_neg hlong, hρ, h.unused]
      exact h.empty j
    · rw [if_neg hρ]
      cases hr : node ptr tab root ρ with
      | none =>
        have hne : ρ ++ [j] ≠ π₀ ++ [i] := by
          intro hc
          obtain ⟨rfl, -⟩ := append_inj' hc rfl
          simp [hq] at hr
        rw [if_neg hne]
        rfl
      | some r =>
        simp only [Option.bind_some]
        by_cases hend : r = q ∧ j = i
        · obtain ⟨rfl, rfl⟩ := hend
          rw [hsep ρ π₀ r (by omega) (by omega) hr hq, if_pos rfl, hp]
        · have hne : ρ ++ [j] ≠ π₀ ++ [i] := by
            intro hc
            obtain ⟨rfl, hj⟩ := append_inj' hc rfl
            rw [hq] at hr
            exact hend ⟨(Option.some.inj hr).symm, singleton_inj.mp hj⟩
          rw [if_neg hne, hkeep r j ⟨ρ, by omega, hr⟩ hend]

theorem Adds.isTable (h : Adds ptr d tab tab' root π₀ i p) (hsep : Separate ptr d tab root) {r : α}
    (hr : IsTable ptr d tab' root r) : r = p ∨ IsTable ptr d tab root r := by
  obtain ⟨π, hπ, hnode⟩ := hr
  rw [h.node_eq hsep hπ] at hnode
  split at hnode
  · exact .inl (Option.some.inj hnode).symm
  · exact .inr ⟨π, hπ, hnode⟩

theorem Adds.separate (h : Adds ptr d tab tab' root π₀ i p) (hsep : Separate ptr d tab root) :
    Separate ptr d tab' root := by
  intro π π' r hπ hπ' hr hr'
  rw [h.node_eq hsep hπ] at hr
  rw [h.node_eq hsep hπ'] at hr'
  split at hr
  · rename_i heq
    cases hr
    split at hr'
    · rename_i heq'
      rw [heq, heq']
    · exact absurd ⟨π', hπ', hr'⟩ h.fresh
  · split at hr'
    · cases hr'
      exact absurd ⟨π, hπ, hr⟩ h.fresh
    · exact hsep π π' r hπ hπ' hr hr'

end Lib.Radix
