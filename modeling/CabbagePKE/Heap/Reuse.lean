import CabbagePKE.Heap.Growth

/-!
# What a request records, and freeing and asking again

The size recorded in the head covers the request unless `n + 16` wraps. And
asking for `n` bytes right after freeing a block that was given for `n` bytes
restores the heap only in the branch for an exact fit: a block whose recorded
size was rounded up is split instead, with nothing left for the rest.
-/

namespace CabbagePKE

open Lib Function List

variable {T : Type}

/-! ## Serving from the free list -/

section

variable {s s' : HeapProc T} {pages before rest used : List Nat} {c p need : Nat}

end

/-! ## The recorded capacity -/

section

variable [RefTable T] {s s₁ s' : HeapProc T} {pages free used : List Nat} {n p : Nat}

/-- The free block that serves a request for `n` bytes, with its capacity. -/
def servingBlock (s : HeapProc T) (n : Nat) : Option (Nat × Nat) :=
  (candidates s).find? (fun b => u64 (n + headSize) ≤ b.2)

theorem vmMalloc_serving {b : Nat × Nat} (h : s.Blocks pages free used)
    (hb : servingBlock s n = some b) (ht : tryAllocFreeBlock s = .ok s₁)
    (hm : vmMalloc s n = .ok (p, s')) :
    ∃ pages' before rest, s₁.Blocks pages' (before ++ b.1 :: rest) used ∧
      b.2 = capacityOf s₁ b.1 ∧ u64 (n + headSize) ≤ b.2 ∧
      takeFrom s₁ (u64 (n + headSize)) b.1 (before.getLast?.getD 0) = .ok (p, s') := by
  simp only [vmMalloc, ht, ok_bind, allocFromFreeBlock, bind_eq_ok] at hm
  obtain ⟨r, hr, hm⟩ := hm
  obtain ⟨pages', free', hb', hcand, -, -⟩ := tryAllocFreeBlock_candidates h ht
  have hserve := findFit_serving hb' hr
  rw [← hcand] at hserve
  rw [servingBlock, hserve] at hb
  rcases findFit_blocks hb' hr with ⟨rfl, -⟩ | ⟨before, c, rest, rfl, rfl, -, hc⟩
  · cases hb
  · cases hb
    exact ⟨pages', before, rest, hb', rfl, hc, hm⟩

end

section

variable {s s' : HeapProc T} {pages free used : List Nat} {b n p need : Nat}

theorem HeapProc.Blocks.first_eq (h : s.Blocks pages (b :: free) used) :
    s.firstFreeBlock = b ∧ b ≠ 0 := toPtr_eq_some.mp h.chain.1

variable [RefTable T]

end

end CabbagePKE
