import CabbagePKE.Heap.Reuse

/-!
# Where splitting writes

`alloc_from_free_block` compares with the unrounded size, cuts at the size
rounded up to 8 and makes a block of whatever is left, so a rest of 0 or 8 bytes
gets a head that does not fit it. When every request leaves nothing or at least a
head, all heads are written inside the block that is cut.
-/

namespace CabbagePKE

open Lib List

variable {T : Type}

/-! ## The stores of a split -/

inductive HeadField
  | capacity
  | next
  deriving DecidableEq, Repr

def HeadField.offset : HeadField → Nat
  | .capacity => 0
  | .next => 8

/-- The request takes the block whole or leaves room for a head. -/
def SplitRoom (need : Nat) (b : Nat × Nat) : Prop :=
  b.2 = need ∨ alignUp need + headSize ≤ b.2

instance SplitRoom.decidable (need : Nat) (b : Nat × Nat) : Decidable (SplitRoom need b) :=
  inferInstanceAs (Decidable (_ ∨ _))

section

variable {s s' : HeapProc T} {need cur pre p : Nat}

end

/-! ## Runs -/

section

variable [RefTable T] {s s' : HeapState T}

def HeapState.FromFree (s : HeapState T) : HeapOp → Prop
  | .malloc n => (servingBlock s.proc n).isSome
  | .free _ => True

/-- The size of the request does not wrap, and the block that serves it is
taken whole or has room for the head of the rest. -/
def HeapState.RoomOk (s : HeapState T) : HeapOp → Prop
  | .malloc n => n + headSize < 2 ^ 64 ∧
      ∀ b ∈ servingBlock s.proc n, SplitRoom (n + headSize) b
  | .free _ => True

instance HeapState.decidableFromFree (s : HeapState T) (op : HeapOp) :
    Decidable (s.FromFree op) :=
  match op with
  | .malloc n => inferInstanceAs (Decidable ((servingBlock s.proc n).isSome = true))
  | .free _ => isTrue trivial

instance HeapState.decidableRoomOk (s : HeapState T) (op : HeapOp) :
    Decidable (s.RoomOk op) :=
  match op with
  | .malloc n => inferInstanceAs (Decidable (_ ∧ ∀ b ∈ servingBlock s.proc n, _))
  | .free _ => isTrue trivial

def HeapProc.Paged (s : HeapProc T) (L : List Nat) : Prop :=
  ∀ b ∈ L, b % PGSIZE + capacityOf s b ≤ PGSIZE

structure HeapState.PagedInv (s : HeapState T) : Prop where
  blocks : ∃ pages free, s.proc.Blocks pages free (s.live.map (fun x => x.1 - headSize)) ∧
    s.proc.Paged (free ++ s.live.map (fun x => x.1 - headSize))
  above : ∀ x ∈ s.live, headSize ≤ x.1

theorem tryAllocFreeBlock_paged {t t' : HeapProc T} {pages free used : List Nat}
    (h : t.Blocks pages free used) (hp : t.Paged (free ++ used))
    (ht : tryAllocFreeBlock t = .ok t') :
    ∃ pages' free', t'.Blocks pages' free' used ∧ t'.Paged (free' ++ used) := by
  rcases tryAllocFreeBlock_blocks h ht with ⟨-, rfl⟩ | ⟨-, rfl, pages', hb, -, hcap, hkeep⟩
  · exact ⟨pages, free, h, hp⟩
  · refine ⟨pages', [t.heapTop], hb, ?_⟩
    intro b hmem
    rcases mem_cons.mp hmem with rfl | hmem
    · rw [hcap, h.mapped.top_mod, Nat.zero_add]
    · rw [hkeep b hmem]
      exact hp b hmem

omit [RefTable T] in
theorem fitOk_of_room {n : Nat} {b : Nat × Nat} (hroom : SplitRoom (n + headSize) b)
    (hpage : b.1 % PGSIZE + b.2 ≤ PGSIZE) : FitOk n b := by
  rcases hroom with hexact | hroom
  · exact .inl hexact
  · refine .inr ⟨hroom, ?_⟩
    unfold PGSIZE headSize at *
    omega

theorem vmMalloc_paged {t t' : HeapProc T} {pages free used : List Nat} {n p : Nat}
    {b : Nat × Nat} (h : t.Blocks pages free used) (hp : t.Paged (free ++ used))
    (hn : n + headSize < 2 ^ 64) (hserve : servingBlock t n = some b)
    (hroom : SplitRoom (n + headSize) b) (hm : vmMalloc t n = .ok (p, t')) :
    p = b.1 + headSize ∧ ∃ pages' free', t'.Blocks pages' free' (b.1 :: used) ∧
      t'.Paged (free' ++ b.1 :: used) := by
  obtain ⟨t1, ht⟩ : ∃ t1, tryAllocFreeBlock t = .ok t1 := by
    rw [vmMalloc, bind_eq_ok] at hm
    exact ⟨hm.choose, hm.choose_spec.1⟩
  obtain ⟨pages1, before, rest, hb, hcap, hfit, htake⟩ := vmMalloc_serving h hserve ht hm
  obtain ⟨pages2, free2, hb2, hp2⟩ := tryAllocFreeBlock_paged h hp ht
  obtain rfl := hb2.chain.unique hb.chain
  have hpage : b.1 % PGSIZE + b.2 ≤ PGSIZE := by
    rw [hcap]
    exact hp2 b.1 (by simp)
  rw [u64_of_lt hn] at hfit htake
  have hok : FitOk n (b.1, capacityOf t1 b.1) := hcap ▸ fitOk_of_room hroom hpage
  obtain ⟨rfl, ⟨hexact, hb', hkeep⟩ | ⟨-, hleft, hb', hcut, hrest, hkeep⟩⟩ :=
    takeFrom_blocks hb (hcap ▸ hfit) hok htake
  · refine ⟨rfl, pages1, _, hb', ?_⟩
    intro x hx
    rw [hkeep x hx]
    apply hp2 x
    simp only [mem_append, mem_cons] at hx ⊢
    tauto
  · refine ⟨rfl, pages1, _, hb', ?_⟩
    intro x hx
    -- the two halves lie in the page of the block, the other blocks are kept
    rcases mem_append.mp hx with hx | hx
    · rcases mem_append.mp hx with hx | hx
      · rw [hkeep x (by simp [hx])]
        exact hp2 x (by simp [hx])
      · rcases mem_cons.mp hx with rfl | hx
        · rw [hrest]
          unfold PGSIZE headSize at *
          omega
        · rw [hkeep x (by simp [hx])]
          exact hp2 x (by simp [hx])
    · rcases mem_cons.mp hx with rfl | hx
      · rw [hcut]
        omega
      · rw [hkeep x (by simp [hx])]
        exact hp2 x (by simp [hx])

theorem HeapState.PagedInv.malloc {n : Nat} (h : s.PagedInv) (hfree : s.FromFree (.malloc n))
    (hroom : s.RoomOk (.malloc n)) (hs : s.step (.malloc n) = .ok s') : s'.PagedInv := by
  obtain ⟨pages, free, hb, hp⟩ := h.blocks
  obtain ⟨b, hserve⟩ := Option.isSome_iff_exists.mp hfree
  simp only [step, bind_eq_ok] at hs
  obtain ⟨⟨p, proc⟩, hm, ⟨⟩⟩ := hs
  obtain ⟨rfl, pages', free', hb', hp'⟩ := vmMalloc_paged hb hp hroom.1 hserve (hroom.2 b hserve) hm
  constructor
  · refine ⟨pages', free', ?_⟩
    simpa using ⟨hb', hp'⟩
  · intro x hx
    rcases mem_cons.mp hx with rfl | hx
    · exact Nat.le_add_left _ _
    · exact h.above x hx

theorem HeapState.PagedInv.free {p : Nat} (h : s.PagedInv) (hal : s.Allowed (.free p))
    (hs : s.step (.free p) = .ok s') : s'.PagedInv := by
  obtain ⟨pages, free, hb, hp⟩ := h.blocks
  simp only [step, bind_eq_ok] at hs
  obtain ⟨proc, hf, hs⟩ := hs
  cases hs
  obtain ⟨x, live, hperm, hxp, herase⟩ := exists_freed hal
  have hxa := h.above x (hperm.mem_iff.mpr mem_cons_self)
  have hb' : s.proc.Blocks pages free
      ((x.1 - headSize) :: live.map (fun x => x.1 - headSize)) := hb.permUsed (hperm.map _)
  obtain ⟨t, e, hb2, -, -, hkeep, -⟩ := vmFree_spec hb'
  have hf' : vmFree s.proc (x.1 - headSize + headSize) = .ok proc := by
    rw [Nat.sub_add_cancel hxa, hxp]
    exact hf
  cases e.symm.trans hf'
  rw [herase]
  constructor
  · refine ⟨pages, _, hb2, ?_⟩
    intro y hy
    rw [hkeep y hy]
    apply hp y
    have hperm' : (free ++ s.live.map (fun x => x.1 - headSize)).Perm
        (((x.1 - headSize) :: free) ++ live.map (fun x => x.1 - headSize)) :=
      ((hperm.map _).append_left free).trans perm_middle
    exact hperm'.mem_iff.mpr hy
  · intro y hy
    exact h.above y (hperm.mem_iff.mpr (mem_cons_of_mem x hy))

theorem HeapState.PagedInv.step {op : HeapOp} (h : s.PagedInv)
    (hok : s.Allowed op ∧ s.FromFree op ∧ s.RoomOk op) (hs : s.step op = .ok s') :
    s'.PagedInv := by
  cases op with
  | malloc n => exact h.malloc hok.2.1 hok.2.2 hs
  | free p => exact h.free hok.1 hs

end

end CabbagePKE
