import CabbagePKE.Heap.Disjoint
import CabbagePKE.Heap.Exec

/-!
# What a grown heap covers

`alloc_from_new_block` grows the highest free block, which ends at `heap_top`.
Its loop lowers the missing size inside the test that ends it, so it adds a page
less than are missing as soon as more than one is. With one page the block is
covered, and only the head of the rest may straddle the new top.
-/

namespace CabbagePKE

open Lib

variable {T : Type}

/-- The block behind `pre` on the free list; `pre = 0` is the list's head. -/
def following (s : HeapProc T) (pre : Nat) : Nat :=
  if pre = 0 then s.firstFreeBlock else nextOf s pre

/-- The bytes `[va, va + n)` lie on mapped pages below `heap_top`, and the
head of the block `rest` lies on a mapped page above them. -/
structure Covers (s : HeapProc T) (va n rest : Nat) : Prop where
  top : va + n ≤ s.heapTop
  mapped : ∀ x, va ≤ x → x < va + n → PageMapped s.pagetable x
  head : HeadMapped s.pagetable rest
  above : va + n ≤ rest

section

variable {s s' : HeapProc T} {pages : List Nat} {b pre va : Nat}

theorem pageMapped_of_headAt {pa : Nat} (h : headAt s b = .ok pa) : PageMapped s.pagetable b := by
  unfold headAt at h
  split at h
  · cases h
  · rename_i hpa
    have hmod : b % PGSIZE < PGSIZE := Nat.mod_lt _ (by decide)
    have hne : lookupPa s.pagetable b ≠ 0 := by
      unfold userVaToPa at hpa
      omega
    unfold lookupPa at hne
    by_cases hmax : MAXVA ≤ b
    · rw [if_pos hmax] at hne
      exact absurd rfl hne
    · rw [if_neg hmax] at hne
      dsimp only at hne
      split at hne
      · rename_i he
        exact ⟨by omega, he⟩
      · exact absurd rfl hne

theorem linkAfter_inv (hva : va < 2 ^ 64) (h : linkAfter s pre va = .ok s') :
    s'.pagetable = s.pagetable ∧ s'.heapTop = s.heapTop ∧ following s' pre = va := by
  unfold linkAfter at h
  unfold following
  by_cases hpre : pre = 0
  · rw [if_pos hpre] at h
    cases h
    exact ⟨rfl, rfl, if_pos hpre⟩
  · rw [if_neg hpre] at h
    obtain rfl := setNext_inv h
    refine ⟨rfl, rfl, ?_⟩
    rw [if_neg hpre, nextOf_withMem]
    exact readLE_writeLE_self _ _ (by norm_num; omega)

theorem HeapProc.Mapped.pageMapped (h : s.Mapped pages) {x : Nat}
    (hlo : USER_FREE_ADDRESS_START ≤ x) (hhi : x < s.heapTop) : PageMapped s.pagetable x := by
  have hin : s.InHeap (x / PGSIZE) := by
    have hmod := h.top_mod
    unfold HeapProc.InHeap
    unfold USER_FREE_ADDRESS_START PGSIZE at *
    omega
  have hf := h.frame _ hin
  exact ⟨by have := h.top_le; omega, hf.valid, .inl hf.readable⟩

end

/-! ## Growing the highest block -/

section

variable [RefTable T] {s s' : HeapProc T} {b q n va r : Nat}

/-- What `alloc_from_new_block` leaves when the highest block, which has `q`
before it on the free list, misses `r` bytes. -/
structure GrownBy (s s' : HeapProc T) (r q : Nat) : Prop where
  grown : Grown s s'
  top : s'.heapTop = s.heapTop + ((r - 1) / PGSIZE - 1) * PGSIZE + PGSIZE
  rest : following s' q
    = s.heapTop + ((r - 1) / PGSIZE - 1) * PGSIZE + alignUp ((r - 1) % PGSIZE + 1)
  reached : PageMapped s'.pagetable (following s' q)

omit [RefTable T] in
theorem alignUp_bounds (hr : r ≤ PGSIZE) :
    r ≤ alignUp r ∧ alignUp r < r + 8 ∧ alignUp r % 8 = 0 := by
  unfold alignUp u64
  unfold PGSIZE at hr
  split <;> omega

theorem growBlock_grownBy (htop : s.heapTop % PGSIZE = 0) (hb : b ≤ s.heapTop)
    (hlt : capacityOf s b < n) (hn : n < 2 ^ 64) (h : growBlock s n b q = .ok (va, s')) :
    va = b + headSize ∧ GrownBy s s' (n - capacityOf s b) q := by
  have hmiss : u64 (n + (2 ^ 64 - capacityOf s b)) = n - capacityOf s b := by
    unfold u64
    omega
  simp only [growBlock, bind_eq_ok, hmiss] at h
  obtain ⟨pa, hhead, s1, h1, s2, h2, ⟨lastVa, need, s3⟩, hg, h⟩ := h
  obtain rfl := setNext_inv h1
  obtain ⟨-, rfl⟩ := headAt_ok_of_setCapacity h2
  obtain ⟨hlast, htop3, hneed, hgrown⟩ :=
    growHeap_grown _ _ (n - capacityOf s b) (by exact htop) (by omega) hg
  -- something is always missing, so there is always a rest
  have hneed0 : need ≠ 0 := by omega
  simp only [if_pos hneed0, bind_eq_ok] at h
  obtain ⟨s4, h4, s5, h5, s6, h6, h⟩ := h
  cases h
  obtain ⟨hhead, rfl⟩ := headAt_ok_of_setCapacity h4
  have hmapped := pageMapped_of_headAt hhead
  obtain rfl := setNext_inv h5
  have hu : u64 (lastVa + alignUp need) < 2 ^ 64 := Nat.mod_lt _ (by decide)
  obtain ⟨hpt, htop6, hfollow⟩ := linkAfter_inv hu h6
  have hlow : lastVa < MAXVA := by
    have hin : PageMapped s3.pagetable lastVa := by
      apply hgrown.added
      · rw [hlast]
        exact Nat.le_add_right _ _
      · rw [htop3]
        exact Nat.lt_add_of_pos_right (by decide)
    exact hin.1
  have hpage : need ≤ PGSIZE := by
    rw [hneed]
    exact Nat.succ_le_of_lt (Nat.mod_lt _ (by decide))
  have hround := alignUp_bounds hpage
  have hrest : u64 (lastVa + alignUp need) = lastVa + alignUp need := by
    apply u64_of_lt
    unfold MAXVA PGSIZE at *
    omega
  have hva : u64 (b + headSize) = b + headSize := by
    apply u64_of_lt
    have hle : s.heapTop ≤ lastVa := by
      rw [hlast]
      exact Nat.le_add_right _ _
    unfold MAXVA headSize at *
    omega
  rw [hrest] at hfollow hmapped
  refine ⟨hva, ⟨?_, ?_, ?_, ?_⟩, ?_, ?_, ?_⟩
  · rw [htop6]
    exact hgrown.top_le
  · rw [htop6]
    exact hgrown.top_mod
  · rw [hpt]
    exact hgrown.kept
  · rw [hpt, htop6]
    exact hgrown.added
  · rw [htop6]
    exact htop3.trans (by rw [hlast]; rfl)
  · rw [hfollow, hlast, hneed]
    rfl
  · rwa [hfollow, hpt]

omit [RefTable T] in
theorem GrownBy.covers_iff (h : GrownBy s s' r q) (htop : s.heapTop % PGSIZE = 0)
    (hr : 0 < r) (hva : va + n = s.heapTop + r)
    (hmapped : ∀ x, va ≤ x → x < s.heapTop → PageMapped s.pagetable x) :
    Covers s' va n (following s' q) ↔ r ≤ PGSIZE ∧ alignUp r + 8 ≠ PGSIZE := by
  constructor
  · intro hc
    have hle : r ≤ PGSIZE := by
      have htop' := hc.top
      rw [hva, h.top] at htop'
      unfold PGSIZE at *
      omega
    have hpages : (r - 1) / PGSIZE - 1 = 0 := by
      unfold PGSIZE at *
      omega
    have hmod : (r - 1) % PGSIZE + 1 = r := by
      unfold PGSIZE at *
      omega
    have hrest := h.rest
    rw [hpages, hmod] at hrest
    have hin := hc.head.2
    refine ⟨hle, ?_⟩
    intro heq
    unfold PGSIZE headSize at *
    omega
  · rintro ⟨hle, hne⟩
    have hpages : (r - 1) / PGSIZE - 1 = 0 := by
      unfold PGSIZE at *
      omega
    have hmod : (r - 1) % PGSIZE + 1 = r := by
      unfold PGSIZE at *
      omega
    have htop' := h.top
    have hrest := h.rest
    rw [hmod] at hrest
    have hround := alignUp_bounds hle
    constructor
    · omega
    · intro x hlo hhi
      by_cases hx : x < s.heapTop
      · exact h.grown.kept x (hmapped x hlo hx)
      · exact h.grown.added x (by omega) (by omega)
    · refine ⟨h.reached, ?_⟩
      rw [hrest]
      unfold PGSIZE headSize at *
      omega
    · omega

/-- When `alloc_from_new_block` grows the highest free block, which ends at
`heap_top` and is too small, the allocation and the head of the rest lie
on mapped pages exactly if at most a page is missing and rounding it up
does not leave eight bytes of that page. -/
theorem growth_covers_iff (htop : s.heapTop % PGSIZE = 0)
    (hfind : findHighest s loopBound s.firstFreeBlock 0 0 0 = .ok (b, q))
    (hend : b + capacityOf s b = s.heapTop) (hsmall : capacityOf s b < n + headSize)
    (hn : n + headSize < 2 ^ 63)
    (hmapped : ∀ x, b ≤ x → x < s.heapTop → PageMapped s.pagetable x)
    (h : allocFromNewBlock s n = .ok (va, s')) :
    Covers s' va n (following s' q) ↔
      n + headSize - capacityOf s b ≤ PGSIZE ∧
        alignUp (n + headSize - capacityOf s b) + 8 ≠ PGSIZE := by
  have hneed : u64 (n + headSize) = n + headSize := by
    apply u64_of_lt
    omega
  simp only [allocFromNewBlock, hfind, ok_bind, hneed] at h
  obtain ⟨rfl, hgrown⟩ := growBlock_grownBy htop (by omega) hsmall (by omega) h
  apply hgrown.covers_iff htop
  · omega
  · omega
  · intro x hlo hhi
    exact hmapped x (by omega) hhi

end

/-! ## Runs -/

theorem HeapRun.inv {ops : List HeapOp} {P : HeapState RefList → Prop}
    (h : HeapRun HeapState.ServeOk ops P) : ∃ s : HeapState RefList, s.Inv ∧ P s := by
  obtain ⟨proc, h0, s, hrun, hp⟩ := h.run
  exact ⟨s, Reaches.invariant HeapState.Inv h0.inv (fun _ _ _ hi hok hs => hi.step hok hs) hrun, hp⟩

/-- The highest free block of the heap ends at its top and is too small for
`n` bytes. -/
def TopTooSmall (s : HeapProc T) (n b q : Nat) : Prop :=
  findHighest s loopBound s.firstFreeBlock 0 0 0 = .ok (b, q) ∧
    b + capacityOf s b = s.heapTop ∧ capacityOf s b < n + headSize

/-- After `ops` in a fresh process the heap is grown for `n` bytes; `P` holds of the state before,
the highest block, the result and the state after. -/
abbrev GrowRun (ops : List HeapOp) (n : Nat)
    (P : HeapProc RefList → Nat → Nat → HeapProc RefList → Prop) : Prop :=
  HeapRun HeapState.ServeOk ops fun s =>
    ∃ bq, findHighest s.proc loopBound s.proc.firstFreeBlock 0 0 0 = .ok bq ∧
      USER_FREE_ADDRESS_START ≤ bq.1 ∧ bq.1 + capacityOf s.proc bq.1 = s.proc.heapTop ∧
      capacityOf s.proc bq.1 < n + headSize ∧
      ∃ r, allocFromNewBlock s.proc n = .ok r ∧ P s.proc bq.1 r.1 r.2

theorem GrowRun.run {ops : List HeapOp} {n : Nat}
    {P : HeapProc RefList → Nat → Nat → HeapProc RefList → Prop} (h : GrowRun ops n P) :
    ∃ (s s' : HeapProc RefList) (b q va : Nat), s.heapTop % PGSIZE = 0 ∧ TopTooSmall s n b q ∧
      (∀ x, b ≤ x → x < s.heapTop → PageMapped s.pagetable x) ∧
      allocFromNewBlock s n = .ok (va, s') ∧ P s b va s' := by
  obtain ⟨s, hinv, ⟨b, q⟩, hfind, hlo, hend, hsmall, ⟨va, s'⟩, hgrow, hp⟩ := HeapRun.inv h
  obtain ⟨pages, free, hb⟩ := hinv.blocks
  refine ⟨s.proc, s', b, q, va, hb.mapped.top_mod, ⟨hfind, hend, hsmall⟩, ?_, hgrow, hp⟩
  intro x hbx hx
  exact hb.mapped.pageMapped (hlo.trans hbx) hx

/-- A heap grown by one page. -/
theorem growth_covers_iff_page : ∃ (s s' : HeapProc RefList) (b q va : Nat),
    TopTooSmall s 1000 b q ∧ allocFromNewBlock s 1000 = .ok (va, s') ∧
      Covers s' va 1000 (following s' q) := by
  have hrun : GrowRun [.malloc 4000] 1000 (fun s b _ _ =>
      1000 + headSize - capacityOf s b ≤ PGSIZE ∧
        alignUp (1000 + headSize - capacityOf s b) + 8 ≠ PGSIZE) := by decide +kernel
  obtain ⟨s, s', b, q, va, htop, ⟨hfind, hend, hsmall⟩, hmapped, hgrow, ht⟩ := GrowRun.run hrun
  exact ⟨s, s', b, q, va, ⟨hfind, hend, hsmall⟩, hgrow,
    (growth_covers_iff htop hfind hend hsmall (by decide) hmapped hgrow).mpr ht⟩

/-- With 4936 bytes missing one page is added, and the allocation ends 840
bytes above `heap_top`. -/
theorem growth_short_of_page : ∃ (s s' : HeapProc RefList) (b q va : Nat),
    s.heapTop % PGSIZE = 0 ∧ TopTooSmall s 5000 b q ∧
      (∀ x, b ≤ x → x < s.heapTop → PageMapped s.pagetable x) ∧
      allocFromNewBlock s 5000 = .ok (va, s') ∧ va + 5000 = s'.heapTop + 840 ∧
      ¬ Covers s' va 5000 (following s' q) := by
  have hrun : GrowRun [.malloc 4000] 5000 (fun _ _ va s' => va + 5000 = s'.heapTop + 840) := by
    decide +kernel
  obtain ⟨s, s', b, q, va, htop, htoo, hmapped, hgrow, hover⟩ := GrowRun.run hrun
  refine ⟨s, s', b, q, va, htop, htoo, hmapped, hgrow, hover, ?_⟩
  intro hc
  have hle := hc.top
  omega

end CabbagePKE
