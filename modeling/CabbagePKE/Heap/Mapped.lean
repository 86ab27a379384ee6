import CabbagePKE.Heap.Malloc

/-!
# Block heads in physical memory

Every heap page is mapped to a frame of its own that the page allocator
does not list. A head that does not straddle a page boundary then lies in
one frame, and rewriting it leaves every other head alone.
-/

namespace CabbagePKE

open Lib

variable {T : Type}

/-- The frame of heap page `vpn` is readable and not on the free list. -/
structure HeapProc.Frame (s : HeapProc T) (pages : List Nat) (vpn : Nat) : Prop where
  valid : (s.pagetable.entry vpn).v = true
  readable : (s.pagetable.entry vpn).perm.r = true
  aligned : (s.pagetable.entry vpn).pa % PGSIZE = 0
  pos : PGSIZE ≤ (s.pagetable.entry vpn).pa
  used : (s.pagetable.entry vpn).pa ∉ pages

def HeapProc.InHeap (s : HeapProc T) (vpn : Nat) : Prop :=
  USER_FREE_ADDRESS_START / PGSIZE ≤ vpn ∧ vpn < s.heapTop / PGSIZE

/-- The allocator lists `pages`, and the heap pages have frames of their
own. -/
structure HeapProc.Mapped (s : HeapProc T) (pages : List Nat) : Prop where
  listed : s.pmm.Listed pages
  top_mod : s.heapTop % PGSIZE = 0
  top_ge : USER_FREE_ADDRESS_START ≤ s.heapTop
  top_le : s.heapTop ≤ MAXVA
  frame : ∀ vpn, s.InHeap vpn → s.Frame pages vpn
  inj : ∀ vpn vpn', s.InHeap vpn → s.InHeap vpn' →
    (s.pagetable.entry vpn).pa = (s.pagetable.entry vpn').pa → vpn = vpn'

structure HeapProc.HeadAt (s : HeapProc T) (b : Nat) : Prop where
  lower : USER_FREE_ADDRESS_START ≤ b
  upper : b + headSize ≤ s.heapTop
  inPage : b % PGSIZE + headSize ≤ PGSIZE

def HeadsApart (b c : Nat) : Prop := b + headSize ≤ c ∨ c + headSize ≤ b

section

variable {s s' : HeapProc T} {pages : List Nat} {b c v : Nat}

theorem HeapProc.Mapped.inHeap (h : s.Mapped pages) (hb : s.HeadAt b) : s.InHeap (b / PGSIZE) := by
  have h1 := hb.lower
  have h2 := hb.upper
  have h3 := h.top_mod
  unfold HeapProc.InHeap
  unfold USER_FREE_ADDRESS_START headSize PGSIZE at *
  omega

theorem userVaToPa_head (h : s.Mapped pages) (hb : s.HeadAt b) :
    userVaToPa s.pagetable b = (s.pagetable.entry (b / PGSIZE)).pa + b % PGSIZE := by
  have hf := h.frame _ (h.inHeap hb)
  have hlt : ¬ MAXVA ≤ b := by
    have h1 := hb.upper
    have h2 := h.top_le
    unfold headSize at h1
    omega
  simp [userVaToPa, lookupPa, hlt, hf.valid, hf.readable]

theorem headAt_eq (h : s.Mapped pages) (hb : s.HeadAt b) :
    headAt s b = .ok (userVaToPa s.pagetable b) := by
  have hf := (h.frame _ (h.inHeap hb)).pos
  have hle : ¬ userVaToPa s.pagetable b < PGSIZE := by
    rw [userVaToPa_head h hb]
    omega
  rw [headAt, if_neg hle]

theorem head_apart (h : s.Mapped pages) (hb : s.HeadAt b) (hc : s.HeadAt c) (hbc : HeadsApart b c) :
    userVaToPa s.pagetable b + headSize ≤ userVaToPa s.pagetable c ∨
      userVaToPa s.pagetable c + headSize ≤ userVaToPa s.pagetable b := by
  rw [userVaToPa_head h hb, userVaToPa_head h hc]
  have hfb := h.frame _ (h.inHeap hb)
  have hfc := h.frame _ (h.inHeap hc)
  have hb' := hb.inPage
  have hc' := hc.inPage
  by_cases hpage : b / PGSIZE = c / PGSIZE
  · rw [hpage]
    unfold HeadsApart at hbc
    unfold PGSIZE at *
    omega
  · have hne : (s.pagetable.entry (b / PGSIZE)).pa ≠ (s.pagetable.entry (c / PGSIZE)).pa :=
      fun heq => hpage (h.inj _ _ (h.inHeap hb) (h.inHeap hc) heq)
    have hap := page_apart hfb.aligned hfc.aligned hne
    omega

theorem head_not_free (h : s.Mapped pages) (hb : s.HeadAt b) {p : Nat} (hp : p ∈ pages) :
    userVaToPa s.pagetable b + headSize ≤ p ∨ p + PGSIZE ≤ userVaToPa s.pagetable b := by
  rw [userVaToPa_head h hb]
  have hf := h.frame _ (h.inHeap hb)
  have hin := hb.inPage
  have hne : (s.pagetable.entry (b / PGSIZE)).pa ≠ p := fun heq => hf.used (heq ▸ hp)
  have hap := page_apart hf.aligned (h.listed.managed p hp).1 hne
  omega

/-! ## Rewriting one head -/

structure Wrote (s s' : HeapProc T) (b : Nat) : Prop where
  mapped : ∀ {pages}, s.Mapped pages → s'.Mapped pages
  top_eq : s'.heapTop = s.heapTop
  first_eq : s'.firstFreeBlock = s.firstFreeBlock
  capacity_eq : ∀ {c}, s.HeadAt c → HeadsApart b c → capacityOf s' c = capacityOf s c
  next_eq : ∀ {c}, s.HeadAt c → HeadsApart b c → nextOf s' c = nextOf s c

theorem Wrote.headAt (h : Wrote s s' b) (hc : s.HeadAt c) : s'.HeadAt c :=
  ⟨hc.lower, h.top_eq ▸ hc.upper, hc.inPage⟩

theorem capacityOf_withMem (m : Mem) (c : Nat) :
    capacityOf (s.withMem m) c = readLE m (userVaToPa s.pagetable c) 8 := rfl

theorem nextOf_withMem (m : Mem) (c : Nat) :
    nextOf (s.withMem m) c = readLE m (userVaToPa s.pagetable c + 8) 8 := rfl

theorem wrote_of_mem (h : s.Mapped pages) (hb : s.HeadAt b) {m : Mem}
    (hm : ∀ x, x < userVaToPa s.pagetable b ∨ userVaToPa s.pagetable b + headSize ≤ x →
      m x = s.pmm.mem x) :
    Wrote s (s.withMem m) b := by
  refine ⟨?_, rfl, rfl, ?_, ?_⟩
  · intro pages' h'
    refine ⟨h'.listed.write ?_, h'.top_mod, h'.top_ge, h'.top_le, ?_, h'.inj⟩
    · intro p hp i hi
      apply hm
      have hout := head_not_free h' hb hp
      unfold PGSIZE at hout
      omega
    · intro vpn hv
      have hf := h'.frame vpn hv
      exact ⟨hf.valid, hf.readable, hf.aligned, hf.pos, hf.used⟩
  · intro c hc hap
    rw [capacityOf_withMem]
    refine readLE_congr ?_
    intro i hi
    apply hm
    have hsep := head_apart h hb hc hap
    unfold headSize at *
    omega
  · intro c hc hap
    rw [nextOf_withMem]
    refine readLE_congr ?_
    intro i hi
    apply hm
    have hsep := head_apart h hb hc hap
    unfold headSize at *
    omega

theorem setCapacity_spec (h : s.Mapped pages) (hb : s.HeadAt b) (hv : v < 2 ^ 64) :
    ∃ s', setCapacity s b v = .ok s' ∧ Wrote s s' b ∧ capacityOf s' b = v ∧
      nextOf s' b = nextOf s b := by
  have heq := headAt_eq h hb
  refine ⟨_, by rw [setCapacity, heq]; rfl, wrote_of_mem h hb ?_, ?_, ?_⟩
  · intro x hx
    apply writeLE_of_outside
    unfold headSize at hx
    omega
  · rw [capacityOf_withMem, readLE_writeLE_self _ _ (by norm_num; omega)]
  · rw [nextOf_withMem, readLE_writeLE_of_disjoint (by omega), nextOf]

theorem setNext_spec (h : s.Mapped pages) (hb : s.HeadAt b) (hv : v < 2 ^ 64) :
    ∃ s', setNext s b v = .ok s' ∧ Wrote s s' b ∧ nextOf s' b = v ∧
      capacityOf s' b = capacityOf s b := by
  have heq := headAt_eq h hb
  refine ⟨_, by rw [setNext, heq]; rfl, wrote_of_mem h hb ?_, ?_, ?_⟩
  · intro x hx
    apply writeLE_of_outside
    unfold headSize at hx
    omega
  · rw [nextOf_withMem, readLE_writeLE_self _ _ (by norm_num; omega)]
  · rw [capacityOf_withMem, readLE_writeLE_of_disjoint (by omega), capacityOf]

end

/-! ## One more heap page -/

section

variable [RefTable T] {s s' : HeapProc T} {pages : List Nat} {va : Nat}

omit [RefTable T] in
theorem frame_of_entry {p : Nat} {rest : List Nat} (h : s'.pmm.Listed rest)
    (hp : s'.pmm.Managed p) (hnew : p ∉ rest) {vpn : Nat}
    (he : s'.pagetable.entry vpn = Pte.leaf p (protToType true true false true)) :
    s'.Frame rest vpn := by
  have hpos := h.start_pos
  have hmod := hp.1
  have hround : ROUNDDOWN p PGSIZE = p := by
    unfold ROUNDDOWN PGSIZE at *
    omega
  have hle : PGSIZE ≤ p := by
    have h2 := hp.2.1
    unfold PGSIZE at *
    omega
  rw [Pte.leaf, hround] at he
  exact ⟨by rw [he], by rw [he]; rfl, by rw [he]; exact hmod, by rw [he]; exact hle,
    by rw [he]; exact hnew⟩

theorem addHeapPage_spec (h : s.Mapped pages) (ha : addHeapPage s = .ok (va, s')) :
    ∃ pages', va = s.heapTop ∧ s'.heapTop = s.heapTop + PGSIZE ∧
      s'.firstFreeBlock = s.firstFreeBlock ∧ s'.Mapped pages' ∧
      ∀ c, s.HeadAt c → capacityOf s' c = capacityOf s c ∧ nextOf s' c = nextOf s c := by
  simp only [addHeapPage, bind_eq_ok] at ha
  obtain ⟨⟨p, pmm1⟩, halloc, ha⟩ := ha
  split at ha
  · cases ha
  rename_i hp
  simp only [bind_eq_ok] at ha
  obtain ⟨⟨pmm2, pt⟩, hmap, ha⟩ := ha
  cases ha
  have hm1 := (allocPage_inv h.listed halloc).1
  obtain ⟨rest, rfl, htook⟩ := allocPage_took h.listed halloc hp
    (m := fillBytes pmm1.mem p 0 PGSIZE) (fun x hx => by
      have hn : ¬ (p ≤ x ∧ x < p + PGSIZE) := by omega
      simp [fillBytes, hn, hm1])
  obtain ⟨pages', htook2⟩ := userVmMap_took htook.listed hmap
  obtain ⟨-, hlt, hent⟩ := userVmMap_entry h.top_mod hmap
  have hall := htook.trans htook2
  have hge := h.top_ge
  have hmod := h.top_mod
  have htop : u64 (s.heapTop + PGSIZE) = s.heapTop + PGSIZE := by
    apply u64_of_lt
    unfold MAXVA PGSIZE at *
    omega
  -- the old entries are kept
  have hold : ∀ vpn, s.InHeap vpn → pt.entry vpn = s.pagetable.entry vpn := by
    intro vpn hv
    have h2 := hv.2
    rw [hent vpn, if_neg (by omega)]
  have hvpn : ∀ vpn, (USER_FREE_ADDRESS_START / PGSIZE ≤ vpn ∧
      vpn < (s.heapTop + PGSIZE) / PGSIZE) → s.InHeap vpn ∨ vpn = s.heapTop / PGSIZE := by
    intro vpn hv
    unfold HeapProc.InHeap
    unfold PGSIZE at *
    omega
  have hman := h.listed.managed p (by simp)
  have hnd := List.nodup_cons.mp h.listed.chain.nodup
  have hnew : p ∉ pages' := fun hmem => hnd.1 (htook2.mem_of_mem hmem)
  have hman' : pmm2.Managed p := by
    unfold Pmm.Managed at hman ⊢
    rwa [hall.start_eq, hall.end_eq]
  have hround : ROUNDDOWN p PGSIZE = p := by
    have := hman.1
    unfold ROUNDDOWN PGSIZE at *
    omega
  have hpa : (pt.entry (s.heapTop / PGSIZE)).pa = p := by rw [hent, if_pos rfl, Pte.leaf, hround]
  refine ⟨pages', rfl, htop, rfl, ⟨hall.listed, ?_, ?_, ?_, ?_, ?_⟩, ?_⟩
  · dsimp only
    rw [htop]
    unfold PGSIZE at *
    omega
  · dsimp only
    omega
  · dsimp only
    rw [htop]
    unfold MAXVA PGSIZE at *
    omega
  · intro vpn hv
    simp only [HeapProc.InHeap, htop] at hv
    rcases hvpn vpn hv with hv | rfl
    · have hf := h.frame vpn hv
      have he := hold vpn hv
      exact ⟨he ▸ hf.valid, he ▸ hf.readable, he ▸ hf.aligned, he ▸ hf.pos,
        he ▸ fun hmem => hf.used (hall.mem_of_mem hmem)⟩
    · exact frame_of_entry hall.listed hman' hnew (by rw [hent, if_pos rfl])
  · intro vpn vpn' hv hv' heq
    simp only [HeapProc.InHeap, htop] at hv hv'
    rcases hvpn vpn hv with hv | rfl
    · rcases hvpn vpn' hv' with hv' | rfl
      · exact h.inj vpn vpn' hv hv' (by rwa [← hold vpn hv, ← hold vpn' hv'])
      · refine absurd ?_ (h.frame vpn hv).used
        rw [← hold vpn hv, heq, hpa]
        simp
    · rcases hvpn vpn' hv' with hv' | rfl
      · refine absurd ?_ (h.frame vpn' hv').used
        rw [← hold vpn' hv', ← heq, hpa]
        simp
      · rfl
  · intro c hc
    have hva : userVaToPa pt c = userVaToPa s.pagetable c := by
      simp only [userVaToPa, lookupPa, hold _ (h.inHeap hc)]
    have hmem : ∀ i, i < headSize → pmm2.mem (userVaToPa s.pagetable c + i)
        = s.pmm.mem (userVaToPa s.pagetable c + i) := by
      intro i hi
      apply hall.mem_eq
      intro q hq
      have hout := head_not_free h hc hq
      omega
    constructor
    · show readLE pmm2.mem (userVaToPa pt c) 8 = _
      rw [hva]
      exact readLE_congr (fun i hi => hmem i (by unfold headSize; omega))
    · show readLE pmm2.mem (userVaToPa pt c + 8) 8 = _
      rw [hva]
      refine readLE_congr ?_
      intro i hi
      rw [add_assoc]
      exact hmem (8 + i) (by unfold headSize; omega)

end

end CabbagePKE
