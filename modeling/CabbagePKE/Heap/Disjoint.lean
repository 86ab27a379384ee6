import CabbagePKE.Heap.Allocate

/-!
# Live allocations are disjoint

Runs of `vm_malloc` and `vm_free` with the live allocations kept alongside. A
split must leave room for a head that fits its page, and a block that is grown
must end at `heap_top` and need at most one more page. `MallocOk` states this on
the state before a request, and under it live memory stays disjoint.
-/

namespace CabbagePKE

open Lib List

variable {T : Type} [RefTable T]

/-! ## When a request can be served -/

def freeBlocks (s : HeapProc T) : List Nat :=
  Lib.walk (links (nextOf s)) loopBound (toPtr s.firstFreeBlock)

/-- The blocks a request can be served from, with their capacities; an
empty free list is first given one page. -/
def candidates (s : HeapProc T) : List (Nat × Nat) :=
  if s.firstFreeBlock = 0 then [(s.heapTop, PGSIZE)]
  else (freeBlocks s).map (fun b => (b, capacityOf s b))

def servedTop (s : HeapProc T) : Nat :=
  if s.firstFreeBlock = 0 then s.heapTop + PGSIZE else s.heapTop

/-- The block `b` serves `n` bytes: exactly, or with room for the head of
the rest inside one page. -/
def FitOk (n : Nat) (b : Nat × Nat) : Prop :=
  b.2 = n + headSize ∨
    (alignUp (n + headSize) + headSize ≤ b.2 ∧
      (b.1 + alignUp (n + headSize)) % PGSIZE + headSize ≤ PGSIZE)

/-- The block `b` can be grown to serve `n` bytes: it ends at the top, and
what is missing leaves room for a head in one more page. -/
def GrowOk (s : HeapProc T) (n : Nat) (b : Nat × Nat) : Prop :=
  b.1 + b.2 = servedTop s ∧ alignUp (n + headSize - b.2) + headSize ≤ PGSIZE

/-- The request for `n` bytes is one the allocator serves correctly. -/
def MallocOk (s : HeapProc T) (n : Nat) : Prop :=
  n + headSize < 2 ^ 64 ∧
    (∀ b ∈ (candidates s).find? (fun b => n + headSize ≤ b.2), FitOk n b) ∧
    ((candidates s).find? (fun b => n + headSize ≤ b.2) = none →
      ∃ b ∈ candidates s, GrowOk s n b)

instance FitOk.decidable (n : Nat) (b : Nat × Nat) : Decidable (FitOk n b) :=
  inferInstanceAs (Decidable (_ ∨ (_ ∧ _)))

instance GrowOk.decidable (s : HeapProc T) (n : Nat) (b : Nat × Nat) :
    Decidable (GrowOk s n b) :=
  inferInstanceAs (Decidable (_ ∧ _))

instance MallocOk.decidable (s : HeapProc T) (n : Nat) : Decidable (MallocOk s n) :=
  inferInstanceAs (Decidable (_ ∧ _ ∧ _))

/-! ## Serving one request -/

section

variable {s s' : HeapProc T} {pages free used : List Nat} {n p : Nat}

section

omit [RefTable T]

theorem findFit_blocks {need : Nat} {r : Option (Nat × Nat)} (h : s.Blocks pages free used)
    (hr : findFit s need loopBound s.firstFreeBlock 0 = .ok r) :
    (r = none ∧ ∀ b ∈ free, capacityOf s b < need) ∨
      ∃ before c rest, r = some (c, before.getLast?.getD 0) ∧ free = before ++ c :: rest ∧
        (∀ b ∈ before, capacityOf s b < need) ∧ need ≤ capacityOf s c :=
  findFit_spec loopBound free _ 0 r h.view (fun b hb => by simp [hb]) h.chain hr

theorem findFit_serving {need : Nat} {r : Option (Nat × Nat)} (h : s.Blocks pages free used)
    (hr : findFit s need loopBound s.firstFreeBlock 0 = .ok r) :
    (free.map (fun b => (b, capacityOf s b))).find? (fun b => need ≤ b.2)
      = r.map (fun x => (x.1, capacityOf s x.1)) := by
  rcases findFit_blocks h hr with ⟨rfl, hall⟩ | ⟨before, c, rest, rfl, rfl, hall, hc⟩
  · simp only [Option.map_none, find?_eq_none, mem_map, decide_eq_true_eq]
    rintro _ ⟨b, hb, rfl⟩
    exact not_le.mpr (hall b hb)
  · rw [Option.map_some, map_append, map_cons, find?_eq_some_iff_append]
    refine ⟨by simpa using hc, _, _, rfl, ?_⟩
    simp only [mem_map]
    rintro _ ⟨b, hb, rfl⟩
    simpa using hall b hb

theorem HeapProc.Blocks.length_le (h : s.Blocks pages free used) : free.length ≤ loopBound := by
  have hsub : free ⊆ range s.heapTop := by
    intro b hb
    have hup := (h.view.heads b (by simp [hb])).upper
    unfold headSize at hup
    exact mem_range.mpr (by omega)
  have hlen := (subperm_of_subset h.chain.nodup hsub).length_le
  have htop := h.mapped.top_le
  rw [length_range] at hlen
  unfold MAXVA at htop
  unfold loopBound
  omega

theorem HeapProc.Blocks.freeBlocks_eq (h : s.Blocks pages free used) :
    freeBlocks s = free := h.chain.walk_eq h.length_le

end

theorem tryAllocFreeBlock_candidates (h : s.Blocks pages free used)
    (ht : tryAllocFreeBlock s = .ok s') :
    ∃ pages' free', s'.Blocks pages' free' used ∧
      candidates s = free'.map (fun b => (b, capacityOf s' b)) ∧
      servedTop s = s'.heapTop ∧ ∀ u ∈ used, capacityOf s' u = capacityOf s u := by
  rcases tryAllocFreeBlock_blocks h ht with ⟨h0, rfl⟩ | ⟨h0, rfl, pages', hb, htop, hcap, hu⟩
  · refine ⟨pages, free, h, ?_, ?_, fun _ _ => rfl⟩
    · rw [candidates, if_neg h0, h.freeBlocks_eq]
    · rw [servedTop, if_neg h0]
  · refine ⟨pages', [s.heapTop], hb, ?_, ?_, hu⟩
    · rw [candidates, if_pos h0, map_singleton, hcap]
    · rw [servedTop, if_pos h0, htop]

/-- A block at `p - 16` of at least `n + 16` bytes joined the blocks in
use. -/
def Served (s s' : HeapProc T) (used : List Nat) (n p : Nat) : Prop :=
  ∃ pages free b, s'.Blocks pages free (b :: used) ∧ p = b + headSize ∧
    n + headSize ≤ capacityOf s' b ∧ ∀ u ∈ used, capacityOf s' u = capacityOf s u

omit [RefTable T] in
theorem takeFrom_blocks {before rest : List Nat} {c : Nat}
    (h : s.Blocks pages (before ++ c :: rest) used)
    (hfit : n + headSize ≤ capacityOf s c) (hok : FitOk n (c, capacityOf s c))
    (hm : takeFrom s (n + headSize) c (before.getLast?.getD 0) = .ok (p, s')) :
    p = c + headSize ∧
      ((capacityOf s c = n + headSize ∧ s'.Blocks pages (before ++ rest) (c :: used) ∧
          ∀ x ∈ (before ++ rest) ++ c :: used, capacityOf s' x = capacityOf s x) ∨
        (n + headSize ≤ alignUp (n + headSize) ∧
          alignUp (n + headSize) + headSize ≤ capacityOf s c ∧
          s'.Blocks pages (before ++ (c + alignUp (n + headSize)) :: rest) (c :: used) ∧
          capacityOf s' c = alignUp (n + headSize) ∧
          capacityOf s' (c + alignUp (n + headSize)) = capacityOf s c - alignUp (n + headSize) ∧
          ∀ x ∈ (before ++ rest) ++ used, capacityOf s' x = capacityOf s x)) := by
  have hend := h.layout.upper c (by simp)
  have htop := h.mapped.top_le
  have hp : u64 (c + headSize) = c + headSize := u64_of_lt (by unfold MAXVA at htop; omega)
  simp only [takeFrom, hp] at hm
  by_cases hexact : capacityOf s c = n + headSize
  · rw [if_pos hexact] at hm
    simp only [bind_eq_ok] at hm
    obtain ⟨t, hl, hm⟩ := hm
    cases hm
    exact ⟨rfl, .inl ⟨hexact, h.take hl⟩⟩
  · rw [if_neg hexact] at hm
    obtain ⟨hroom, hpage⟩ := hok.resolve_left hexact
    have hle : n + headSize ≤ alignUp (n + headSize) := by
      apply le_alignUp
      unfold MAXVA headSize at *
      omega
    have hva : u64 (c + alignUp (n + headSize)) = c + alignUp (n + headSize) :=
      u64_of_lt (by unfold MAXVA at htop; omega)
    have hrest : u64 (capacityOf s c + (2 ^ 64 - alignUp (n + headSize)))
        = capacityOf s c - alignUp (n + headSize) := by
      unfold u64 MAXVA at *
      omega
    rw [hva, hrest] at hm
    simp only [bind_eq_ok] at hm
    obtain ⟨s1, h1, s2, h2, s3, h3, s4, h4, hm⟩ := hm
    cases hm
    exact ⟨rfl, .inr ⟨hle, hroom, h.split (by unfold headSize at *; omega) hroom hpage h1 h2 h3 h4⟩⟩

omit [RefTable T] in
theorem served_of_take {before rest : List Nat} {c : Nat}
    (h : s.Blocks pages (before ++ c :: rest) used)
    (hfit : n + headSize ≤ capacityOf s c) (hok : FitOk n (c, capacityOf s c))
    (hm : takeFrom s (n + headSize) c (before.getLast?.getD 0) = .ok (p, s')) :
    Served s s' used n p := by
  obtain ⟨rfl, ⟨hexact, hb, hkeep⟩ | ⟨hle, hroom, hb, hcap, -, hkeep⟩⟩ :=
    takeFrom_blocks h hfit hok hm
  · refine ⟨pages, _, c, hb, rfl, ?_, fun u hu => hkeep u (by simp [hu])⟩
    rwa [hkeep c (by simp)]
  · exact ⟨pages, _, c, hb, rfl, by omega, fun u hu => hkeep u (mem_append_right _ hu)⟩

omit [RefTable T] in
theorem findHighest_blocks {b va q : Nat} (h : s.Blocks pages free used) (hb : b ∈ free)
    (hend : b + capacityOf s b = s.heapTop)
    (hr : findHighest s loopBound s.firstFreeBlock 0 0 0 = .ok (va, q)) :
    ∃ before rest, free = before ++ b :: rest ∧ va = b ∧ q = before.getLast?.getD 0 := by
  obtain ⟨hall, -, hres⟩ := findHighest_spec loopBound free _ 0 0 0 va q h.view
    (fun c hc => by simp [hc]) h.chain hr
  have hva : va ∈ free := by
    rcases hres with ⟨rfl, -⟩ | ⟨before, rest, hl, -⟩
    · have h0 := hall b hb
      have hlo := h.layout.lower b (by simp [hb])
      unfold USER_FREE_ADDRESS_START PGSIZE at hlo
      omega
    · simp [hl]
  have heq : va = b := by
    by_contra hne
    have hap := h.layout.apart_of_ne (mem_append_left used hva) (mem_append_left used hb) hne
    have hle := hall b hb
    have hup := h.layout.upper va (by simp [hva])
    have hpos := h.layout.pos va (by simp [hva])
    unfold Apart at hap
    omega
  rcases hres with ⟨h0, -⟩ | ⟨before, rest, hl, hq⟩
  · have hlo := h.layout.lower va (by simp [hva])
    unfold USER_FREE_ADDRESS_START PGSIZE at hlo
    omega
  · exact ⟨before, rest, heq ▸ hl, heq, hq⟩

theorem growHeap_page {fuel r lastVa need : Nat} (hr : r ≤ PGSIZE)
    (hg : growHeap (fuel + 1) s r = .ok (lastVa, need, s')) :
    need = r ∧ addHeapPage s = .ok (lastVa, s') := by
  simp only [growHeap, bind_eq_ok] at hg
  obtain ⟨⟨va, t⟩, ha, hg⟩ := hg
  have hr' : ¬ PGSIZE < r := by omega
  simp only [if_neg hr'] at hg
  cases hg
  exact ⟨rfl, ha⟩

theorem served_of_grow {before rest : List Nat} {c : Nat}
    (h : s.Blocks pages (before ++ c :: rest) used) (hn : n + headSize < 2 ^ 64)
    (hlt : capacityOf s c < n + headSize) (hend : c + capacityOf s c = s.heapTop)
    (hroom : alignUp (n + headSize - capacityOf s c) + headSize ≤ PGSIZE)
    (hm : growBlock s (n + headSize) c (before.getLast?.getD 0) = .ok (p, s')) :
    Served s s' used n p := by
  have hhead := h.view.heads c (by simp)
  have htop := h.mapped.top_le
  have hup := hhead.upper
  generalize hr : n + headSize - capacityOf s c = r at hroom
  have hle : r ≤ alignUp r := by
    apply le_alignUp
    unfold headSize at *
    omega
  have hp : u64 (c + headSize) = c + headSize := u64_of_lt (by unfold MAXVA at htop; omega)
  have hmiss : u64 (n + headSize + (2 ^ 64 - capacityOf s c)) = r := by
    have hcap : capacityOf s c < 2 ^ 64 := readLE_lt_u64 _ _
    unfold u64
    omega
  simp only [growBlock, headAt_eq h.mapped hhead, ok_bind, hp, hmiss, bind_eq_ok] at hm
  obtain ⟨s1, h1, s2, h2, ⟨lastVa, need, s3⟩, hg, hm⟩ := hm
  obtain ⟨rfl, ha⟩ := growHeap_page (by unfold headSize at *; omega) hg
  simp only [if_pos (show need ≠ 0 by omega), bind_eq_ok] at hm
  obtain ⟨s4, h4, s5, h5, s6, h6, hm⟩ := hm
  cases hm
  have hsum : n + headSize = capacityOf s c + need := by omega
  have hrest : u64 (PGSIZE + (2 ^ 64 - alignUp need)) = PGSIZE - alignUp need := by
    unfold u64 PGSIZE at *
    omega
  rw [hsum] at h2
  rw [hrest] at h4
  obtain ⟨pages', hb, hcap, hkeep⟩ := h.grow hend hroom hle h1 h2 ha rfl h4 h5 h6
  exact ⟨pages', _, c, hb, rfl, by omega, hkeep⟩

theorem vmMalloc_served (h : s.Blocks pages free used) (hok : MallocOk s n)
    (hm : vmMalloc s n = .ok (p, s')) : Served s s' used n p := by
  obtain ⟨hn, hfit, hgrow⟩ := hok
  simp only [vmMalloc, bind_eq_ok] at hm
  obtain ⟨s1, ht, hm⟩ := hm
  obtain ⟨pages1, free1, hb, hcand, htop, hkeep⟩ := tryAllocFreeBlock_candidates h ht
  rw [hcand] at hfit hgrow
  -- it is enough to serve it from the state after `try_alloc_free_block`
  suffices hs : Served s1 s' used n p by
    obtain ⟨pages', free', b, hb', hp, hcap, hkeep'⟩ := hs
    exact ⟨pages', free', b, hb', hp, hcap, fun u hu => (hkeep' u hu).trans (hkeep u hu)⟩
  simp only [allocFromFreeBlock, u64_of_lt hn, bind_eq_ok] at hm
  obtain ⟨r, hr, hm⟩ := hm
  have hserve := findFit_serving hb hr
  rcases findFit_blocks hb hr with ⟨rfl, hall⟩ | ⟨before, c, rest, rfl, rfl, -, hc⟩
  · obtain ⟨_, hmem, hend, hroom⟩ := hgrow hserve
    obtain ⟨b, hbm, rfl⟩ := mem_map.mp hmem
    simp only [allocFromNewBlock, u64_of_lt hn, bind_eq_ok] at hm
    obtain ⟨⟨va, q⟩, hh, hm⟩ := hm
    obtain ⟨before, rest, rfl, rfl, rfl⟩ := findHighest_blocks hb hbm (hend.trans htop) hh
    exact served_of_grow hb hn (hall va hbm) (hend.trans htop) hroom hm
  · exact served_of_take hb hc (hfit _ hserve) hm

end

/-! ## Runs -/

/-- A process with its live allocations: pointer and size asked for. -/
structure HeapState (T : Type) where
  proc : HeapProc T
  live : List (Nat × Nat)

inductive HeapOp
  | malloc (n : Nat)
  | free (p : Nat)
  deriving DecidableEq, Repr

def HeapState.step (s : HeapState T) : HeapOp → Outcome (HeapState T)
  | .malloc n => do
      let (p, proc) ← vmMalloc s.proc n
      return ⟨proc, (p, n) :: s.live⟩
  | .free p => do
      let proc ← vmFree s.proc p
      return ⟨proc, s.live.eraseP (fun x => x.1 = p)⟩

def HeapState.Allowed (s : HeapState T) : HeapOp → Prop
  | .malloc n => n < 2 ^ 64
  | .free p => p ∈ s.live.map Prod.fst

instance HeapState.decidableAllowed (s : HeapState T) (op : HeapOp) :
    Decidable (s.Allowed op) :=
  match op with
  | .malloc n => inferInstanceAs (Decidable (n < 2 ^ 64))
  | .free p => inferInstanceAs (Decidable (p ∈ s.live.map Prod.fst))

def HeapState.ServeOk (s : HeapState T) : HeapOp → Prop
  | .malloc n => MallocOk s.proc n
  | .free _ => True

instance HeapState.decidableServeOk (s : HeapState T) (op : HeapOp) :
    Decidable (s.ServeOk op) :=
  match op with
  | .malloc n => inferInstanceAs (Decidable (MallocOk s.proc n))
  | .free _ => isTrue trivial

def NoOverlap (a n b m : Nat) : Prop := ∀ x, a ≤ x → x < a + n → b ≤ x → x < b + m → False

/-- Live allocations are disjoint from each other, from the heads of live
blocks and from the blocks on the free list. -/
structure HeapState.DisjointMemory (s : HeapState T) : Prop where
  live : s.live.Pairwise (fun x y => NoOverlap x.1 x.2 y.1 y.2)
  heads : ∀ x ∈ s.live, ∀ y ∈ s.live, NoOverlap x.1 x.2 (y.1 - headSize) headSize
  free : ∀ x ∈ s.live, ∀ b,
    Linked (links (nextOf s.proc)) (toPtr s.proc.firstFreeBlock) b →
      NoOverlap x.1 x.2 b (capacityOf s.proc b)

structure HeapState.Inv (s : HeapState T) : Prop where
  blocks : ∃ pages free, s.proc.Blocks pages free (s.live.map (fun x => x.1 - headSize))
  above : ∀ x ∈ s.live, headSize ≤ x.1
  fits : ∀ x ∈ s.live, x.2 + headSize ≤ capacityOf s.proc (x.1 - headSize)

section

variable {s s' : HeapState T}

omit [RefTable T] in
theorem HeapState.Inv.disjoint (h : s.Inv) : s.DisjointMemory := by
  obtain ⟨pages, free, hb⟩ := h.blocks
  have hinside : ∀ x ∈ s.live, headSize ≤ x.1 ∧
      x.2 + headSize ≤ capacityOf s.proc (x.1 - headSize) :=
    fun x hx => ⟨h.above x hx, h.fits x hx⟩
  have hpair : s.live.Pairwise
      (fun x y => Apart (capacityOf s.proc) (x.1 - headSize) (y.1 - headSize)) :=
    pairwise_map.mp (pairwise_append.mp hb.layout.apart).2.1
  constructor
  · refine hpair.imp_of_mem ?_
    intro x y hx hy hap
    have hix := hinside x hx
    have hiy := hinside y hy
    unfold Apart at hap
    intro a h1 h2 h3 h4
    omega
  · intro x hx y hy a h1 h2 h3 h4
    have hix := hinside x hx
    by_cases hxy : x.1 - headSize = y.1 - headSize
    · omega
    · have hap := hb.layout.apart_of_ne (mem_append_right free (mem_map_of_mem hx))
        (mem_append_right free (mem_map_of_mem hy)) hxy
      unfold Apart at hap
      omega
  · intro x hx b hl
    have hbf : b ∈ free := (hb.chain.linked_iff).mp hl
    have hap := (pairwise_append.mp hb.layout.apart).2.2 b hbf (x.1 - headSize) (mem_map_of_mem hx)
    have hix := hinside x hx
    unfold Apart at hap
    intro a h1 h2 h3 h4
    omega

theorem HeapState.Inv.malloc {n : Nat} (h : s.Inv) (hok : MallocOk s.proc n)
    (hs : s.step (.malloc n) = .ok s') : s'.Inv := by
  obtain ⟨pages, free, hb⟩ := h.blocks
  simp only [step, bind_eq_ok] at hs
  obtain ⟨⟨p, proc⟩, hm, ⟨⟩⟩ := hs
  obtain ⟨pages', free', b, hb', rfl, hcap, hkeep⟩ := vmMalloc_served hb hok hm
  refine ⟨⟨pages', free', ?_⟩, ?_, ?_⟩
  · simpa using hb'
  · intro x hx
    rcases mem_cons.mp hx with rfl | hx
    · exact Nat.le_add_left _ _
    · exact h.above x hx
  · intro x hx
    rcases mem_cons.mp hx with rfl | hx
    · simpa using hcap
    · have hold := h.fits x hx
      have hsame := hkeep _ (mem_map_of_mem hx)
      dsimp only
      omega

omit [RefTable T] in
theorem exists_freed {p : Nat} (hal : s.Allowed (.free p)) :
    ∃ x live, s.live.Perm (x :: live) ∧ x.1 = p ∧ s.live.eraseP (fun x => x.1 = p) = live := by
  obtain ⟨y, hy, hyp⟩ := mem_map.mp hal
  obtain ⟨x, l1, l2, -, hx, heq, herase⟩ := exists_of_eraseP hy (p := fun x => x.1 = p)
    (by simpa using hyp)
  refine ⟨x, l1 ++ l2, ?_, by simpa using hx, herase⟩
  rw [heq]
  exact perm_middle

theorem HeapState.Inv.free {p : Nat} (h : s.Inv) (hal : s.Allowed (.free p))
    (hs : s.step (.free p) = .ok s') : s'.Inv := by
  obtain ⟨pages, free, hb⟩ := h.blocks
  simp only [step, bind_eq_ok] at hs
  obtain ⟨proc, hf, hs⟩ := hs
  cases hs
  obtain ⟨x, live, hperm, hxp, herase⟩ := exists_freed hal
  have hsub : ∀ z ∈ live, z ∈ s.live := fun z hz => hperm.mem_iff.mpr (mem_cons_of_mem x hz)
  have hxa := h.above x (hperm.mem_iff.mpr mem_cons_self)
  have hb' : s.proc.Blocks pages free
      ((x.1 - headSize) :: live.map (fun x => x.1 - headSize)) := hb.permUsed (hperm.map _)
  obtain ⟨s1, e1, hb2, -, -, hkeep, -⟩ := vmFree_spec hb'
  have hf' : vmFree s.proc (x.1 - headSize + headSize) = .ok proc := by
    rw [Nat.sub_add_cancel hxa, hxp]
    exact hf
  cases e1.symm.trans hf'
  rw [herase]
  refine ⟨⟨pages, _, hb2⟩, fun z hz => h.above z (hsub z hz), ?_⟩
  intro z hz
  rw [hkeep _ (mem_append_right _ (mem_map_of_mem hz))]
  exact h.fits z (hsub z hz)

theorem HeapState.Inv.step {op : HeapOp} (h : s.Inv) (hok : s.Allowed op ∧ s.ServeOk op)
    (hs : s.step op = .ok s') : s'.Inv := by
  cases op with
  | malloc n => exact h.malloc hok.2 hs
  | free p => exact h.free hok.1 hs

/-- A process whose heap is empty, over a page allocator that lists its
free pages. -/
structure HeapProc.EmptyHeap (s : HeapProc T) : Prop where
  listed : ∃ pages, s.pmm.Listed pages
  top : s.heapTop = USER_FREE_ADDRESS_START
  first : s.firstFreeBlock = 0

omit [RefTable T] in
theorem HeapProc.EmptyHeap.inv {proc : HeapProc T} (h : proc.EmptyHeap) :
    HeapState.Inv ⟨proc, []⟩ := by
  obtain ⟨pages, hl⟩ := h.listed
  have hnone : ∀ vpn, ¬ proc.InHeap vpn := by
    intro vpn hv
    unfold HeapProc.InHeap at hv
    rw [h.top] at hv
    omega
  refine ⟨⟨pages, [], ⟨hl, ?_, ?_, ?_, ?_, ?_⟩, ?_, ?_, ?_, Layout.nil⟩, ?_, ?_⟩
  · rw [h.top]
    decide
  · exact Nat.le_of_eq h.top.symm
  · rw [h.top]
    decide
  · exact fun vpn hv => absurd hv (hnone vpn)
  · exact fun vpn _ hv => absurd hv (hnone vpn)
  · exact toPtr_eq_none.mpr h.first
  · simp
  · simp
  · simp
  · simp

/-- The states of the runs from `proc` whose calls are allowed and meet
`ok` besides. -/
def HeapState.Run (ok : HeapState T → HeapOp → Prop) (proc : HeapProc T) (s : HeapState T) :
    Prop :=
  Reaches HeapState.step (fun s op => s.Allowed op ∧ ok s op) ⟨proc, []⟩ s

/-- Starting with an empty heap, live memory is disjoint in every run whose
requests all meet `MallocOk`. -/
theorem malloc_disjoint {proc : HeapProc RefList} (h0 : proc.EmptyHeap)
    {s : HeapState RefList} (h : HeapState.Run HeapState.ServeOk proc s) :
    s.DisjointMemory :=
  (Reaches.invariant HeapState.Inv h0.inv (fun _ _ _ hi hok hs => hi.step hok hs) h).disjoint

end

def freshHeap (pmm : Pmm RefList) : HeapProc RefList :=
  { pmm := pmm, pagetable := PageTable.empty DRAM_BASE,
    heapTop := USER_FREE_ADDRESS_START, npages := 0, firstFreeBlock := 0 }

/-- In a fresh process on a machine with 20 pages `ops` lead to a state of which `P` holds. -/
abbrev HeapRun (ok : HeapState RefList → HeapOp → Prop) (ops : List HeapOp)
    (P : HeapState RefList → Prop) : Prop :=
  ∃ pmm, pmmInit (KERN_BASE + PGSIZE) (20 * PGSIZE) (fun _ => 0) ([] : RefList) = .ok pmm ∧
    ∃ s, Runs HeapState.step (fun s op => s.Allowed op ∧ ok s op) ⟨freshHeap pmm, []⟩ ops s ∧ P s

theorem HeapRun.run {ok : HeapState RefList → HeapOp → Prop} {ops : List HeapOp}
    {P : HeapState RefList → Prop} (h : HeapRun ok ops P) :
    ∃ proc, proc.EmptyHeap ∧ ∃ s, HeapState.Run ok proc s ∧ P s := by
  obtain ⟨pmm, hinit, s, hrun, hp⟩ := h
  exact ⟨freshHeap pmm, ⟨pmmInit_listed hinit, rfl, rfl⟩, s, hrun.reaches .start, hp⟩

/-- A run with a split, a free, an exact fit and a growth. -/
theorem malloc_disjoint_grown : ∃ (proc : HeapProc RefList) (s : HeapState RefList),
    proc.EmptyHeap ∧ HeapState.Run HeapState.ServeOk proc s ∧
      s.live = [(USER_FREE_ADDRESS_START + 208, 5000), (USER_FREE_ADDRESS_START + 16, 104),
        (USER_FREE_ADDRESS_START + 136, 50)] ∧ s.DisjointMemory := by
  have hrun : HeapRun HeapState.ServeOk
      [.malloc 100, .malloc 50, .free (USER_FREE_ADDRESS_START + 16), .malloc 104, .malloc 5000]
      (fun s => s.live = [(USER_FREE_ADDRESS_START + 208, 5000),
        (USER_FREE_ADDRESS_START + 16, 104), (USER_FREE_ADDRESS_START + 136, 50)]) := by
    decide +kernel
  obtain ⟨proc, h0, s, hreach, hlive⟩ := hrun.run
  exact ⟨proc, s, h0, hreach, hlive, malloc_disjoint h0 hreach⟩

/-- With the first of two page-sized blocks freed, a larger request grows
that block over the second one, although it does not end at `heap_top`. -/
theorem malloc_overlap : ¬ ∀ proc : HeapProc RefList, proc.EmptyHeap →
    ∀ s, HeapState.Run (fun _ _ => True) proc s → s.DisjointMemory := by
  intro hclaim
  have hrun : HeapRun (fun _ _ => True)
      [.malloc 4080, .malloc 4080, .free (USER_FREE_ADDRESS_START + 16), .malloc 5000]
      (fun s => s.live = [(USER_FREE_ADDRESS_START + 16, 5000),
        (USER_FREE_ADDRESS_START + 4112, 4080)]) := by decide +kernel
  obtain ⟨proc, h0, s, hreach, ht⟩ := hrun.run
  have hlive := (hclaim proc h0 s hreach).live
  rw [ht, pairwise_cons] at hlive
  refine hlive.1 _ (mem_singleton.mpr rfl) (USER_FREE_ADDRESS_START + 4112) ?_ ?_ ?_ ?_
  all_goals decide

end CabbagePKE
