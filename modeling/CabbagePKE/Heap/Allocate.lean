import CabbagePKE.Heap.Blocks

/-!
# What `vm_malloc` and `vm_free` do to the blocks

One lemma for each way to serve a request: a free block taken whole, a
free block split, the highest block grown by a page; and one for handing
a block back. Each keeps `Blocks`.
-/

namespace CabbagePKE

open Lib Function List

variable {T : Type} {s s' : HeapProc T} {pages before rest free used : List Nat} {b c : Nat}

theorem blocks_perm (before rest used : List Nat) (c : Nat) :
    ((before ++ c :: rest) ++ used).Perm (c :: ((before ++ rest) ++ used)) :=
  perm_middle.append_right used

theorem HeapProc.Blocks.take (h : s.Blocks pages (before ++ c :: rest) used)
    (hl : linkAfter s (before.getLast?.getD 0) (nextOf s c) = .ok s') :
    s'.Blocks pages (before ++ rest) (c :: used) ∧
      ∀ x ∈ (before ++ rest) ++ c :: used, capacityOf s' x = capacityOf s x := by
  have hrest := h.chain.suffix.2
  have hnd := h.chain.nodup
  have hdis : ∀ x ∈ before, x ∉ rest := by
    intro x hx hx'
    exact disjoint_of_nodup_append hnd hx (by simp [hx'])
  have hsub : ∀ x ∈ (before ++ rest) ++ c :: used, x ∈ (before ++ c :: rest) ++ used := by
    intro x hx
    simp only [mem_append, mem_cons] at hx ⊢
    tauto
  have hlt : nextOf s c < 2 ^ 64 := readLE_lt_u64 _ _
  obtain ⟨s1, next', heq, hv, htop, hc⟩ := h.view.linkAfter_ok h.chain (by simp_all) hlt hrest hdis
  cases heq.symm.trans hl
  refine ⟨hv.blocks hc hsub (fun x hx => h.size x (hsub x hx)) ?_, ?_⟩
  · rw [htop]
    exact h.layout.perm ((blocks_perm before rest used c).trans perm_middle.symm)
  · intro x hx
    exact hv.cap_eq x (hsub x hx)

theorem le_alignUp {need : Nat} (h : need + 8 < 2 ^ 64) : need ≤ alignUp need := by
  unfold alignUp u64
  split
  · rw [Nat.mod_eq_of_lt (by omega)]
    omega
  · exact le_rfl

theorem HeapView.addRest {t2 t3 : HeapProc T} {cap next size : Nat → Nat} {rest' : List Nat}
    {va nval : Nat}
    (h : HeapView s pages (va :: ((before ++ c :: rest) ++ used)) cap next)
    (hchain : Chain (links next) (toPtr s.firstFreeBlock) (before ++ c :: rest'))
    (hva' : va ∉ rest') (hrest : Chain (links next) (toPtr nval) rest) (hnval : nval < 2 ^ 64)
    (hva : va < 2 ^ 64)
    (hlay : Layout size USER_FREE_ADDRESS_START s.heapTop (c :: va :: ((before ++ rest) ++ used)))
    (hsize : ∀ x ∈ c :: va :: ((before ++ rest) ++ used), headSize ≤ size x)
    (hcap : ∀ x ∈ c :: ((before ++ rest) ++ used), cap x = size x)
    (h₂ : setCapacity s va (size va) = .ok t2) (h3 : setNext t2 va nval = .ok t3)
    (h4 : linkAfter t3 (before.getLast?.getD 0) va = .ok s') :
    s'.Blocks pages (before ++ va :: rest) (c :: used) ∧
      ∀ x ∈ (before ++ va :: rest) ++ c :: used, capacityOf s' x = size x := by
  have hperm : (c :: va :: ((before ++ rest) ++ used)).Perm
      ((before ++ va :: rest) ++ c :: used) := by
    refine List.Perm.trans ?_ perm_middle.symm
    exact List.Perm.cons c (blocks_perm before rest used va).symm
  have hnd := hlay.nodup
  have hvan : va ∉ (before ++ rest) ++ used := (nodup_cons.mp (nodup_cons.mp hnd).2).1
  have hvac : va ≠ c := by
    rintro rfl
    simp at hnd
  have hsub : ∀ x ∈ (before ++ va :: rest) ++ c :: used,
      x ∈ va :: ((before ++ c :: rest) ++ used) := by
    intro x hx
    simp only [mem_append, mem_cons] at hx ⊢
    tauto
  have hsz : size va < 2 ^ 64 := by
    have h1 := hlay.upper va (by simp)
    have h2 := h.mapped.top_le
    unfold MAXVA at h2
    omega
  obtain ⟨t, e2, hv2, ht2, hf2⟩ := h.setCapacity_ok (b := va) (by simp) hsz
  cases e2.symm.trans h₂
  obtain ⟨t, e3, hv3, ht3, hf3⟩ := hv2.setNext_ok (b := va) (by simp) hnval
  cases e3.symm.trans h3
  -- the link of `va` is new, all others are kept
  have hkeep : ∀ x, x ≠ va → links (update next va nval) x = links next x := by
    intro x hx
    rw [links, update_of_ne hx, links]
  have hbefore : ∀ x ∈ before, x ≠ va := by
    rintro x hx rfl
    exact hvan (by simp [hx])
  have hrestne : ∀ x ∈ rest, x ≠ va := by
    rintro x hx rfl
    exact hvan (by simp [hx])
  have hchain' : Chain (links (update next va nval)) (toPtr t3.firstFreeBlock)
      (before ++ c :: rest') := by
    rw [hf3, hf2]
    refine hchain.congr ?_
    intro x hx
    apply hkeep
    rintro rfl
    rcases mem_append.mp hx with hx | hx
    · exact hbefore x hx rfl
    rcases mem_cons.mp hx with hx | hx
    · exact hvac hx
    · exact hva' hx
  have hnew : Chain (links (update next va nval)) (toPtr va) (va :: rest) := by
    refine ⟨toPtr_eq_some.mpr ⟨rfl, h.ne_zero (by simp)⟩, ?_⟩
    rw [links, update_self]
    exact hrest.congr (fun x hx => hkeep x (hrestne x hx))
  have hdis : ∀ x ∈ before, x ∉ va :: rest := by
    intro x hx hx'
    rcases mem_cons.mp hx' with heq | hx'
    · exact hbefore x hx heq
    · have hnd' := (nodup_cons.mp (nodup_cons.mp hnd).2).2
      exact disjoint_of_nodup_append (nodup_append.mp hnd').1 hx hx'
  obtain ⟨t, next', e4, hv4, ht4, hc4⟩ := hv3.linkAfter_ok hchain'
    (fun x hx => by simp [hx]) hva hnew hdis
  cases e4.symm.trans h4
  have hcap' : ∀ x ∈ (before ++ va :: rest) ++ c :: used, update cap va (size va) x = size x := by
    intro x hx
    by_cases hxv : x = va
    · rw [hxv, update_self]
    · rw [update_of_ne hxv]
      have hx' := hperm.mem_iff.mpr hx
      exact hcap x (by simpa [hxv] using hx')
  constructor
  · refine hv4.blocks hc4 hsub ?_ ?_
    · intro x hx
      rw [hcap' x hx]
      exact hsize x (hperm.mem_iff.mpr hx)
    · rw [ht4, ht3, ht2]
      exact (hlay.perm hperm).congr hcap' le_rfl
  · intro x hx
    rw [hv4.cap_eq x (hsub x hx), hcap' x hx]

theorem exists_cut {size : Nat → Nat} {lo hi : Nat} {others : List Nat} (va need k : Nat)
    (h : Layout size lo hi (c :: others)) (hsize : ∀ x ∈ others, headSize ≤ size x)
    (hneed : headSize ≤ need) (hk : headSize ≤ k) (hcut : c + need ≤ va)
    (hend : va + k ≤ c + size c) :
    ∃ size' : Nat → Nat, size' c = need ∧ size' va = k ∧ (∀ x ∈ others, size' x = size x) ∧
      Layout size' lo hi (c :: va :: others) ∧
      (∀ x ∈ c :: va :: others, headSize ≤ size' x) ∧
      va ∉ c :: others ∧ ∀ x ∈ c :: others, HeadsApart va x := by
  have hhead : 0 < headSize := by decide
  have hc : c ∉ others := (nodup_cons.mp h.nodup).1
  have hva : va ∉ others := h.not_mem_of_inside (by omega) (by omega)
  have hne : c ≠ va := by omega
  refine ⟨update (update size c need) va k, ?_⟩
  generalize hs : update (update size c need) va k = size'
  have hsc : size' c = need := by rw [← hs, update_of_ne hne, update_self]
  have hsv : size' va = k := by rw [← hs, update_self]
  have hso : ∀ x ∈ others, size' x = size x := by
    intro x hx
    have h1 : x ≠ c := fun heq => hc (heq ▸ hx)
    have h2 : x ≠ va := fun heq => hva (heq ▸ hx)
    rw [← hs, update_of_ne h2, update_of_ne h1]
  have hlay := h.split va hso (by omega) (by omega) (by omega) (by omega)
  have hsize' : ∀ x ∈ c :: va :: others, headSize ≤ size' x := by
    intro x hx
    rcases mem_cons.mp hx with rfl | hx
    · omega
    rcases mem_cons.mp hx with rfl | hx
    · omega
    · rw [hso x hx]
      exact hsize x hx
  have hnew : va ∉ c :: others := by simpa [hva] using Ne.symm hne
  refine ⟨hsc, hsv, hso, hlay, hsize', hnew, ?_⟩
  intro x hx
  apply headsApart_of_layout hlay hsize' va (by simp) x
  · rcases mem_cons.mp hx with rfl | hx
    · simp
    · simp [hx]
  · exact fun heq => hnew (heq ▸ hx)

theorem HeapProc.Blocks.split {need : Nat} {s1 s2 s3 : HeapProc T}
    (h : s.Blocks pages (before ++ c :: rest) used) (hneed : headSize ≤ need)
    (hfit : need + headSize ≤ capacityOf s c)
    (hpage : (c + need) % PGSIZE + headSize ≤ PGSIZE)
    (h1 : setCapacity s c need = .ok s1)
    (h2 : setCapacity s1 (c + need) (capacityOf s c - need) = .ok s2)
    (h3 : setNext s2 (c + need) (nextOf s2 c) = .ok s3)
    (h4 : linkAfter s3 (before.getLast?.getD 0) (c + need) = .ok s') :
    s'.Blocks pages (before ++ (c + need) :: rest) (c :: used) ∧
      capacityOf s' c = need ∧ capacityOf s' (c + need) = capacityOf s c - need ∧
      ∀ x ∈ (before ++ rest) ++ used, capacityOf s' x = capacityOf s x := by
  have hperm := blocks_perm before rest used c
  have hlay := h.layout.perm hperm
  have hlo := hlay.lower c (by simp)
  have hup := hlay.upper c (by simp)
  have hcap64 : capacityOf s c < 2 ^ 64 := readLE_lt_u64 _ _
  have hva : c + need < 2 ^ 64 := by
    have htop := h.mapped.top_le
    unfold MAXVA at htop
    omega
  obtain ⟨size, hsc, hsn, hso, hlay', hsize, hnew, hap⟩ :=
    exists_cut (c + need) need (capacityOf s c - need) hlay
      (fun x hx => h.size x (hperm.mem_iff.mpr (mem_cons_of_mem c hx))) hneed
      (by omega) (Nat.le_refl (c + need)) (by omega)
  have hv := h.view.cons (b := c + need) ⟨by omega, by omega, hpage⟩
    (fun hx => hnew (hperm.mem_iff.mp hx)) (fun x hx => hap x (hperm.mem_iff.mp hx))
  simp only [update_eq_self] at hv
  obtain ⟨t, e1, hv1, ht1, hf1⟩ := hv.setCapacity_ok (b := c) (by simp) (v := need) (by omega)
  cases e1.symm.trans h1
  obtain ⟨t, e2, hv2, -⟩ := hv1.setCapacity_ok (b := c + need) (by simp)
    (v := capacityOf s c - need) (by omega)
  have hnext : nextOf s2 c = nextOf s c := by
    cases e2.symm.trans h2
    rw [hv2.next_eq c (by simp)]
  have hcap : ∀ x ∈ c :: ((before ++ rest) ++ used), update (capacityOf s) c need x = size x := by
    intro x hx
    by_cases hxc : x = c
    · rw [hxc, update_self, hsc]
    · rw [update_of_ne hxc, hso x (by simpa [hxc] using hx)]
  rw [hnext] at h3
  rw [← hsn] at h2
  obtain ⟨hb, hkeep⟩ := hv1.addRest (hf1 ▸ h.chain) (fun hx => hnew (by simp [hx]))
    h.chain.suffix.2 (readLE_lt_u64 _ _) hva (ht1 ▸ hlay') hsize hcap h2 h3 h4
  refine ⟨hb, (hkeep c (by simp)).trans hsc, (hkeep (c + need) (by simp)).trans hsn, ?_⟩
  intro x hx
  refine (hkeep x ?_).trans (hso x hx)
  simp only [mem_append, mem_cons] at hx ⊢
  tauto

theorem HeapProc.Blocks.grow [RefTable T] {r va lastVa : Nat} {s1 s2 s3 s4 s5 : HeapProc T}
    (h : s.Blocks pages (before ++ c :: rest) used)
    (hend : c + capacityOf s c = s.heapTop) (hr : alignUp r + headSize ≤ PGSIZE)
    (hle : r ≤ alignUp r)
    (h1 : setNext s c 0 = .ok s1)
    (h2 : setCapacity s1 c (capacityOf s c + r) = .ok s2)
    (ha : addHeapPage s2 = .ok (lastVa, s3)) (hva : va = u64 (lastVa + alignUp r))
    (h4 : setCapacity s3 va (PGSIZE - alignUp r) = .ok s4)
    (h5 : setNext s4 va (nextOf s c) = .ok s5)
    (h6 : linkAfter s5 (before.getLast?.getD 0) va = .ok s') :
    ∃ pages', s'.Blocks pages' (before ++ va :: rest) (c :: used) ∧
      capacityOf s' c = capacityOf s c + r ∧
      ∀ u ∈ used, capacityOf s' u = capacityOf s u := by
  have hperm := blocks_perm before rest used c
  have hlay := h.layout.perm hperm
  have hlo := hlay.lower c (by simp)
  have hcL : c ∈ (before ++ c :: rest) ++ used := by simp
  have htop := h.mapped.top_le
  obtain ⟨t, e1, hv1, ht1, hf1⟩ := h.view.setNext_ok hcL (v := 0) (by decide)
  cases e1.symm.trans h1
  have hcap64 : capacityOf s c + r < 2 ^ 64 := by
    unfold MAXVA at htop
    unfold PGSIZE at hr
    omega
  obtain ⟨t, e2, hv2, ht2, hf2⟩ := hv1.setCapacity_ok hcL hcap64
  cases e2.symm.trans h2
  obtain ⟨pages', hlast, ht3, hf3, hv3⟩ := hv2.grow ha
  rw [u64_of_lt (by unfold MAXVA PGSIZE at *; omega)] at hva
  -- first the block takes in the whole page, then it is cut
  have hother : ∀ x ∈ (before ++ rest) ++ used,
      update (capacityOf s) c (capacityOf s c + PGSIZE) x = capacityOf s x := by
    intro x hx
    have hxc : x ≠ c := fun heq => (nodup_cons.mp hlay.nodup).1 (heq ▸ hx)
    rw [update_of_ne hxc]
  have hext := hlay.extend (update (capacityOf s) c (capacityOf s c + PGSIZE))
    (s.heapTop + PGSIZE) hend (by omega) hother (by rw [update_self]; omega)
  have hsize0 := h.size c hcL
  obtain ⟨size, hsc, hsn, hso, hlay', hsize, hnew, hap⟩ :=
    exists_cut va (capacityOf s c + r) (PGSIZE - alignUp r) hext (by
      intro x hx
      rw [hother x hx]
      exact h.size x (hperm.mem_iff.mpr (mem_cons_of_mem c hx)))
    (by omega) (by omega) (by omega) (by rw [update_self]; omega)
  have hhead : s3.HeadAt va := by
    have hmod := h.mapped.top_mod
    refine ⟨by omega, by omega, ?_⟩
    rw [hva, hlast, ht2, ht1]
    unfold PGSIZE headSize at *
    omega
  have hv := hv3.cons hhead (fun hx => hnew (hperm.mem_iff.mp hx))
    (fun x hx => hap x (hperm.mem_iff.mp hx))
  have hnd := hlay.nodup
  have hne : ∀ x ∈ (before ++ rest) ++ used, x ≠ c ∧ x ≠ va := by
    intro x hx
    constructor
    · exact fun heq => (nodup_cons.mp hnd).1 (heq ▸ hx)
    · exact fun heq => hnew (heq ▸ mem_cons_of_mem c hx)
  have hcva : c ≠ va := fun heq => hnew (heq ▸ mem_cons_self)
  have hlinks : ∀ x ∈ (before ++ rest) ++ used,
      links (update (update (nextOf s) c 0) va (nextOf s3 va)) x = links (nextOf s) x := by
    intro x hx
    rw [links, update_of_ne (hne x hx).2, update_of_ne (hne x hx).1, links]
  have hchain : Chain (links (update (update (nextOf s) c 0) va (nextOf s3 va)))
      (toPtr s3.firstFreeBlock) (before ++ c :: []) := by
    rw [hf3, hf2, hf1]
    apply h.chain.relink
    · exact fun x hx => hlinks x (by simp [hx])
    · rw [links, update_of_ne hcva, update_self]
      exact toPtr_eq_none.mpr rfl
  have hrest := h.chain.suffix.2.congr (fun x hx => hlinks x (by simp [hx]))
  have hcap : ∀ x ∈ c :: ((before ++ rest) ++ used), update (update
      (capacityOf s) c (capacityOf s c + r)) va (capacityOf s3 va) x = size x := by
    intro x hx
    by_cases hxc : x = c
    · rw [hxc, update_of_ne hcva, update_self, hsc]
    · have hx' : x ∈ (before ++ rest) ++ used := by simpa [hxc] using hx
      rw [update_of_ne (hne x hx').2, hso x hx', update_of_ne hxc, update_of_ne hxc]
  rw [← hsn] at h4
  have htop3 : s3.heapTop = s.heapTop + PGSIZE := by omega
  obtain ⟨hb, hkeep⟩ := hv.addRest hchain (by simp) hrest (readLE_lt_u64 _ _)
    (by have := hhead.upper; have := hv3.mapped.top_le; unfold MAXVA at this; omega)
    (htop3 ▸ hlay') hsize hcap h4 h5 h6
  refine ⟨pages', hb, ?_, ?_⟩
  · exact (hkeep c (by simp)).trans hsc
  · intro u hu
    have hu' : u ∈ (before ++ rest) ++ used := mem_append_right _ hu
    rw [hkeep u (by simp [hu]), hso u hu', update_of_ne (hne u hu').1]

/-! ## The first page, and freeing -/

theorem tryAllocFreeBlock_blocks [RefTable T] (h : s.Blocks pages free used)
    (ht : tryAllocFreeBlock s = .ok s') :
    (s.firstFreeBlock ≠ 0 ∧ s' = s) ∨
    (s.firstFreeBlock = 0 ∧ free = [] ∧ ∃ pages', s'.Blocks pages' [s.heapTop] used ∧
      s'.heapTop = s.heapTop + PGSIZE ∧ capacityOf s' s.heapTop = PGSIZE ∧
      ∀ u ∈ used, capacityOf s' u = capacityOf s u) := by
  rw [tryAllocFreeBlock] at ht
  by_cases h0 : s.firstFreeBlock = 0
  · have hfree : free = [] := by
      have hc := h.chain
      rw [h0] at hc
      exact hc.unique rfl
    subst hfree
    rw [if_pos h0] at ht
    simp only [bind_eq_ok] at ht
    obtain ⟨⟨va, s1⟩, ha, s2, h2, s3, h3, ht⟩ := ht
    cases ht
    refine .inr ⟨h0, rfl, ?_⟩
    obtain ⟨pages', rfl, ht1, hf1, hv1⟩ := h.view.grow ha
    have hmod := h.mapped.top_mod
    have hge := h.mapped.top_ge
    have hbelow : ∀ u ∈ used, u + headSize ≤ s.heapTop ∧ u ≠ s.heapTop := by
      intro u hu
      have hup := (h.view.heads u (by simp [hu])).upper
      exact ⟨hup, by unfold headSize at hup; omega⟩
    have hhead : s1.HeadAt s.heapTop := by
      refine ⟨hge, ?_, ?_⟩ <;> unfold PGSIZE headSize at * <;> omega
    have hnew : s.heapTop ∉ used := fun hx => (hbelow _ hx).2 rfl
    have hv := hv1.cons hhead hnew (fun u hu => .inr (hbelow u hu).1)
    obtain ⟨t, e2, hv2, ht2, -⟩ := hv.setCapacity_ok (b := s.heapTop) (by simp)
      (v := PGSIZE) (by decide)
    cases e2.symm.trans h2
    obtain ⟨t, e3, hv3, ht3, -⟩ := hv2.setNext_ok (b := s.heapTop) (by simp) (v := 0) (by decide)
    cases e3.symm.trans h3
    have hv4 := hv3.setFirst s.heapTop
    rw [update_idem] at hv4
    have hother : ∀ u ∈ used, update (capacityOf s) s.heapTop PGSIZE u = capacityOf s u :=
      fun u hu => update_of_ne (hbelow u hu).2 _ _
    have htop : s3.heapTop = s.heapTop + PGSIZE := by rw [ht3, ht2, ht1]
    refine ⟨pages', hv4.blocks ⟨?_, ?_⟩ (by simp) ?_ ?_, htop, ?_, ?_⟩
    · exact toPtr_eq_some.mpr ⟨rfl, hv4.ne_zero (by simp)⟩
    · rw [links, update_self]
      exact toPtr_eq_none.mpr rfl
    · intro x hx
      rcases mem_cons.mp hx with rfl | hx
      · rw [update_self]
        decide
      · rw [hother x hx]
        exact h.size x hx
    · have hold := h.layout.congr hother (Nat.le_add_right s.heapTop PGSIZE)
      rw [htop]
      refine hold.cons hge ?_ ?_ ?_
      · rw [update_self]
        decide
      · rw [update_self]
      · intro u hu
        refine .inr ?_
        rw [hother u hu]
        exact h.layout.upper u hu
    · exact (hv4.cap_eq s.heapTop (by simp)).trans (update_self _ _ _)
    · intro u hu
      exact (hv4.cap_eq u (.tail _ hu)).trans (hother u hu)
  · rw [if_neg h0] at ht
    cases ht
    exact .inl ⟨h0, rfl⟩

theorem vmFree_spec (h : s.Blocks pages free (b :: used)) :
    ∃ s', vmFree s (b + headSize) = .ok s' ∧ s'.Blocks pages (b :: free) used ∧
      s'.firstFreeBlock = b ∧ nextOf s' b = s.firstFreeBlock ∧
      (∀ x ∈ (b :: free) ++ used, capacityOf s' x = capacityOf s x) ∧
      ∀ x ∈ free ++ used, nextOf s' x = nextOf s x := by
  have hup := (h.view.heads b (by simp)).upper
  have htop := h.mapped.top_le
  have hb : u64 (b + headSize + (2 ^ 64 - headSize)) = b := by
    unfold u64 MAXVA headSize at *
    omega
  obtain ⟨s1, e1, hv1, ht1, -⟩ := h.view.setNext_ok (b := b) (by simp) h.first_lt
  have hv2 := hv1.setFirst b
  have hperm : (free ++ b :: used).Perm ((b :: free) ++ used) := perm_middle
  have hbn : ∀ x ∈ free ++ used, x ≠ b := by
    rintro x hx rfl
    have hnd := (hperm.nodup_iff.mp h.layout.nodup)
    exact (nodup_cons.mp hnd).1 hx
  refine ⟨{ s1 with firstFreeBlock := b }, ?_, ?_, rfl, ?_, ?_, ?_⟩
  · simp only [vmFree, hb, e1, ok_bind]
    rfl
  · have hchain : Chain (links (update (nextOf s) b s.firstFreeBlock)) (toPtr b) (b :: free) := by
      constructor
      · exact toPtr_eq_some.mpr ⟨rfl, hv2.ne_zero (by simp)⟩
      · rw [links, update_self]
        apply h.chain.congr
        intro x hx
        rw [links, update_of_ne (hbn x (by simp [hx])), links]
    refine hv2.blocks hchain (fun x hx => hperm.mem_iff.mpr hx)
      (fun x hx => h.size x (hperm.mem_iff.mpr hx)) ?_
    rw [ht1]
    exact h.layout.perm hperm
  · rw [hv2.next_eq b (by simp), update_self]
  · intro x hx
    exact hv2.cap_eq x (hperm.mem_iff.mpr hx)
  · intro x hx
    have hmem : x ∈ free ++ b :: used := hperm.mem_iff.mpr (mem_cons_of_mem b hx)
    rw [hv2.next_eq x hmem, update_of_ne (hbn x hx)]

end CabbagePKE
