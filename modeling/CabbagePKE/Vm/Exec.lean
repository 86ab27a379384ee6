import CabbagePKE.Vm.Fork

/-!
# Exec

`proc_clean_pagetable` gives back every heap page and every writable page
of the other regions, and `exec_clean` then starts a new space in the old
page directory. The books stay sound as long as no other process maps one
of the writable pages outside the heap.
-/

namespace CabbagePKE

open Lib List PageTable
open GuardedTable (Good)

variable {T : Type} [GuardedTable T]

/-! ## Giving back a whole space -/

def keepOnly (ent : Entries) (p : Nat) (keep : Nat → Bool) : Entries :=
  fun q v => if q = p ∧ keep v = false then Pte.zero else ent q v

/-- Half way through `proc_clean_pagetable`: the references that are left
belong to the entries `keep` selects. Below page `left` of the heap
nothing has been given back. -/
structure Cleaning (iso : Nat → Prop) (lo hi : Nat) (ent : Entries) (inHeap : Nat → Nat → Prop)
    (p : Nat) (c : Space) (left : Nat) (s : Pmm T) (pt : PageTable) (keep : Nat → Bool) :
    Prop where
  books : Books iso lo hi s (keepOnly ent p keep) inHeap []
  counted : ∀ v, keep v = true → (ent p v).counted = true
  sub : ∀ v, (pt.entry v).v = true → pt.entry v = c.pagetable.entry v
  region : ∀ v, v < dirSlot → ¬ c.InHeap v → (pt.entry v).v = true →
    (pt.entry v).counted = true → keep v = true
  heap : ∀ v, c.InHeap v → v < left → (c.pagetable.entry v).v = true → keep v = true
  dir : keep dirSlot = true

section

variable {iso : Nat → Prop} {lo hi : Nat} {ent : Entries} {inHeap : Nat → Nat → Prop} {p : Nat}
  {c : Space} {left : Nat} {s s' : Pmm T} {pt pt' : PageTable} {keep : Nat → Bool}

theorem keepOnly_of_ne {q v : Nat} (h : q ≠ p) : keepOnly ent p keep q v = ent q v :=
  if_neg (fun h' => h h'.1)

theorem keepOnly_of_keep {q v : Nat} (h : keep v = true) : keepOnly ent p keep q v = ent q v :=
  if_neg (fun h' => by rw [h] at h'; exact absurd h'.2 (by simp))

theorem Cleaning.release (h : Cleaning iso lo hi ent inHeap p c left s pt keep) {v : Nat}
    (hk : keep v = true) (hv : (ent p v).v = true)
    (hnone : ∀ q w, q ≠ p → (ent q w).v = true → (ent q w).pa = (ent p v).pa →
      (ent q w).counted = true)
    (hf : freePage s (ent p v).pa = .ok s') :
    Books iso lo hi s' (keepOnly ent p (fun w => keep w && decide (w ≠ v))) inHeap [] := by
  have hpv : keepOnly ent p keep p v = ent p v := keepOnly_of_keep hk
  refine h.books.release (p := p) (v := v) (by rw [hpv]; exact hv)
    (by rw [hpv]; exact h.counted v hk) (fun q w hvw hpa => ?_) (by rw [hpv]; exact hf)
    (fun q w hvw => ?_)
  · rw [hpv] at hpa
    by_cases hq : q = p
    · subst hq
      by_cases hkw : keep w = true
      · rw [keepOnly_of_keep hkw]
        exact h.counted w hkw
      · rw [keepOnly, if_pos ⟨rfl, by simpa using hkw⟩] at hvw
        exact absurd hvw (by decide)
    · rw [keepOnly_of_ne hq] at hvw hpa ⊢
      exact hnone q w hq hvw hpa
  · by_cases hq : q = p
    · subst hq
      by_cases hkw : (keep w && decide (w ≠ v)) = true
      · rw [keepOnly_of_keep hkw]
        simp only [Bool.and_eq_true, decide_eq_true_eq] at hkw
        exact ⟨(keepOnly_of_keep hkw.1).symm, fun h' => hkw.2 h'.2⟩
      · rw [keepOnly, if_pos ⟨rfl, by simpa using hkw⟩] at hvw
        exact absurd hvw (by decide)
    · rw [keepOnly_of_ne hq, keepOnly_of_ne hq]
      exact ⟨rfl, fun h' => hq h'.1⟩

theorem Books.heap_counted {own : List Nat} (h : Books iso lo hi s ent inHeap own) {v : Nat}
    (hv : (ent p v).v = true) (hin : inHeap p v) (hf : freePage s (ent p v).pa = .ok s') :
    ∀ q w, (ent q w).v = true → (ent q w).pa = (ent p v).pa → (ent q w).counted = true := by
  obtain ⟨isHeap, free, hl⟩ := h
  have hman := freePage_managed hf
  have hfr := hl.frame_of_managed hman
  intro q w hvw hpa
  have hk := (hl.kind p v hv hfr).mpr hin
  rw [← hpa] at hk hfr
  exact hl.heapCounted q w hvw ((hl.kind q w hvw hfr).mp hk)

structure CleanAt (ent : Entries) (inHeap : Nat → Nat → Prop) (p : Nat) (c : Space) : Prop where
  entries : ∀ v, ent p v = c.pagetable.entries v
  heap : ∀ v, inHeap p v ↔ c.InHeap v
  ok : c.Ok
  /-- nobody else maps a writable page of a region -/
  alone : ∀ j, j ≠ 3 → (c.mappedInfo j).npages = 1 →
    (c.pagetable.entry ((c.mappedInfo j).va / PGSIZE)).v = true →
    (c.pagetable.entry ((c.mappedInfo j).va / PGSIZE)).perm.w = true →
    ∀ q w, q ≠ p → (ent q w).v = true →
      (ent q w).pa ≠ (c.pagetable.entry ((c.mappedInfo j).va / PGSIZE)).pa

theorem CleanAt.entry_eq (hc : CleanAt ent inHeap p c) {v : Nat} (h : v < dirSlot) :
    ent p v = c.pagetable.entry v := by rw [hc.entries, entries_of_lt h]

theorem Cleaning.region_step (hc : CleanAt ent inHeap p c)
    (h : Cleaning iso lo hi ent inHeap p c left s pt keep) {j : Nat} (hj : j ≠ 3)
    (hs : cleanRegion (c.mappedInfo j).npages (c.mappedInfo j).va s pt = .ok (s', pt')) :
    ∃ keep', Cleaning iso lo hi ent inHeap p c left s' pt' keep' := by
  obtain ⟨-, ⟨hn, -⟩ | ⟨hn, hal, hlt, hout⟩⟩ := hc.ok.region j hj
  · rw [hn] at hs
    cases hs
    exact ⟨keep, h⟩
  rw [hn] at hs
  simp only [cleanRegion] at hs
  have hvd := vpn_lt_dirSlot hlt
  split at hs
  · cases hs
  split at hs
  · cases hs
  rename_i hwalks
  have hw : pt.walks ((c.mappedInfo j).va / PGSIZE) = true := by simpa using hwalks
  rw [← entry_of_walks hw] at hs
  split at hs
  · rename_i hwv
    simp only [bind_eq_ok] at hs
    obtain ⟨s1, hf, hs⟩ := hs
    cases hs
    -- a writable page: it is still ours, and ours alone
    have hsub := h.sub _ hwv.2
    have hcnt : (pt.entry ((c.mappedInfo j).va / PGSIZE)).counted = true := by
      simp [Pte.counted, hwv.1]
    have hk := h.region _ hvd hout hwv.2 hcnt
    have hep : ent p ((c.mappedInfo j).va / PGSIZE)
        = pt.entry ((c.mappedInfo j).va / PGSIZE) := by rw [hc.entry_eq hvd, hsub]
    have hv : (ent p ((c.mappedInfo j).va / PGSIZE)).v = true := by
      rw [hep]
      exact hwv.2
    rw [← hep] at hf
    have hb := h.release hk hv (fun q w hq hvw hpa => by
      rw [hep, hsub] at hpa
      exact absurd hpa (hc.alone j hj hn (hsub ▸ hwv.2) (hsub ▸ hwv.1) q w hq hvw)) hf
    have hent : ∀ v, (pt.invalidate ((c.mappedInfo j).va / PGSIZE)).entry v
        = if v = (c.mappedInfo j).va / PGSIZE
          then { pt.entry ((c.mappedInfo j).va / PGSIZE) with v := false }
          else pt.entry v := by
      intro v
      rw [invalidate, entry_set _ hw, entry_of_walks hw]
    refine ⟨_, hb, fun v hkv => ?_, fun v hvv => ?_, fun v hvd' hnh hvv hcv => ?_,
      fun v hin hl hvv => ?_, ?_⟩
    · simp only [Bool.and_eq_true] at hkv
      exact h.counted v hkv.1
    · rw [hent] at hvv ⊢
      split at hvv
      · cases hvv
      · rename_i hne
        rw [if_neg hne]
        exact h.sub v hvv
    · rw [hent] at hvv hcv
      split at hvv
      · cases hvv
      · rename_i hne
        rw [if_neg hne] at hcv
        simp [h.region v hvd' hnh hvv hcv, hne]
    · have hne : v ≠ (c.mappedInfo j).va / PGSIZE := fun he => hout (he ▸ hin)
      simp [h.heap v hin hl hvv, hne]
    · have hne : dirSlot ≠ (c.mappedInfo j).va / PGSIZE := by omega
      simp [h.dir, hne]
  · cases hs
    exact ⟨keep, h⟩

theorem Cleaning.regions (hc : CleanAt ent inHeap p c) {top : Nat} :
    ∀ (js : List Nat) (s : Pmm T) (pt : PageTable) (keep : Nat → Bool),
      (∀ j ∈ js, j ≠ 3) → Cleaning iso lo hi ent inHeap p c left s pt keep →
      cleanRegions top (js.map c.mappedInfo) s pt = .ok (s', pt') →
      ∃ keep', Cleaning iso lo hi ent inHeap p c left s' pt' keep' := by
  intro js
  induction js with
  | nil =>
    intro s pt keep _ h hs
    cases hs
    exact ⟨keep, h⟩
  | cons j js ih =>
    intro s pt keep hne h hs
    have hj := hne j (by simp)
    have hseg := (hc.ok.region j hj).1
    simp only [map_cons, cleanRegions, if_neg hseg, bind_eq_ok] at hs
    obtain ⟨⟨s1, pt1⟩, h1, hs⟩ := hs
    obtain ⟨keep1, hk1⟩ := h.region_step hc hj h1
    exact ih s1 pt1 keep1 (fun k hk => hne k (by simp [hk])) hk1 hs

theorem Cleaning.heap_loop (hc : CleanAt ent inHeap p c) :
    ∀ (n left : Nat) (s : Pmm T) (keep : Nat → Bool),
      Cleaning iso lo hi ent inHeap p c left s pt keep → n ≤ left →
      (∀ v, left - n ≤ v → v < left → c.InHeap v) →
      cleanHeap pt n (u64 (left * PGSIZE + (2 ^ 64 - PGSIZE))) s = .ok s' →
      ∃ keep', Cleaning iso lo hi ent inHeap p c (left - n) s' pt keep' := by
  intro n
  induction n with
  | zero =>
    intro left s keep h _ _ hs
    cases hs
    exact ⟨keep, h⟩
  | succ n ih =>
    intro left s keep h hle hin hs
    simp only [cleanHeap, bind_eq_ok] at hs
    obtain ⟨s1, hf, hs⟩ := hs
    have hinv := hin (left - 1) (by omega) (by omega)
    have hlt := hc.ok.inHeap_dirSlot hinv
    have htop : u64 (left * PGSIZE + (2 ^ 64 - PGSIZE)) = (left - 1) * PGSIZE := by
      unfold dirSlot MAXVA PGSIZE at hlt
      unfold u64 PGSIZE
      omega
    rw [htop] at hf hs
    have hpage : (left - 1) * PGSIZE / PGSIZE = left - 1 := Nat.mul_div_cancel _ (by decide)
    -- `free_page` took it, so the page was mapped
    have hpos : lookupPa pt ((left - 1) * PGSIZE) ≠ 0 := by
      obtain ⟨isHeap, free, hl⟩ := h.books
      have hman := freePage_managed hf
      have hst := hl.wf.start_pos
      unfold Pmm.Managed at hman
      omega
    obtain ⟨-, hv, hpa⟩ := lookupPa_mapped hpos
    rw [hpage] at hv hpa
    have hsub := h.sub _ hv
    have hep : ent p (left - 1) = pt.entry (left - 1) := by rw [hc.entry_eq hlt, hsub]
    have hk := h.heap _ hinv (by omega) (hsub ▸ hv)
    rw [hpa, ← hep] at hf
    rw [← hep] at hv
    have hkeep : keepOnly ent p keep p (left - 1) = ent p (left - 1) := keepOnly_of_keep hk
    have hnone := h.books.heap_counted (p := p) (v := left - 1) (by rw [hkeep]; exact hv)
      ((hc.heap _).mpr hinv) (by rw [hkeep]; exact hf)
    have hb := h.release hk hv (fun q w hq hvw hpa' => by
      have := hnone q w (by rw [keepOnly_of_ne hq]; exact hvw)
        (by rw [keepOnly_of_ne hq, hkeep]; exact hpa')
      rwa [keepOnly_of_ne hq] at this) hf
    have hnext : Cleaning iso lo hi ent inHeap p c (left - 1) s1 pt
        (fun w => keep w && decide (w ≠ left - 1)) := by
      refine ⟨hb, fun v hkv => ?_, h.sub, fun v hvd hnh hvv hcv => ?_, fun v hin' hl hvv => ?_, ?_⟩
      · simp only [Bool.and_eq_true] at hkv
        exact h.counted v hkv.1
      · have hne : v ≠ left - 1 := fun he => hnh (he ▸ hinv)
        simp [h.region v hvd hnh hvv hcv, hne]
      · have hne : v ≠ left - 1 := by omega
        simp [h.heap v hin' (by omega) hvv, hne]
      · have hne : dirSlot ≠ left - 1 := by omega
        simp [h.dir, hne]
    have hs' := hs
    obtain ⟨keep', hfin⟩ := ih (left - 1) s1 _ hnext (by omega)
      (fun v hlo hhi => hin v (by omega) (by omega)) hs'
    rw [show left - (n + 1) = left - 1 - n from by omega]
    exact ⟨keep', hfin⟩

theorem cleanRegions_append {top : Nat} (rs rs' : List MappedRegion) :
    ∀ (s : Pmm T) (pt : PageTable), cleanRegions top (rs ++ rs') s pt = .ok (s', pt') →
      ∃ s1 pt1, cleanRegions top rs s pt = .ok (s1, pt1) ∧
        cleanRegions top rs' s1 pt1 = .ok (s', pt') := by
  induction rs with
  | nil => exact fun s pt h => ⟨s, pt, rfl, h⟩
  | cons r rs ih =>
    intro s pt h
    simp only [cons_append, cleanRegions] at h ⊢
    split at h
    · rename_i hseg
      simp only [bind_eq_ok] at h
      obtain ⟨s1, h1, h⟩ := h
      obtain ⟨s2, pt2, h2, h3⟩ := ih _ _ h
      refine ⟨s2, pt2, ?_, h3⟩
      rwa [if_pos hseg, h1]
    · rename_i hseg
      simp only [bind_eq_ok] at h
      obtain ⟨⟨s1, pt1⟩, h1, h⟩ := h
      obtain ⟨s2, pt2, h2, h3⟩ := ih _ _ h
      refine ⟨s2, pt2, ?_, h3⟩
      rwa [if_neg hseg, h1]

theorem range_split {n : Nat} (h : 4 ≤ n) :
    ∃ js, List.range n = [0, 1, 2] ++ 3 :: js ∧ ∀ j ∈ js, j ≠ 3 := by
  refine ⟨(range (n - 4)).map (4 + ·), ?_, fun j hj => ?_⟩
  · have hn : n = 4 + (n - 4) := by omega
    conv_lhs => rw [hn, range_add]
    rfl
  · obtain ⟨k, -, rfl⟩ := mem_map.mp hj
    omega

theorem Books.procClean (h : Books iso lo hi s ent inHeap []) (hc : CleanAt ent inHeap p c)
    (hs : procCleanPagetable s c = .ok (s', pt')) :
    Books iso lo hi s' (withTable ent p (.empty c.pagetable.dir)) inHeap [] := by
  obtain ⟨js, hrange, hjs⟩ := range_split hc.ok.four_le
  unfold procCleanPagetable Space.regions at hs
  rw [hrange, map_append] at hs
  obtain ⟨s1, pt1, hs1, hs⟩ := cleanRegions_append _ _ _ _ hs
  have hdirE : ent p dirSlot = ⟨c.pagetable.dir, true, protToType true true false false, 0⟩ := by
    rw [hc.entries, entries, if_pos rfl]
  have h0 : Cleaning iso lo hi ent inHeap p c (c.heapTop / PGSIZE) s c.pagetable
      (fun v => (ent p v).counted) := by
    refine ⟨h.drop (fun q v hv => ?_), fun v hv => hv, fun v _ => rfl,
      fun v hvd _ hv hcv => ?_, fun v hin _ hv => ?_, ?_⟩
    · unfold keepOnly at hv ⊢
      split at hv
      · exact absurd hv (by decide)
      · rename_i hne
        rw [if_neg hne]
    · rwa [hc.entry_eq hvd]
    · obtain ⟨isHeap, free, hl⟩ := h
      have hlt := hc.ok.inHeap_dirSlot hin
      exact hl.heapCounted p v (by rw [hc.entry_eq hlt]; exact hv) ((hc.heap v).mpr hin)
    · rw [hdirE]
      rfl
  obtain ⟨keep1, h1⟩ := Cleaning.regions hc [0, 1, 2] _ _ _ (by simp) h0 hs1
  simp only [map_cons, cleanRegions, hc.ok.heapRegion.1, if_true, bind_eq_ok] at hs
  obtain ⟨s2, hheap, hs⟩ := hs
  have hbot := hc.ok.bottom
  have hal := hc.ok.aligned
  have hbl := hc.ok.bottom_le
  have hnp := hc.ok.heapRegion.2
  have htop : c.heapTop = c.heapTop / PGSIZE * PGSIZE := by
    unfold PGSIZE at *
    omega
  rw [hnp] at hheap
  conv at hheap => lhs; arg 3; rw [htop]
  have hin : ∀ v, c.heapTop / PGSIZE - (c.heapTop - c.heapBottom) / PGSIZE ≤ v →
      v < c.heapTop / PGSIZE → c.InHeap v := by
    intro v hlo hhi
    refine ⟨?_, hhi⟩
    rw [hbot] at hlo hbl ⊢
    unfold USER_FREE_ADDRESS_START PGSIZE at *
    omega
  obtain ⟨keep2, h2⟩ := Cleaning.heap_loop hc _ _ _ _ h1
    (Nat.div_le_div_right (Nat.sub_le _ _)) hin hheap
  obtain ⟨keep3, h3⟩ := Cleaning.regions hc js _ _ _ hjs h2 hs
  refine h3.books.drop (fun q v hv => ?_)
  by_cases hq : q = p
  · subst hq
    rw [withTable_self] at hv ⊢
    by_cases hvd : v = dirSlot
    · subst hvd
      rw [keepOnly_of_keep h3.dir, hdirE, entries, if_pos rfl]
      rfl
    · rw [entries, if_neg hvd] at hv
      simp [entry, empty, Pte.zero] at hv
  · rw [withTable_of_ne hq, keepOnly_of_ne hq]

theorem Books.doExec {trapSec : Nat} {c' : Space} {phs : List ElfProgHeader}
    (h : Books iso lo hi s ent inHeap []) (hk : KernelAt lo trapSec)
    (hc : CleanAt ent inHeap p c)
    (hal : ∀ ph ∈ phs, ph.isLoad = true → ph.vaddr % PGSIZE = 0)
    (hd : doExecSpace s trapSec c phs = .ok (s', c')) (hg : Good s'.refs) :
    Books iso lo hi s' (withTable ent p c'.pagetable)
        (fun q v => if q = p then False else inHeap q v) [] ∧
      c'.Ok ∧ c'.heapTop = c'.heapBottom := by
  simp only [doExecSpace, bind_eq_ok] at hd
  obtain ⟨⟨s1, c1⟩, hclean, hload⟩ := hd
  have hg1 := elfLoad_good _ _ _ hload hg
  obtain ⟨s2, pt2, tf, s3, stk, s4, hproc, ha1, htf, ha2, hinit⟩ := execClean_inv hclean
  have hg4 := (initSpace_grows hinit hg1).1
  have hg3 : Good s3.refs := (allocPage_good ha2 hg4).1
  have hb2 : Books iso lo hi s2 (withTable ent p (.empty c.pagetable.dir))
      (fun q v => if q = p then False else inHeap q v) [] := by
    refine (h.procClean hc hproc).redraw (fun q v hv => ?_)
    by_cases hq : q = p
    · subst hq
      rw [if_pos rfl, false_iff]
      intro hin
      have hlt := hc.ok.inHeap_dirSlot ((hc.heap v).mp hin)
      rw [withTable_self, entries_of_lt hlt] at hv
      simp [entry, empty, Pte.zero] at hv
    · rw [if_neg hq]
  -- the new trapframe, and the directory zeroed in place
  have hb3 := (hb2.alloc ha1 hg3 htf).write_own (m := fillBytes s3.mem tf 0 trapframeSize)
    (.head ..) (fun x hx => fillBytes_outside (by
      unfold trapframeSize
      unfold PGSIZE at hx
      omega))
  have hdirE : withTable ent p (.empty c.pagetable.dir) p dirSlot
      = ⟨c.pagetable.dir, true, protToType true true false false, 0⟩ := by
    rw [withTable_self, entries, if_pos rfl]
    rfl
  have hb4 := hb3.write_entry (p := p) (v := dirSlot)
    (m := fillBytes (fillBytes s3.mem tf 0 trapframeSize) c.pagetable.dir 0 PGSIZE)
    (by rw [hdirE]) (fun x hx => by
      rw [hdirE] at hx
      exact fillBytes_outside hx)
  obtain ⟨hstkn, own, hb5, hstk, hsub⟩ := hb4.alloc_or_null ha2 hg4
  have htf5 : tf ∈ own := hsub (by simp)
  have hne : tf ≠ stk := fun he => hstkn (by simp [← he])
  have hb6 := hb5.initSpace hk (fun v hin => by simp at hin) hinit hg1 htf5 hstk hne
  obtain ⟨hok1, hempty1, -⟩ := initSpace_ok hk ⟨(hb5.own_frame htf5).1.1, htf⟩ hinit
  exact Books.elfLoad phs s1 c1 hb6 hok1 hempty1 hal hload hg

end

end CabbagePKE
