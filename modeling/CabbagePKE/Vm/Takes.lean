import CabbagePKE.Pmm.Guarded
import CabbagePKE.Vm.Inversion

/-!
# Which pages are taken and given back

`page_walk` takes a page for each table that is missing on its way, so the tables
that exist are those on the ways to the pages mapped so far (`PageTable.Spans`),
and what the next mapping takes is known beforehand (`newTables`).

`proc_clean_pagetable` frees pages in an order that depends on the regions and
the page table only (`Space.cleanedPages`); those without a further reference
(`released`) are then the first of the list, the last one in front.
-/

namespace CabbagePKE

open Lib List PageTable

variable {T : Type} [RefTable T]

/-- The allocator handed out `taken`, the first pages of its list, and memory
changed inside these pages only. -/
structure Takes (s s' : Pmm T) (free free' taken : List Nat) : Prop where
  listed : s'.Listed free'
  eq : free = taken ++ free'
  mem : ∀ x, (∀ p ∈ taken, x < p ∨ p + PGSIZE ≤ x) → s'.mem x = s.mem x
  start_eq : s'.freeMemStartAddr = s.freeMemStartAddr
  end_eq : s'.freeMemEndAddr = s.freeMemEndAddr

def PageTable.IsTable (pt : PageTable) (x : Nat) : Prop :=
  (∃ i, pt.mid i = some x) ∨ ∃ j, pt.leaf j = some x

def PageTable.Uses (pt : PageTable) (x : Nat) : Prop :=
  x = pt.dir ∨ pt.IsTable x ∨ ∃ v, (pt.entry v).v = true ∧ (pt.entry v).pa = x

/-- The tables of the tree are those on the ways to the pages `seen`. -/
structure PageTable.Spans (pt : PageTable) (seen : List Nat) : Prop where
  mid : ∀ i, (pt.mid i).isSome = true ↔ i ∈ seen.map (fun v => v / 512 / 512)
  leaf : ∀ j, (pt.leaf j).isSome = true ↔ j ∈ seen.map (fun v => v / 512)

def newTables (seen : List Nat) (vpn : Nat) : Nat :=
  (if vpn / 512 / 512 ∈ seen.map (fun v => v / 512 / 512) then 0 else 1) +
    (if vpn / 512 ∈ seen.map (fun v => v / 512) then 0 else 1)

/-- The tables that are missing on the ways to `n` pages from `vpn` on, taken
one after the other. -/
def tablesFor (seen : List Nat) (vpn : Nat) : Nat → Nat
  | 0 => 0
  | n + 1 => newTables seen vpn + tablesFor (vpn :: seen) (vpn + 1) n

def walked (seen : List Nat) (vpn : Nat) : Nat → List Nat
  | 0 => seen
  | n + 1 => walked (vpn :: seen) (vpn + 1) n

def pagesAt (va : Nat) : Nat := (va + PGSIZE - 1) / PGSIZE + 1 - va / PGSIZE

section

variable {s s' s'' : Pmm T} {free free' free'' taken taken' : List Nat}

omit [RefTable T] in
theorem Takes.refl (h : s.Listed free) : Takes s s free free [] :=
  ⟨h, rfl, fun _ _ => rfl, rfl, rfl⟩

omit [RefTable T] in
theorem Takes.trans (h : Takes s s' free free' taken) (h' : Takes s' s'' free' free'' taken') :
    Takes s s'' free free'' (taken ++ taken') := by
  refine ⟨h'.listed, ?_, fun x hx => ?_, h'.start_eq.trans h.start_eq, h'.end_eq.trans h.end_eq⟩
  · rw [h.eq, h'.eq, append_assoc]
  · rw [h'.mem x fun p hp => hx p (mem_append_right _ hp),
      h.mem x fun p hp => hx p (mem_append_left _ hp)]

theorem allocPage_takes {p : Nat} {m : Mem} (hl : s.Listed free) (ha : allocPage s = .ok (p, s'))
    (hp : p ≠ 0) (hm : ∀ x, x < p ∨ p + PGSIZE ≤ x → m x = s.mem x) :
    ∃ rest, Takes s { s' with mem := m } free rest [p] := by
  obtain ⟨rest, hfree, ht⟩ := allocPage_took hl ha hp hm
  refine ⟨rest, ht.listed, hfree, fun x hx => hm x (hx p (by simp)), ht.start_eq, ht.end_eq⟩

theorem walkLevel_takes {table : Option Nat} {p : Nat} (hl : s.Listed free)
    (hw : walkLevel s table true = .ok (some p, s')) :
    ∃ free' taken, Takes s s' free free' taken ∧
      ((table = some p ∧ taken = []) ∨ (table = none ∧ taken = [p])) := by
  rcases walkLevel_inv hw with ⟨q, hq, hp, rfl⟩ | ⟨hnone, q, s1, ha, ⟨-, hp, -⟩ | ⟨hq, hp, rfl⟩⟩
  · exact ⟨free, [], .refl hl, .inl ⟨hq.trans hp.symm, rfl⟩⟩
  · cases hp
  · cases hp
    have hm := (allocPage_inv hl ha).1
    obtain ⟨rest, ht⟩ := allocPage_takes (m := fillBytes s1.mem p 0 PGSIZE) hl ha hq
      fun x hx => by rw [fillBytes_outside hx, hm]
    exact ⟨rest, [p], ht, .inr ⟨hnone, rfl⟩⟩

end

section

variable {s s' : Pmm T} {pt pt' : PageTable} {free seen : List Nat} {va pa : Nat} {perm : Perm}

theorem exists_pointer_iff {f : Nat → Option Nat} {i m x : Nat} {taken : List Nat}
    (h : (f i = some m ∧ taken = []) ∨ (f i = none ∧ taken = [m])) :
    (∃ j, (if j = i then some m else f j) = some x) ↔ (∃ j, f j = some x) ∨ x ∈ taken := by
  rcases h with ⟨hi, rfl⟩ | ⟨hi, rfl⟩
  · have hsame : ∀ j, (if j = i then some m else f j) = f j := by
      intro j
      split
      · rename_i hj
        rw [hj, hi]
      · rfl
    simp only [hsame, not_mem_nil, or_false]
  · rw [mem_singleton]
    constructor
    · rintro ⟨j, hj⟩
      split at hj
      · cases hj
        exact .inr rfl
      · exact .inl ⟨j, hj⟩
    · rintro (⟨j, hj⟩ | rfl)
      · have hne : j ≠ i := by
          rintro rfl
          simp [hi] at hj
        exact ⟨j, by rw [if_neg hne, hj]⟩
      · exact ⟨i, if_pos rfl⟩

theorem length_of_walkLevel {f : Nat → Option Nat} {i m : Nat} {taken l : List Nat}
    (hl : (f i).isSome = true ↔ i ∈ l)
    (h : (f i = some m ∧ taken = []) ∨ (f i = none ∧ taken = [m])) :
    taken.length = if i ∈ l then 0 else 1 := by
  rcases h with ⟨hi, rfl⟩ | ⟨hi, rfl⟩
  · rw [if_pos (hl.mp (by simp [hi]))]
    rfl
  · have hnot : i ∉ l := fun hin => by
      have := hl.mpr hin
      simp [hi] at this
    rw [if_neg hnot]
    rfl

theorem spans_empty (dir : Nat) : (PageTable.empty dir).Spans [] := by
  constructor
  · simp [empty]
  · simp [empty]

theorem PageTable.Spans.addMid (h : pt.Spans seen) (vpn m : Nat) :
    (∀ j, (pt.addMid (vpn / 512 / 512) m).leaf j = pt.leaf j) ∧
      ∀ i, ((pt.addMid (vpn / 512 / 512) m).mid i).isSome = true ↔
        i ∈ (vpn :: seen).map (fun v => v / 512 / 512) := by
  constructor
  · intro j
    unfold PageTable.addMid
    split
    · rfl
    · rename_i hmid
      dsimp only
      split
      · -- there is no third-level table below a missing one
        rename_i hj
        cases hleaf : pt.leaf j with
        | none => rfl
        | some l =>
          have hin : j ∈ seen.map (fun v => v / 512) := (h.leaf j).mp (by simp [hleaf])
          obtain ⟨v, hv, hvj⟩ := mem_map.mp hin
          exact absurd ((h.mid _).mpr (mem_map.mpr ⟨v, hv, by rw [hvj, hj]⟩)) hmid
      · rfl
  · intro i
    unfold PageTable.addMid
    dsimp only
    split
    · rename_i hi
      simp [hi]
    · rename_i hi
      rw [h.mid i, map_cons, mem_cons]
      exact ⟨.inr, fun hin => hin.resolve_left hi⟩

theorem PageTable.Spans.addLeaf {vpn m l : Nat} (h : pt.Spans seen) :
    ((pt.addMid (vpn / 512 / 512) m).addLeaf (vpn / 512) l).Spans (vpn :: seen) := by
  obtain ⟨hleaf, hmid⟩ := h.addMid vpn m
  refine ⟨hmid, fun j => ?_⟩
  unfold PageTable.addLeaf
  dsimp only
  split
  · rename_i hj
    simp [hj]
  · rename_i hj
    rw [hleaf, h.leaf j, map_cons, mem_cons]
    exact ⟨.inr, fun hin => hin.resolve_left hj⟩

theorem pageWalk_takes (hl : s.Listed free) (hsp : pt.Spans seen)
    (hw : pageWalk s pt va = .ok (true, s', pt')) :
    ∃ free' taken, Takes s s' free free' taken ∧ taken.length = newTables seen (va / PGSIZE) ∧
      pt'.Spans (va / PGSIZE :: seen) ∧ ∀ x, pt'.IsTable x ↔ pt.IsTable x ∨ x ∈ taken := by
  obtain ⟨-, m, s1, hw1, ⟨-, hfound, -⟩ | ⟨p, l, rfl, hw2, ⟨-, hfound, -⟩ | ⟨q, rfl, -, rfl⟩⟩⟩ :=
    pageWalk_inv hw
  · cases hfound
  · cases hfound
  obtain ⟨hleaf, -⟩ := hsp.addMid (va / PGSIZE) p
  rw [hleaf] at hw2
  obtain ⟨free1, t1, ht1, hm⟩ := walkLevel_takes hl hw1
  obtain ⟨free2, t2, ht2, hl'⟩ := walkLevel_takes ht1.listed hw2
  refine ⟨free2, t1 ++ t2, ht1.trans ht2, ?_, hsp.addLeaf, fun x => ?_⟩
  · rw [length_append, length_of_walkLevel (hsp.mid _) hm, length_of_walkLevel (hsp.leaf _) hl']
    rfl
  · have hmids := exists_pointer_iff (x := x) hm
    have hleafs := exists_pointer_iff (x := x) hl'
    simp only [PageTable.IsTable, addLeaf, hleaf]
    rw [mem_append]
    exact (or_congr hmids hleafs).trans or_or_or_comm

theorem mapped_iff_of_entry {vpn x : Nat} (hpa : pa % PGSIZE = 0)
    (hunmapped : (pt.entry vpn).v = false)
    (hent : ∀ v, pt'.entry v = if v = vpn then Pte.leaf pa perm else pt.entry v) :
    (∃ v, (pt'.entry v).v = true ∧ (pt'.entry v).pa = x) ↔
      (∃ v, (pt.entry v).v = true ∧ (pt.entry v).pa = x) ∨ x = pa := by
  constructor
  · rintro ⟨v, hv, hx⟩
    rw [hent] at hv hx
    split at hv
    · rename_i hvv
      rw [if_pos hvv, leaf_pa_of_aligned perm hpa] at hx
      exact .inr hx.symm
    · rename_i hvv
      rw [if_neg hvv] at hx
      exact .inl ⟨v, hv, hx⟩
  · rintro (⟨v, hv, hx⟩ | rfl)
    · have hne : v ≠ vpn := by
        rintro rfl
        simp [hunmapped] at hv
      exact ⟨v, by rw [hent, if_neg hne, hv], by rw [hent, if_neg hne, hx]⟩
    · refine ⟨vpn, by rw [hent, if_pos rfl]; rfl, ?_⟩
      rw [hent, if_pos rfl, leaf_pa_of_aligned perm hpa]

theorem mapPage_takes (perm : Perm) {vpn : Nat} (hvpn : va / PGSIZE = vpn) (hpa : pa % PGSIZE = 0)
    (hl : s.Listed free) (hsp : pt.Spans seen) (hw : pageWalk s pt va = .ok (true, s', pt'))
    (hv : (pt'.pte vpn).v = false) :
    ∃ free' taken, Takes s s' free free' taken ∧ taken.length = newTables seen vpn ∧
      (pt'.set vpn (Pte.leaf pa perm)).Spans (vpn :: seen) ∧
      ∀ x, (pt'.set vpn (Pte.leaf pa perm)).Uses x ↔ pt.Uses x ∨ x ∈ taken ∨ x = pa := by
  subst hvpn
  obtain ⟨hent, hwalks, -, hdir⟩ := pageWalk_entry hw
  have hunmapped : (pt.entry (va / PGSIZE)).v = false := by
    rw [← hent, entry_of_walks (hwalks rfl), hv]
  have hset : ∀ v, (pt'.set (va / PGSIZE) (Pte.leaf pa perm)).entry v
      = if v = va / PGSIZE then Pte.leaf pa perm else pt.entry v := fun v => by
    rw [entry_set _ (hwalks rfl), hent]
  obtain ⟨free', taken, ht, hlen, hspan, htables⟩ := pageWalk_takes hl hsp hw
  refine ⟨free', taken, ht, hlen, ⟨hspan.mid, hspan.leaf⟩, fun x => ?_⟩
  have hsame : (pt'.set (va / PGSIZE) (Pte.leaf pa perm)).IsTable x ↔ pt'.IsTable x := Iff.rfl
  have hmapped := mapped_iff_of_entry (x := x) hpa hunmapped hset
  rw [PageTable.Uses, hsame, hmapped, htables, show (pt'.set _ _).dir = pt.dir from hdir]
  constructor
  · rintro (h | (h | h) | h | h)
    · exact .inl (.inl h)
    · exact .inl (.inr (.inl h))
    · exact .inr (.inl h)
    · exact .inl (.inr (.inr h))
    · exact .inr (.inr h)
  · rintro ((h | h | h) | h | h)
    · exact .inl h
    · exact .inr (.inl (.inl h))
    · exact .inr (.inr (.inl h))
    · exact .inr (.inl (.inr h))
    · exact .inr (.inr (.inr h))

theorem mapPagesFrom_takes : ∀ (n first pa : Nat) (s : Pmm T) (pt : PageTable)
    (free seen : List Nat), first % PGSIZE = 0 → pa % PGSIZE = 0 → s.Listed free →
    pt.Spans seen → mapPagesFrom s pt perm n first pa = .ok (0, s', pt') →
    ∃ free' taken, Takes s s' free free' taken ∧ taken.length = tablesFor seen (first / PGSIZE) n ∧
      pt'.Spans (walked seen (first / PGSIZE) n) ∧
      ∀ x, pt'.Uses x ↔ pt.Uses x ∨ x ∈ taken ∨ ∃ i, i < n ∧ x = pa + i * PGSIZE := by
  intro n
  induction n with
  | zero =>
    intro first pa s pt free seen _ _ hl hsp h
    cases h
    exact ⟨free, [], .refl hl, rfl, hsp, by simp⟩
  | succ n ih =>
    intro first pa s pt free seen hfirst hpa hl hsp h
    obtain ⟨found, s1, pt1, hw, ⟨-, hr, -⟩ | ⟨rfl, hv, h⟩⟩ := mapPagesFrom_inv h
    · cases hr
    have hnext : (first + PGSIZE) / PGSIZE = first / PGSIZE + 1 := by
      unfold PGSIZE
      omega
    obtain ⟨free1, t1, ht1, hlen1, hsp1, huse1⟩ := mapPage_takes perm rfl hpa hl hsp hw hv
    obtain ⟨free2, t2, ht2, hlen2, hsp2, huse2⟩ := ih (first + PGSIZE) (pa + PGSIZE) s1 _
      free1 _ (by unfold PGSIZE at *; omega) (by unfold PGSIZE at *; omega) ht1.listed hsp1 h
    rw [hnext] at hlen2 hsp2
    refine ⟨free2, t1 ++ t2, ht1.trans ht2, ?_, hsp2, fun x => ?_⟩
    · rw [length_append, hlen1, hlen2]
      rfl
    · rw [huse2, huse1, mem_append]
      constructor
      · rintro ((h | h | h) | h | ⟨i, hi, h⟩)
        · exact .inl h
        · exact .inr (.inl (.inl h))
        · exact .inr (.inr ⟨0, by omega, by omega⟩)
        · exact .inr (.inl (.inr h))
        · exact .inr (.inr ⟨i + 1, by omega, by rw [h, Nat.add_mul]; omega⟩)
      · rintro (h | (h | h) | ⟨i, hi, h⟩)
        · exact .inl (.inl h)
        · exact .inl (.inr (.inl h))
        · exact .inr (.inl h)
        · cases i with
          | zero => exact .inl (.inr (.inr (by omega)))
          | succ i =>
            refine .inr (.inr ⟨i, by omega, ?_⟩)
            rw [h, Nat.add_mul]
            omega

theorem userVmMap_takes (hpa : pa % PGSIZE = 0) (hl : s.Listed free) (hsp : pt.Spans seen)
    (h : userVmMap s pt va PGSIZE pa perm = .ok (s', pt')) :
    ∃ free' taken, Takes s s' free free' taken ∧
      taken.length = tablesFor seen (va / PGSIZE) (pagesAt va) ∧
      pt'.Spans (walked seen (va / PGSIZE) (pagesAt va)) ∧
      ∀ x, pt'.Uses x ↔ pt.Uses x ∨ x ∈ taken ∨ ∃ i, i < pagesAt va ∧ x = pa + i * PGSIZE := by
  obtain ⟨hround, hvpn, -⟩ := pages_of_va va
  have hmap := mapPagesFrom_takes _ _ _ _ _ _ _ hround hpa hl hsp (userVmMap_inv h)
  rwa [hvpn] at hmap

theorem pagesAt_of_aligned (hva : va % PGSIZE = 0) : pagesAt va = 1 := by
  unfold pagesAt PGSIZE at *
  omega

end

/-! ## Pages given back -/

section

/-- The pages that the `HEAP_SEGMENT` loop of `proc_clean_pagetable` frees. -/
def cleanedHeap (pt : PageTable) : Nat → Nat → List Nat
  | 0, _ => []
  | n + 1, top => lookupPa pt top :: cleanedHeap pt n (u64 (top + (2 ^ 64 - PGSIZE)))

/-- The pages that its other loop frees, and the page table it leaves. -/
def cleanedRegion : Nat → Nat → PageTable → List Nat × PageTable
  | 0, _, pt => ([], pt)
  | n + 1, va, pt =>
    if (pt.pte (va / PGSIZE)).perm.w ∧ (pt.pte (va / PGSIZE)).v then
      let r := cleanedRegion n (va + PGSIZE) (pt.invalidate (va / PGSIZE))
      ((pt.pte (va / PGSIZE)).pa :: r.1, r.2)
    else cleanedRegion n (va + PGSIZE) pt

/-- The pages that `proc_clean_pagetable` frees for the regions that are left. -/
def cleanedRegions (heapTop : Nat) : List MappedRegion → PageTable → List Nat
  | [], _ => []
  | r :: rs, pt =>
    if r.segType = .heap then
      cleanedHeap pt r.npages (u64 (heapTop + (2 ^ 64 - PGSIZE))) ++ cleanedRegions heapTop rs pt
    else
      (cleanedRegion r.npages r.va pt).1 ++
        cleanedRegions heapTop rs (cleanedRegion r.npages r.va pt).2

/-- The pages that `proc_clean_pagetable` frees, in this order. -/
def Space.cleanedPages (c : Space) : List Nat := cleanedRegions c.heapTop c.regions c.pagetable

def freePages : List Nat → Pmm T → Outcome (Pmm T)
  | [], s => .ok s
  | p :: ps, s => do
      let s ← freePage s p
      freePages ps s

/-- Those of the pages to which `free_page` finds no further reference. -/
def released (refs : T) : List Nat → List Nat
  | [] => []
  | p :: ps =>
    if (RefTable.erase refs p).1 = 0 then released (RefTable.erase refs p).2 ps
    else p :: released (RefTable.erase refs p).2 ps

variable {s s' : Pmm T} {pt pt' : PageTable} {free ps : List Nat} {c : Space}

theorem freePages_append (ps qs : List Nat) (s : Pmm T) :
    freePages (ps ++ qs) s = (freePages ps s >>= freePages qs) := by
  induction ps generalizing s with
  | nil => rfl
  | cons p ps ih =>
    simp only [cons_append, freePages, bind_assoc]
    congr 1
    funext s1
    exact ih s1

theorem cleanHeap_eq_freePages (pt : PageTable) (n top : Nat) (s : Pmm T) :
    cleanHeap pt n top s = freePages (cleanedHeap pt n top) s := by
  induction n generalizing top s with
  | zero => rfl
  | succ n ih =>
    simp only [cleanHeap, cleanedHeap, freePages]
    congr 1
    funext s1
    exact ih _ s1

theorem cleanRegion_freePages : ∀ (n va : Nat) (s : Pmm T) (pt : PageTable),
    cleanRegion n va s pt = .ok (s', pt') →
    freePages (cleanedRegion n va pt).1 s = .ok s' ∧ pt' = (cleanedRegion n va pt).2 := by
  intro n
  induction n with
  | zero =>
    intro va s pt h
    cases h
    exact ⟨rfl, rfl⟩
  | succ n ih =>
    intro va s pt h
    rw [cleanRegion] at h
    split at h
    · cases h
    · split at h
      · cases h
      · split at h
        · rename_i hfree
          rw [bind_eq_ok] at h
          obtain ⟨s1, hf, h⟩ := h
          obtain ⟨hrest, hpt⟩ := ih _ _ _ h
          rw [cleanedRegion, if_pos hfree]
          refine ⟨?_, hpt⟩
          simp only [freePages, bind_eq_ok]
          exact ⟨s1, hf, hrest⟩
        · rename_i hfree
          rw [cleanedRegion, if_neg hfree]
          exact ih _ _ _ h

theorem cleanRegions_freePages {heapTop : Nat} : ∀ (rs : List MappedRegion) (s : Pmm T)
    (pt : PageTable), cleanRegions heapTop rs s pt = .ok (s', pt') →
    freePages (cleanedRegions heapTop rs pt) s = .ok s' := by
  intro rs
  induction rs with
  | nil =>
    intro s pt h
    cases h
    rfl
  | cons r rs ih =>
    intro s pt h
    rw [cleanRegions] at h
    rw [cleanedRegions]
    split at h
    · rename_i hheap
      rw [bind_eq_ok] at h
      obtain ⟨s1, hc, h⟩ := h
      rw [if_pos hheap, freePages_append, ← cleanHeap_eq_freePages, bind_eq_ok]
      exact ⟨s1, hc, ih _ _ h⟩
    · rename_i hheap
      rw [bind_eq_ok] at h
      obtain ⟨⟨s1, pt1⟩, hc, h⟩ := h
      obtain ⟨hfree, rfl⟩ := cleanRegion_freePages _ _ _ _ hc
      rw [if_neg hheap, freePages_append, bind_eq_ok]
      exact ⟨s1, hfree, ih _ _ h⟩

theorem procClean_freePages (h : procCleanPagetable s c = .ok (s', pt')) :
    freePages c.cleanedPages s = .ok s' :=
  cleanRegions_freePages _ _ _ h

theorem freePage_range {pa : Nat} (h : freePage s pa = .ok s') :
    s'.freeMemStartAddr = s.freeMemStartAddr ∧ s'.freeMemEndAddr = s.freeMemEndAddr := by
  unfold freePage at h
  split at h
  · cases h
  · split at h
    · cases h
      exact ⟨rfl, rfl⟩
    · cases h
      exact ⟨rfl, rfl⟩

theorem freePages_managed : ∀ (ps : List Nat) (s : Pmm T), freePages ps s = .ok s' →
    ∀ p ∈ ps, s.Managed p := by
  intro ps
  induction ps with
  | nil =>
    intro s _ p hp
    cases hp
  | cons q ps ih =>
    intro s h p hp
    simp only [freePages, bind_eq_ok] at h
    obtain ⟨s1, hf, h⟩ := h
    rcases mem_cons.mp hp with rfl | hp
    · exact freePage_managed hf
    · obtain ⟨hst, hen⟩ := freePage_range hf
      have hm := ih s1 h p hp
      unfold Pmm.Managed at hm ⊢
      rwa [hst, hen] at hm

theorem released_subset : ∀ (ps : List Nat) (refs : T), released refs ps ⊆ ps := by
  intro ps
  induction ps with
  | nil => exact fun _ => List.Subset.refl _
  | cons p ps ih =>
    intro refs
    rw [released]
    split
    · exact subset_cons_of_subset _ (ih _)
    · exact cons_subset_cons _ (ih _)

structure Gave (s s' : Pmm T) (free back : List Nat) : Prop where
  listed : s'.Listed (back.reverse ++ free)
  mem : ∀ x, (∀ p ∈ back, x < p ∨ p + 8 ≤ x) → s'.mem x = s.mem x
  start_eq : s'.freeMemStartAddr = s.freeMemStartAddr
  end_eq : s'.freeMemEndAddr = s.freeMemEndAddr

theorem freePages_gave : ∀ (ps : List Nat) (s : Pmm T) (free : List Nat), s.Listed free →
    (released s.refs ps ++ free).Nodup → freePages ps s = .ok s' →
    Gave s s' free (released s.refs ps) := by
  intro ps
  induction ps with
  | nil =>
    intro s free hl _ h
    cases h
    exact ⟨hl, fun _ _ => rfl, rfl, rfl⟩
  | cons p ps ih =>
    intro s free hl hnd h
    simp only [freePages, bind_eq_ok] at h
    obtain ⟨s1, hf, h⟩ := h
    have hm := freePage_managed hf
    have hguard : ¬ (p % PGSIZE ≠ 0 ∨ p < s.freeMemStartAddr ∨ s.freeMemEndAddr ≤ p) := by
      obtain ⟨ha, hlo, hhi⟩ := hm
      omega
    rw [freePage, if_neg hguard] at hf
    rw [released] at hnd ⊢
    split at hf
    · rename_i hkept
      cases hf
      rw [if_pos hkept] at hnd ⊢
      have hl1 : Pmm.Listed { s with refs := (RefTable.erase s.refs p).2 } free :=
        ⟨hl.start_pos, hl.end_lt, hl.chain, hl.head_lt, hl.managed⟩
      have hg := ih _ _ hl1 hnd h
      exact ⟨hg.listed, hg.mem, hg.start_eq, hg.end_eq⟩
    · rename_i hgone
      cases hf
      rw [if_neg hgone] at hnd ⊢
      rw [cons_append, nodup_cons, mem_append, not_or] at hnd
      obtain ⟨⟨hp1, hp2⟩, hnd⟩ := hnd
      have hg := ih _ (p :: free) (hl.push hm hp2 _)
        (nodup_middle.mpr (nodup_cons.mpr ⟨by simp [hp1, hp2], hnd⟩)) h
      refine ⟨?_, fun x hx => ?_, hg.start_eq, hg.end_eq⟩
      · rw [reverse_cons, append_assoc]
        exact hg.listed
      · rw [hg.mem x fun q hq => hx q (.tail _ hq)]
        exact writeLE_of_outside (hx p mem_cons_self)

end

end CabbagePKE
