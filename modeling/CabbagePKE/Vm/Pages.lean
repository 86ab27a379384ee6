import CabbagePKE.Vm.Exec

/-!
# Heap pages and store faults

`sys_user_allocate_page`, `sys_user_free_page` and a user's store with its
page fault, against the books.
-/

namespace CabbagePKE

open Lib Function
open GuardedTable (Good)

variable {T : Type} [GuardedTable T]

variable {iso : Nat → Prop} {lo hi : Nat} {ent : Entries} {inHeap : Nat → Nat → Prop} {p : Nat}
  {c c' : Space} {s s' : Pmm T} {pt' : PageTable} {va : Nat}

structure RunsIn (ent : Entries) (inHeap : Nat → Nat → Prop) (p : Nat) (c : Space) : Prop where
  entries : ∀ v, ent p v = c.pagetable.entries v
  heap : ∀ v, inHeap p v ↔ c.InHeap v
  ok : c.Ok

theorem RunsIn.entry_eq (h : RunsIn ent inHeap p c) {v : Nat} (hv : v < dirSlot) :
    ent p v = c.pagetable.entry v := by rw [h.entries, entries_of_lt hv]

theorem RunsIn.withTable_eq (h : RunsIn ent inHeap p c) : withTable ent p c.pagetable = ent := by
  funext q v
  by_cases hq : q = p
  · subst hq
    rw [withTable_self, h.entries]
  · exact withTable_of_ne hq

/-! ## Growing and shrinking the heap -/

theorem Books.mapHeapPage (h : Books iso lo hi s ent inHeap []) (hr : RunsIn ent inHeap p c)
    {pa : Nat} {s1 : Pmm T} (ha : allocPage s = .ok (pa, s1))
    (hmap : userVmMap s1 c.pagetable va PGSIZE pa (protToType true true false true)
      = .ok (s', pt')) (hg : Good s'.refs) (hva : va % PGSIZE = 0)
    (hnull : iso p → s.gFreeMemList ≠ 0) (inHeap' : Nat → Nat → Prop)
    (hheap : ∀ q v, (ent q v).v = true → (inHeap' q v ↔ inHeap q v)) :
    Books iso lo hi s' (withTable ent p pt') inHeap' [] ∧ (pt'.entry stackVpn).v = true := by
  have hg1 := (userVmMap_grows hmap hg).1
  have h' := h.redraw hheap
  rw [← hr.withTable_eq] at h'
  obtain ⟨-, own, hb1, hpa, -⟩ := h'.alloc_or_null ha hg1
  obtain ⟨-, -, hent⟩ := userVmMap_entry hva hmap
  have hb2 := hb1.map_own hmap hg hva hpa rfl (fun h0 hiso => by
    have := hnull hiso
    rw [← allocPage_fst ha] at this
    exact absurd h0 this)
  refine ⟨hb2.own_subset (by simp) (by simp), ?_⟩
  rw [hent]
  split
  · rfl
  · exact hr.ok.stack

theorem Books.allocatePage (h : Books iso lo hi s ent inHeap []) (hr : RunsIn ent inHeap p c)
    (hs : sysUserAllocatePage s c = .ok (s', c')) (hg : Good s'.refs)
    (hapart : ∀ j, j ≠ 3 → (c.mappedInfo j).npages = 1 → (c.mappedInfo j).va ≠ c.heapTop)
    (hnull : iso p → s.gFreeMemList ≠ 0) :
    Books iso lo hi s' (withTable ent p c'.pagetable)
        (fun q v => if q = p then c'.InHeap v else inHeap q v) [] ∧ c'.Ok := by
  have hok := hr.ok
  have hal := hok.aligned
  have hble := hok.bottom_le
  obtain ⟨pa, s1, ha, hcase⟩ := sysUserAllocatePage_inv hs
  rcases hcase with ⟨va, rest, pt', hfp, -, hmap, rfl⟩ | ⟨hfp, pt', hmap, rfl⟩
  · -- a page the process gave back before
    obtain ⟨hva, -, -⟩ := hok.freed va (by simp [hfp])
    obtain ⟨hb, hstk⟩ := h.mapHeapPage hr ha hmap hg hva hnull
      (fun q v => if q = p then c.InHeap v else inHeap q v) (fun q v _ => by
        by_cases hq : q = p
        · subst hq
          rw [if_pos rfl, hr.heap]
        · rw [if_neg hq])
    exact ⟨hb, { hok with
      stack := hstk, region := hok.region
      freed := fun va' hva' => hok.freed va' (by simp [hfp, hva']) }⟩
  · -- one more page at the top
    obtain ⟨-, hlt, -⟩ := userVmMap_entry hal hmap
    have hun := userVmMap_unmapped hal hmap
    have htop : u64 (c.heapTop + PGSIZE) = c.heapTop + PGSIZE := by
      refine u64_of_lt ?_
      unfold MAXVA at hlt
      unfold PGSIZE
      omega
    have hne : c.heapTop ≠ USER_STACK_TOP - PGSIZE := by
      intro he
      have hstk : (c.pagetable.entry ((USER_STACK_TOP - PGSIZE) / PGSIZE)).v = true := hok.stack
      simp [he, hstk] at hun
    have htl : c.heapTop + PGSIZE ≤ USER_STACK_TOP - PGSIZE := by
      have htl := hok.top_le
      have hstk : (USER_STACK_TOP - PGSIZE) % PGSIZE = 0 := by decide
      unfold PGSIZE at *
      omega
    rw [htop]
    obtain ⟨hb, hstk⟩ := h.mapHeapPage hr ha hmap hg hal hnull
      (fun q v => if q = p then
        (c.heapBottom / PGSIZE ≤ v ∧ v < (c.heapTop + PGSIZE) / PGSIZE) else inHeap q v)
      (fun q v hv => by
        by_cases hq : q = p
        · subst hq
          rw [if_pos rfl, hr.heap]
          have hvne : v ≠ c.heapTop / PGSIZE := by
            rintro rfl
            simp [hr.entry_eq (vpn_lt_dirSlot hlt), hun] at hv
          unfold Space.InHeap
          unfold PGSIZE at *
          omega
        · rw [if_neg hq])
    refine ⟨hb, hok.setHeap hstk (by unfold PGSIZE at *; omega) (by omega)
      htl (fun j hj => update_of_ne hj _ _) ?_ (fun j hj hn hin => ?_) (by simp [hfp])⟩
    · have hnp : (c.heapTop - c.heapBottom) / PGSIZE + 1
          = (c.heapTop + PGSIZE - c.heapBottom) / PGSIZE := by
        unfold PGSIZE
        omega
      rw [update_self, hok.heapRegion.2, hnp]
    · obtain ⟨-, ⟨h0, -⟩ | ⟨-, hal', -, hout⟩⟩ := hok.region j hj
      · omega
      · have hne' := hapart j hj hn
        apply hout
        refine ⟨hin.1, ?_⟩
        unfold PGSIZE at *
        omega

theorem Books.freeHeapPage (h : Books iso lo hi s ent inHeap []) (hr : RunsIn ent inHeap p c)
    (hs : sysUserFreePage s c va = .ok (s', c')) (hva : va % PGSIZE = 0)
    (hin : c.InHeap (va / PGSIZE)) (hv : (c.pagetable.entry (va / PGSIZE)).v = true) :
    Books iso lo hi s' (withTable ent p c'.pagetable) inHeap [] ∧ c'.Ok := by
  obtain ⟨pt', hu, rfl⟩ := sysUserFreePage_inv hs
  obtain ⟨hlt, hwalks, hf, rfl⟩ := userVmUnmap_inv hu
  have hep := hr.entry_eq (vpn_lt_dirSlot hlt)
  have hinp := (hr.heap _).mpr hin
  have hv' : (ent p (va / PGSIZE)).v = true := by rw [hep]; exact hv
  rw [← hep] at hf
  have hent : ∀ v, (c.pagetable.invalidate (va / PGSIZE)).entry v
      = if v = va / PGSIZE then { c.pagetable.entry (va / PGSIZE) with v := false }
        else c.pagetable.entry v := by
    intro v
    rw [PageTable.invalidate, entry_set _ hwalks, entry_of_walks hwalks]
  have hset := withTable_set ent p hent rfl (vpn_lt_dirSlot hlt)
  rw [hr.withTable_eq] at hset
  have hcnt : (ent p (va / PGSIZE)).counted = true := by
    obtain ⟨isHeap, free, hl⟩ := h
    exact hl.heapCounted p _ hv' hinp
  refine ⟨h.release hv' hcnt (h.heap_counted hv' hinp hf) hf (fun q w hvw => ?_), ?_⟩
  · rw [hset] at hvw ⊢
    split at hvw
    · cases hvw
    · rename_i hne
      rw [if_neg hne]
      exact ⟨rfl, hne⟩
  · have hlow := hr.ok.inHeap_lt hin
    refine { hr.ok with stack := ?_, region := hr.ok.region, freed := fun va' hva' => ?_ }
    · rw [hent, if_neg (by omega)]
      exact hr.ok.stack
    · rcases List.mem_cons.mp hva' with rfl | hmem
      · have hal := hr.ok.aligned
        have hbot := hr.ok.bottom
        obtain ⟨hlo, hhi⟩ := hin
        dsimp only
        rw [hbot] at hlo ⊢
        unfold USER_FREE_ADDRESS_START PGSIZE at *
        omega
      · exact hr.ok.freed va' hmem

/-! ## Stores -/

/-- A store keeps the books, unless it faults on a page that was given back
while it was shared: its entry still carries the copy-on-write mark. -/
theorem Books.userStore {sp : Nat} {b : UInt8} (h : Books iso lo hi s ent inHeap [])
    (hr : RunsIn ent inHeap p c) (hs : userStore s c sp va b = .ok (s', c'))
    (hg : Good s'.refs)
    (hlive : ¬ stackFault sp va → (c.pagetable.entry (va / PGSIZE)).rsw = 1 →
      (c.pagetable.entry (va / PGSIZE)).v = true) :
    Books iso lo hi s' (withTable ent p c'.pagetable) inHeap [] ∧ c'.Ok ∧
      ∀ v, c'.InHeap v ↔ c.InHeap v := by
  rcases userStore_inv hs with ⟨hst, rfl, rfl⟩ | ⟨-, -, pa, s1, pt1, ha, hpa, hw, rfl⟩ |
    ⟨-, hsf, hlt, hwalks, hrsw, s1, pa, hf, ha, hpa, rfl⟩
  · obtain ⟨hlt, he, hv, -⟩ := translate_of_storable hst
    have hep := hr.entry_eq (vpn_lt_dirSlot hlt)
    rw [hr.withTable_eq, he]
    refine ⟨?_, hr.ok, fun _ => Iff.rfl⟩
    refine h.write_entry (p := p) (v := va / PGSIZE) (by rw [hep]; exact hv) (fun x hx => ?_)
    rw [hep] at hx
    exact fillBytes_outside (by
      have hmod := Nat.mod_lt va (show 0 < PGSIZE by decide)
      omega)
  · -- a page for the stack
    have hg1 := (pageWalk_grows hw hg).1
    have hb1 := (h.alloc ha hg1 hpa).grows (pageWalk_grows hw) hg
    obtain ⟨hent, hwalks, hlt, hdir⟩ := pageWalk_entry hw
    have hfr := (hb1.own_frame (.head ..)).1
    have hent' : ∀ v, (pt1.set (va / PGSIZE) (.leaf pa (protToType true true false true))).entry v
        = if v = va / PGSIZE then .leaf pa (protToType true true false true)
          else c.pagetable.entry v := by
      intro v
      rw [entry_set _ (hwalks rfl), hent]
    have hset := withTable_set ent p hent' hdir (vpn_lt_dirSlot hlt)
    rw [hr.withTable_eq] at hset
    have hpad := leaf_pa (protToType true true false true) hfr.1
    have hb2 := hb1.set_own hset (by rw [hpad]; simp) (leaf_counted pa rfl) leaf_not_cow
    refine ⟨hb2.own_subset (by simp) (by simp), hr.ok.setTable ?_, fun _ => Iff.rfl⟩
    rw [hent']
    split
    · rfl
    · exact hr.ok.stack
  · -- a page of its own in place of a shared one
    have hv := hlive hsf hrsw
    have hep := hr.entry_eq (vpn_lt_dirSlot hlt)
    have hv' : (ent p (va / PGSIZE)).v = true := by rw [hep]; exact hv
    have hrsw' : (ent p (va / PGSIZE)).rsw = 1 := by rw [hep]; exact hrsw
    have hin : inHeap p (va / PGSIZE) := by
      obtain ⟨isHeap, free, hl⟩ := h
      exact hl.cowHeap p _ hv' hrsw'
    rw [← hep] at hf
    have hb1 : Books iso lo hi s1
        (fun q w => if q = p ∧ w = va / PGSIZE then Pte.zero else ent q w) inHeap [] := by
      refine h.release hv' (by simp [Pte.counted, hrsw']) (h.heap_counted hv' hin hf) hf
        (fun q w hvw => ?_)
      split at hvw
      · exact absurd hvw (by decide)
      · rename_i hne
        rw [if_neg hne]
        exact ⟨rfl, hne⟩
    have hb2 := hb1.alloc ha hg hpa
    have hfr := (hb2.own_frame (.head ..)).1
    have hent' : ∀ v, (c.pagetable.set (va / PGSIZE)
        (.leaf pa (protToType true true false true))).entry v
        = if v = va / PGSIZE then .leaf pa (protToType true true false true)
          else c.pagetable.entry v := fun v => entry_set _ hwalks v
    have hset := withTable_set ent p hent' rfl (vpn_lt_dirSlot hlt)
    rw [hr.withTable_eq] at hset
    have hpad := leaf_pa (protToType true true false true) hfr.1
    have hset' : ∀ q w, withTable ent p (c.pagetable.set (va / PGSIZE)
        (.leaf pa (protToType true true false true))) q w
        = if q = p ∧ w = va / PGSIZE then .leaf pa (protToType true true false true)
          else if q = p ∧ w = va / PGSIZE then Pte.zero else ent q w := by
      intro q w
      rw [hset]
      split <;> rfl
    have hb3 := hb2.set_own hset' (by rw [hpad]; simp) (leaf_counted pa rfl) leaf_not_cow
    refine ⟨hb3.own_subset (by simp) (by simp), hr.ok.setTable ?_, fun _ => Iff.rfl⟩
    rw [hent']
    split
    · rfl
    · exact hr.ok.stack

end CabbagePKE
