import CabbagePKE.Pmm.Guarded
import Mathlib.Data.Finset.Card

/-!
# Objects that lie on pages

A part of the kernel that keeps each of its objects on a page takes a page
when the object is made and frees it when the object goes. Nothing is lost as
long as it frees only what it holds: the free pages and the objects held add
up to the same number (`Pmm.Holds`). The objects are of any type.
-/

namespace CabbagePKE

open Lib Function List

section

variable {T : Type} {s : Pmm T} {free : List Nat}

def Pmm.freeCount (s : Pmm T) : Nat :=
  (s.freeList ((s.freeMemEndAddr - s.freeMemStartAddr) / PGSIZE + 1)).length

theorem Pmm.Listed.length_le {n : Nat} (h : s.Listed free)
    (hn : s.freeMemEndAddr ≤ s.freeMemStartAddr + n * PGSIZE) : free.length ≤ n := by
  have hnd : (free.map (fun p => (p - s.freeMemStartAddr) / PGSIZE)).Nodup := by
    refine h.chain.nodup.map_on ?_
    intro p hp q hq heq
    obtain ⟨hpa, hplo, -⟩ := h.managed p hp
    obtain ⟨hqa, hqlo, -⟩ := h.managed q hq
    unfold PGSIZE at *
    omega
  have hsub : free.map (fun p => (p - s.freeMemStartAddr) / PGSIZE) ⊆ range n := by
    intro i hi
    obtain ⟨p, hp, rfl⟩ := mem_map.mp hi
    obtain ⟨-, hplo, hphi⟩ := h.managed p hp
    rw [mem_range]
    unfold PGSIZE at *
    omega
  have hle := (subperm_of_subset hnd hsub).length_le
  rwa [length_map, length_range] at hle

theorem Pmm.Listed.freeCount_eq (h : s.Listed free) : s.freeCount = free.length := by
  have hlen : free.length ≤ (s.freeMemEndAddr - s.freeMemStartAddr) / PGSIZE + 1 := by
    refine h.length_le ?_
    unfold PGSIZE
    omega
  unfold Pmm.freeCount Pmm.freeList
  rw [h.chain.walk_eq hlen]

end

section

open GuardedTable (Good)

variable {T ι : Type} [GuardedTable T] [DecidableEq ι] {s s' : Pmm T} {page : ι → Nat}
  {own : Finset ι} {total a : Nat} {x : ι}

/-- The objects in `own` lie on pages of their own, `page x` for `x`, which nobody shares, and
with the free pages there are `total` of them; all this if the table has kept its counts. -/
def Pmm.Holds (s : Pmm T) (page : ι → Nat) (own : Finset ι) (total : Nat) : Prop :=
  Good s.refs → ∃ free, s.Wf free ∧ free.length + own.card = total ∧
    (∀ x ∈ own, s.Managed (page x) ∧ RefTable.count s.refs (page x) = 1) ∧ Set.InjOn page own

omit [DecidableEq ι] in
theorem Pmm.Wf.holds {free : List Nat} (h : s.Wf free) (page : ι → Nat) :
    s.Holds page ∅ s.freeCount := by
  intro _
  refine ⟨free, h, ?_, by simp, by simp⟩
  rw [h.toListed.freeCount_eq, Finset.card_empty, Nat.add_zero]

omit [DecidableEq ι] in
theorem Pmm.Holds.freeCount_le {kept : Finset ι} (h : s.Holds page own total) (hg : Good s.refs)
    (hkept : kept ⊆ own) : s.freeCount + kept.card ≤ total := by
  obtain ⟨free, hw, hlen, -⟩ := h hg
  have hcard := Finset.card_le_card hkept
  rw [hw.toListed.freeCount_eq]
  omega

theorem Pmm.Holds.alloc (h : s.Holds page own total) (hx : x ∉ own)
    (ha : allocPage s = .ok (a, s')) (ha0 : a ≠ 0) :
    s'.Holds (update page x a) (insert x own) total := by
  intro hg
  obtain ⟨hgs, hplace⟩ := allocPage_good ha hg
  obtain ⟨free, hw, hlen, hown, hinj⟩ := h hgs
  have hhead := allocPage_fst ha
  cases free with
  | nil =>
    have hz : s.gFreeMemList = 0 := by simpa using hw.chain
    exact absurd (hhead.trans hz) ha0
  | cons p free =>
    have hp : s.gFreeMemList = p := (toPtr_eq_some.mp hw.chain.1).1
    rw [hp] at hplace
    have hman := hw.managed p (by simp)
    have hzero := hw.unreferenced p (by simp)
    obtain ⟨s1, ha1, hw1, -, hst, hen, hcnt⟩ := allocPage_cons hw hplace
    cases ha1.symm.trans ha
    have hmanaged : ∀ q, s.Managed q → s'.Managed q := by
      intro q hq
      unfold Pmm.Managed at hq ⊢
      rwa [hst, hen]
    -- no object lies on the page yet: its count was zero
    have hne : ∀ y ∈ own, page y ≠ a := by
      intro y hy heq
      have hone := (hown y hy).2
      rw [heq] at hone
      omega
    have hupd : ∀ y ∈ own, update page x a y = page y := by
      intro y hy
      refine update_of_ne ?_ a page
      rintro rfl
      exact hx hy
    refine ⟨free, hw1, ?_, ?_, ?_⟩
    · rw [Finset.card_insert_of_notMem hx]
      rw [length_cons] at hlen
      omega
    · intro y hy
      rcases Finset.mem_insert.mp hy with rfl | hy
      · rw [update_self, hcnt, hzero, if_pos rfl]
        exact ⟨hmanaged a hman, rfl⟩
      · rw [hupd y hy, hcnt, if_neg (hne y hy)]
        exact ⟨hmanaged _ (hown y hy).1, (hown y hy).2⟩
    · rw [Finset.coe_insert]
      refine (Set.injOn_insert (by simpa using hx)).mpr ⟨?_, ?_⟩
      · intro y hy z hz heq
        rw [hupd y hy, hupd z hz] at heq
        exact hinj hy hz heq
      · rintro ⟨y, hy, heq⟩
        rw [update_self, hupd y hy] at heq
        exact hne y hy heq

theorem Pmm.Holds.free (h : s.Holds page own total) (hx : x ∈ own)
    (hf : freePage s (page x) = .ok s') : s'.Holds page (own.erase x) total := by
  intro hg
  obtain ⟨free, hw, hlen, hown, hinj⟩ := h (freePage_good hf hg)
  obtain ⟨hman, hone⟩ := hown x hx
  have hnew : page x ∉ free := by
    intro hmem
    have hzero := hw.unreferenced _ hmem
    omega
  obtain ⟨s1, hf1, hw1, -, hst, hen, hcnt⟩ := freePage_last hw hman (by omega) hnew
  cases hf1.symm.trans hf
  refine ⟨page x :: free, hw1, ?_, ?_, ?_⟩
  · have hpos := Finset.card_pos.mpr ⟨x, hx⟩
    rw [Finset.card_erase_of_mem hx, length_cons]
    omega
  · intro y hy
    obtain ⟨hyx, hy⟩ := Finset.mem_erase.mp hy
    have hne : page y ≠ page x := fun heq => hyx (hinj hy hx heq)
    rw [hcnt, if_neg hne]
    refine ⟨?_, (hown y hy).2⟩
    have hmy := (hown y hy).1
    unfold Pmm.Managed at hmy ⊢
    rwa [hst, hen]
  · exact hinj.mono (by simp)

end

end CabbagePKE
