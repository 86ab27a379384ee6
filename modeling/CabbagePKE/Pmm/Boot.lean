import CabbagePKE.Pmm.HandOut

/-!
# The free list after boot

`create_freepage_list` lists the pages of the machine; its loop stops one page
early when the memory ends at a page boundary.
-/

namespace CabbagePKE

open Lib

/-- All pages between `start` and `stop` are on the list exactly if `stop` is not a page boundary
or no page fits; a page that ends at `stop` is left out. -/
theorem freepage_list_complete_iff {start stop : Nat} {s : Pmm RefList} (hpos : 0 < start)
    (_hle : start ≤ stop) (hlt : stop + PGSIZE ≤ 2 ^ 64) (hstart : s.freeMemStartAddr = start)
    (hstop : s.freeMemEndAddr = stop) (hrefs : s.refs = []) :
    ∃ s' free, createFreepageList start stop s = .ok s' ∧ s'.Listed free ∧ free.Nodup ∧
      (∀ p, p ∈ free ↔ p % PGSIZE = 0 ∧ start ≤ p ∧ p + PGSIZE < stop) ∧
      ((∀ p, p ∈ free ↔ p % PGSIZE = 0 ∧ start ≤ p ∧ p + PGSIZE ≤ stop) ↔
        ¬ (stop % PGSIZE = 0 ∧ start + PGSIZE ≤ stop)) := by
  obtain ⟨s', hrun, hw, -⟩ := createFreepageList_spec hpos (by unfold PGSIZE at hlt; omega) hstart
    hstop (by rw [hrefs]; exact ⟨List.Pairwise.nil, by simp⟩) (by rw [hrefs]; exact fun _ => rfl)
  have hmem : ∀ p, p ∈ descending (ROUNDUP start PGSIZE)
      ((stop - 1 - ROUNDUP start PGSIZE) / PGSIZE) ↔
        p % PGSIZE = 0 ∧ start ≤ p ∧ p + PGSIZE < stop := by
    intro p
    rw [mem_descending]
    unfold ROUNDUP PGSIZE
    constructor
    · rintro ⟨i, hi, rfl⟩
      omega
    · rintro ⟨hp, hlo, hhi⟩
      exact ⟨(p - ((start - 1) / 4096 + 1) * 4096) / 4096, by omega, by omega⟩
  refine ⟨s', _, hrun, hw.toListed, hw.chain.nodup, hmem, ?_⟩
  simp only [hmem]
  constructor
  · rintro hall ⟨hend, hroom⟩
    have hlast := (hall (stop - PGSIZE)).mpr
      ⟨by unfold PGSIZE at *; omega, by omega, by unfold PGSIZE at *; omega⟩
    omega
  · intro hno p
    unfold PGSIZE at *
    omega

/-- Memory that ends inside a page. -/
theorem freepage_list_complete_inside :
    ∃ s' free, createFreepageList 0x80001000 0x80003800
        ⟨fun _ => 0, 0, ([] : RefList), 0x80001000, 0x80003800⟩ = .ok s' ∧ s'.Listed free ∧
      ∀ p, p ∈ free ↔ p % PGSIZE = 0 ∧ 0x80001000 ≤ p ∧ p + PGSIZE ≤ 0x80003800 := by
  obtain ⟨s', free, hrun, hl, -, -, hiff⟩ := freepage_list_complete_iff
    (s := ⟨fun _ => 0, 0, [], 0x80001000, 0x80003800⟩) (by decide) (by decide) (by decide) rfl rfl
    rfl
  exact ⟨s', free, hrun, hl, hiff.mpr (by decide)⟩

/-- The page at `0x80003000` ends where the memory ends and is not listed. -/
theorem freepage_list_misses_last :
    ∃ s', createFreepageList 0x80001000 0x80004000
        ⟨fun _ => 0, 0, ([] : RefList), 0x80001000, 0x80004000⟩ = .ok s' ∧
      s'.Listed [0x80002000, 0x80001000] := by
  decide +kernel

end CabbagePKE
