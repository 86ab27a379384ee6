import CabbagePKE.Pmm.Guarded

/-!
# Pages freed while they are free

`free_page` trusts its caller: a managed page on its last reference, or on none,
goes to the front of the list, wherever it is. A page that is on the list
already closes the list to a cycle, and there is no free list any more.
-/

namespace CabbagePKE

open Lib

variable {T : Type} [RefTable T] {s s' : Pmm T} {pa : Nat} {free free' : List Nat}

/-- `free_page(pa)` puts the page on the list: it is managed, and `ref_erase`
leaves it without a reference. -/
def Pmm.LastRef (s : Pmm T) (pa : Nat) : Prop :=
  s.Managed pa ∧ (RefTable.erase s.refs pa).1 ≠ 0

instance Pmm.LastRef.decidable (s : Pmm T) (pa : Nat) : Decidable (s.LastRef pa) :=
  inferInstanceAs (Decidable (_ ∧ _))

def Pmm.pushed (s : Pmm T) (pa : Nat) : Pmm T :=
  { s with
    refs := (RefTable.erase s.refs pa).2
    mem := writeLE s.mem pa 8 s.gFreeMemList
    gFreeMemList := pa }

theorem freePage_of_lastRef (h : s.LastRef pa) : freePage s pa = .ok (s.pushed pa) := by
  obtain ⟨⟨ha, hlo, hhi⟩, hlast⟩ := h
  rw [freePage, if_neg (by omega), if_neg hlast]
  rfl

theorem freePage_of_not_lastRef (hl : s.Listed free) (h : ¬ s.LastRef pa)
    (hf : freePage s pa = .ok s') :
    s'.Listed free ∧ s'.mem = s.mem ∧ s' = { s with refs := (RefTable.erase s.refs pa).2 } := by
  have hm := freePage_managed hf
  have hmore : (RefTable.erase s.refs pa).1 = 0 := by
    by_contra hlast
    exact h ⟨hm, hlast⟩
  obtain ⟨ha, hlo, hhi⟩ := hm
  rw [freePage, if_neg (by omega), if_pos hmore] at hf
  cases hf
  exact ⟨⟨hl.start_pos, hl.end_lt, hl.chain, hl.head_lt, hl.managed⟩, rfl, rfl⟩

theorem Pmm.Listed.pushed_next (hl : s.Listed free) (pa : Nat) :
    nodeNext (s.pushed pa).mem pa = toPtr s.gFreeMemList := by
  have hlt : s.gFreeMemList < 256 ^ 8 := by simpa using hl.head_lt
  rw [nodeNext, Pmm.pushed, readLE_writeLE_self _ _ hlt]

theorem Pmm.pushed_next_of_ne (s : Pmm T) {q : Nat} (ha : pa % PGSIZE = 0) (hq : q % PGSIZE = 0)
    (hne : q ≠ pa) : nodeNext (s.pushed pa).mem q = nodeNext s.mem q := by
  have hap := page_apart ha hq (Ne.symm hne)
  unfold PGSIZE at hap
  rw [nodeNext, nodeNext, Pmm.pushed, readLE_writeLE_of_disjoint (by omega)]

theorem Pmm.Listed.pushed_linked (hl : s.Listed free) (hmem : pa ∈ free) :
    Linked (nodeNext (s.pushed pa).mem) (toPtr s.gFreeMemList) pa := by
  obtain ⟨before, after, rfl⟩ := List.append_of_mem hmem
  refine hl.chain.linked_append fun q hq => ?_
  refine s.pushed_next_of_ne (hl.managed pa (by simp)).1 (hl.managed q (by simp [hq])).1 ?_
  rintro rfl
  exact (List.nodup_append.mp hl.chain.nodup).2.2 q hq q (by simp) rfl

theorem Pmm.Listed.not_listed_pushed (hl : s.Listed free) (hmem : pa ∈ free) :
    ¬ (s.pushed pa).Listed free' := by
  intro hc
  have hpa : toPtr (s.pushed pa).gFreeMemList = some pa := toPtr_eq_some.mpr ⟨rfl, hl.pos hmem⟩
  have hchain := hc.chain
  rw [hpa] at hchain
  refine Linked.not_chain ?_ hchain
  rw [hl.pushed_next pa]
  exact hl.pushed_linked hmem

theorem freePage_sound_iff (hl : s.Listed free) (hf : freePage s pa = .ok s') :
    (∃ free', s'.Listed free') ↔ (s.LastRef pa → pa ∉ free) := by
  by_cases hlast : s.LastRef pa
  · rw [freePage_of_lastRef hlast] at hf
    cases hf
    constructor
    · rintro ⟨free', hl'⟩ _ hmem
      exact hl.not_listed_pushed hmem hl'
    · intro hnew
      exact ⟨pa :: free, hl.push hlast.1 (hnew hlast) _⟩
  · exact ⟨fun _ h => absurd h hlast, fun _ => ⟨free, (freePage_of_not_lastRef hl hlast hf).1⟩⟩

theorem freePage_kept_iff (hl : s.Listed free) (hf : freePage s pa = .ok s') :
    s'.Listed free ↔ ¬ s.LastRef pa := by
  constructor
  · intro hl' hlast
    rw [freePage_of_lastRef hlast] at hf
    cases hf
    have hpos := hl.start_pos
    have hlo := hlast.1.2.1
    have hhead : toPtr (s.pushed pa).gFreeMemList = some pa := toPtr_eq_some.mpr ⟨rfl, by omega⟩
    have hchain := hl'.chain
    rw [hhead] at hchain
    exact hl.not_listed_pushed hchain.head_mem hl'
  · intro hlast
    exact (freePage_of_not_lastRef hl hlast hf).1

end CabbagePKE
