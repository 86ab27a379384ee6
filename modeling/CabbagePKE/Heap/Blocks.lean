import CabbagePKE.Heap.Mapped
import CabbagePKE.Lib.Extents

/-!
# The blocks of the heap

`HeapView` reads the heads at a list of addresses as two functions, the
capacities and the links, and gives each store into a head as an update
of one of them. `Blocks` is the layout the allocator works on: the free
list and the blocks in use cover disjoint parts of the heap.
-/

namespace CabbagePKE

open Lib Function List

variable {T : Type}

/-- The heads at the addresses `L` hold the capacities `cap` and the links
`next`. -/
structure HeapView (s : HeapProc T) (pages L : List Nat) (cap next : Nat → Nat) : Prop where
  mapped : s.Mapped pages
  heads : ∀ b ∈ L, s.HeadAt b
  apart : ∀ b ∈ L, ∀ c ∈ L, b ≠ c → HeadsApart b c
  cap_eq : ∀ b ∈ L, capacityOf s b = cap b
  next_eq : ∀ b ∈ L, nextOf s b = next b

def links (next : Nat → Nat) (b : Nat) : Option Nat := toPtr (next b)

section

variable {s : HeapProc T} {pages L : List Nat} {cap next : Nat → Nat} {b v : Nat}

theorem HeapView.setCapacity_ok (h : HeapView s pages L cap next) (hb : b ∈ L) (hv : v < 2 ^ 64) :
    ∃ s', setCapacity s b v = .ok s' ∧ HeapView s' pages L (update cap b v) next ∧
      s'.heapTop = s.heapTop ∧ s'.firstFreeBlock = s.firstFreeBlock := by
  obtain ⟨s', heq, hw, hcap, hnext⟩ := setCapacity_spec h.mapped (h.heads b hb) hv
  refine ⟨s', heq, ⟨hw.mapped h.mapped, ?_, h.apart, ?_, ?_⟩, hw.top_eq, hw.first_eq⟩
  · intro c hc
    exact hw.headAt (h.heads c hc)
  · intro c hc
    by_cases hcb : c = b
    · rw [hcb, update_self, hcap]
    · rw [update_of_ne hcb, hw.capacity_eq (h.heads c hc)
        (h.apart b hb c hc (Ne.symm hcb)), h.cap_eq c hc]
  · intro c hc
    by_cases hcb : c = b
    · rw [hcb, hnext, h.next_eq b hb]
    · rw [hw.next_eq (h.heads c hc) (h.apart b hb c hc (Ne.symm hcb)), h.next_eq c hc]

theorem HeapView.setNext_ok (h : HeapView s pages L cap next) (hb : b ∈ L) (hv : v < 2 ^ 64) :
    ∃ s', setNext s b v = .ok s' ∧ HeapView s' pages L cap (update next b v) ∧
      s'.heapTop = s.heapTop ∧ s'.firstFreeBlock = s.firstFreeBlock := by
  obtain ⟨s', heq, hw, hnext, hcap⟩ := setNext_spec h.mapped (h.heads b hb) hv
  refine ⟨s', heq, ⟨hw.mapped h.mapped, ?_, h.apart, ?_, ?_⟩, hw.top_eq, hw.first_eq⟩
  · intro c hc
    exact hw.headAt (h.heads c hc)
  · intro c hc
    by_cases hcb : c = b
    · rw [hcb, hcap, h.cap_eq b hb]
    · rw [hw.capacity_eq (h.heads c hc) (h.apart b hb c hc (Ne.symm hcb)), h.cap_eq c hc]
  · intro c hc
    by_cases hcb : c = b
    · rw [hcb, update_self, hnext]
    · rw [update_of_ne hcb, hw.next_eq (h.heads c hc)
        (h.apart b hb c hc (Ne.symm hcb)), h.next_eq c hc]

theorem HeapView.setFirst (h : HeapView s pages L cap next) (va : Nat) :
    HeapView { s with firstFreeBlock := va } pages L cap next := by
  have hm := h.mapped
  refine ⟨⟨hm.listed, hm.top_mod, hm.top_ge, hm.top_le, ?_, hm.inj⟩, ?_, h.apart, h.cap_eq,
    h.next_eq⟩
  · intro vpn hv
    have hf := hm.frame vpn hv
    exact ⟨hf.valid, hf.readable, hf.aligned, hf.pos, hf.used⟩
  · intro b hb
    have hh := h.heads b hb
    exact ⟨hh.lower, hh.upper, hh.inPage⟩

theorem HeapView.grow [RefTable T] {s' : HeapProc T} {va : Nat}
    (h : HeapView s pages L cap next) (ha : addHeapPage s = .ok (va, s')) :
    ∃ pages', va = s.heapTop ∧ s'.heapTop = s.heapTop + PGSIZE ∧
      s'.firstFreeBlock = s.firstFreeBlock ∧ HeapView s' pages' L cap next := by
  obtain ⟨pages', hva, htop, hfirst, hm, hkeep⟩ := addHeapPage_spec h.mapped ha
  refine ⟨pages', hva, htop, hfirst, hm, ?_, h.apart, ?_, ?_⟩
  · intro b hb
    have hh := h.heads b hb
    have hup := hh.upper
    exact ⟨hh.lower, by omega, hh.inPage⟩
  · intro b hb
    rw [(hkeep b (h.heads b hb)).1, h.cap_eq b hb]
  · intro b hb
    rw [(hkeep b (h.heads b hb)).2, h.next_eq b hb]

theorem HeapView.cons (h : HeapView s pages L cap next) (hb : s.HeadAt b) (hnew : b ∉ L)
    (hap : ∀ c ∈ L, HeadsApart b c) :
    HeapView s pages (b :: L) (update cap b (capacityOf s b)) (update next b (nextOf s b)) := by
  have hne : ∀ c ∈ L, c ≠ b := fun c hc heq => hnew (heq ▸ hc)
  refine ⟨h.mapped, ?_, ?_, ?_, ?_⟩
  · intro c hc
    rcases mem_cons.mp hc with rfl | hc
    · exact hb
    · exact h.heads c hc
  · intro c hc d hd hcd
    rcases mem_cons.mp hc with rfl | hc'
    · rcases mem_cons.mp hd with rfl | hd'
      · exact absurd rfl hcd
      · exact hap d hd'
    · rcases mem_cons.mp hd with rfl | hd'
      · exact Or.symm (hap c hc')
      · exact h.apart c hc' d hd' hcd
  · intro c hc
    rcases mem_cons.mp hc with rfl | hc
    · rw [update_self]
    · rw [update_of_ne (hne c hc), h.cap_eq c hc]
  · intro c hc
    rcases mem_cons.mp hc with rfl | hc
    · rw [update_self]
    · rw [update_of_ne (hne c hc), h.next_eq c hc]

theorem HeapView.ne_zero (h : HeapView s pages L cap next) (hb : b ∈ L) : b ≠ 0 := by
  have hlo := (h.heads b hb).lower
  unfold USER_FREE_ADDRESS_START PGSIZE at hlo
  omega

theorem HeapView.linkAfter_ok {before rest new : List Nat} {va : Nat}
    (h : HeapView s pages L cap next)
    (hc : Chain (links next) (toPtr s.firstFreeBlock) (before ++ rest))
    (hin : ∀ b ∈ before, b ∈ L) (hva : va < 2 ^ 64)
    (hnew : Chain (links next) (toPtr va) new) (hdis : ∀ b ∈ before, b ∉ new) :
    ∃ s' next', linkAfter s (before.getLast?.getD 0) va = .ok s' ∧
      HeapView s' pages L cap next' ∧ s'.heapTop = s.heapTop ∧
      Chain (links next') (toPtr s'.firstFreeBlock) (before ++ new) := by
  rcases eq_nil_or_concat before with rfl | ⟨before, q, rfl⟩
  · exact ⟨_, next, rfl, h.setFirst va, rfl, hnew⟩
  · have hq : q ∈ L := hin q (by simp)
    obtain ⟨s', heq, hv, htop, hfirst⟩ := h.setNext_ok hq hva
    have hq0 : q ≠ 0 := h.ne_zero hq
    refine ⟨s', _, ?_, hv, htop, ?_⟩
    · simp [linkAfter, hq0, heq]
    · rw [hfirst]
      simp only [concat_eq_append, append_assoc, singleton_append] at hc ⊢
      have hnd := hc.nodup
      refine hc.relink ?_ ?_
      · intro a ha
        have hne : a ≠ q := by
          rintro rfl
          have := disjoint_of_nodup_append hnd ha
          simp at this
        simp [links, update_of_ne hne]
      · simp only [links, update_self]
        refine hnew.congr ?_
        intro a ha
        have hne : a ≠ q := by
          rintro rfl
          exact hdis a (by simp) ha
        simp [links, update_of_ne hne]

end

/-! ## The layout -/

/-- The free list is `free`, and together with the blocks `used` it covers
disjoint parts of the heap. -/
structure HeapProc.Blocks (s : HeapProc T) (pages free used : List Nat) : Prop where
  mapped : s.Mapped pages
  chain : Chain (links (nextOf s)) (toPtr s.firstFreeBlock) free
  inPage : ∀ b ∈ free ++ used, b % PGSIZE + headSize ≤ PGSIZE
  size : ∀ b ∈ free ++ used, headSize ≤ capacityOf s b
  layout : Layout (capacityOf s) USER_FREE_ADDRESS_START s.heapTop (free ++ used)

section

variable {s : HeapProc T} {pages free used L : List Nat} {cap next : Nat → Nat} {b c : Nat}

theorem headsApart_of_layout {size : Nat → Nat} {lo hi : Nat} (h : Layout size lo hi L)
    (hs : ∀ b ∈ L, headSize ≤ size b) : ∀ b ∈ L, ∀ c ∈ L, b ≠ c → HeadsApart b c := by
  intro b hb c hc hne
  have hsb := hs b hb
  have hsc := hs c hc
  have hap := h.apart_of_ne hb hc hne
  unfold Apart at hap
  unfold HeadsApart
  omega

theorem HeapProc.Blocks.view (h : s.Blocks pages free used) :
    HeapView s pages (free ++ used) (capacityOf s) (nextOf s) := by
  refine ⟨h.mapped, ?_, ?_, fun _ _ => rfl, fun _ _ => rfl⟩
  · intro b hb
    have h1 := h.layout.upper b hb
    have h2 := h.size b hb
    exact ⟨h.layout.lower b hb, by omega, h.inPage b hb⟩
  · exact headsApart_of_layout h.layout h.size

theorem HeapProc.Blocks.permUsed {used' : List Nat} (h : s.Blocks pages free used)
    (hp : used.Perm used') : s.Blocks pages free used' := by
  have hp' : (free ++ used).Perm (free ++ used') := hp.append_left free
  exact ⟨h.mapped, h.chain, fun b hb => h.inPage b (hp'.mem_iff.mpr hb),
    fun b hb => h.size b (hp'.mem_iff.mpr hb), h.layout.perm hp'⟩

theorem HeapProc.Blocks.first_lt (h : s.Blocks pages free used) : s.firstFreeBlock < 2 ^ 64 := by
  have hc := h.chain
  cases free with
  | nil =>
    rw [toPtr_eq_none.mp hc]
    decide
  | cons b free =>
    obtain ⟨heq, -⟩ := toPtr_eq_some.mp hc.1
    have hup := (h.view.heads b (by simp)).upper
    have htop := h.mapped.top_le
    unfold MAXVA at htop
    omega

theorem HeapView.blocks (h : HeapView s pages L cap next)
    (hc : Chain (links next) (toPtr s.firstFreeBlock) free)
    (hin : ∀ b ∈ free ++ used, b ∈ L) (hsize : ∀ b ∈ free ++ used, headSize ≤ cap b)
    (hl : Layout cap USER_FREE_ADDRESS_START s.heapTop (free ++ used)) :
    s.Blocks pages free used := by
  refine ⟨h.mapped, ?_, ?_, ?_, ?_⟩
  · refine hc.congr ?_
    intro b hb
    rw [links, links, h.next_eq b (hin b (by simp [hb]))]
  · intro b hb
    exact (h.heads b (hin b hb)).inPage
  · intro b hb
    rw [h.cap_eq b (hin b hb)]
    exact hsize b hb
  · exact hl.congr (fun b hb => h.cap_eq b (hin b hb)) le_rfl

/-! ## The two searches -/

theorem findFit_spec {need : Nat} : ∀ (fuel : Nat) (l : List Nat) (cur pre : Nat)
    (r : Option (Nat × Nat)), HeapView s pages L cap next → (∀ b ∈ l, b ∈ L) →
    Chain (links next) (toPtr cur) l → findFit s need fuel cur pre = .ok r →
    (r = none ∧ ∀ b ∈ l, cap b < need) ∨
      ∃ before c rest, r = some (c, before.getLast?.getD pre) ∧ l = before ++ c :: rest ∧
        (∀ b ∈ before, cap b < need) ∧ need ≤ cap c := by
  intro fuel
  induction fuel with
  | zero =>
    intro l cur pre r _ _ _ hr
    cases hr
  | succ fuel ih =>
    intro l cur pre r hv hin hc hr
    rw [findFit] at hr
    cases l with
    | nil =>
      have h0 : cur = 0 := toPtr_eq_none.mp hc
      rw [if_pos h0] at hr
      cases hr
      exact .inl ⟨rfl, by simp⟩
    | cons b l =>
      obtain ⟨hp, hc⟩ := hc
      obtain ⟨rfl, hb0⟩ := toPtr_eq_some.mp hp
      have hb : cur ∈ L := hin cur (by simp)
      rw [if_neg hb0, headAt_eq hv.mapped (hv.heads cur hb), ok_bind,
        hv.cap_eq cur hb, hv.next_eq cur hb] at hr
      by_cases hfit : need ≤ cap cur
      · rw [if_pos hfit] at hr
        cases hr
        exact .inr ⟨[], cur, l, rfl, rfl, by simp, hfit⟩
      · rw [if_neg hfit] at hr
        rcases ih l (next cur) cur r hv (fun b hb => hin b (by simp [hb])) hc hr with
          ⟨rfl, hall⟩ | ⟨before, c, rest, rfl, rfl, hall, hcap⟩
        · refine .inl ⟨rfl, ?_⟩
          intro b hb
          rcases mem_cons.mp hb with rfl | hb
          · omega
          · exact hall b hb
        · refine .inr ⟨cur :: before, c, rest, ?_, rfl, ?_, hcap⟩
          · rw [getLast?_cons]
            rfl
          · intro b hb
            rcases mem_cons.mp hb with rfl | hb
            · omega
            · exact hall b hb

theorem findHighest_spec : ∀ (fuel : Nat) (l : List Nat) (cur pre maxVa maxPre va q : Nat),
    HeapView s pages L cap next → (∀ b ∈ l, b ∈ L) → Chain (links next) (toPtr cur) l →
    findHighest s fuel cur pre maxVa maxPre = .ok (va, q) →
    (∀ b ∈ l, b ≤ va) ∧ maxVa ≤ va ∧ ((va = maxVa ∧ q = maxPre) ∨
      ∃ before rest, l = before ++ va :: rest ∧ q = before.getLast?.getD pre) := by
  intro fuel
  induction fuel with
  | zero =>
    intro l cur pre maxVa maxPre va q _ _ _ hr
    cases hr
  | succ fuel ih =>
    intro l cur pre maxVa maxPre va q hv hin hc hr
    rw [findHighest] at hr
    cases l with
    | nil =>
      have h0 : cur = 0 := toPtr_eq_none.mp hc
      rw [if_pos h0] at hr
      cases hr
      exact ⟨by simp, le_rfl, .inl ⟨rfl, rfl⟩⟩
    | cons b l =>
      obtain ⟨hp, hc⟩ := hc
      obtain ⟨rfl, hb0⟩ := toPtr_eq_some.mp hp
      have hb : cur ∈ L := hin cur (by simp)
      rw [if_neg hb0, headAt_eq hv.mapped (hv.heads cur hb), ok_bind, hv.next_eq cur hb] at hr
      have hin' : ∀ b ∈ l, b ∈ L := fun b hb => hin b (by simp [hb])
      have hlater : ∀ {before rest : List Nat}, l = before ++ va :: rest →
          cur :: l = (cur :: before) ++ va :: rest ∧
            before.getLast?.getD cur = (cur :: before).getLast?.getD pre := by
        intro before rest hl
        rw [hl, getLast?_cons]
        exact ⟨rfl, rfl⟩
      by_cases hmax : maxVa < cur
      · rw [if_pos hmax] at hr
        obtain ⟨hall, hle, hres⟩ := ih l (next cur) cur cur pre va q hv hin' hc hr
        refine ⟨?_, by omega, .inr ?_⟩
        · simpa using ⟨hle, hall⟩
        · rcases hres with ⟨rfl, rfl⟩ | ⟨before, rest, hl, rfl⟩
          · exact ⟨[], l, rfl, rfl⟩
          · exact ⟨cur :: before, rest, hlater hl⟩
      · rw [if_neg hmax] at hr
        obtain ⟨hall, hle, hres⟩ := ih l (next cur) cur maxVa maxPre va q hv hin' hc hr
        refine ⟨?_, hle, ?_⟩
        · simpa using ⟨by omega, hall⟩
        · rcases hres with hres | ⟨before, rest, hl, rfl⟩
          · exact .inl hres
          · exact .inr ⟨cur :: before, rest, hlater hl⟩

end

end CabbagePKE
