import Mathlib.Data.List.Pairwise
import Mathlib.Data.List.Perm.Basic

/-!
# Disjoint blocks of an address range

A block is named by its first address; `size` gives its length. `Layout`
says that the blocks of a list cover disjoint parts of `[lo, hi)`. A block
can be split in two, and a block that ends at `hi` can be extended.
-/

namespace Lib

def Apart (size : Nat → Nat) (b c : Nat) : Prop := b + size b ≤ c ∨ c + size c ≤ b

theorem Apart.symm {size : Nat → Nat} {b c : Nat} (h : Apart size b c) : Apart size c b := Or.symm h

instance (size : Nat → Nat) : Std.Symm (Apart size) := ⟨fun _ _ => Apart.symm⟩

structure Layout (size : Nat → Nat) (lo hi : Nat) (l : List Nat) : Prop where
  lower : ∀ b ∈ l, lo ≤ b
  pos : ∀ b ∈ l, 0 < size b
  upper : ∀ b ∈ l, b + size b ≤ hi
  apart : l.Pairwise (Apart size)

section

variable {size size' : Nat → Nat} {lo hi hi' b b' : Nat} {l l' : List Nat}

theorem Layout.nil : Layout size lo hi [] := ⟨by simp, by simp, by simp, List.Pairwise.nil⟩

theorem Layout.perm (h : Layout size lo hi l) (hp : l.Perm l') : Layout size lo hi l' := by
  refine ⟨?_, ?_, ?_, (hp.pairwise_iff Apart.symm).mp h.apart⟩
  · intro b hb
    exact h.lower b (hp.mem_iff.mpr hb)
  · intro b hb
    exact h.pos b (hp.mem_iff.mpr hb)
  · intro b hb
    exact h.upper b (hp.mem_iff.mpr hb)

theorem Layout.congr (h : Layout size lo hi l) (hs : ∀ b ∈ l, size' b = size b)
    (hle : hi ≤ hi') : Layout size' lo hi' l := by
  refine ⟨h.lower, ?_, ?_, ?_⟩
  · intro b hb
    rw [hs b hb]
    exact h.pos b hb
  · intro b hb
    rw [hs b hb]
    exact Nat.le_trans (h.upper b hb) hle
  · refine h.apart.imp_of_mem ?_
    intro b c hb hc hbc
    rwa [Apart, hs b hb, hs c hc]

theorem Layout.tail (h : Layout size lo hi (b :: l)) : Layout size lo hi l :=
  ⟨fun c hc => h.lower c (by simp [hc]), fun c hc => h.pos c (by simp [hc]),
    fun c hc => h.upper c (by simp [hc]), h.apart.tail⟩

theorem Layout.cons (h : Layout size lo hi l) (hlo : lo ≤ b) (hpos : 0 < size b)
    (hhi : b + size b ≤ hi) (hap : ∀ c ∈ l, Apart size b c) :
    Layout size lo hi (b :: l) := by
  refine ⟨?_, ?_, ?_, List.pairwise_cons.mpr ⟨hap, h.apart⟩⟩
  · simpa [hlo] using h.lower
  · simpa [hpos] using h.pos
  · simpa [hhi] using h.upper

theorem Layout.head_apart (h : Layout size lo hi (b :: l)) {c : Nat} (hc : c ∈ l) :
    Apart size b c := (List.pairwise_cons.mp h.apart).1 c hc

theorem Layout.apart_of_ne (h : Layout size lo hi l) (hb : b ∈ l) (hb' : b' ∈ l)
    (hne : b ≠ b') : Apart size b b' := h.apart.forall hb hb' hne

theorem Layout.not_mem_of_inside (h : Layout size lo hi (b :: l)) (hle : b ≤ b')
    (hlt : b' < b + size b) : b' ∉ l := by
  intro hmem
  have hap := h.head_apart hmem
  have hpos := h.pos b' (by simp [hmem])
  unfold Apart at hap
  omega

theorem Layout.nodup (h : Layout size lo hi l) : l.Nodup := by
  refine h.apart.imp_of_mem ?_
  intro b c hb hc hbc heq
  have hpos := h.pos b hb
  rw [← heq] at hbc
  unfold Apart at hbc
  omega

theorem Layout.split (b' : Nat) (h : Layout size lo hi (b :: l)) (hs : ∀ c ∈ l, size' c = size c)
    (hpos : 0 < size' b) (hpos' : 0 < size' b') (hcut : b + size' b ≤ b')
    (hend : b' + size' b' ≤ b + size b) : Layout size' lo hi (b :: b' :: l) := by
  have hl : Layout size' lo hi l := h.tail.congr hs (Nat.le_refl hi)
  have hlo := h.lower b (by simp)
  have hhi := h.upper b (by simp)
  have hl' : Layout size' lo hi (b' :: l) := by
    refine hl.cons (by omega) hpos' (by omega) ?_
    intro c hc
    have hbc := h.head_apart hc
    unfold Apart at hbc ⊢
    rw [hs c hc]
    omega
  refine hl'.cons hlo hpos (by omega) ?_
  intro c hc
  rcases List.mem_cons.mp hc with rfl | hc
  · exact .inl hcut
  · have hbc := h.head_apart hc
    unfold Apart at hbc ⊢
    rw [hs c hc]
    omega

theorem Layout.extend (size' : Nat → Nat) (hi' : Nat) (h : Layout size lo hi (b :: l)) (htop : b + size b = hi)
    (hle : hi ≤ hi') (hs : ∀ c ∈ l, size' c = size c) (hpos : size' b = size b + (hi' - hi)) :
    Layout size' lo hi' (b :: l) := by
  have hl : Layout size' lo hi' l := h.tail.congr hs hle
  have hb := h.pos b (by simp)
  refine hl.cons (h.lower b (by simp)) (by omega) (by omega) ?_
  intro c hc
  have hbc := h.head_apart hc
  have hup := h.upper c (by simp [hc])
  have hcpos := h.pos c (by simp [hc])
  unfold Apart at hbc ⊢
  rw [hs c hc]
  omega

end

end Lib
