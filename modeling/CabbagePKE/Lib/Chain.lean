import Mathlib.Data.List.Nodup

/-!
# Singly linked lists

A list threaded through a `next` function: `Chain next p l` says that the
pointer `p` heads a finite list whose nodes are `l` in order. A `next`
function determines the list, so a finite chain never visits a node twice.
-/

namespace Lib

open List

variable {A : Type} {next next' : A → Option A} {p : Option A} {a b : A}
  {l l' : List A}

/-- `p` points at the first node of the list `l`; the last node's pointer
is null. -/
def Chain (next : A → Option A) : Option A → List A → Prop
  | p, [] => p = none
  | p, a :: l => p = some a ∧ Chain next (next a) l

@[simp] theorem chain_nil : Chain next p [] ↔ p = none := Iff.rfl

@[simp] theorem chain_cons : Chain next p (a :: l) ↔ p = some a ∧ Chain next (next a) l := Iff.rfl

instance decidableChain [DecidableEq A] (next : A → Option A) :
    ∀ (p : Option A) (l : List A), Decidable (Chain next p l)
  | p, [] => inferInstanceAs (Decidable (p = none))
  | _, a :: l => @instDecidableAnd _ _ _ (decidableChain next (next a) l)

theorem Chain.unique (h : Chain next p l) (h' : Chain next p l') : l = l' := by
  induction l generalizing p l' with
  | nil =>
    cases l' with
    | nil => rfl
    | cons b l' => simp_all
  | cons a l ih =>
    cases l' with
    | nil => simp_all
    | cons b l' =>
      obtain ⟨hp, ht⟩ := h
      obtain ⟨hp', ht'⟩ := h'
      cases hp.symm.trans hp'
      rw [ih ht ht']

theorem Chain.eq_nil (h : Chain next none l) : l = [] := h.unique (chain_nil.mpr rfl)

theorem Chain.suffix (h : Chain next p (l ++ a :: l')) : Chain next (some a) (a :: l') := by
  induction l generalizing p with
  | nil => exact ⟨rfl, h.2⟩
  | cons b l ih => exact ih h.2

theorem Chain.nodup (h : Chain next p l) : l.Nodup := by
  induction l generalizing p with
  | nil => exact nodup_nil
  | cons a l ih =>
    refine nodup_cons.mpr ⟨?_, ih h.2⟩
    -- a second visit of `a` would make the chain its own proper suffix
    intro hmem
    obtain ⟨l1, l2, rfl⟩ := append_of_mem hmem
    have hself : Chain next (some a) (a :: (l1 ++ a :: l2)) := ⟨rfl, h.2⟩
    have heq := hself.unique (Chain.suffix (l := a :: l1) h)
    have hlen := congrArg length heq
    simp only [length_cons, length_append] at hlen
    omega

theorem Chain.congr (h : Chain next p l) (hn : ∀ a ∈ l, next' a = next a) : Chain next' p l := by
  induction l generalizing p with
  | nil => exact h
  | cons a l ih =>
    refine ⟨h.1, ?_⟩
    rw [hn a (by simp)]
    exact ih h.2 (fun b hb => hn b (by simp [hb]))

theorem Chain.head_mem (h : Chain next (some a) l) : a ∈ l := by
  cases l with
  | nil => simp at h
  | cons b l => simp [Option.some.inj h.1]

theorem Chain.relink {rest rest' : List A} (h : Chain next p (l ++ b :: rest))
    (hn : ∀ a ∈ l, next' a = next a) (ht : Chain next' (next' b) rest') :
    Chain next' p (l ++ b :: rest') := by
  induction l generalizing p with
  | nil => exact ⟨h.1, ht⟩
  | cons a l ih =>
    refine ⟨h.1, ?_⟩
    rw [hn a (by simp)]
    exact ih h.2 (fun c hc => hn c (by simp [hc]))

/-! ## Reachable nodes -/

inductive Linked (next : A → Option A) : Option A → A → Prop
  | here {a : A} : Linked next (some a) a
  | further {a b : A} : Linked next (next a) b → Linked next (some a) b

theorem not_linked_none (next : A → Option A) (a : A) : ¬ Linked next none a := by
  intro h
  cases h

theorem Chain.linked_iff (h : Chain next p l) : Linked next p a ↔ a ∈ l := by
  induction l generalizing p with
  | nil =>
    rw [chain_nil.mp h]
    constructor
    · intro hl
      cases hl
    · simp
  | cons b l ih =>
    obtain ⟨rfl, ht⟩ := h
    constructor
    · intro hl
      cases hl with
      | here => simp
      | further hl => simp [(ih ht).mp hl]
    · intro hm
      rcases mem_cons.mp hm with rfl | hm
      · exact .here
      · exact .further ((ih ht).mpr hm)

theorem Linked.congr_off (h : Linked next p b) (hn : ∀ a, a ≠ b → next' a = next a) :
    Linked next' p b := by
  induction h with
  | here => exact .here
  | @further a b _ ih =>
    by_cases hab : a = b
    · exact hab ▸ .here
    · exact .further (hn a hab ▸ ih hn)

theorem Chain.linked_append (h : Chain next p (l ++ b :: l'))
    (hn : ∀ a ∈ l, next' a = next a) : Linked next' p b := by
  induction l generalizing p with
  | nil =>
    rw [(chain_cons.mp h).1]
    exact .here
  | cons a l ih =>
    obtain ⟨rfl, ht⟩ := chain_cons.mp h
    refine .further ?_
    rw [hn a (by simp)]
    exact ih ht (fun c hc => hn c (by simp [hc]))

theorem Linked.not_chain (h : Linked next (next a) a) : ¬ Chain next (some a) l := by
  intro hc
  cases l with
  | nil => cases hc
  | cons b l =>
    obtain ⟨hb, ht⟩ := chain_cons.mp hc
    cases hb
    exact (nodup_cons.mp hc.nodup).1 ((Chain.linked_iff ht).mp h)

def walk (next : A → Option A) : Nat → Option A → List A
  | 0, _ => []
  | _ + 1, none => []
  | fuel + 1, some a => a :: walk next fuel (next a)

theorem Chain.walk_eq (h : Chain next p l) {fuel : Nat} (hf : l.length ≤ fuel) :
    walk next fuel p = l := by
  induction l generalizing p fuel with
  | nil =>
    rw [chain_nil.mp h]
    cases fuel <;> rfl
  | cons a l ih =>
    obtain ⟨rfl, ht⟩ := h
    cases fuel with
    | zero => simp at hf
    | succ fuel => rw [walk, ih ht (by simpa using hf)]

end Lib
