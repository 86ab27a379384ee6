import CabbagePKE.Base
import CabbagePKE.Lib.BinarySearch
import Mathlib.Algebra.BigOperators.Group.List.Basic
import Mathlib.Algebra.Order.Group.Nat

/-!
# Reference counts of physical pages

`kernel/pmm.c` keeps the counts in a table sorted by page address. `RefList` is
the live prefix `ref_list[0 .. ref_total)`; `refFind`, `refInsert` and `refErase`
are the three binary searches over it. The rest of the kernel needs the class
`RefTable`, which the code's table meets on the insertions of `RefList.InsertOk`,
and an ideal table always.
-/

namespace CabbagePKE

open Lib Function List

variable {l l1 l2 : RefList} {i pa : Nat}

structure RefUnit where
  pa : Nat
  ref : Nat
  deriving DecidableEq, Repr

abbrev RefList := List RefUnit

def refListSize : Nat := 0x4000

def refKey (l : RefList) (i : Nat) : Nat := (l.getD i ⟨0, 0⟩).pa

/-- The binary search shared by `ref_find` and `ref_erase`. -/
def refSearch (l : RefList) (pa : Nat) : Option Nat :=
  search (refKey l) pa l.length 0 l.length

/-- `ref_find`: count one more reference of a page that has an entry;
`none` is the return value `0`. -/
def refFind (l : RefList) (pa : Nat) : Option RefList :=
  (refSearch l pa).map fun mid =>
    let e := l.getD mid ⟨0, 0⟩
    l.set mid { e with ref := u64 (e.ref + 1) }

/-- `ref_insert`: the position `idx` starts at `0` and stays there when no
entry is at least `pa`. The write past a full table leaves the array. -/
def refInsert (l : RefList) (pa : Nat) : Outcome RefList :=
  match refFind l pa with
  | some l' => .ok l'
  | none =>
    let idx := firstGe (refKey l) pa l.length 0 l.length 0
    if l.length < refListSize then
      .ok (l.take idx ++ ⟨pa, 1⟩ :: l.drop idx)
    else .error .undefined

/-- `ref_erase`: the return value and the table. -/
def refErase (l : RefList) (pa : Nat) : Nat × RefList :=
  match refSearch l pa with
  | none => (1, l)
  | some mid =>
    let e := l.getD mid ⟨0, 0⟩
    let ref := u64 (e.ref + (2 ^ 64 - 1))
    if ref = 0 then (1, l.eraseIdx mid)
    else (0, l.set mid { e with ref := ref })

/-- What `ref_erase` does with the entry that it finds. -/
def refDrop (l : RefList) (mid : Nat) : Nat × RefList :=
  let e := l.getD mid ⟨0, 0⟩
  let ref := u64 (e.ref + (2 ^ 64 - 1))
  if ref = 0 then (1, l.eraseIdx mid) else (0, l.set mid { e with ref := ref })

/-- The loop of `ref_erase` from `left = lo` and `right = hi - 1`, with no bound on its rounds. -/
def refEraseLoop (l : RefList) (pa lo hi : Nat) : Nat × RefList :=
  if lo < hi then
    if refKey l (middle lo hi) = pa then refDrop l (middle lo hi)
    else if refKey l (middle lo hi) < pa then refEraseLoop l pa (middle lo hi + 1) hi
    else refEraseLoop l pa lo (middle lo hi)
  else (1, l)
termination_by hi - lo
decreasing_by
  all_goals
    have hm := middle_bounds ‹lo < hi›
    omega

def refCount (l : RefList) (q : Nat) : Nat :=
  (l.map fun e => if e.pa = q then e.ref else 0).sum

/-- A well-formed table: strictly ascending, every count a positive
`uint64`. -/
structure RefList.Wf (l : RefList) : Prop where
  sorted : l.Pairwise (fun e e' => e.pa < e'.pa)
  counts : ∀ e ∈ l, 1 ≤ e.ref ∧ e.ref < 2 ^ 64

/-- When `ref_insert` finds the right place: the page has an entry whose
count can still grow, or there is room and the table is empty or has a
larger page. -/
def RefList.InsertOk (l : RefList) (pa : Nat) : Prop :=
  (∀ e ∈ l, e.pa = pa → e.ref + 1 < 2 ^ 64) ∧
    ((∃ e ∈ l, e.pa = pa) ∨
      l.length < refListSize ∧ (l = [] ∨ ∃ e ∈ l, pa < e.pa))

instance (l : RefList) (pa : Nat) : Decidable (l.InsertOk pa) := inferInstanceAs (Decidable (_ ∧ _))

/-! ## Counting -/

@[simp] theorem refCount_cons (e : RefUnit) (l : RefList) (q : Nat) :
    refCount (e :: l) q = (if e.pa = q then e.ref else 0) + refCount l q := by simp [refCount]

@[simp] theorem refCount_append (l l' : RefList) (q : Nat) :
    refCount (l ++ l') q = refCount l q + refCount l' q := by simp [refCount]

theorem refCount_eq_zero {q : Nat} (h : ∀ e ∈ l, e.pa ≠ q) : refCount l q = 0 := by
  induction l with
  | nil => rfl
  | cons e l ih =>
    rw [refCount_cons, if_neg (h e (by simp)), ih (fun e' he' => h e' (by simp [he']))]

theorem refKey_of_lt (h : i < l.length) : refKey l i = l[i].pa := by simp [refKey, h]

theorem RefList.Wf.ascending (h : l.Wf) : Ascending (refKey l) 0 l.length := by
  intro i j _ hij hj
  rw [refKey_of_lt (by omega), refKey_of_lt hj]
  exact pairwise_iff_getElem.mp h.sorted i j (by omega) hj hij

theorem RefList.split_at (h : i < l.length) :
    l = l.take i ++ l[i] :: l.drop (i + 1) := by rw [getElem_cons_drop, take_append_drop]

theorem RefList.Wf.others {e : RefUnit} (h : RefList.Wf (l1 ++ e :: l2)) :
    (∀ e' ∈ l1, e'.pa ≠ e.pa) ∧ (∀ e' ∈ l2, e'.pa ≠ e.pa) := by
  have hp := pairwise_append.mp h.sorted
  refine ⟨fun e' he' => ?_, fun e' he' => ?_⟩
  · have := hp.2.2 e' he' e (by simp)
    omega
  · have := (pairwise_cons.mp hp.2.1).1 e' he'
    omega

theorem RefList.Wf.count_eq {e : RefUnit}
    (h : RefList.Wf (l1 ++ e :: l2)) : refCount (l1 ++ e :: l2) e.pa = e.ref := by
  obtain ⟨h1, h2⟩ := h.others
  simp [refCount_eq_zero h1, refCount_eq_zero h2]

theorem refSearch_some (h : refSearch l pa = some i) : ∃ hi : i < l.length, l[i].pa = pa := by
  obtain ⟨-, hi, hk⟩ := search_sound h
  exact ⟨hi, by rw [← refKey_of_lt hi]; exact hk⟩

theorem refSearch_none (hw : l.Wf) (h : refSearch l pa = none) : ∀ e ∈ l, e.pa ≠ pa := by
  intro e he
  obtain ⟨i, hi, rfl⟩ := getElem_of_mem he
  rw [← refKey_of_lt hi]
  exact search_none hw.ascending (by omega) h i (Nat.zero_le _) hi

theorem RefList.Wf.set_ref {e : RefUnit} {n : Nat}
    (h : RefList.Wf (l1 ++ e :: l2)) (h1 : 1 ≤ n) (h2 : n < 2 ^ 64) :
    RefList.Wf (l1 ++ { e with ref := n } :: l2) := by
  obtain ⟨hs, hc⟩ := h
  rw [pairwise_append, pairwise_cons] at hs
  obtain ⟨hs1, ⟨hs2, hs3⟩, hs4⟩ := hs
  refine ⟨?_, ?_⟩
  · rw [pairwise_append, pairwise_cons]
    refine ⟨hs1, ⟨hs2, hs3⟩, fun a ha b hb => ?_⟩
    rcases mem_cons.mp hb with rfl | hb
    · exact hs4 a ha e (by simp)
    · exact hs4 a ha b (by simp [hb])
  · intro a ha
    rcases mem_append.mp ha with ha | ha
    · exact hc a (by simp [ha])
    · rcases mem_cons.mp ha with rfl | ha
      · exact ⟨h1, h2⟩
      · exact hc a (by simp [ha])

/-! ## The three operations -/

theorem refFind_spec {l' : RefList} (hw : l.Wf)
    (hb : ∀ e ∈ l, e.pa = pa → e.ref + 1 < 2 ^ 64) (h : refFind l pa = some l') :
    l'.Wf ∧ ∀ q, refCount l' q = refCount l q + if q = pa then 1 else 0 := by
  simp only [refFind, Option.map_eq_some_iff] at h
  obtain ⟨i, hi, rfl⟩ := h
  obtain ⟨hlt, hpa⟩ := refSearch_some hi
  have hsplit := RefList.split_at hlt
  have hget : l.getD i ⟨0, 0⟩ = l[i] := by simp [hlt]
  have hset : ∀ x, l.set i x = l.take i ++ x :: l.drop (i + 1) :=
    fun x => set_eq_take_append_cons_drop.trans (if_pos hlt)
  have hbound := hb l[i] (getElem_mem hlt) hpa
  rw [hget, hset, u64_of_lt hbound]
  rw [hsplit] at hw
  refine ⟨hw.set_ref (by omega) hbound, fun q => ?_⟩
  conv_rhs => rw [hsplit]
  simp only [refCount_append, refCount_cons, hpa]
  by_cases hq : q = pa
  · subst hq
    simp only [if_true]
    omega
  · have hq' : ¬ pa = q := fun h => hq h.symm
    simp only [if_neg hq, if_neg hq', Nat.add_zero]

/-- Where `ref_insert` puts a new page: everything before is smaller,
everything from there on larger, as long as the table is empty or has a
larger page. -/
theorem insertIndex_split (hw : l.Wf)
    (hnew : ∀ e ∈ l, e.pa ≠ pa) (hok : l = [] ∨ ∃ e ∈ l, pa < e.pa) :
    (∀ e ∈ l.take (firstGe (refKey l) pa l.length 0 l.length 0), e.pa < pa) ∧
      ∀ e ∈ l.drop (firstGe (refKey l) pa l.length 0 l.length 0), pa < e.pa := by
  rcases hok with rfl | ⟨e0, he0, hlt0⟩
  · simp
  -- with a larger entry the start value `0` of `idx` plays no part
  obtain ⟨i0, hi0, rfl⟩ := getElem_of_mem he0
  have hidx : firstGe (refKey l) pa l.length 0 l.length 0
      = firstGe (refKey l) pa l.length 0 l.length l.length :=
    firstGe_of_exists hw.ascending (by omega)
      ⟨i0, Nat.zero_le _, hi0, by rw [refKey_of_lt hi0]; omega⟩
  obtain ⟨-, hle, hlo, hhi⟩ := firstGe_split (x := pa) hw.ascending
    (Nat.sub_le _ _) rfl (Nat.zero_le _)
  rw [hidx]
  refine ⟨fun e he => ?_, fun e he => ?_⟩
  · obtain ⟨j, hj, rfl⟩ := getElem_of_mem he
    rw [length_take] at hj
    rw [getElem_take, ← refKey_of_lt (by omega)]
    exact hlo j (Nat.zero_le _) (by omega)
  · obtain ⟨j, hj, rfl⟩ := getElem_of_mem he
    rw [length_drop] at hj
    rw [getElem_drop]
    have hge := hhi (firstGe (refKey l) pa l.length 0 l.length l.length + j) (by omega) (by omega)
    rw [refKey_of_lt (by omega)] at hge
    have hne := hnew l[firstGe (refKey l) pa l.length 0 l.length l.length + j] (getElem_mem _)
    omega

theorem refInsert_spec (hw : l.Wf) (hok : l.InsertOk pa) :
    ∃ l', refInsert l pa = .ok l' ∧ l'.Wf ∧
      ∀ q, refCount l' q = refCount l q + if q = pa then 1 else 0 := by
  obtain ⟨hb, hplace⟩ := hok
  cases hf : refFind l pa with
  | some l' => exact ⟨l', by simp [refInsert, hf], refFind_spec hw hb hf⟩
  | none =>
    have hnew := refSearch_none hw (Option.map_eq_none_iff.mp hf)
    obtain ⟨hroom, hpos⟩ : l.length < refListSize ∧ (l = [] ∨ ∃ e ∈ l, pa < e.pa) := by
      rcases hplace with ⟨e, he, hpa⟩ | h
      · exact absurd hpa (hnew e he)
      · exact h
    obtain ⟨hlo, hhi⟩ := insertIndex_split hw hnew hpos
    have hins : refInsert l pa = .ok (l.take (firstGe (refKey l) pa l.length 0 l.length 0)
        ++ ⟨pa, 1⟩ :: l.drop (firstGe (refKey l) pa l.length 0 l.length 0)) := by
      simp [refInsert, hf, hroom]
    refine ⟨_, hins, ?_, fun q => ?_⟩
    · generalize firstGe (refKey l) pa l.length 0 l.length 0 = idx at hlo hhi
      have hs := hw.sorted
      rw [← take_append_drop idx l, pairwise_append] at hs
      refine ⟨?_, fun e he => ?_⟩
      · rw [pairwise_append, pairwise_cons]
        refine ⟨hs.1, ⟨hhi, hs.2.1⟩, fun a ha b hbm => ?_⟩
        rcases mem_cons.mp hbm with rfl | hbm
        · exact hlo a ha
        · exact hs.2.2 a ha b hbm
      · rcases mem_append.mp he with he | he
        · exact hw.counts e (mem_of_mem_take he)
        · rcases mem_cons.mp he with rfl | he
          · exact ⟨le_rfl, (by decide : 1 < 2 ^ 64)⟩
          · exact hw.counts e (mem_of_mem_drop he)
    · generalize firstGe (refKey l) pa l.length 0 l.length 0 = idx
      conv_rhs => rw [← take_append_drop idx l]
      simp only [refCount_append, refCount_cons, eq_comm (a := q)]
      omega

theorem RefList.Wf.count_of_mem {e : RefUnit} (h : l.Wf) (he : e ∈ l) : refCount l e.pa = e.ref := by
  obtain ⟨l1, l2, rfl⟩ := append_of_mem he
  exact h.count_eq

theorem RefList.Wf.count_lt (h : l.Wf) (q : Nat) : refCount l q < 2 ^ 64 := by
  by_cases hq : ∃ e ∈ l, e.pa = q
  · obtain ⟨e, he, rfl⟩ := hq
    rw [h.count_of_mem he]
    exact (h.counts e he).2
  · rw [refCount_eq_zero fun e he heq => hq ⟨e, he, heq⟩]
    exact Nat.two_pow_pos 64

theorem refInsert_of_largest (hroom : l.length < refListSize)
    (h : ∀ e ∈ l, e.pa < pa) : refInsert l pa = .ok (⟨pa, 1⟩ :: l) := by
  have hfind : refFind l pa = none := by
    rw [refFind, Option.map_eq_none_iff]
    cases hs : refSearch l pa with
    | none => rfl
    | some i =>
      obtain ⟨hlt, hpa⟩ := refSearch_some hs
      have hless := h _ (getElem_mem hlt)
      omega
  have hidx : firstGe (refKey l) pa l.length 0 l.length 0 = 0 := by
    refine firstGe_of_forall fun i _ hi => ?_
    rw [refKey_of_lt hi]
    exact h _ (getElem_mem hi)
  simp [refInsert, hfind, hidx, hroom]

/-- On a table in order with room for one more, `ref_insert` counts the page and keeps the order
exactly if the count can grow and the page is in the table or not behind all of it. -/
theorem refInsert_counts_iff (hw : l.Wf) (hroom : l.length < refListSize) :
    (∃ l', refInsert l pa = .ok l' ∧ l'.Wf ∧
      ∀ q, refCount l' q = refCount l q + if q = pa then 1 else 0) ↔ l.InsertOk pa := by
  refine ⟨fun h => ?_, refInsert_spec hw⟩
  obtain ⟨l', hins, hw', hcount⟩ := h
  refine ⟨fun e he hpa => ?_, ?_⟩
  · have hlt := hw'.count_lt pa
    have hgrow := hcount pa
    rw [if_pos rfl, ← hpa, hw.count_of_mem he] at hgrow
    rw [← hpa] at hlt
    omega
  · by_contra hno
    obtain ⟨habsent, hplace⟩ := not_or.mp hno
    have hnil : l ≠ [] := fun heq => hplace ⟨hroom, .inl heq⟩
    have hless : ∀ e ∈ l, e.pa < pa := by
      intro e he
      have hne : e.pa ≠ pa := fun heq => habsent ⟨e, he, heq⟩
      have hle : ¬ pa < e.pa := fun hlt => hplace ⟨hroom, .inr ⟨e, he, hlt⟩⟩
      omega
    cases hins.symm.trans (refInsert_of_largest hroom hless)
    obtain ⟨e, rest, rfl⟩ := exists_cons_of_ne_nil hnil
    have hgreater := (pairwise_cons.mp hw'.sorted).1 e (.head ..)
    have hsmaller := hless e (.head ..)
    exact absurd hgreater (by dsimp only; omega)

/-- A page between two others gets its place. -/
theorem refInsert_counts_between :
    ∃ l', refInsert [⟨0x80001000, 1⟩, ⟨0x80003000, 2⟩] 0x80002000 = .ok l' ∧ l'.Wf ∧
      ∀ q, refCount l' q = refCount [⟨0x80001000, 1⟩, ⟨0x80003000, 2⟩] q
        + if q = 0x80002000 then 1 else 0 :=
  (refInsert_counts_iff ⟨by decide, by decide⟩ (by decide)).mpr (by decide)

/-- The page behind all others is put in front. -/
theorem refInsert_disorders :
    RefList.Wf [⟨0x80001000, 1⟩] ∧
      refInsert [⟨0x80001000, 1⟩] 0x80002000 = .ok [⟨0x80002000, 1⟩, ⟨0x80001000, 1⟩] ∧
      ¬ RefList.Wf [⟨0x80002000, 1⟩, ⟨0x80001000, 1⟩] := by
  refine ⟨⟨by decide, by decide⟩, by decide, fun h => ?_⟩
  have hsorted := h.sorted
  exact absurd hsorted (by decide)

theorem refEraseLoop_eq {fuel lo hi : Nat} (hf : hi - lo ≤ fuel) :
    refEraseLoop l pa lo hi = (search (refKey l) pa fuel lo hi).elim (1, l) (refDrop l) := by
  induction fuel generalizing lo hi with
  | zero =>
    rw [refEraseLoop, if_neg (by omega)]
    rfl
  | succ fuel ih =>
    rw [refEraseLoop, search]
    split_ifs with hlt hk hless
    · rw [Option.elim_some]
    · have hm := middle_bounds hlt
      exact ih (by omega)
    · have hm := middle_bounds hlt
      exact ih (by omega)
    · rfl

theorem refErase_eq (l : RefList) (pa : Nat) :
    refErase l pa = (refSearch l pa).elim (1, l) (refDrop l) := by
  unfold refErase refDrop
  cases refSearch l pa with
  | none => rw [Option.elim_none]
  | some mid => rw [Option.elim_some]

theorem refErase_absent (h : ∀ e ∈ l, e.pa ≠ pa) : refErase l pa = (1, l) := by
  rw [refErase_eq]
  cases hs : refSearch l pa with
  | none => rfl
  | some i =>
    obtain ⟨hi, hpa⟩ := refSearch_some hs
    exact absurd hpa (h _ (getElem_mem hi))

theorem refErase_at (hw : l.Wf) (hi : i < l.length) (hpa : l[i].pa = pa) :
    refErase l pa = if 1 < l[i].ref then (0, l.set i { l[i] with ref := l[i].ref - 1 })
      else (1, l.eraseIdx i) := by
  have hmem := getElem_mem hi
  have hget : l.getD i ⟨0, 0⟩ = l[i] := by simp [hi]
  have hdec : u64 (l[i].ref + (2 ^ 64 - 1)) = l[i].ref - 1 := by
    have hc := hw.counts l[i] hmem
    unfold u64
    omega
  have hsearch : refSearch l pa = some i := by
    cases hs : refSearch l pa with
    | none => exact absurd hpa (refSearch_none hw hs _ hmem)
    | some j =>
      obtain ⟨hj, hpaj⟩ := refSearch_some hs
      have hord := pairwise_iff_getElem.mp hw.sorted
      rcases Nat.lt_trichotomy i j with hij | rfl | hij
      · have hlt := hord i j hi hj hij
        omega
      · rfl
      · have hlt := hord j i hj hi hij
        omega
  rw [refErase_eq, hsearch, Option.elim_some, refDrop, hget, hdec]
  by_cases hlast : 1 < l[i].ref
  · rw [if_pos hlast, if_neg (by omega)]
  · rw [if_neg hlast, if_pos (by omega)]

theorem refErase_spec (hw : l.Wf) (pa : Nat) :
    (refErase l pa).2.Wf ∧
      (∀ q, refCount (refErase l pa).2 q = refCount l q - if q = pa then 1 else 0) ∧
      ((refErase l pa).1 = 0 ↔ 1 < refCount l pa) := by
  cases hs : refSearch l pa with
  | none =>
    have hnew := refSearch_none hw hs
    have h0 := refCount_eq_zero hnew
    rw [refErase_absent hnew]
    refine ⟨hw, fun q => ?_, by simp [h0]⟩
    by_cases hq : q = pa
    · subst hq
      simp [h0]
    · simp [hq]
  | some i =>
    obtain ⟨hlt, hpa⟩ := refSearch_some hs
    have hsplit := RefList.split_at hlt
    have hc := hw.counts l[i] (getElem_mem hlt)
    have hw' := hw
    rw [hsplit] at hw'
    have hcnt : refCount l pa = l[i].ref := by
      conv_lhs => rw [hsplit, ← hpa]
      exact hw'.count_eq
    rw [refErase_at hw hlt hpa, eraseIdx_eq_take_drop_succ,
      set_eq_take_append_cons_drop, if_pos hlt, hcnt]
    split_ifs with hmore
    · refine ⟨hw'.set_ref (by omega) (by omega), fun q => ?_, iff_of_true rfl hmore⟩
      conv_rhs => rw [hsplit]
      simp only [refCount_append, refCount_cons, hpa, eq_comm (a := q)]
      split <;> omega
    · -- the last reference: the entry goes
      refine ⟨⟨?_, ?_⟩, fun q => ?_, iff_of_false (by decide) hmore⟩
      · have hp := hw'.sorted
        rw [pairwise_append, pairwise_cons] at hp
        exact pairwise_append.mpr ⟨hp.1, hp.2.1.2, fun a ha b hb => hp.2.2 a ha b (.tail _ hb)⟩
      · intro e he
        rcases mem_append.mp he with he | he
        · exact hw.counts e (mem_of_mem_take he)
        · exact hw.counts e (mem_of_mem_drop he)
      · conv_rhs => rw [hsplit]
        simp only [refCount_append, refCount_cons, hpa, eq_comm (a := q)]
        split <;> omega

section

variable {α : Type} {a : Nat → α} {dst src n : Nat}

def copyUp (a : Nat → α) (dst src : Nat) : Nat → Nat → α
  | 0 => a
  | n + 1 => copyUp (update a dst (a src)) (dst + 1) (src + 1) n

def copyDown (a : Nat → α) (dst src : Nat) : Nat → Nat → α
  | 0 => a
  | n + 1 => copyDown (update a (dst + n) (a (src + n))) dst src n

/-- `memmove` of `n` cells: downwards if the destination starts inside the source. -/
def memmove (a : Nat → α) (dst src n : Nat) : Nat → α :=
  if src < dst ∧ dst < src + n then copyDown a dst src n else copyUp a dst src n

theorem copyUp_apply (h : dst ≤ src ∨ src + n ≤ dst) (x : Nat) :
    copyUp a dst src n x = if dst ≤ x ∧ x < dst + n then a (src + (x - dst)) else a x := by
  induction n generalizing a dst src with
  | zero => exact (if_neg (by omega)).symm
  | succ n ih =>
    rw [copyUp, ih (by omega), update_apply, update_apply]
    grind

theorem copyDown_apply (h : src < dst) (x : Nat) :
    copyDown a dst src n x = if dst ≤ x ∧ x < dst + n then a (src + (x - dst)) else a x := by
  induction n generalizing a with
  | zero => exact (if_neg (by omega)).symm
  | succ n ih =>
    rw [copyDown, ih, update_apply, update_apply]
    grind

theorem memmove_apply (a : Nat → α) (dst src n x : Nat) :
    memmove a dst src n x = if dst ≤ x ∧ x < dst + n then a (src + (x - dst)) else a x := by
  by_cases h : src < dst ∧ dst < src + n
  · rw [memmove, if_pos h, copyDown_apply h.1]
  · rw [memmove, if_neg h, copyUp_apply (by omega)]

end

theorem memmove_eraseIdx {mid : Nat} (hi : i < l.length - 1) :
    memmove (fun k => l.getD k ⟨0, 0⟩) mid (mid + 1) (l.length - mid - 1) i
      = (l.eraseIdx mid).getD i ⟨0, 0⟩ := by
  simp only [memmove_apply, getD_eq_getElem?_getD, getElem?_eraseIdx]
  by_cases hlow : i < mid
  · rw [if_neg (by omega), if_pos hlow]
  · rw [if_pos (by omega), if_neg hlow]
    congr 2
    omega

/-- **Erasing from the reference table.** The loop ends, with the table and the value of
`refErase`: of an ordered table only the entry of the page is touched, and it stays ordered; the
entry goes as `memmove` moves the rest over it. -/
theorem refErase_exact (hw : l.Wf) (pa : Nat) :
    refEraseLoop l pa 0 l.length = refErase l pa ∧ (refErase l pa).2.Wf ∧
      ((∀ e ∈ l, e.pa ≠ pa) → refErase l pa = (1, l)) ∧
      ∀ i (hi : i < l.length), l[i].pa = pa →
        refErase l pa = (if 1 < l[i].ref then (0, l.set i { l[i] with ref := l[i].ref - 1 })
          else (1, l.eraseIdx i)) ∧
        ∀ k, k < l.length - 1 → memmove (fun k => l.getD k ⟨0, 0⟩) i (i + 1) (l.length - i - 1) k
          = (l.eraseIdx i).getD k ⟨0, 0⟩ :=
  ⟨(refEraseLoop_eq (Nat.sub_le _ _)).trans (refErase_eq l pa).symm, (refErase_spec hw pa).1,
    refErase_absent, fun _ hi hpa => ⟨refErase_at hw hi hpa, fun _ => memmove_eraseIdx⟩⟩

/-- The last reference of a page between two others. -/
theorem refErase_exact_between :
    RefList.Wf [⟨0x80001000, 1⟩, ⟨0x80002000, 1⟩, ⟨0x80003000, 2⟩] ∧
      refErase [⟨0x80001000, 1⟩, ⟨0x80002000, 1⟩, ⟨0x80003000, 2⟩] 0x80002000
        = (1, [⟨0x80001000, 1⟩, ⟨0x80003000, 2⟩]) :=
  have hw : RefList.Wf [⟨0x80001000, 1⟩, ⟨0x80002000, 1⟩, ⟨0x80003000, 2⟩] :=
    ⟨by decide, by decide⟩
  ⟨hw, ((refErase_exact hw 0x80002000).2.2.2 1 (by decide) rfl).1⟩

/-! ## What the kernel needs from a table of counts -/

/-- A table of page reference counts: the two operations of `kernel/pmm.c`
and what they do to the counts. -/
class RefTable (T : Type) where
  insert : T → Nat → Outcome T
  /-- the return value (`0`: references remain) and the table -/
  erase : T → Nat → Nat × T
  count : T → Nat → Nat
  Wf : T → Prop
  InsertOk : T → Nat → Prop
  insert_spec : ∀ {t pa}, Wf t → InsertOk t pa →
    ∃ t', insert t pa = .ok t' ∧ Wf t' ∧
      ∀ q, count t' q = count t q + if q = pa then 1 else 0
  erase_spec : ∀ {t} (pa), Wf t →
    Wf (erase t pa).2 ∧
      (∀ q, count (erase t pa).2 q = count t q - if q = pa then 1 else 0) ∧
      ((erase t pa).1 = 0 ↔ 1 < count t pa)

instance : RefTable RefList where
  insert := refInsert
  erase := refErase
  count := refCount
  Wf := RefList.Wf
  InsertOk := RefList.InsertOk
  insert_spec := refInsert_spec
  erase_spec := fun pa hw => refErase_spec hw pa

structure IdealRefs where
  counts : Nat → Nat

instance : RefTable IdealRefs where
  insert t pa := .ok ⟨fun q => t.counts q + if q = pa then 1 else 0⟩
  erase t pa :=
    (if t.counts pa ≤ 1 then 1 else 0,
      ⟨fun q => t.counts q - if q = pa then 1 else 0⟩)
  count := IdealRefs.counts
  Wf _ := True
  InsertOk _ _ := True
  insert_spec := fun _ _ => ⟨_, rfl, trivial, fun _ => rfl⟩
  erase_spec := by
    intro t pa _
    refine ⟨trivial, fun _ => rfl, ?_⟩
    by_cases h : t.counts pa ≤ 1
    · simp [h]
    · simp [h]
      omega

end CabbagePKE
