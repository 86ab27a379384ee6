import CabbagePKE.Pmm.RefTable
import CabbagePKE.Lib.Bytes
import CabbagePKE.Lib.Chain
import Mathlib.Tactic.NormNum

/-!
# The physical page allocator

`kernel/pmm.c`: free pages form a list threaded through the first word of
each page, headed by `g_free_mem_list.next`. The allocator is stated over
any table of reference counts; `Pmm.Wf s free` says that the list in
memory is `free` and that the table gives its pages no reference.
-/

namespace CabbagePKE

open Lib

variable {T : Type} [RefTable T]

/-- The allocator's state: physical memory, `g_free_mem_list.next`, the
reference table and the managed range. -/
structure Pmm (T : Type) where
  mem : Mem
  gFreeMemList : Nat
  refs : T
  freeMemStartAddr : Nat
  freeMemEndAddr : Nat

def toPtr (a : Nat) : Option Nat := if a = 0 then none else some a

def nodeNext (m : Mem) (p : Nat) : Option Nat := toPtr (readLE m p 8)

def freePage (s : Pmm T) (pa : Nat) : Outcome (Pmm T) :=
  if pa % PGSIZE ≠ 0 ∨ pa < s.freeMemStartAddr ∨ s.freeMemEndAddr ≤ pa then
    .error (.panic "free_page 0x%lx \n" [pa])
  else if (RefTable.erase s.refs pa).1 = 0 then
    .ok { s with refs := (RefTable.erase s.refs pa).2 }
  else
    .ok { s with
      refs := (RefTable.erase s.refs pa).2
      mem := writeLE s.mem pa 8 s.gFreeMemList
      gFreeMemList := pa }

/-- `alloc_page`: the page (`0` when the list is empty, which is counted
in the table all the same) and the new state. -/
def allocPage (s : Pmm T) : Outcome (Nat × Pmm T) := do
  let n := s.gFreeMemList
  let refs ← RefTable.insert s.refs n
  return (n, { s with
    gFreeMemList := if n ≠ 0 then readLE s.mem n 8 else n
    refs := refs })

def createFreepageListFrom (stop : Nat) : Nat → Nat → Pmm T → Outcome (Pmm T)
  | 0, _, s => .ok s
  | fuel + 1, p, s =>
    if p + PGSIZE < stop then do
      let s ← freePage s p
      createFreepageListFrom stop fuel (p + PGSIZE) s
    else .ok s

def createFreepageList (start stop : Nat) (s : Pmm T) : Outcome (Pmm T) :=
  createFreepageListFrom stop (stop / PGSIZE) (ROUNDUP start PGSIZE)
    { s with gFreeMemList := 0 }

/-- `pmm_init`, for a kernel image that ends at `kernelEnd` on a machine
with `memSize` bytes; the table starts out as `refs`. -/
def pmmInit (kernelEnd memSize : Nat) (mem : Mem) (refs : T) : Outcome (Pmm T) :=
  let gMemSize := min PKE_MAX_ALLOWABLE_RAM memSize
  if gMemSize < u64 (kernelEnd + (2 ^ 64 - KERN_BASE)) then
    .error (.panic "Error when recomputing physical memory size (g_mem_size).\n" [])
  else
    createFreepageList (ROUNDUP kernelEnd PGSIZE) (gMemSize + DRAM_BASE)
      { mem := mem, gFreeMemList := 0, refs := refs,
        freeMemStartAddr := ROUNDUP kernelEnd PGSIZE,
        freeMemEndAddr := gMemSize + DRAM_BASE }

def Pmm.Managed (s : Pmm T) (p : Nat) : Prop :=
  p % PGSIZE = 0 ∧ s.freeMemStartAddr ≤ p ∧ p < s.freeMemEndAddr

structure Pmm.Listed (s : Pmm T) (free : List Nat) : Prop where
  start_pos : 0 < s.freeMemStartAddr
  end_lt : s.freeMemEndAddr < 2 ^ 64
  chain : Chain (nodeNext s.mem) (toPtr s.gFreeMemList) free
  head_lt : s.gFreeMemList < 2 ^ 64
  managed : ∀ p ∈ free, s.Managed p

instance (s : Pmm T) (p : Nat) : Decidable (s.Managed p) := inferInstanceAs (Decidable (_ ∧ _))

instance (s : Pmm T) (free : List Nat) : Decidable (s.Listed free) :=
  decidable_of_iff (0 < s.freeMemStartAddr ∧ s.freeMemEndAddr < 2 ^ 64 ∧
      Chain (nodeNext s.mem) (toPtr s.gFreeMemList) free ∧ s.gFreeMemList < 2 ^ 64 ∧
      ∀ p ∈ free, s.Managed p)
    ⟨fun h => ⟨h.1, h.2.1, h.2.2.1, h.2.2.2.1, h.2.2.2.2⟩,
      fun h => ⟨h.start_pos, h.end_lt, h.chain, h.head_lt, h.managed⟩⟩

/-- The free list as it stands in memory, at most `n` pages of it. -/
def Pmm.freeList (s : Pmm T) (n : Nat) : List Nat :=
  walk (nodeNext s.mem) n (toPtr s.gFreeMemList)

/-- Besides, the table is sound and gives no free page a reference. -/
structure Pmm.Wf (s : Pmm T) (free : List Nat) : Prop extends s.Listed free where
  refs : RefTable.Wf s.refs
  unreferenced : ∀ p ∈ free, RefTable.count s.refs p = 0

/-! ## Pages -/

theorem readLE_lt_u64 (m : Mem) (a : Nat) : readLE m a 8 < 2 ^ 64 :=
  Nat.lt_of_lt_of_eq (readLE_lt m a 8) (by norm_num)

@[simp] theorem toPtr_eq_some {a b : Nat} : toPtr a = some b ↔ a = b ∧ b ≠ 0 := by
  unfold toPtr
  split
  · simp_all
  · simp_all
    rintro rfl
    assumption

@[simp] theorem toPtr_eq_none {a : Nat} : toPtr a = none ↔ a = 0 := by
  unfold toPtr
  split <;> simp_all

theorem page_apart {p q : Nat} (hp : p % PGSIZE = 0) (hq : q % PGSIZE = 0)
    (h : p ≠ q) : p + PGSIZE ≤ q ∨ q + PGSIZE ≤ p := by
  unfold PGSIZE at *
  omega

omit [RefTable T] in
theorem Pmm.Listed.write {s : Pmm T} {free : List Nat} (h : s.Listed free) {m : Mem}
    (hm : ∀ p ∈ free, ∀ i, i < 8 → m (p + i) = s.mem (p + i)) :
    Pmm.Listed { s with mem := m } free := by
  refine ⟨h.start_pos, h.end_lt, ?_, h.head_lt, h.managed⟩
  refine h.chain.congr (fun p hp => ?_)
  simp only [nodeNext]
  rw [readLE_congr (fun i hi => hm p hp i hi)]

omit [RefTable T] in
theorem Pmm.Listed.pos {s : Pmm T} {free : List Nat} (h : s.Listed free) {p : Nat}
    (hp : p ∈ free) : p ≠ 0 := by
  have h1 := (h.managed p hp).2.1
  have h2 := h.start_pos
  omega

/-! ## The operations -/

theorem allocPage_fst {s s' : Pmm T} {p : Nat} (h : allocPage s = .ok (p, s')) :
    p = s.gFreeMemList := by
  simp only [allocPage, bind_eq_ok] at h
  obtain ⟨refs, -, h⟩ := h
  simp only [pure_eq_ok, Except.ok.injEq, Prod.mk.injEq] at h
  exact h.1.symm

/-- A successful `alloc_page` takes the head of the list, whatever the
reference table holds; it returns `NULL` only on an empty list. -/
theorem allocPage_inv {s s' : Pmm T} {p : Nat} {free : List Nat}
    (h : s.Listed free) (ha : allocPage s = .ok (p, s')) :
    s'.mem = s.mem ∧ s'.freeMemStartAddr = s.freeMemStartAddr ∧
      s'.freeMemEndAddr = s.freeMemEndAddr ∧
      ((p = 0 ∧ free = [] ∧ s'.Listed []) ∨ ∃ rest, p ≠ 0 ∧ free = p :: rest ∧ s'.Listed rest) := by
  simp only [allocPage, bind_eq_ok] at ha
  obtain ⟨refs, -, ha⟩ := ha
  cases ha
  refine ⟨rfl, rfl, rfl, ?_⟩
  cases free with
  | nil =>
    have hz : s.gFreeMemList = 0 := by simpa using h.chain
    exact .inl ⟨hz, rfl, h.start_pos, h.end_lt, by simp [hz], by simp [hz], by simp⟩
  | cons q rest =>
    obtain ⟨hhead, hrest⟩ := h.chain
    obtain ⟨hq, hq0⟩ := toPtr_eq_some.mp hhead
    refine .inr ⟨rest, by rwa [hq], by rw [hq], h.start_pos, h.end_lt, ?_, ?_, ?_⟩
    · simp only [hq, ne_eq, hq0, not_false_eq_true, if_true]
      exact hrest
    · simp only [hq, ne_eq, hq0, not_false_eq_true, if_true]
      exact readLE_lt_u64 s.mem q
    · exact fun r hr => h.managed r (by simp [hr])

theorem allocPage_nil {s : Pmm T} (h : s.Wf []) (hok : RefTable.InsertOk s.refs 0) :
    ∃ s', allocPage s = .ok (0, s') ∧ s'.Wf [] ∧ s'.mem = s.mem ∧
      s'.freeMemStartAddr = s.freeMemStartAddr ∧
      s'.freeMemEndAddr = s.freeMemEndAddr ∧
      ∀ q, RefTable.count s'.refs q = RefTable.count s.refs q + if q = 0 then 1 else 0 := by
  have hz : s.gFreeMemList = 0 := by simpa using h.chain
  obtain ⟨t', hins, hwf, hcnt⟩ := RefTable.insert_spec h.refs hok
  refine ⟨{ s with refs := t' }, ?_, ?_, rfl, rfl, rfl, hcnt⟩
  · simp [allocPage, hz, hins]
  · exact ⟨⟨h.start_pos, h.end_lt, h.chain, h.head_lt, by simp⟩, hwf, by simp⟩

theorem allocPage_cons {s : Pmm T} {p : Nat} {free : List Nat}
    (h : s.Wf (p :: free)) (hok : RefTable.InsertOk s.refs p) :
    ∃ s', allocPage s = .ok (p, s') ∧ s'.Wf free ∧ s'.mem = s.mem ∧
      s'.freeMemStartAddr = s.freeMemStartAddr ∧
      s'.freeMemEndAddr = s.freeMemEndAddr ∧
      ∀ q, RefTable.count s'.refs q = RefTable.count s.refs q + if q = p then 1 else 0 := by
  obtain ⟨hhead, hrest⟩ := h.chain
  obtain ⟨hp, hp0⟩ := toPtr_eq_some.mp hhead
  obtain ⟨t', hins, hwf, hcnt⟩ := RefTable.insert_spec h.refs hok
  have hnd := h.chain.nodup
  refine ⟨{ s with gFreeMemList := readLE s.mem p 8, refs := t' }, ?_, ?_, rfl, rfl, rfl, hcnt⟩
  · simp [allocPage, hp, hp0, hins]
  · refine ⟨⟨h.start_pos, h.end_lt, hrest, readLE_lt_u64 s.mem p,
      fun q hq => h.managed q (by simp [hq])⟩, hwf, fun q hq => ?_⟩
    have hne : q ≠ p := by
      rintro rfl
      exact (List.nodup_cons.mp hnd).1 hq
    rw [hcnt, h.unreferenced q (by simp [hq]), if_neg hne]

theorem freePage_shared {s : Pmm T} {pa : Nat} {free : List Nat}
    (h : s.Wf free) (hm : s.Managed pa) (hc : 1 < RefTable.count s.refs pa) :
    ∃ s', freePage s pa = .ok s' ∧ s'.Wf free ∧ s'.mem = s.mem ∧
      s'.freeMemStartAddr = s.freeMemStartAddr ∧
      s'.freeMemEndAddr = s.freeMemEndAddr ∧
      ∀ q, RefTable.count s'.refs q = RefTable.count s.refs q - if q = pa then 1 else 0 := by
  obtain ⟨hwf, hcnt, hret⟩ := RefTable.erase_spec pa h.refs
  obtain ⟨ha, hlo, hhi⟩ := hm
  have hguard : ¬ (pa % PGSIZE ≠ 0 ∨ pa < s.freeMemStartAddr ∨ s.freeMemEndAddr ≤ pa) := by omega
  refine ⟨{ s with refs := (RefTable.erase s.refs pa).2 }, ?_, ?_, rfl, rfl, rfl, hcnt⟩
  · rw [freePage, if_neg hguard, if_pos (hret.mpr hc)]
  · refine ⟨⟨h.start_pos, h.end_lt, h.chain, h.head_lt, h.managed⟩, hwf, fun q hq => ?_⟩
    rw [hcnt, h.unreferenced q hq, Nat.zero_sub]

omit [RefTable T] in
theorem Pmm.Listed.push {s : Pmm T} {pa : Nat} {free : List Nat} (h : s.Listed free)
    (hm : s.Managed pa) (hnew : pa ∉ free) (refs : T) :
    Pmm.Listed { s with
      refs := refs
      mem := writeLE s.mem pa 8 s.gFreeMemList
      gFreeMemList := pa } (pa :: free) := by
  obtain ⟨ha, hlo, hhi⟩ := hm
  have hend := h.end_lt
  have hpos := h.start_pos
  refine ⟨h.start_pos, h.end_lt, chain_cons.mpr ⟨?_, ?_⟩, hhi.trans hend, ?_⟩
  · exact toPtr_eq_some.mpr ⟨rfl, by omega⟩
  · -- the new head's link is the old head; no other link is touched
    have hlink : nodeNext (writeLE s.mem pa 8 s.gFreeMemList) pa = toPtr s.gFreeMemList := by
      rw [nodeNext, readLE_writeLE_self _ _ (by simpa using h.head_lt)]
    rw [hlink]
    refine h.chain.congr (fun q hq => ?_)
    have hne : pa ≠ q := fun heq => hnew (heq ▸ hq)
    have hap := page_apart ha (h.managed q hq).1 hne
    unfold PGSIZE at hap
    rw [nodeNext, nodeNext, readLE_writeLE_of_disjoint (by omega)]
  · intro q hq
    rcases List.mem_cons.mp hq with rfl | hq
    · exact ⟨ha, hlo, hhi⟩
    · exact h.managed q hq

theorem freePage_last {s : Pmm T} {pa : Nat} {free : List Nat}
    (h : s.Wf free) (hm : s.Managed pa) (hc : RefTable.count s.refs pa ≤ 1)
    (hnew : pa ∉ free) :
    ∃ s', freePage s pa = .ok s' ∧ s'.Wf (pa :: free) ∧ s'.mem = writeLE s.mem pa 8 s.gFreeMemList ∧
      s'.freeMemStartAddr = s.freeMemStartAddr ∧
      s'.freeMemEndAddr = s.freeMemEndAddr ∧
      ∀ q, RefTable.count s'.refs q = RefTable.count s.refs q - if q = pa then 1 else 0 := by
  obtain ⟨hwf, hcnt, hret⟩ := RefTable.erase_spec pa h.refs
  have hret' : (RefTable.erase s.refs pa).1 ≠ 0 := fun h0 => by
    omega
  have hguard : ¬ (pa % PGSIZE ≠ 0 ∨ pa < s.freeMemStartAddr ∨ s.freeMemEndAddr ≤ pa) := by
    obtain ⟨ha, hlo, hhi⟩ := hm
    omega
  refine ⟨{ s with
      refs := (RefTable.erase s.refs pa).2
      mem := writeLE s.mem pa 8 s.gFreeMemList
      gFreeMemList := pa }, ?_, ?_, rfl, rfl, rfl, hcnt⟩
  · rw [freePage, if_neg hguard, if_neg hret']
  · refine ⟨h.toListed.push hm hnew _, hwf, fun q hq => ?_⟩
    rw [hcnt]
    rcases List.mem_cons.mp hq with rfl | hq
    · simp only [if_true]
      omega
    · rw [h.unreferenced q hq, Nat.zero_sub]

def descending (p : Nat) : Nat → List Nat
  | 0 => []
  | n + 1 => (p + n * PGSIZE) :: descending p n

theorem mem_descending {p n q : Nat} : q ∈ descending p n ↔ ∃ i, i < n ∧ q = p + i * PGSIZE := by
  induction n with
  | zero => simp [descending]
  | succ n ih =>
    rw [descending, List.mem_cons, ih]
    constructor
    · rintro (rfl | ⟨i, hi, rfl⟩)
      · exact ⟨n, Nat.lt_succ_self n, rfl⟩
      · exact ⟨i, Nat.lt_succ_of_lt hi, rfl⟩
    · rintro ⟨i, hi, rfl⟩
      rcases Nat.lt_succ_iff_lt_or_eq.mp hi with hlt | rfl
      · exact .inr ⟨i, hlt, rfl⟩
      · exact .inl rfl

theorem createFreepageListFrom_spec {stop p fuel n : Nat} {s : Pmm T} (h : s.Wf (descending p n))
    (hcnt : ∀ q, RefTable.count s.refs q = 0) (hstop : s.freeMemEndAddr = stop)
    (hp : p % PGSIZE = 0) (hlo : s.freeMemStartAddr ≤ p)
    (hn : n ≤ (stop - 1 - p) / PGSIZE) (hfuel : (stop - 1 - p) / PGSIZE ≤ n + fuel) :
    ∃ s', createFreepageListFrom stop fuel (p + n * PGSIZE) s = .ok s' ∧
      s'.Wf (descending p ((stop - 1 - p) / PGSIZE)) ∧
      (∀ q, RefTable.count s'.refs q = 0) ∧
      s'.freeMemStartAddr = s.freeMemStartAddr ∧ s'.freeMemEndAddr = s.freeMemEndAddr := by
  induction fuel generalizing n s with
  | zero =>
    obtain rfl : n = (stop - 1 - p) / PGSIZE := by omega
    exact ⟨s, rfl, h, hcnt, rfl, rfl⟩
  | succ fuel ih =>
    by_cases hgo : p + n * PGSIZE + PGSIZE < stop
    · have hnew : p + n * PGSIZE ∉ descending p n := by
        rw [mem_descending]
        rintro ⟨i, hi, heq⟩
        unfold PGSIZE at heq
        omega
      obtain ⟨s1, hfree, hwf1, -, hst1, hen1, hcnt1⟩ :=
        freePage_last h ⟨by simp [Nat.add_mod, hp], by omega, by omega⟩ (by rw [hcnt]; omega) hnew
      obtain ⟨s', hrun, hwf', hcnt', hst', hen'⟩ := ih (n := n + 1) hwf1
        (fun q => by rw [hcnt1, hcnt, Nat.zero_sub]) (hen1.trans hstop) (by omega)
        (by unfold PGSIZE at *; omega) (by omega)
      refine ⟨s', ?_, hwf', hcnt', hst'.trans hst1, hen'.trans hen1⟩
      rw [createFreepageListFrom, if_pos hgo, hfree, ok_bind, ← hrun, Nat.succ_mul, add_assoc]
    · obtain rfl : n = (stop - 1 - p) / PGSIZE := by
        unfold PGSIZE at *
        omega
      exact ⟨s, by rw [createFreepageListFrom, if_neg hgo], h, hcnt, rfl, rfl⟩

theorem le_ROUNDUP (a : Nat) : a ≤ ROUNDUP a PGSIZE := by
  unfold ROUNDUP PGSIZE
  omega

theorem createFreepageList_spec {start stop : Nat} {s : Pmm T} (hpos : 0 < start)
    (hlt : stop < 2 ^ 64) (hstart : s.freeMemStartAddr = start) (hstop : s.freeMemEndAddr = stop)
    (hwf : RefTable.Wf s.refs) (hcnt : ∀ q, RefTable.count s.refs q = 0) :
    ∃ s', createFreepageList start stop s = .ok s' ∧
      s'.Wf (descending (ROUNDUP start PGSIZE) ((stop - 1 - ROUNDUP start PGSIZE) / PGSIZE)) ∧
      (∀ q, RefTable.count s'.refs q = 0) ∧
      s'.freeMemStartAddr = start ∧ s'.freeMemEndAddr = stop := by
  have hempty : Pmm.Wf { s with gFreeMemList := 0 } (descending (ROUNDUP start PGSIZE) 0) :=
    ⟨⟨by rw [hstart]; exact hpos, by rw [hstop]; exact hlt, by simp [descending], by simp,
      by simp [descending]⟩, hwf, by simp [descending]⟩
  have hfuel : (stop - 1 - ROUNDUP start PGSIZE) / PGSIZE ≤ 0 + stop / PGSIZE := by
    rw [Nat.zero_add]
    exact Nat.div_le_div_right (by omega)
  obtain ⟨s', hrun, hrest⟩ := createFreepageListFrom_spec hempty hcnt hstop (by simp [ROUNDUP])
    (by rw [hstart]; exact le_ROUNDUP _) (Nat.zero_le _) hfuel
  rw [Nat.zero_mul, Nat.add_zero] at hrun
  rw [hstart, hstop] at hrest
  exact ⟨s', hrun, hrest⟩

theorem pmmInit_wf {kernelEnd memSize : Nat} {mem : Mem} {refs : T} {s : Pmm T}
    (hwf : RefTable.Wf refs) (hcnt : ∀ q, RefTable.count refs q = 0)
    (h : pmmInit kernelEnd memSize mem refs = .ok s) :
    s.freeMemStartAddr = ROUNDUP kernelEnd PGSIZE ∧
      ∃ free, s.Wf free ∧ ∀ q, RefTable.count s.refs q = 0 := by
  unfold pmmInit at h
  simp only at h
  split at h
  · cases h
  · have hsize : min PKE_MAX_ALLOWABLE_RAM memSize + DRAM_BASE < 2 ^ 64 := by
      unfold PKE_MAX_ALLOWABLE_RAM DRAM_BASE at *
      omega
    have hstart : 0 < ROUNDUP kernelEnd PGSIZE := by
      unfold ROUNDUP PGSIZE
      omega
    obtain ⟨s', hrun, hw, hc, hst, -⟩ := createFreepageList_spec
      (s := ⟨mem, 0, refs, ROUNDUP kernelEnd PGSIZE, min PKE_MAX_ALLOWABLE_RAM memSize + DRAM_BASE⟩)
      hstart hsize rfl rfl hwf hcnt
    cases hrun.symm.trans h
    exact ⟨hst, _, hw, hc⟩

theorem pmmInit_listed {kernelEnd memSize : Nat} {mem : Mem} {s : Pmm RefList}
    (h : pmmInit kernelEnd memSize mem [] = .ok s) : ∃ free, s.Listed free := by
  have hwf : RefTable.Wf ([] : RefList) := ⟨List.Pairwise.nil, by simp⟩
  obtain ⟨-, free, hw, -⟩ := pmmInit_wf hwf (fun _ => rfl) h
  exact ⟨free, hw.toListed⟩

end CabbagePKE
