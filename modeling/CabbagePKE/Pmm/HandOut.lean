import CabbagePKE.Pmm.PageAllocator

/-!
# Pages are handed out once

Runs of `alloc_page`, `ref_insert` and `free_page` with the outstanding
references of each page counted alongside. The allocator keeps the count
of a page in its table only as long as `ref_insert` puts every new page at
its sorted place; `PlaceOk` says when it does.
-/

namespace CabbagePKE

open Lib

variable {T : Type} [RefTable T]

/-- The allocator together with the outstanding references of each page:
hand-outs and `ref_insert`s less frees. -/
structure HandOut (T : Type) where
  pmm : Pmm T
  out : Nat → Nat

inductive PageOp
  | alloc
  | refInsert (pa : Nat)
  | free (pa : Nat)
  deriving DecidableEq, Repr

def gain (out : Nat → Nat) (p : Nat) : Nat → Nat := fun q => out q + if q = p then 1 else 0

def lose (out : Nat → Nat) (p : Nat) : Nat → Nat := fun q => out q - if q = p then 1 else 0

/-- One call. `alloc_page` returning `NULL` hands nothing out. -/
def HandOut.step (s : HandOut T) : PageOp → Outcome (HandOut T)
  | .alloc => do
      let r ← allocPage s.pmm
      return ⟨r.2, if r.1 = 0 then s.out else gain s.out r.1⟩
  | .refInsert pa => do
      let refs ← RefTable.insert s.pmm.refs pa
      return ⟨{ s.pmm with refs := refs }, gain s.out pa⟩
  | .free pa => do
      let pmm ← freePage s.pmm pa
      return ⟨pmm, lose s.out pa⟩

def HandOut.Allowed (s : HandOut T) : PageOp → Prop
  | .alloc => True
  | .refInsert pa => 1 ≤ s.out pa
  | .free pa => 1 ≤ s.out pa

instance HandOut.decidableAllowed (s : HandOut T) (op : PageOp) : Decidable (s.Allowed op) :=
  match op with
  | .alloc => isTrue trivial
  | .refInsert pa => inferInstanceAs (Decidable (1 ≤ s.out pa))
  | .free pa => inferInstanceAs (Decidable (1 ≤ s.out pa))

/-- `ref_insert` finds the right place for the page the call counts. -/
def HandOut.PlaceOk (s : HandOut T) : PageOp → Prop
  | .alloc => RefTable.InsertOk s.pmm.refs s.pmm.gFreeMemList
  | .refInsert pa => RefTable.InsertOk s.pmm.refs pa
  | .free _ => True

/-- No page with an outstanding reference is free, none is listed twice,
and `alloc_page` does not return one. -/
def HandOut.Safe (s : HandOut T) : Prop :=
  ∃ free, Chain (nodeNext s.pmm.mem) (toPtr s.pmm.gFreeMemList) free ∧
    free.Nodup ∧ (∀ p ∈ free, s.out p = 0) ∧
    ∀ p pmm', allocPage s.pmm = .ok (p, pmm') → p ≠ 0 → s.out p = 0

/-- The table counts exactly the outstanding references, and only managed
pages have any. -/
structure HandOut.Inv (s : HandOut T) : Prop where
  wf : ∃ free, s.pmm.Wf free
  counted : ∀ q, q ≠ 0 → RefTable.count s.pmm.refs q = s.out q
  managed : ∀ q, 1 ≤ s.out q → s.pmm.Managed q
  null : s.out 0 = 0

theorem HandOut.Inv.safe {s : HandOut T} (h : s.Inv) : s.Safe := by
  obtain ⟨free, hw⟩ := h.wf
  have hfree : ∀ p ∈ free, s.out p = 0 := by
    intro p hp
    have hpos := (hw.managed p hp).2.1
    have hst := hw.start_pos
    rw [← h.counted p (by omega)]
    exact hw.unreferenced p hp
  refine ⟨free, hw.chain, hw.chain.nodup, hfree, fun p pmm' ha hp => ?_⟩
  have hhead : toPtr s.pmm.gFreeMemList = some p := toPtr_eq_some.mpr ⟨(allocPage_fst ha).symm, hp⟩
  have hc := hw.chain
  rw [hhead] at hc
  exact hfree p hc.head_mem

/-! ## One call keeps the invariant -/

theorem HandOut.Inv.alloc {s s' : HandOut T} (h : s.Inv)
    (hok : s.PlaceOk .alloc) (hs : s.step .alloc = .ok s') : s'.Inv := by
  obtain ⟨free, hw⟩ := h.wf
  cases free with
  | nil =>
    have hz : s.pmm.gFreeMemList = 0 := by simpa using hw.chain
    have hok' : RefTable.InsertOk s.pmm.refs 0 := hz ▸ hok
    obtain ⟨p', ha, hw', -, hst, hen, hcnt⟩ := allocPage_nil hw hok'
    simp only [step, ha, ok_bind, pure_eq_ok, if_true] at hs
    cases hs
    refine ⟨⟨[], hw'⟩, fun q hq => ?_, fun q hq => ?_, h.null⟩
    · rw [hcnt, if_neg hq, h.counted q hq]
      rfl
    · have := h.managed q hq
      unfold Pmm.Managed at this ⊢
      rwa [hst, hen]
  | cons p free =>
    obtain ⟨hp, hp0⟩ := toPtr_eq_some.mp hw.chain.1
    have hok' : RefTable.InsertOk s.pmm.refs p := hp ▸ hok
    have hman := hw.managed p (by simp)
    obtain ⟨p', ha, hw', -, hst, hen, hcnt⟩ := allocPage_cons hw hok'
    simp only [step, ha, ok_bind, pure_eq_ok, if_neg hp0] at hs
    cases hs
    refine ⟨⟨free, hw'⟩, fun q hq => ?_, fun q hq => ?_, ?_⟩
    · rw [hcnt, h.counted q hq]
      rfl
    · have hq' : s.pmm.Managed q := by
        by_cases hqp : q = p
        · rwa [hqp]
        · simp only [gain, if_neg hqp, Nat.add_zero] at hq
          exact h.managed q hq
      unfold Pmm.Managed at hq' ⊢
      rwa [hst, hen]
    · simp only [gain, if_neg (Ne.symm hp0), Nat.add_zero]
      exact h.null

theorem HandOut.Inv.refInsert {s s' : HandOut T} {pa : Nat} (h : s.Inv)
    (hal : s.Allowed (.refInsert pa)) (hok : s.PlaceOk (.refInsert pa))
    (hs : s.step (.refInsert pa) = .ok s') : s'.Inv := by
  obtain ⟨free, hw⟩ := h.wf
  have hal' : 1 ≤ s.out pa := hal
  have hpa0 : pa ≠ 0 := by
    rintro rfl
    have := h.null
    omega
  obtain ⟨t', hins, hwf, hcnt⟩ := RefTable.insert_spec hw.refs hok
  simp only [step, hins, ok_bind, pure_eq_ok] at hs
  cases hs
  refine ⟨⟨free, ⟨hw.start_pos, hw.end_lt, hw.chain, hw.head_lt, hw.managed⟩, hwf, ?_⟩,
    fun q hq => ?_, fun q hq => ?_, ?_⟩
  · intro q hq
    have h0 := hw.unreferenced q hq
    have hne : q ≠ pa := by
      rintro rfl
      rw [h.counted q hpa0] at h0
      omega
    rw [hcnt, h0, if_neg hne]
  · rw [hcnt, h.counted q hq]
    rfl
  · by_cases hqp : q = pa
    · exact hqp ▸ h.managed pa hal'
    · simp only [gain, if_neg hqp, Nat.add_zero] at hq
      exact h.managed q hq
  · simp only [gain, if_neg (Ne.symm hpa0), Nat.add_zero]
    exact h.null

theorem HandOut.Inv.free {s s' : HandOut T} {pa : Nat} (h : s.Inv)
    (hal : s.Allowed (.free pa)) (hs : s.step (.free pa) = .ok s') : s'.Inv := by
  obtain ⟨free, hw⟩ := h.wf
  have hal' : 1 ≤ s.out pa := hal
  have hpa0 : pa ≠ 0 := by
    rintro rfl
    have := h.null
    omega
  have hman := h.managed pa hal'
  have hcount := h.counted pa hpa0
  have hout : ∀ q, 1 ≤ lose s.out pa q → s.pmm.Managed q := by
    intro q hq
    refine h.managed q ?_
    unfold lose at hq
    omega
  -- both branches of `free_page` lower the count of `pa` by one
  have hboth : ∃ pmm' free', freePage s.pmm pa = .ok pmm' ∧ pmm'.Wf free' ∧
      pmm'.freeMemStartAddr = s.pmm.freeMemStartAddr ∧
      pmm'.freeMemEndAddr = s.pmm.freeMemEndAddr ∧
      ∀ q, RefTable.count pmm'.refs q = RefTable.count s.pmm.refs q - if q = pa then 1 else 0 := by
    by_cases hc : 1 < RefTable.count s.pmm.refs pa
    · obtain ⟨pmm', hf, hw', -, hst, hen, hcnt⟩ := freePage_shared hw hman hc
      exact ⟨pmm', free, hf, hw', hst, hen, hcnt⟩
    · have hnew : pa ∉ free := by
        intro hmem
        have := hw.unreferenced pa hmem
        omega
      obtain ⟨pmm', hf, hw', -, hst, hen, hcnt⟩ := freePage_last hw hman (by omega) hnew
      exact ⟨pmm', pa :: free, hf, hw', hst, hen, hcnt⟩
  obtain ⟨pmm', free', hf, hw', hst, hen, hcnt⟩ := hboth
  simp only [step, hf, ok_bind, pure_eq_ok] at hs
  cases hs
  refine ⟨⟨free', hw'⟩, fun q hq => ?_, fun q hq => ?_, ?_⟩
  · rw [hcnt, h.counted q hq]
    rfl
  · have := hout q hq
    unfold Pmm.Managed at this ⊢
    rwa [hst, hen]
  · simp [lose, h.null]

theorem HandOut.Inv.step {s s' : HandOut T} {op : PageOp} (h : s.Inv)
    (hok : s.Allowed op ∧ s.PlaceOk op) (hs : s.step op = .ok s') : s'.Inv := by
  cases op with
  | alloc => exact h.alloc hok.2 hs
  | refInsert pa => exact h.refInsert hok.1 hok.2 hs
  | free pa => exact h.free hok.1 hs

/-! ## Whole runs of the code's allocator -/

/-- The states of the runs from `pmm0` whose calls are allowed and meet
`ok` besides. -/
def HandOut.Run (ok : HandOut T → PageOp → Prop) (pmm0 : Pmm T) (s : HandOut T) : Prop :=
  Reaches HandOut.step (fun s op => s.Allowed op ∧ ok s op) ⟨pmm0, fun _ => 0⟩ s

theorem HandOut.Run.inv {pmm0 : Pmm T} {s : HandOut T} (hw : ∃ free, pmm0.Wf free)
    (hc : ∀ q, RefTable.count pmm0.refs q = 0)
    (h : HandOut.Run HandOut.PlaceOk pmm0 s) : s.Inv := by
  refine Reaches.invariant HandOut.Inv ?_ (fun s op s' hi hok hs => hi.step hok hs) h
  refine ⟨hw, fun q _ => hc q, fun q hq => ?_, rfl⟩
  exact absurd hq (by simp)

/-- From the state `pmm_init` builds, every run in which `ref_insert`
always finds the right place hands each page out once. -/
theorem handOut_safe {kernelEnd memSize : Nat} {mem : Mem} {pmm0 : Pmm RefList}
    (hinit : pmmInit kernelEnd memSize mem [] = .ok pmm0) {s : HandOut RefList}
    (h : HandOut.Run HandOut.PlaceOk pmm0 s) : s.Safe := by
  have hwf : RefTable.Wf ([] : RefList) := ⟨List.Pairwise.nil, by simp⟩
  obtain ⟨-, free, hw, hc⟩ := pmmInit_wf hwf (fun _ => rfl) hinit
  exact (HandOut.Run.inv ⟨free, hw⟩ hc h).safe

instance HandOut.decidablePlaceOk (s : HandOut RefList) (op : PageOp) :
    Decidable (s.PlaceOk op) :=
  match op with
  | .alloc => inferInstanceAs (Decidable (RefList.InsertOk _ _))
  | .refInsert _ => inferInstanceAs (Decidable (RefList.InsertOk _ _))
  | .free _ => isTrue trivial

/-- A shared page survives one free, is handed back by the second, and
goes out again. -/
theorem handOut_safe_reuse : ∃ pmm0 s,
    pmmInit (KERN_BASE + PGSIZE) (5 * PGSIZE) (fun _ => 0) ([] : RefList) = .ok pmm0 ∧
      HandOut.Run HandOut.PlaceOk pmm0 s ∧ s.out (DRAM_BASE + 0x2000) = 1 ∧ s.Safe := by
  obtain ⟨pmm0, hinit, s, hrun, ht⟩ : ∃ pmm0,
      pmmInit (KERN_BASE + PGSIZE) (5 * PGSIZE) (fun _ => 0) ([] : RefList) = .ok pmm0 ∧
      ∃ s, Runs HandOut.step (fun s op => s.Allowed op ∧ s.PlaceOk op) ⟨pmm0, fun _ => 0⟩
        [.alloc, .alloc, .refInsert (DRAM_BASE + 0x2000), .free (DRAM_BASE + 0x2000),
          .free (DRAM_BASE + 0x2000), .alloc] s ∧ s.out (DRAM_BASE + 0x2000) = 1 := by
    decide +kernel
  have hreach : HandOut.Run HandOut.PlaceOk pmm0 s := hrun.reaches .start
  exact ⟨pmm0, s, hinit, hreach, ht, handOut_safe hinit hreach⟩

/-- Two pages are handed out; freeing and reallocating the larger one puts
it in front of the smaller, whose next reference is then counted apart:
its first free lists it while a reference is outstanding. -/
theorem handOut_unsafe : ¬ ∀ (kernelEnd memSize : Nat) (mem : Mem) (pmm0 : Pmm RefList),
    pmmInit kernelEnd memSize mem [] = .ok pmm0 →
      ∀ s, HandOut.Run (fun _ _ => True) pmm0 s → s.Safe := by
  intro hclaim
  obtain ⟨pmm0, hinit, s, hrun, hout, hhead⟩ : ∃ pmm0,
      pmmInit (KERN_BASE + PGSIZE) (5 * PGSIZE) (fun _ => 0) ([] : RefList) = .ok pmm0 ∧
      ∃ s, Runs HandOut.step (fun s op => s.Allowed op ∧ True) ⟨pmm0, fun _ => 0⟩
        [.alloc, .alloc, .free (DRAM_BASE + 0x3000), .alloc,
          .refInsert (DRAM_BASE + 0x2000), .free (DRAM_BASE + 0x2000)] s ∧
      s.out (DRAM_BASE + 0x2000) = 1 ∧ s.pmm.gFreeMemList = DRAM_BASE + 0x2000 := by decide +kernel
  obtain ⟨free, hchain, -, hfree, -⟩ := hclaim _ _ _ _ hinit s (hrun.reaches .start)
  rw [hhead] at hchain
  have hmem : DRAM_BASE + 0x2000 ∈ free := Chain.head_mem hchain
  have h0 := hfree _ hmem
  omega

end CabbagePKE
