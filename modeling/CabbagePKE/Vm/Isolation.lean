import CabbagePKE.Vm.Sound

/-!
# Parent and child after a fork

`do_fork` maps the parent's heap pages into the child copy-on-write and leaves
the parent's own entries as they are. Where the parent could write none of them,
no later store of one changes what the other reads; where it could write one,
both map it and it stays writable. The results are about the code's reference
table, watched for insertions that miss their place.
-/

namespace CabbagePKE

open Lib Function
open GuardedTable (Good)

variable {T : Type}

/-! ## What the two processes see -/

/-- No page is mapped in the heaps of both `p` and `q` while one of them
can write it. -/
def VmSys.HeapsApart (s : VmSys T) (p q : Nat) : Prop :=
  ∀ c d v w, s.procs p = some c → s.procs q = some d → c.InHeap v → d.InHeap w →
    (c.pagetable.entry v).v = true → (d.pagetable.entry w).v = true →
    (c.pagetable.entry v).pa = (d.pagetable.entry w).pa →
      (c.pagetable.entry v).perm.w = false ∧ (d.pagetable.entry w).perm.w = false

def VmSys.read (s : VmSys T) (q va : Nat) : Option UInt8 :=
  (s.procs q).bind (fun d => userLoad s.pmm d va)

def VmSys.HeapReadOnly (s : VmSys T) (p : Nat) : Prop :=
  ∀ c, s.procs p = some c → ∀ v, c.InHeap v → (c.pagetable.entry v).v = true →
    (c.pagetable.entry v).perm.w = false

/-- A store of `p` or of `q`; one to a writable page outside the heap hits
a page that the other does not map. -/
def VmSys.PairStore (p q : Nat) (s : VmSys T) : VmOp → Prop
  | .store r _ va _ => (r = p ∨ r = q) ∧ ∀ c, s.procs r = some c →
      (c.translate va).storable = true → ¬ c.InHeap (va / PGSIZE) →
      ∀ r' d w, r' = p ∨ r' = q → r' ≠ r → s.procs r' = some d → w < MAXVA / PGSIZE →
        (d.pagetable.entry w).v = true →
        (d.pagetable.entry w).pa ≠ (c.pagetable.entry (va / PGSIZE)).pa
  | _ => False

def VmSys.Placed (s : VmSys WatchedRefs) (op : VmOp) : Prop :=
  ∀ s', s.step op = .ok s' → s'.pmm.refs.placed = true

/-! ## Memory under a mapped page -/

section

variable [GuardedTable T] {iso : Nat → Prop} {lo hi : Nat} {s s' : Pmm T} {ent : Entries}
variable {inHeap : Nat → Nat → Prop} {own : List Nat} {p q w va : Nat} {c c' : Space}

theorem Books.mem_of_grows (h : Books iso lo hi s ent inHeap own) (hgrows : Grows s s')
    (hg : Good s'.refs) (hv : (ent q w).v = true) {x : Nat} (hx : x < PGSIZE) :
    s'.mem ((ent q w).pa + x) = s.mem ((ent q w).pa + x) := by
  obtain ⟨isHeap, free, hl⟩ := h
  obtain ⟨free', hgrew⟩ := (hgrows hg).2 free hl.wf
  obtain ⟨taken, htaken, hmem⟩ := hgrew.took.taken
  apply hmem
  intro f hf
  have hfree : f ∈ free := by
    rw [htaken]
    exact List.mem_append_left _ hf
  have hne : (ent q w).pa ≠ f := by
    rintro rfl
    exact hl.not_free hv hfree
  have hap := page_apart (hl.paAligned q w hv) (hl.wf.managed f hfree).1 hne
  omega

theorem Books.mem_of_release (h : Books iso lo hi s ent inHeap own) {v : Nat}
    (hv : (ent p v).v = true) (hcnt : (ent p v).counted = true)
    (hf : freePage s (ent p v).pa = .ok s') (hne : q ≠ p) (hv' : (ent q w).v = true)
    (hcnt' : (ent q w).pa = (ent p v).pa → (ent q w).counted = true)
    {x : Nat} (hx : x < PGSIZE) :
    s'.mem ((ent q w).pa + x) = s.mem ((ent q w).pa + x) := by
  obtain ⟨isHeap, free, hl⟩ := h
  have hman := freePage_managed hf
  have hfr := hl.frame_of_managed hman
  by_cases hone : 1 < RefTable.count s.refs (ent p v).pa
  · obtain ⟨s₁, hf1, -, hmem, -⟩ := freePage_shared hl.wf hman hone
    cases hf1.symm.trans hf
    rw [hmem]
  · obtain ⟨s₁, hf1, -, hmem, -⟩ :=
      freePage_last hl.wf hman (by omega) (hl.not_free hv)
    cases hf1.symm.trans hf
    have hpa : (ent q w).pa ≠ (ent p v).pa := by
      intro heq
      have hq : Holds lo hi ent (q, w) (ent p v).pa := ⟨hv', hcnt' heq, heq, hfr⟩
      have hp : Holds lo hi ent (p, v) (ent p v).pa := ⟨hv, hcnt, rfl, hfr⟩
      have h2 := hl.covers.two_le (fun hqp => hne (congrArg Prod.fst hqp)) hq hp
      omega
    have hap := page_apart (hl.paAligned q w hv') (hl.paAligned p v hv) hpa
    rw [hmem]
    apply writeLE_of_outside
    unfold PGSIZE at hap hx
    omega

/-- **A store leaves the pages of the other isolated processes alone**,
unless it hits a writable page outside the heap that is shared. -/
theorem userStore_keeps {sp : Nat} {b : UInt8} (h : Books iso lo hi s ent inHeap [])
    (hr : RunsIn ent inHeap p c) (hs : userStore s c sp va b = .ok (s', c'))
    (hg : Good s'.refs)
    (hlive : ¬ stackFault sp va → (c.pagetable.entry (va / PGSIZE)).rsw = 1 →
      (c.pagetable.entry (va / PGSIZE)).v = true)
    (hp : iso p) (hq : iso q) (hne : q ≠ p) (hv : (ent q w).v = true)
    (hside : (c.translate va).storable = true → ¬ c.InHeap (va / PGSIZE) →
      (ent q w).pa ≠ (c.pagetable.entry (va / PGSIZE)).pa)
    {x : Nat} (hx : x < PGSIZE) :
    s'.mem ((ent q w).pa + x) = s.mem ((ent q w).pa + x) := by
  rcases userStore_inv hs with ⟨hst, rfl, rfl⟩ | ⟨-, -, pa, s₁, pt1, ha, hpa, hw, -⟩ |
    ⟨-, hsf, hlt, -, hrsw, s₁, pa, hf, ha, -, -⟩
  · obtain ⟨isHeap, free, hl⟩ := h
    obtain ⟨hlt, he, hvp, hwp⟩ := translate_of_storable hst
    have hep := hr.entry_eq (vpn_lt_dirSlot hlt)
    have hpa : (ent q w).pa ≠ (c'.pagetable.entry (va / PGSIZE)).pa := by
      by_cases hin : c'.InHeap (va / PGSIZE)
      · rw [← hep] at hvp hwp ⊢
        exact (hl.isolated p _ hp hvp hwp ((hr.heap _).mpr hin)).2 q w hq hne hv
      · exact hside hst hin
    have halp := hl.paAligned p (va / PGSIZE) (by rw [hep]; exact hvp)
    rw [hep] at halp
    have hap := page_apart (hl.paAligned q w hv) halp hpa
    have hmod := Nat.mod_lt va (show 0 < PGSIZE by decide)
    apply fillBytes_outside
    rw [he]
    omega
  · have hg1 := (pageWalk_grows hw hg).1
    exact h.mem_of_grows ((allocPage_grows ha).trans (pageWalk_grows hw)) hg hv hx
  · have hep := hr.entry_eq (vpn_lt_dirSlot hlt)
    have hvp : (ent p (va / PGSIZE)).v = true := by rw [hep]; exact hlive hsf hrsw
    have hrsw' : (ent p (va / PGSIZE)).rsw = 1 := by rw [hep]; exact hrsw
    have hin : inHeap p (va / PGSIZE) := by
      obtain ⟨isHeap, free, hl⟩ := h
      exact hl.cowHeap p _ hvp hrsw'
    rw [← hep] at hf
    have hmem : s'.mem = s₁.mem := by
      simp only [allocPage, bind_eq_ok] at ha
      obtain ⟨refs, -, ha⟩ := ha
      cases ha
      rfl
    rw [hmem]
    exact h.mem_of_release hvp (by simp [Pte.counted, hrsw']) hf hne hv
      (h.heap_counted hvp hin hf q w hv) hx

end

/-! ## Stores of an isolated process -/

section

variable [GuardedTable T] {iso : Nat → Prop} {lo hi : Nat} {s s' : VmSys T}

theorem VmSys.Sound.entry_eq (h : s.Sound iso lo hi) {p v : Nat} {c : Space}
    (hc : s.procs p = some c) (hv : v < MAXVA / PGSIZE) :
    s.entries p v = c.pagetable.entry v :=
  (h.runsIn hc).entry_eq hv

theorem VmSys.Sound.heap_entry (h : s.Sound iso lo hi) {p v : Nat} {c : Space}
    (hc : s.procs p = some c) (hin : c.InHeap v) : s.entries p v = c.pagetable.entry v := by
  have hst : v < stackVpn := (h.ok p c hc).inHeap_lt hin
  exact h.entry_eq hc (hst.trans (by decide))

theorem VmSys.Sound.heapsApart (h : s.Sound iso lo hi) {p q : Nat} (hp : iso p) (hq : iso q)
    (hne : q ≠ p) : s.HeapsApart p q := by
  intro c d v w hc hd hin hin' hv hv' hpa
  obtain ⟨isHeap, free, hl⟩ := h.books
  rw [← h.heap_entry hc hin] at hv hpa ⊢
  rw [← h.heap_entry hd hin'] at hv' hpa ⊢
  refine ⟨Bool.eq_false_iff.mpr (fun hw => ?_), Bool.eq_false_iff.mpr (fun hw => ?_)⟩
  · exact (hl.isolated p v hp hv hw ((VmSys.inHeap_some hc).mpr hin)).2 q w hq hne hv' hpa.symm
  · exact (hl.isolated q w hq hv' hw ((VmSys.inHeap_some hd).mpr hin')).2 p v hp hne.symm hv hpa

theorem VmSys.Sound.store_read (h : s.Sound iso lo hi) {p q r q' sp va : Nat} {b : UInt8}
    (hp : iso r) (hq : iso q') (hne : q' ≠ r) (hq' : q' = p ∨ q' = q)
    (hok : s.FrameOk (.store r sp va b)) (hpair : s.PairStore p q (.store r sp va b))
    (hs : s.step (.store r sp va b) = .ok s') (hg : Good s'.pmm.refs) (x : Nat) :
    s'.read q' x = s.read q' x := by
  obtain ⟨c, pmm, c', hc, hd, rfl⟩ := VmSys.onSpace_inv hs
  have hproc : (s.put pmm r c').procs q' = s.procs q' := by
    simp only [VmSys.put, update_of_ne hne]
  simp only [VmSys.read, hproc]
  cases hd' : s.procs q' with
  | none => rfl
  | some d =>
    simp only [Option.bind_some, userLoad, Space.translate]
    by_cases hx : x < MAXVA
    · have hvpn := vpn_lt_dirSlot hx
      simp only [if_pos hx]
      split
      · rename_i hload
        simp only [Pte.loadable, Bool.and_eq_true] at hload
        have he := h.entry_eq hd' hvpn
        rw [← he] at hload ⊢
        have hmem := userStore_keeps h.books (h.runsIn hc) hd hg (hok c hc) hp hq hne
          hload.1.1 (fun hst hin => by
            rw [he] at hload ⊢
            exact hpair.2 c hc hst hin q' d _ hq' hne hd' hvpn hload.1.1)
          (Nat.mod_lt x (show 0 < PGSIZE by decide))
        exact congrArg some hmem
      · rfl
    · simp only [if_neg hx]
      rfl

end

/-! ## Fork -/

def pair (p i : Nat) : Nat → Prop := fun r => r = p ∨ r = i

section

variable {lo hi : Nat} {s₀ s s₁ s₂ : VmSys WatchedRefs} {p i : Nat} {garbage : Nat → Bool}

theorem VmSys.Sound.isolate (h : s.Sound (fun _ => False) lo hi) (hro : s.HeapReadOnly p)
    (hslot : s.freeSlot = .ok i) : s.Sound (pair p i) lo hi := by
  refine ⟨h.kernel, h.books.isolate (fun r v hr hv hin => ?_), h.ok⟩
  cases hc : s.procs r with
  | none =>
    rw [VmSys.entries_none hc] at hv
    exact absurd hv (by decide)
  | some c =>
    rcases hr with rfl | rfl
    · have hinc := (VmSys.inHeap_some hc).mp hin
      rw [h.heap_entry hc hinc] at hv ⊢
      exact hro c hc v hinc hv
    · simp [VmSys.freeSlot_none hslot] at hc

def VmSys.Stores (p i : Nat) (s s' : VmSys WatchedRefs) : Prop :=
  Reaches VmSys.step (fun s op => s.PairStore p i op ∧ s.FrameOk op ∧ s.Placed op) s s'

theorem VmSys.Sound.forkStores (h : s.Sound (fun _ => False) lo hi) (hro : s.HeapReadOnly p)
    (hslot : s.freeSlot = .ok i) (hfork : s.step (.fork p garbage) = .ok s₁)
    (hplaced : s₁.pmm.refs.placed = true) (hrun : s₁.Stores p i s₂) :
    s₂.Sound (pair p i) lo hi := by
  have h1 : s₁.Sound (pair p i) lo hi :=
    (h.isolate hro hslot).fork hslot (fun _ => ⟨.inl rfl, hro⟩) hfork hplaced
  refine Reaches.invariant _ h1 (fun s op s' hs hok hstep => ?_) hrun
  obtain ⟨hpair, hframe, hpl⟩ := hok
  cases op with
  | store r sp va b => exact hs.store hframe hstep (hpl s' hstep)
  | _ => exact absurd hpair id

/-- **A fork isolates the two heaps**, if the parent could write none of
its heap pages: in every state that stores of the two reach no heap page is
mapped by both while one can write it, and the next store of one changes
nothing that the other reads. -/
theorem fork_isolates_heaps (h₀ : s₀.Booted)
    (h : s₀.Run (fun s op => s.FrameOk op ∧ s.Placed op) s) (hro : s.HeapReadOnly p)
    (hslot : s.freeSlot = .ok i) (hfork : s.step (.fork p garbage) = .ok s₁)
    (hplaced : s.Placed (.fork p garbage)) (hrun : s₁.Stores p i s₂) :
    s₂.HeapsApart p i ∧
      ∀ r q sp va b s₃, (r = p ∧ q = i) ∨ (r = i ∧ q = p) →
        s₂.PairStore p i (.store r sp va b) → s₂.FrameOk (.store r sp va b) →
        s₂.Placed (.store r sp va b) → s₂.step (.store r sp va b) = .ok s₃ →
        ∀ x, s₃.read q x = s₂.read q x := by
  have hsound : s.Sound (fun _ => False) s₀.pmm.freeMemStartAddr s₀.pmm.freeMemEndAddr := by
    refine Reaches.invariant _ (h₀.sound _) (fun s op s' hs hok hstep => ?_) h
    exact hs.step hok.1 hok.2.1 hstep (hok.2.2 s' hstep)
  have hne : i ≠ p := by
    rintro rfl
    obtain ⟨c, -, -, -, hc, -⟩ := VmSys.fork_inv hfork
    simp [VmSys.freeSlot_none hslot] at hc
  have h₂ := hsound.forkStores hro hslot hfork (hplaced s₁ hfork) hrun
  refine ⟨h₂.heapsApart (.inl rfl) (.inr rfl) hne, ?_⟩
  intro r q sp va b s₃ hrq hpair hframe hpl hstep
  rcases hrq with ⟨rfl, rfl⟩ | ⟨rfl, rfl⟩
  · exact h₂.store_read (.inl rfl) (.inr rfl) hne (.inr rfl) hframe hpair hstep (hpl s₃ hstep)
  · exact h₂.store_read (.inr rfl) (.inl rfl) hne.symm (.inl rfl) hframe hpair hstep
      (hpl s₃ hstep)

end

/-! ### Concrete forks -/

instance VmSys.Placed.decidable (s : VmSys WatchedRefs) (op : VmOp) : Decidable (s.Placed op) :=
  inferInstanceAs (Decidable (∀ _, _ = _ → _ = _))

instance VmSys.HeapReadOnly.decidable (s : VmSys T) (p : Nat) : Decidable (s.HeapReadOnly p) :=
  decidable_of_iff (∀ c, s.procs p = some c → ∀ v, v < c.heapTop / PGSIZE → c.InHeap v →
      (c.pagetable.entry v).v = true → (c.pagetable.entry v).perm.w = false)
    ⟨fun h c hc v hin => h c hc v hin.2 hin, fun h c hc v _ hin => h c hc v hin⟩

-- a store outside the heap asks about every page of the other process
open Classical in
noncomputable instance VmSys.PairStore.decidable (p q : Nat) (s : VmSys T) :
    ∀ op, Decidable (s.PairStore p q op)
  | .store r _ va _ => inferInstanceAs (Decidable ((r = p ∨ r = q) ∧ ∀ c, s.procs r = some c →
      (c.translate va).storable = true → ¬ c.InHeap (va / PGSIZE) → _))
  | .load _ | .fork _ _ | .exec _ _ | .allocatePage _ | .freePage _ _ => instDecidableFalse

def emptyWatched : WatchedRefs := ⟨[], true⟩

theorem emptyWatched_booted {s : VmSys WatchedRefs} (h : vmSmall emptyWatched = .ok s)
    (hg : s.pmm.refs.placed = true) : s.Booted := by
  have hwf : RefTable.Wf emptyWatched := ⟨by simp [emptyWatched], by simp [emptyWatched]⟩
  exact vmSmall_booted hwf (fun _ => rfl) h hg

set_option synthInstance.maxSize 4096

/-- A child that has a heap page copy-on-write forks in turn, and both
generations write the page. -/
theorem fork_isolates_heaps_nested :
    ∃ s₀ s s₁ s₂ : VmSys WatchedRefs, s₀.Booted ∧
      s₀.Run (fun s op => s.FrameOk op ∧ s.Placed op) s ∧ s.HeapReadOnly 1 ∧
      s.freeSlot = .ok 2 ∧ s.step (.fork 1 (fun _ => false)) = .ok s₁ ∧
      s.Placed (.fork 1 (fun _ => false)) ∧ s₁.Stores 1 2 s₂ ∧
      (s₁.read 1 USER_FREE_ADDRESS_START = some 5 ∧ s₁.read 2 USER_FREE_ADDRESS_START = some 5 ∧
        s₂.read 1 USER_FREE_ADDRESS_START = some 9 ∧
        s₂.read 2 USER_FREE_ADDRESS_START = some 7) ∧
      s₂.HeapsApart 1 2 := by
  obtain ⟨s₀, hboot, hgood, s, hrun, hro, hslot, hplaced, s₁, hfork, h1, h2, s₂, hstores, h3, h4⟩ :
      ∃ s₀, vmSmall emptyWatched = .ok s₀ ∧ s₀.pmm.refs.placed = true ∧
      ∃ s, Runs VmSys.step (fun s op => s.Allowed op ∧ s.FrameOk op ∧ s.Placed op) s₀
        [.load [segmentAt 0x10000 5], .allocatePage 0,
          .store 0 0x7fffe000 USER_FREE_ADDRESS_START 5, .fork 0 (fun _ => false)] s ∧
      s.HeapReadOnly 1 ∧ s.freeSlot = .ok 2 ∧ s.Placed (.fork 1 (fun _ => false)) ∧
      ∃ s₁, s.step (.fork 1 (fun _ => false)) = .ok s₁ ∧
      s₁.read 1 USER_FREE_ADDRESS_START = some 5 ∧ s₁.read 2 USER_FREE_ADDRESS_START = some 5 ∧
      ∃ s₂, Runs VmSys.step (fun s op => s.PairStore 1 2 op ∧ s.FrameOk op ∧ s.Placed op) s₁
        [.store 2 0x7fffe000 USER_FREE_ADDRESS_START 7,
          .store 2 0x7fffe000 USER_FREE_ADDRESS_START 7,
          .store 1 0x7fffe000 USER_FREE_ADDRESS_START 9,
          .store 1 0x7fffe000 USER_FREE_ADDRESS_START 9] s₂ ∧
      s₂.read 1 USER_FREE_ADDRESS_START = some 9 ∧
      s₂.read 2 USER_FREE_ADDRESS_START = some 7 := by decide +kernel
  have hbooted := emptyWatched_booted hboot hgood
  have hreach : s₀.Run (fun s op => s.FrameOk op ∧ s.Placed op) s := hrun.reaches .start
  have hst : s₁.Stores 1 2 s₂ := hstores.reaches .start
  exact ⟨s₀, s, s₁, s₂, hbooted, hreach, hro, hslot, hfork, hplaced, hst, ⟨h1, h2, h3, h4⟩,
    (fork_isolates_heaps hbooted hreach hro hslot hfork hplaced hst).1⟩

/-- The first fork of a process that has a heap page: the page stays
writable for the parent, and the child reads what the parent then stores. -/
theorem fork_shares_writable_page :
    ∃ s₀ s s₁ s₂ : VmSys WatchedRefs, s₀.Booted ∧
      s₀.Run (fun s op => s.FrameOk op ∧ s.Placed op) s ∧ s.freeSlot = .ok 1 ∧
      s.step (.fork 0 (fun _ => false)) = .ok s₁ ∧ ¬ s₁.HeapsApart 0 1 ∧
      s₁.step (.store 0 0x7fffe000 USER_FREE_ADDRESS_START 7) = .ok s₂ ∧
      s₁.read 1 USER_FREE_ADDRESS_START = some 5 ∧
      s₂.read 1 USER_FREE_ADDRESS_START = some 7 := by
  obtain ⟨s₀, hboot, hgood, s, hrun, hslot, s₁, hfork, ⟨c, hc, d, hd, hinc, hind, hv, hv', hpa, hw⟩,
      hread, s₂, hs₂, hread₂⟩ :
      ∃ s₀, vmSmall emptyWatched = .ok s₀ ∧ s₀.pmm.refs.placed = true ∧
      ∃ s, Runs VmSys.step (fun s op => s.Allowed op ∧ s.FrameOk op ∧ s.Placed op) s₀
        [.load [segmentAt 0x10000 5], .allocatePage 0,
          .store 0 0x7fffe000 USER_FREE_ADDRESS_START 5] s ∧
      s.freeSlot = .ok 1 ∧ ∃ s₁, s.step (.fork 0 (fun _ => false)) = .ok s₁ ∧
      (∃ c, s₁.procs 0 = some c ∧ ∃ d, s₁.procs 1 = some d ∧ c.InHeap 0x400 ∧ d.InHeap 0x400 ∧
        (c.pagetable.entry 0x400).v = true ∧ (d.pagetable.entry 0x400).v = true ∧
        (c.pagetable.entry 0x400).pa = (d.pagetable.entry 0x400).pa ∧
        (c.pagetable.entry 0x400).perm.w = true) ∧
      s₁.read 1 USER_FREE_ADDRESS_START = some 5 ∧
      ∃ s₂, s₁.step (.store 0 0x7fffe000 USER_FREE_ADDRESS_START 7) = .ok s₂ ∧
      s₂.read 1 USER_FREE_ADDRESS_START = some 7 := by decide +kernel
  refine ⟨s₀, s, s₁, s₂, emptyWatched_booted hboot hgood, hrun.reaches .start, hslot, hfork, ?_, hs₂,
    hread, hread₂⟩
  intro hapart
  have hro := (hapart c d 0x400 0x400 hc hd hinc hind hv hv' hpa).1
  simp [hw] at hro

end CabbagePKE
