import CabbagePKE.Process.CopyOut
import CabbagePKE.Vm.Takes

/-!
# The return value of `exec`

`handle_syscall` keeps the pointer to the caller's trapframe across the system
call and stores the return value through it. `do_exec` frees that page, takes
pages for a new image, and returns -1. Which page the store goes to depends on
the order in which pages are freed and taken: the free list is followed through
the call.
-/

namespace CabbagePKE

open Lib List PageTable

variable {T : Type} [RefTable T]

/-! ## The call -/

def tfSp : Nat := 8
def tfTp : Nat := 24
def tfA0 : Nat := 72
def tfA1 : Nat := 80
def tfEpc : Nat := 264

/-- The size of `do_exec`'s copies of the path and the argument. -/
def EXEC_BUF : Nat := 128

/-- What a call of `exec` is given: the strings, and the program that the path
leads to. -/
structure ExecCall where
  path : List UInt8
  arg : List UInt8
  /-- the pages that `vfs_open` takes for good, as it fills them: dentries and
  vinodes that were not cached, their hash keys and nodes, and the file. (A
  page that it gives back in between goes to the next of these.) -/
  objects : List Mem
  phs : List ElfProgHeader
  entry : Nat
  hart : Nat
  /-- which of the objects `vfs_close` frees -/
  closed : List Nat

def Pmm.setReg (s : Pmm T) (tf off v : Nat) : Pmm T :=
  { s with mem := writeLE s.mem (tf + off) 8 v }

/-- Where `do_exec` puts the argument, for a stack pointer `sp`. -/
def argvVa (sp : Nat) (arg : List UInt8) : Nat :=
  sp - arg.length - 1 - (sp - arg.length - 1) % 8

/-- The middle of `do_exec`: the argument and the pointer to it go to the new
stack, and the registers are set. -/
def pushArgs (s : Pmm T) (c : Space) (arg : List UInt8) : Outcome (Pmm T) := do
  let va := argvVa (readLE s.mem (c.trapframe + tfSp) 8) arg
  let argvPa ← copyDst c.pagetable va
  let s := { s with mem := putString s.mem argvPa arg }
  let argvsPa ← copyDst c.pagetable (va - 8)
  let s := { s with mem := writeLE s.mem argvsPa 8 va }
  let s := s.setReg c.trapframe tfA0 1
  let s := s.setReg c.trapframe tfA1 (va - 8)
  return s.setReg c.trapframe tfSp (va - 8 - (va - 8) % 16)

/-- The objects that `vfs_open` leaves. Its callers do not look for `NULL`. -/
def takeObjects : List Mem → Pmm T → Outcome (List Nat × Pmm T)
  | [], s => .ok ([], s)
  | o :: os, s => do
      let (p, s) ← allocPage s
      if p = 0 then .error .undefined
      else
        let (ps, s) ← takeObjects os { s with mem := copyBytes s.mem p o 0 PGSIZE }
        return (p :: ps, s)

/-- `load_bincode_from_host_elf`, for a file with the header of an ELF. -/
def loadBincodeFromHostElf (s : Pmm T) (c : Space) (call : ExecCall) :
    Outcome (Pmm T × Space) := do
  let (held, s) ← takeObjects call.objects s
  let (s, c) ← elfLoad s c call.phs
  let s := s.setReg c.trapframe tfEpc call.entry
  let s := s.setReg c.trapframe tfTp call.hart
  let s ← freePages (call.closed.filterMap (fun i => held[i]?)) s
  return (s, c)

/-- `do_exec` from where the file has been opened and closed once, with the
value it returns. The stack pointer is set in `exec_clean`. -/
def doExec (s : Pmm T) (trapSec : Nat) (c : Space) (call : ExecCall) :
    Outcome (Pmm T × Space × Nat) :=
  if EXEC_BUF ≤ call.path.length ∨ EXEC_BUF ≤ call.arg.length then .error .undefined
  else do
    let epc := readLE s.mem (c.trapframe + tfEpc) 8
    let (s, c) ← execClean s trapSec c
    let s := s.setReg c.trapframe tfSp USER_STACK_TOP
    let s ← pushArgs s c call.arg
    let (s, c) ← loadBincodeFromHostElf s c call
    let s := if readLE s.mem (c.trapframe + tfA1) 8 = 2 ^ 64 - 1 then
        s.setReg c.trapframe tfEpc epc else s
    return (s, c, 2 ^ 64 - 1)

/-- `handle_syscall` for `SYS_user_exec`: `tf` is the trapframe that the
process had when it made the call. -/
def handleSyscall (s : Pmm T) (trapSec : Nat) (c : Space) (call : ExecCall) :
    Outcome (Pmm T × Space) := do
  let tf := c.trapframe
  let s := s.setReg tf tfEpc (u64 (readLE s.mem (tf + tfEpc) 8 + 4))
  let (s, c, r) ← doExec s trapSec c call
  return (s.setReg tf tfA0 r, c)

/-! ## Where the pages of the image come from -/

/-- The pages that `exec_clean` takes when the new trapframe is at `tf`: the
trapframe, the stack and the tables of three pages. -/
def spacePages (trapSec tf : Nat) : Nat :=
  2 + (newTables [] stackVpn + newTables [stackVpn] (tf / PGSIZE) +
    newTables [tf / PGSIZE, stackVpn] (trapSec / PGSIZE))

def spaceVpns (trapSec tf : Nat) : List Nat := [trapSec / PGSIZE, tf / PGSIZE, stackVpn]

/-- The pages that `elf_load` takes, for a tree with the tables of `seen`. -/
def segmentPages : List Nat → List ElfProgHeader → Nat
  | _, [] => 0
  | seen, ph :: phs =>
    if ph.isLoad then
      1 + tablesFor seen (ph.vaddr / PGSIZE) (pagesAt ph.vaddr) +
        segmentPages (walked seen (ph.vaddr / PGSIZE) (pagesAt ph.vaddr)) phs
    else segmentPages seen phs

/-- What `elf_load` maps besides the pages it takes: behind the page of a
segment that does not start on a page, the next page of memory, whosever it
is. -/
def spills : List Nat → List Nat → List ElfProgHeader → List Nat
  | _, _, [] => []
  | seen, free, ph :: phs =>
    if ph.isLoad then
      (List.range (pagesAt ph.vaddr - 1)).map (fun i => free.headD 0 + (i + 1) * PGSIZE) ++
        spills (walked seen (ph.vaddr / PGSIZE) (pagesAt ph.vaddr))
          (free.drop (1 + tablesFor seen (ph.vaddr / PGSIZE) (pagesAt ph.vaddr))) phs
    else spills seen free phs

/-- The free list after `proc_clean_pagetable`. -/
def Space.freeAfterClean (c : Space) (refs : T) (free : List Nat) : List Nat :=
  (released refs c.cleanedPages).reverse ++ free

/-- How many pages `proc_clean_pagetable` gives back after the trapframe. -/
def Space.behindTrapframe (c : Space) (refs : T) : Nat :=
  (released refs c.cleanedPages).reverse.idxOf c.trapframe

/-- The old trapframe lies too deep in the list for `exec_clean`, and it is
among the kernel's objects or too deep for `elf_load` as well. -/
def ReturnMisses (refs : T) (trapSec : Nat) (c : Space) (call : ExecCall) (free : List Nat) :
    Prop :=
  let list := c.freeAfterClean refs free
  let first := spacePages trapSec (list.headD 0)
  let second := first + call.objects.length
  let seen := spaceVpns trapSec (list.headD 0)
  first ≤ c.behindTrapframe refs ∧
    (c.behindTrapframe refs < second ∨
      second + segmentPages seen call.phs ≤ c.behindTrapframe refs) ∧
    c.trapframe ∉ spills seen (list.drop second) call.phs

instance (refs : T) (trapSec : Nat) (c : Space) (call : ExecCall) (free : List Nat) :
    Decidable (ReturnMisses refs trapSec c call free) :=
  inferInstanceAs (Decidable (_ ∧ _))

def PageTable.Misses (pt : PageTable) (a : Nat) : Prop :=
  ∀ x, pt.Uses x → ∀ i, i < PGSIZE → ¬ (a ≤ x + i ∧ x + i < a + 8)

/-! ## The phases -/

section

variable {s s' s₁ : Pmm T} {c c' : Space} {free seen : List Nat} {trapSec : Nat}

@[simp] theorem tablesFor_one (seen : List Nat) (vpn : Nat) :
    tablesFor seen vpn 1 = newTables seen vpn := by simp [tablesFor]

theorem userVmMap_takes_page {pt pt' : PageTable} {va pa : Nat} {perm : Perm}
    (hva : va % PGSIZE = 0) (hpa : pa % PGSIZE = 0) (hl : s.Listed free) (hsp : pt.Spans seen)
    (h : userVmMap s pt va PGSIZE pa perm = .ok (s', pt')) :
    ∃ free' taken, Takes s s' free free' taken ∧ taken.length = newTables seen (va / PGSIZE) ∧
      pt'.Spans (va / PGSIZE :: seen) ∧ ∀ x, pt'.Uses x ↔ pt.Uses x ∨ x ∈ taken ∨ x = pa := by
  obtain ⟨free', taken, ht, hlen, hspan, huse⟩ := userVmMap_takes hpa hl hsp h
  rw [pagesAt_of_aligned hva] at hlen hspan huse
  refine ⟨free', taken, ht, hlen, hspan, fun x => ?_⟩
  have hone : (∃ i, i < 1 ∧ x = pa + i * PGSIZE) ↔ x = pa := by
    constructor
    · rintro ⟨i, hi, rfl⟩
      obtain rfl : i = 0 := by omega
      omega
    · exact fun hx => ⟨0, by omega, by omega⟩
  rw [huse, hone]

theorem uses_empty (dir x : Nat) : (PageTable.empty dir).Uses x ↔ x = dir := by
  simp [PageTable.Uses, PageTable.IsTable, entry, empty, Pte.zero]

theorem newSpace_takes {dir tf stk : Nat} (hk : KernelAt s.freeMemStartAddr trapSec)
    (htf : tf % PGSIZE = 0) (hstk : stk % PGSIZE = 0) (hl : s.Listed free)
    (h : initSpace s trapSec (.empty dir) tf stk = .ok (s', c')) :
    ∃ free' taken, Takes s s' free free' taken ∧ 2 + taken.length = spacePages trapSec tf ∧
      c'.pagetable.Spans (spaceVpns trapSec tf) ∧
      ∀ x, c'.pagetable.Uses x ↔ x = dir ∨ x = trapSec ∨ x = tf ∨ x = stk ∨ x ∈ taken := by
  obtain ⟨s₁, pt1, s2, pt2, pt3, h1, h2, h3, rfl⟩ := initSpace_inv h
  obtain ⟨free1, t1, ht1, hlen1, hsp1, huse1⟩ :=
    userVmMap_takes_page (by decide) hstk hl (spans_empty dir) h1
  obtain ⟨free2, t2, ht2, hlen2, hsp2, huse2⟩ := userVmMap_takes_page htf htf ht1.listed hsp1 h2
  obtain ⟨free3, t3, ht3, hlen3, hsp3, huse3⟩ :=
    userVmMap_takes_page hk.aligned hk.aligned ht2.listed hsp2 h3
  refine ⟨free3, t1 ++ t2 ++ t3, (ht1.trans ht2).trans ht3, ?_, hsp3, fun x => ?_⟩
  · simp only [length_append, hlen1, hlen2, hlen3]
    rfl
  · rw [huse3, huse2, huse1, uses_empty]
    simp only [mem_append]
    tauto

theorem execClean_takes {pt1 : PageTable} (hk : KernelAt s₁.freeMemStartAddr trapSec)
    (hclean : procCleanPagetable s c = .ok (s₁, pt1)) (hl : s₁.Listed free)
    (hdir : c.pagetable.dir % PGSIZE = 0 ∧ c.pagetable.dir ∉ free)
    (h : execClean s trapSec c = .ok (s', c')) :
    ∃ free' rest stk, s'.Listed free' ∧ free = c'.trapframe :: stk :: rest ++ free' ∧
      2 + rest.length = spacePages trapSec c'.trapframe ∧
      c'.pagetable.Spans (spaceVpns trapSec c'.trapframe) ∧
      c'.pagetable.entry stackVpn = Pte.leaf stk (protToType true true false true) ∧
      ∀ x, c'.pagetable.Uses x ↔
        x = c.pagetable.dir ∨ x = trapSec ∨ x ∈ c'.trapframe :: stk :: rest := by
  obtain ⟨s2, pt2, tf, s3, stk, s4, hclean', htf, htf0, hstk, hinit⟩ := execClean_inv h
  cases hclean.symm.trans hclean'
  obtain ⟨hm3, hst3, -, ⟨htf0', -⟩ | ⟨free1, -, rfl, hl1⟩⟩ := allocPage_inv hl htf
  · exact absurd htf0' htf0
  have htfa := (hl.managed tf mem_cons_self).1
  have hnd := nodup_cons.mp hl.chain.nodup
  -- the trapframe and the directory are off the list when they are cleared
  have hl2 : Pmm.Listed { s3 with
      mem := fillBytes (fillBytes s3.mem tf 0 trapframeSize) c.pagetable.dir 0 PGSIZE } free1 := by
    refine hl1.write fun p hp i hi => ?_
    have hpa := (hl.managed p (.tail _ hp)).1
    have hne1 : p ≠ tf := fun heq => hnd.1 (heq ▸ hp)
    have hne2 : p ≠ c.pagetable.dir := fun heq => hdir.2 (heq ▸ .tail _ hp)
    rw [fillBytes_outside (by unfold PGSIZE at *; omega),
      fillBytes_outside (by unfold PGSIZE trapframeSize at *; omega)]
  obtain ⟨hm4, hst4, -, hstk'⟩ := allocPage_inv hl2 hstk
  have hk4 : KernelAt s4.freeMemStartAddr trapSec := by
    rw [hst4]
    rwa [hst3]
  have hzero : ∀ v, (empty c.pagetable.dir).entry v = Pte.zero := fun v => by
    simp [entry, empty]
  have htfeq : c'.trapframe = tf := by
    obtain ⟨_, _, _, _, _, -, -, -, rfl⟩ := initSpace_inv hinit
    rfl
  obtain ⟨-, -, hentry⟩ := initSpace_plain hk4 ⟨htfa, htf0⟩ hzero hinit
  rcases hstk' with ⟨rfl, rfl, hl4⟩ | ⟨free2, hstk0, rfl, hl4⟩
  · -- without a page for the stack there is none for its tables
    obtain ⟨free', taken, ht, hlen, -, -⟩ := newSpace_takes hk4 htfa (by decide) hl4 hinit
    have hnil : taken = [] := (append_eq_nil_iff.mp ht.eq.symm).1
    have htwo : newTables [] stackVpn = 2 := by decide
    rw [hnil, spacePages, htwo] at hlen
    simp at hlen
  · have hstka := (hl.managed stk (by simp)).1
    obtain ⟨free', taken, ht, hlen, hsp, huse⟩ := newSpace_takes hk4 htfa hstka hl4 hinit
    rw [htfeq]
    refine ⟨free', taken, stk, ht.listed, ?_, hlen, hsp, hentry, fun x => ?_⟩
    · rw [ht.eq]
      rfl
    · rw [huse]
      simp only [mem_cons]

omit [RefTable T] in
theorem argvVa_bounds {arg : List UInt8} (hn : arg.length < EXEC_BUF) :
    USER_STACK_TOP - PGSIZE + 8 ≤ argvVa USER_STACK_TOP arg ∧
      argvVa USER_STACK_TOP arg + arg.length + 1 ≤ USER_STACK_TOP := by
  unfold argvVa USER_STACK_TOP EXEC_BUF PGSIZE at *
  omega

theorem copyDst_stack {pt : PageTable} {va stk dst : Nat} {perm : Perm}
    (hentry : pt.entry stackVpn = Pte.leaf stk perm) (hstk : stk % PGSIZE = 0)
    (hr : perm.r = true) (hlo : USER_STACK_TOP - PGSIZE ≤ va) (hhi : va < USER_STACK_TOP)
    (h : copyDst pt va = .ok dst) : dst = stk + (va - (USER_STACK_TOP - PGSIZE)) := by
  have hvpn : va / PGSIZE = stackVpn := by
    unfold stackVpn USER_STACK_TOP PGSIZE at *
    omega
  have hoff : va % PGSIZE = va - (USER_STACK_TOP - PGSIZE) := by
    unfold USER_STACK_TOP PGSIZE at *
    omega
  have hmax : ¬ MAXVA ≤ va := by
    unfold MAXVA USER_STACK_TOP at *
    omega
  have hpa : lookupPa pt va = stk := by
    have hreadable : (Pte.leaf stk perm).v ∧
        ((Pte.leaf stk perm).perm.r ∨ (Pte.leaf stk perm).perm.w) := ⟨rfl, .inl hr⟩
    rw [lookupPa, if_neg hmax, hvpn, hentry]
    rw [if_pos hreadable, leaf_pa_of_aligned _ hstk]
  unfold copyDst at h
  split at h
  · cases h
  · cases h
    rw [userVaToPa, hpa, hoff]

omit [RefTable T] in
theorem pushArgs_inv {arg : List UInt8} {stk : Nat} (hn : arg.length < EXEC_BUF)
    (hsp : readLE s.mem (c.trapframe + tfSp) 8 = USER_STACK_TOP)
    (hentry : c.pagetable.entry stackVpn = Pte.leaf stk (protToType true true false true))
    (hstk : stk % PGSIZE = 0) (h : pushArgs s c arg = .ok s') :
    ∃ m, s' = { s with mem := m } ∧ readLE m (c.trapframe + tfA0) 8 = 1 ∧
      ∀ x, (x < stk ∨ stk + PGSIZE ≤ x) → (x < c.trapframe ∨ c.trapframe + PGSIZE ≤ x) →
        m x = s.mem x := by
  simp only [pushArgs, hsp, bind_eq_ok] at h
  obtain ⟨argvPa, h1, argvsPa, h2, h⟩ := h
  cases h
  obtain ⟨hlo, hhi⟩ := argvVa_bounds hn
  have hd1 := copyDst_stack hentry hstk rfl (by omega) (by omega) h1
  have hd2 := copyDst_stack hentry hstk rfl (by omega) (by omega) h2
  refine ⟨_, rfl, ?_, fun x hx1 hx2 => ?_⟩
  · simp only [Pmm.setReg]
    rw [readLE_writeLE_of_disjoint (by unfold tfA0 tfSp; omega),
      readLE_writeLE_of_disjoint (by unfold tfA0 tfA1; omega), readLE_writeLE_self _ _ (by decide)]
  · have hp : PGSIZE = 4096 := rfl
    simp only [Pmm.setReg]
    rw [writeLE_of_outside (by unfold tfSp; omega), writeLE_of_outside (by unfold tfA1; omega),
      writeLE_of_outside (by unfold tfA0; omega), writeLE_of_outside (by omega),
      putString_outside (by omega)]

theorem takeObjects_takes : ∀ (os : List Mem) (s : Pmm T) (free ps : List Nat), s.Listed free →
    takeObjects os s = .ok (ps, s') →
    ∃ free', Takes s s' free free' ps ∧ ps.length = os.length := by
  intro os
  induction os with
  | nil =>
    intro s free ps hl h
    cases h
    exact ⟨free, .refl hl, rfl⟩
  | cons o os ih =>
    intro s free ps hl h
    simp only [takeObjects, bind_eq_ok] at h
    obtain ⟨⟨p, s₁⟩, ha, h⟩ := h
    split at h
    · cases h
    · rename_i hp
      simp only [bind_eq_ok] at h
      obtain ⟨⟨qs, s2⟩, hrest, h⟩ := h
      cases h
      have hm := (allocPage_inv hl ha).1
      obtain ⟨free1, ht1⟩ := allocPage_takes (m := copyBytes s₁.mem p o 0 PGSIZE) hl ha hp
        fun x hx => by rw [copyBytes_outside hx, hm]
      obtain ⟨free2, ht2, hlen⟩ := ih _ free1 qs ht1.listed hrest
      exact ⟨free2, ht1.trans ht2, by rw [length_cons, length_cons, hlen]⟩

theorem recordRegion_eq {va : Nat} {segType : SegType} (h : recordRegion c va segType = .ok c') :
    c'.pagetable = c.pagetable ∧ c'.trapframe = c.trapframe := by
  unfold recordRegion at h
  split at h
  · cases h
  · cases h
    exact ⟨rfl, rfl⟩

theorem loadSegment_takes {ph : ElfProgHeader} (hl : s.Listed free)
    (hsp : c.pagetable.Spans seen) (hload : ph.isLoad = true)
    (h : loadSegment s c ph = .ok (s', c')) :
    ∃ free' taken, Takes s s' free free' taken ∧
      taken.length = 1 + tablesFor seen (ph.vaddr / PGSIZE) (pagesAt ph.vaddr) ∧
      c'.pagetable.Spans (walked seen (ph.vaddr / PGSIZE) (pagesAt ph.vaddr)) ∧
      c'.trapframe = c.trapframe ∧
      ∀ x, c'.pagetable.Uses x ↔ c.pagetable.Uses x ∨ x ∈ taken ∨
        ∃ i, i < pagesAt ph.vaddr - 1 ∧ x = free.headD 0 + (i + 1) * PGSIZE := by
  rcases loadSegment_inv h with ⟨hno, -, -⟩ | ⟨-, dest, s₁, pt1, segType, hal, rfl, -, hrec⟩
  · simp [hload] at hno
  obtain ⟨hsize, hdest, s2, ha, hmap⟩ := elfAllocMb_inv hal
  obtain ⟨hpt, htf⟩ := recordRegion_eq hrec
  have hm := (allocPage_inv hl ha).1
  obtain ⟨free1, ht1⟩ := allocPage_takes (m := fillBytes s2.mem dest 0 PGSIZE) hl ha hdest
    fun x hx => by rw [fillBytes_outside hx, hm]
  have hda : dest % PGSIZE = 0 := (hl.managed dest (by rw [ht1.eq]; simp)).1
  have hhead : free.headD 0 = dest := by
    rw [ht1.eq]
    rfl
  obtain ⟨free2, tables, ht2, hlen, hspan, huse⟩ := userVmMap_takes hda ht1.listed hsp hmap
  have ht := ht1.trans ht2
  have hpos : 0 < pagesAt ph.vaddr := by
    unfold pagesAt PGSIZE
    omega
  have hnd := hl.chain.nodup
  rw [ht.eq] at hnd
  have hdout : dest ∉ free2 := fun hin =>
    (nodup_append.mp hnd).2.2 dest (by simp) dest hin rfl
  refine ⟨free2, [dest] ++ tables, ⟨?_, ht.eq, fun x hx => ?_, ht.start_eq, ht.end_eq⟩, ?_, ?_,
    htf, fun x => ?_⟩
  · -- the contents go to the segment's own page
    refine ht.listed.write fun p hp i hi => copyBytes_outside ?_
    have hpa := (hl.managed p (by rw [ht.eq]; exact mem_append_right _ hp)).1
    have hap := page_apart hpa hda fun heq => hdout (heq ▸ hp)
    unfold PGSIZE at *
    omega
  · have hx' := hx dest (by simp)
    dsimp only
    rw [copyBytes_outside (by omega)]
    exact ht.mem x hx
  · rw [length_append, hlen]
    rfl
  · rwa [hpt]
  · rw [hpt, hhead]
    rw [huse, mem_append, mem_singleton]
    constructor
    · rintro (hx | hx | ⟨i, hi, hx⟩)
      · exact .inl hx
      · exact .inr (.inl (.inr hx))
      · cases i with
        | zero => exact .inr (.inl (.inl (by omega)))
        | succ i => exact .inr (.inr ⟨i, by omega, hx⟩)
    · rintro (hx | (hx | hx) | ⟨i, hi, hx⟩)
      · exact .inl hx
      · exact .inr (.inr ⟨0, hpos, by omega⟩)
      · exact .inr (.inl hx)
      · exact .inr (.inr ⟨i + 1, by omega, hx⟩)

theorem elfLoad_takes : ∀ (phs : List ElfProgHeader) (s : Pmm T) (c : Space)
    (free seen : List Nat), s.Listed free → c.pagetable.Spans seen →
    elfLoad s c phs = .ok (s', c') →
    ∃ free' taken, Takes s s' free free' taken ∧ taken.length = segmentPages seen phs ∧
      c'.trapframe = c.trapframe ∧
      ∀ x, c'.pagetable.Uses x ↔ c.pagetable.Uses x ∨ x ∈ taken ∨ x ∈ spills seen free phs := by
  intro phs
  induction phs with
  | nil =>
    intro s c free seen hl _ h
    cases h
    exact ⟨free, [], .refl hl, rfl, rfl, by simp [spills]⟩
  | cons ph phs ih =>
    intro s c free seen hl hsp h
    simp only [elfLoad, bind_eq_ok] at h
    obtain ⟨⟨s₁, c1⟩, h1, h⟩ := h
    cases hload : ph.isLoad with
    | false =>
      rcases loadSegment_inv h1 with ⟨-, rfl, rfl⟩ | ⟨hyes, -⟩
      · simp only [segmentPages, spills, hload, Bool.false_eq_true, if_false]
        exact ih _ _ free seen hl hsp h
      · simp [hload] at hyes
    | true =>
      obtain ⟨free1, t1, ht1, hlen1, hsp1, htf1, huse1⟩ := loadSegment_takes hl hsp hload h1
      obtain ⟨free2, t2, ht2, hlen2, htf2, huse2⟩ := ih s₁ c1 free1 _ ht1.listed hsp1 h
      have hdrop : free.drop (1 + tablesFor seen (ph.vaddr / PGSIZE) (pagesAt ph.vaddr))
          = free1 := by rw [ht1.eq, ← hlen1, drop_left]
      simp only [segmentPages, spills, hload, if_true]
      refine ⟨free2, t1 ++ t2, ht1.trans ht2, ?_, htf2.trans htf1, fun x => ?_⟩
      · rw [length_append, hlen1, hlen2]
      · rw [huse2, huse1, hdrop]
        simp only [mem_append, mem_map, mem_range]
        constructor
        · rintro ((hx | hx | ⟨i, hi, hx⟩) | hx | hx)
          · exact .inl hx
          · exact .inr (.inl (.inl hx))
          · exact .inr (.inr (.inl ⟨i, hi, hx.symm⟩))
          · exact .inr (.inl (.inr hx))
          · exact .inr (.inr (.inr hx))
        · rintro (hx | (hx | hx) | ⟨i, hi, hx⟩ | hx)
          · exact .inl (.inl hx)
          · exact .inl (.inr (.inl hx))
          · exact .inr (.inl hx)
          · exact .inl (.inr (.inr ⟨i, hi, hx.symm⟩))
          · exact .inr (.inr hx)

theorem freePages_mem : ∀ (ps : List Nat) (s : Pmm T), freePages ps s = .ok s' →
    ∀ x, (∀ p ∈ ps, x < p ∨ p + 8 ≤ x) → s'.mem x = s.mem x := by
  intro ps
  induction ps with
  | nil =>
    intro s h x _
    cases h
    rfl
  | cons p ps ih =>
    intro s h x hx
    simp only [freePages, bind_eq_ok] at h
    obtain ⟨s₁, hf, h⟩ := h
    rw [ih s₁ h x fun q hq => hx q (.tail _ hq)]
    unfold freePage at hf
    split at hf
    · cases hf
    · split at hf
      · cases hf
        rfl
      · cases hf
        exact writeLE_of_outside (hx p mem_cons_self)

end

/-! ## The list through the call -/

section

variable {s s' : Pmm T} {c c' : Space} {call : ExecCall} {free : List Nat} {trapSec : Nat}

/-- The pages of `list` that an `exec` hands out: `first` for the space,
`objs` for the kernel's objects, `second` for the segments. -/
structure HandsOut (trapSec : Nat) (call : ExecCall) (list first objs second : List Nat) :
    Prop where
  nodup : list.Nodup
  aligned : ∀ p ∈ list, p % PGSIZE = 0
  split : ∃ rest, list = first ++ objs ++ second ++ rest
  first_length : first.length = spacePages trapSec (list.headD 0)
  objs_length : objs.length = call.objects.length
  second_length : second.length = segmentPages (spaceVpns trapSec (list.headD 0)) call.phs

omit [RefTable T] in
theorem setReg_listed {tf off v : Nat} (hl : s.Listed free) (htf : tf % PGSIZE = 0)
    (hout : tf ∉ free) (hoff : off + 8 ≤ PGSIZE) : (s.setReg tf off v).Listed free := by
  refine hl.write fun p hp i hi => writeLE_of_outside ?_
  have hap := page_apart (hl.managed p hp).1 htf fun heq => hout (heq ▸ hp)
  omega

theorem loadBincode_spec {seen : List Nat} (hl : s.Listed free)
    (hsp : c.pagetable.Spans seen) (htf : c.trapframe % PGSIZE = 0) (hout : c.trapframe ∉ free)
    (h : loadBincodeFromHostElf s c call = .ok (s', c')) :
    ∃ objs second rest, free = objs ++ second ++ rest ∧ objs.length = call.objects.length ∧
      second.length = segmentPages seen call.phs ∧ c'.trapframe = c.trapframe ∧
      readLE s'.mem (c.trapframe + tfA0) 8 = readLE s.mem (c.trapframe + tfA0) 8 ∧
      ∀ x, c'.pagetable.Uses x ↔ c.pagetable.Uses x ∨ x ∈ second ∨
        x ∈ spills seen (free.drop call.objects.length) call.phs := by
  simp only [loadBincodeFromHostElf, bind_eq_ok] at h
  obtain ⟨⟨objs, s₁⟩, h1, ⟨s2, c2⟩, h2, s3, h3, h⟩ := h
  cases h
  obtain ⟨free1, ht1, hlen1⟩ := takeObjects_takes _ _ _ _ hl h1
  obtain ⟨rest, second, ht2, hlen2, htf2, huse2⟩ := elfLoad_takes _ _ _ _ _ ht1.listed hsp h2
  have hdrop : free.drop call.objects.length = free1 := by rw [ht1.eq, ← hlen1, drop_left]
  have hmem : ∀ p ∈ objs ++ second, c.trapframe + PGSIZE ≤ p ∨ p + PGSIZE ≤ c.trapframe := by
    intro p hp
    have hpf : p ∈ free := by
      rw [(ht1.trans ht2).eq]
      exact mem_append_left _ hp
    exact page_apart htf (hl.managed p hpf).1 fun heq => hout (heq ▸ hpf)
  refine ⟨objs, second, rest, (ht1.trans ht2).eq, hlen1, hlen2, htf2, ?_, fun x => ?_⟩
  · refine readLE_congr fun i hi => ?_
    have hpage : tfA0 + i < PGSIZE := by
      unfold tfA0 PGSIZE
      omega
    have hclosed : ∀ p ∈ call.closed.filterMap (fun i => objs[i]?),
        c.trapframe + tfA0 + i < p ∨ p + 8 ≤ c.trapframe + tfA0 + i := by
      intro p hp
      obtain ⟨j, -, hj⟩ := mem_filterMap.mp hp
      have hap := hmem p (mem_append_left _ (mem_of_getElem? hj))
      unfold PGSIZE at *
      omega
    rw [freePages_mem _ _ h3 _ hclosed]
    simp only [Pmm.setReg, htf2]
    rw [writeLE_of_outside (by unfold tfA0 tfTp; omega),
      writeLE_of_outside (by unfold tfA0 tfEpc; omega)]
    refine (ht1.trans ht2).mem _ fun p hp => ?_
    have hap := hmem p hp
    omega
  · rw [huse2, hdrop]

/-- **What `do_exec` did**: it went through the list in order, the tree uses
the pages of its two own phases, and the new `a0` is 1. -/
theorem doExec_spec {ret : Nat} (hk : KernelAt s.freeMemStartAddr trapSec) (hl : s.Listed free)
    (hnd : (released s.refs c.cleanedPages ++ free).Nodup)
    (hdir : c.pagetable.dir % PGSIZE = 0 ∧ c.pagetable.dir ∉ released s.refs c.cleanedPages ++ free)
    (h : doExec s trapSec c call = .ok (s', c', ret)) :
    ret = 2 ^ 64 - 1 ∧ (c.freeAfterClean s.refs free).headD 0 = c'.trapframe ∧
      c'.trapframe % PGSIZE = 0 ∧ readLE s'.mem (c'.trapframe + tfA0) 8 = 1 ∧
      ∃ first objs second, HandsOut trapSec call (c.freeAfterClean s.refs free) first objs second ∧
        ∀ x, c'.pagetable.Uses x ↔
          x = c.pagetable.dir ∨ x = trapSec ∨ x ∈ first ∨ x ∈ second ∨
            x ∈ spills (spaceVpns trapSec c'.trapframe) ((c.freeAfterClean s.refs free).drop
              (spacePages trapSec c'.trapframe + call.objects.length)) call.phs := by
  unfold doExec at h
  split at h
  · cases h
  simp only [bind_eq_ok] at h
  obtain ⟨⟨s2, c2⟩, hclean, s3, hargs, ⟨s4, c4⟩, hload, h⟩ := h
  cases h
  obtain ⟨s₁, pt1, -, -, -, -, hproc, -⟩ := execClean_inv hclean
  have hg := freePages_gave _ _ _ hl hnd (procClean_freePages hproc)
  have hk1 : KernelAt s₁.freeMemStartAddr trapSec := by rwa [hg.start_eq]
  have hdir1 : c.pagetable.dir ∉ (released s.refs c.cleanedPages).reverse ++ free := by
    simpa [mem_append] using hdir.2
  obtain ⟨free2, tables, stk, hl2, hlist, hlen, hsp, hentry, huse⟩ :=
    execClean_takes hk1 hproc hg.listed ⟨hdir.1, hdir1⟩ hclean
  have hndl := hg.listed.chain.nodup
  have haligned : ∀ p ∈ c2.trapframe :: stk :: tables, p % PGSIZE = 0 ∧ p ∉ free2 := by
    intro p hp
    rw [hlist] at hndl
    refine ⟨(hg.listed.managed p ?_).1, fun hin =>
      (nodup_append.mp hndl).2.2 p hp p hin rfl⟩
    rw [hlist]
    exact mem_append_left _ hp
  obtain ⟨htfa, htff⟩ := haligned c2.trapframe (by simp)
  obtain ⟨hstka, hstkf⟩ := haligned stk (by simp)
  -- the stack pointer, the argument and the registers go to pages off the list
  have hl2' : (s2.setReg c2.trapframe tfSp USER_STACK_TOP).Listed free2 :=
    setReg_listed hl2 htfa htff (by decide)
  obtain ⟨m, rfl, ha0, hm⟩ := pushArgs_inv (by omega) (readLE_writeLE_self _ _ (by decide)) hentry
    hstka hargs
  have hl3 : Pmm.Listed { s2.setReg c2.trapframe tfSp USER_STACK_TOP with mem := m } free2 := by
    refine hl2'.write fun p hp i hi => ?_
    have hpa := (hl2.managed p hp).1
    have hap1 := page_apart hpa hstka fun heq => hstkf (heq ▸ hp)
    have hap2 := page_apart hpa htfa fun heq => htff (heq ▸ hp)
    unfold PGSIZE at *
    exact hm _ (by omega) (by omega)
  obtain ⟨objs, second, rest, hfree2, hlen1, hlen2, htf4, ha0', huse4⟩ :=
    loadBincode_spec hl3 hsp htfa htff hload
  have hhead : (c.freeAfterClean s.refs free).headD 0 = c2.trapframe := by
    rw [Space.freeAfterClean, hlist]
    rfl
  have hlen' : (c2.trapframe :: stk :: tables).length = spacePages trapSec c2.trapframe := by
    rw [← hlen]
    simp only [length_cons]
    omega
  rw [htf4]
  refine ⟨rfl, hhead, htfa, ?_, c2.trapframe :: stk :: tables, objs, second,
    ⟨hndl, fun p hp => (hg.listed.managed p hp).1, ⟨rest, ?_⟩, ?_, hlen1, ?_⟩, fun x => ?_⟩
  · have hkept : readLE s4.mem (c2.trapframe + tfA0) 8 = 1 := ha0'.trans ha0
    split
    · rw [Pmm.setReg]
      rw [readLE_writeLE_of_disjoint (by unfold tfA0 tfEpc; omega), hkept]
    · exact hkept
  · rw [Space.freeAfterClean, hlist, hfree2]
    simp only [append_assoc]
  · rw [hhead, hlen']
  · rw [hhead, hlen2]
  · have hdrop : (c.freeAfterClean s.refs free).drop
        (spacePages trapSec c2.trapframe + call.objects.length)
        = free2.drop call.objects.length := by
      rw [Space.freeAfterClean, hlist, ← hlen', ← drop_drop, drop_left]
    rw [huse4, huse, hdrop]
    constructor
    · rintro ((hx | hx | hx) | hx | hx)
      · exact .inl hx
      · exact .inr (.inl hx)
      · exact .inr (.inr (.inl hx))
      · exact .inr (.inr (.inr (.inl hx)))
      · exact .inr (.inr (.inr (.inr hx)))
    · rintro (hx | hx | hx | hx | hx)
      · exact .inl (.inl hx)
      · exact .inl (.inr (.inl hx))
      · exact .inl (.inr (.inr hx))
      · exact .inr (.inl hx)
      · exact .inr (.inr hx)

theorem doExec_ret {ret : Nat} (h : doExec s trapSec c call = .ok (s', c', ret)) :
    ret = 2 ^ 64 - 1 := by
  unfold doExec at h
  split at h
  · cases h
  simp only [bind_eq_ok] at h
  obtain ⟨_, -, _, -, _, -, h⟩ := h
  simp only [pure_eq_ok, Except.ok.injEq, Prod.mk.injEq] at h
  exact h.2.2.symm

/-! ## The store -/

theorem mem_front_iff {a : Nat} (l1 l2 : List Nat) : a ∈ l1 ↔ (l1 ++ l2).idxOf a < l1.length := by
  by_cases ha : a ∈ l1
  · rw [idxOf_append_of_mem ha]
    exact iff_of_true ha (idxOf_lt_length_iff.mpr ha)
  · rw [idxOf_append_of_notMem ha]
    exact iff_of_false ha (by omega)

theorem mem_middle_iff {a : Nat} {l1 l2 l3 : List Nat} (hnd : (l1 ++ l2 ++ l3).Nodup) :
    a ∈ l2 ↔ l1.length ≤ (l1 ++ l2 ++ l3).idxOf a ∧
      (l1 ++ l2 ++ l3).idxOf a < l1.length + l2.length := by
  have hboth := mem_front_iff (a := a) (l1 ++ l2) l3
  have hone := mem_front_iff (a := a) l1 (l2 ++ l3)
  rw [← append_assoc] at hone
  rw [length_append] at hboth
  have hdis : a ∈ l1 → a ∉ l2 := fun h1 h2 =>
    (nodup_append.mp (nodup_append.mp hnd).1).2.2 a h1 a h2 rfl
  rw [mem_append] at hboth
  constructor
  · intro h2
    refine ⟨not_lt.mp fun hlt => hdis (hone.mpr hlt) h2, hboth.mp (.inr h2)⟩
  · rintro ⟨hle, hlt⟩
    exact (hboth.mpr hlt).resolve_left fun h1 => absurd (hone.mp h1) (by omega)

theorem HandsOut.misses_iff {refs : T} {first objs second : List Nat} {tf' : Nat}
    (h : HandsOut trapSec call (c.freeAfterClean refs free) first objs second)
    (hhead : (c.freeAfterClean refs free).headD 0 = tf')
    (htf : c.trapframe ∈ released refs c.cleanedPages) :
    ReturnMisses refs trapSec c call free ↔
      c.trapframe ∉ first ∧ c.trapframe ∉ second ∧
        c.trapframe ∉ spills (spaceVpns trapSec tf') ((c.freeAfterClean refs free).drop
          (spacePages trapSec tf' + call.objects.length)) call.phs := by
  obtain ⟨rest, hsplit⟩ := h.split
  have hidx : c.behindTrapframe refs = (c.freeAfterClean refs free).idxOf c.trapframe := by
    rw [Space.behindTrapframe, Space.freeAfterClean, idxOf_append_of_mem (mem_reverse.mpr htf)]
  have hnd := h.nodup
  have hlen1 := h.first_length
  have hlen2 := h.second_length
  rw [hhead] at hlen1 hlen2
  rw [hsplit] at hnd
  have hfirst := mem_front_iff (a := c.trapframe) first (objs ++ second ++ rest)
  have hsecond := mem_middle_iff (a := c.trapframe) hnd
  simp only [← append_assoc] at hfirst
  rw [← hsplit, ← hidx, hlen1] at hfirst
  rw [← hsplit, ← hidx, length_append, hlen1, hlen2, h.objs_length] at hsecond
  unfold ReturnMisses
  simp only [hhead]
  rw [hfirst, hsecond]
  constructor
  · rintro ⟨h1, h2, h3⟩
    exact ⟨by omega, by omega, h3⟩
  · rintro ⟨h1, h2, h3⟩
    exact ⟨by omega, by omega, h3⟩

theorem behindTrapframe_eq_zero_iff {refs : T} (free : List Nat)
    (htf : c.trapframe ∈ released refs c.cleanedPages) :
    c.behindTrapframe refs = 0 ↔ (c.freeAfterClean refs free).headD 0 = c.trapframe := by
  unfold Space.behindTrapframe Space.freeAfterClean
  have hmem := mem_reverse.mpr htf
  cases hl : (released refs c.cleanedPages).reverse with
  | nil => simp [hl] at hmem
  | cons p ps =>
    rw [cons_append, headD_cons, idxOf_cons]
    by_cases hp : p = c.trapframe
    · simp [hp]
    · have hbeq : (p == c.trapframe) = false := by simpa using hp
      rw [hbeq]
      simp [hp]

theorem misses_iff_not_uses {pt : PageTable} {p off : Nat} (hp : p % PGSIZE = 0)
    (hoff : off + 8 ≤ PGSIZE) (hpages : ∀ x, pt.Uses x → x % PGSIZE = 0) :
    pt.Misses (p + off) ↔ ¬ pt.Uses p := by
  constructor
  · intro hmiss huse
    exact hmiss p huse off (by omega) (by omega)
  · intro hnot x hx i hi hin
    have hap := page_apart (hpages x hx) hp fun heq => hnot (heq ▸ hx)
    omega

omit [RefTable T] in
theorem spills_aligned : ∀ (phs : List ElfProgHeader) (seen free : List Nat),
    (∀ p ∈ free, p % PGSIZE = 0) → ∀ x ∈ spills seen free phs, x % PGSIZE = 0 := by
  intro phs
  induction phs with
  | nil =>
    intro seen free _ x hx
    cases hx
  | cons ph phs ih =>
    intro seen free hfree x hx
    rw [spills] at hx
    split at hx
    · rcases mem_append.mp hx with hx | hx
      · obtain ⟨i, -, rfl⟩ := mem_map.mp hx
        have hhead : free.headD 0 % PGSIZE = 0 := by
          cases free with
          | nil => rfl
          | cons p free => exact hfree p mem_cons_self
        unfold PGSIZE at *
        omega
      · exact ih _ _ (fun p hp => hfree p (mem_of_mem_drop hp)) x hx
    · exact ih _ _ hfree x hx

/-- **The store of `exec`'s return value misses the new image exactly when the
old trapframe lies deep enough in the free list**, and `argc` is what it was
set to unless the new trapframe is the old one. -/
theorem exec_return_misses_iff (hk : KernelAt s.freeMemStartAddr trapSec) (hl : s.Listed free)
    (hnd : (released s.refs c.cleanedPages ++ free).Nodup)
    (hdir : c.pagetable.dir % PGSIZE = 0 ∧
      c.pagetable.dir ∉ released s.refs c.cleanedPages ++ free)
    (htf : c.trapframe ∈ released s.refs c.cleanedPages)
    (h : handleSyscall s trapSec c call = .ok (s', c')) :
    ∃ s₁, doExec (s.setReg c.trapframe tfEpc (u64 (readLE s.mem (c.trapframe + tfEpc) 8 + 4)))
        trapSec c call = .ok (s₁, c', 2 ^ 64 - 1) ∧
      s' = s₁.setReg c.trapframe tfA0 (2 ^ 64 - 1) ∧
      (c'.pagetable.Misses (c.trapframe + tfA0) ↔ ReturnMisses s.refs trapSec c call free) ∧
      (ReturnMisses s.refs trapSec c call free → ∀ x, c'.pagetable.Uses x → ∀ i, i < PGSIZE →
        s'.mem (x + i) = s₁.mem (x + i)) ∧
      (readLE s'.mem (c'.trapframe + tfA0) 8 = 1 ↔ c.behindTrapframe s.refs ≠ 0) := by
  simp only [handleSyscall, bind_eq_ok] at h
  obtain ⟨⟨s₁, c₁, ret⟩, hexec, h⟩ := h
  cases h
  have hmanaged : s.Managed c.trapframe := by
    unfold doExec at hexec
    split at hexec
    · cases hexec
    simp only [bind_eq_ok] at hexec
    obtain ⟨⟨s₂, c₂⟩, hclean, -⟩ := hexec
    obtain ⟨_, _, -, -, -, -, hproc, -⟩ := execClean_inv hclean
    exact freePages_managed _ _ (procClean_freePages hproc) _ (released_subset _ _ htf)
  have htfm := hmanaged.1
  have htfree : c.trapframe ∉ free := fun hin =>
    (nodup_append.mp hnd).2.2 _ htf _ hin rfl
  have hl₀ := setReg_listed (v := u64 (readLE s.mem (c.trapframe + tfEpc) 8 + 4)) hl htfm htfree
    (show tfEpc + 8 ≤ PGSIZE by decide)
  obtain ⟨rfl, hhead, htfa, ha0, first, objs, second, hout, huse⟩ :=
    doExec_spec (by exact hk) hl₀ hnd hdir hexec
  have hnotdir : c.trapframe ≠ c.pagetable.dir := fun heq =>
    hdir.2 (heq ▸ mem_append_left _ htf)
  have hmiss := hout.misses_iff hhead htf
  obtain ⟨rest, hsplit⟩ := hout.split
  have hin : ∀ p, p ∈ first ∨ p ∈ second → p ∈ c.freeAfterClean s.refs free := by
    intro p hp
    rw [show c.freeAfterClean s.refs free = first ++ objs ++ second ++ rest from hsplit]
    simp only [mem_append]
    tauto
  have hpages : ∀ x, c₁.pagetable.Uses x → x % PGSIZE = 0 := by
    intro x hx
    rcases (huse x).mp hx with rfl | rfl | hx | hx | hx
    · exact hdir.1
    · exact hk.aligned
    · exact hout.aligned x (hin x (.inl hx))
    · exact hout.aligned x (hin x (.inr hx))
    · exact spills_aligned _ _ _ (fun p hp => hout.aligned p (mem_of_mem_drop hp)) x hx
  -- the old trapframe is neither the directory nor in the kernel image
  have hsec : c.trapframe ≠ trapSec := by
    have := hk.lt_lo
    have := hmanaged.2.1
    omega
  have hiff : c₁.pagetable.Misses (c.trapframe + tfA0) ↔
      ReturnMisses s.refs trapSec c call free := by
    rw [misses_iff_not_uses htfm (by decide) hpages, huse]
    refine Iff.trans ?_ hmiss.symm
    simp only [not_or, hnotdir, hsec, not_false_eq_true, true_and]
  refine ⟨s₁, hexec, rfl, hiff, fun hm x hx i hi => ?_, ?_⟩
  · refine writeLE_of_outside ?_
    have := hiff.mpr hm x hx i hi
    omega
  · have hzero := behindTrapframe_eq_zero_iff free htf
    rw [show (c.freeAfterClean s.refs free).headD 0 = c₁.trapframe from hhead] at hzero
    by_cases hsame : c₁.trapframe = c.trapframe
    · refine iff_of_false ?_ fun hne => hne (hzero.mpr hsame)
      rw [hsame, Pmm.setReg]
      dsimp only
      rw [readLE_writeLE_self _ _ (by decide)]
      decide
    · refine iff_of_true ?_ fun heq => hsame (hzero.mp heq)
      rw [Pmm.setReg]
      dsimp only
      rwa [readLE_writeLE_of_disjoint (by unfold tfA0 PGSIZE at *; omega)]

end

/-- A program with a page of code and one of data, whose path is not cached. -/
def sampleCall : ExecCall where
  path := [0x2f, 0x61]
  arg := [0x62]
  objects := List.replicate 7 (fun _ => 0)
  phs := [segmentAt 0x10000 5, segmentAt 0x11000 6]
  entry := 0x10000
  hart := 0
  closed := [0, 1, 3, 5]

set_option synthInstance.maxSize 4096

/-- A small machine loads a program with code and data, which takes `n` heap
pages and makes the call; `P` holds of the states before and after. -/
abbrev ReturnRun (n : Nat) (P : VmSys RefList → Space → Pmm RefList → Space → Prop) : Prop :=
  ∃ s₀, vmSmall ([] : RefList) = .ok s₀ ∧ ∃ s, Runs VmSys.step (fun _ _ => True) s₀
      (.load [segmentAt 0x10000 5, segmentAt 0x11000 6] :: List.replicate n (.allocatePage 0)) s ∧
    ∃ c, s.procs 0 = some c ∧
    ∃ r, handleSyscall s.pmm s.trapSec c sampleCall = .ok r ∧ P s c r.1 r.2

/-- With fifteen heap pages the store goes to a free page. -/
theorem exec_return_misses_iff_heap :
    ∃ (s₀ s : VmSys RefList) (c : Space) (s' s₁ : Pmm RefList) (c' : Space) (free : List Nat),
      vmBoot 0x80006000 (64 * PGSIZE) (fun _ => 0) [] 0x80001000 = .ok s₀ ∧
      Reaches VmSys.step (fun _ _ => True) s₀ s ∧ s.procs 0 = some c ∧
      c.behindTrapframe s.pmm.refs = 17 ∧
      handleSyscall s.pmm s.trapSec c sampleCall = .ok (s', c') ∧
      s' = s₁.setReg c.trapframe tfA0 (2 ^ 64 - 1) ∧
      ReturnMisses s.pmm.refs s.trapSec c sampleCall free ∧
      c'.pagetable.Misses (c.trapframe + tfA0) ∧
      readLE s'.mem (c'.trapframe + tfA0) 8 = 1 := by
  obtain ⟨s₀, hboot, s, hrun, c, hc, ⟨s', c'⟩, hs, hk, hl, hnd, hdir, htf, hdepth, hmiss⟩ :
      ReturnRun 15 (fun s c _ _ =>
        (KERN_BASE ≤ s.trapSec ∧ s.trapSec % PGSIZE = 0 ∧ s.trapSec < s.pmm.freeMemStartAddr) ∧
        s.pmm.Listed (s.pmm.freeList 64) ∧
        (released s.pmm.refs c.cleanedPages ++ s.pmm.freeList 64).Nodup ∧
        (c.pagetable.dir % PGSIZE = 0 ∧
          c.pagetable.dir ∉ released s.pmm.refs c.cleanedPages ++ s.pmm.freeList 64) ∧
        c.trapframe ∈ released s.pmm.refs c.cleanedPages ∧ c.behindTrapframe s.pmm.refs = 17 ∧
        ReturnMisses s.pmm.refs s.trapSec c sampleCall (s.pmm.freeList 64)) := by decide +kernel
  obtain ⟨s₁, -, hs₁, hiff, -, hargc⟩ :=
    exec_return_misses_iff ⟨hk.1, hk.2.1, hk.2.2⟩ hl hnd hdir htf hs
  refine ⟨s₀, s, c, s', s₁, c', _, hboot, hrun.reaches .start, hc, hdepth, hs, hs₁, hmiss, hiff.mpr hmiss, ?_⟩
  rw [hargc, hdepth]
  decide

/-- Without heap pages the old trapframe becomes the second-level table for the
new stack, and the store changes it. -/
theorem exec_return_hits_table :
    ∃ (s₀ s : VmSys RefList) (c : Space) (s' s₁ : Pmm RefList) (c' : Space),
      vmBoot 0x80006000 (64 * PGSIZE) (fun _ => 0) [] 0x80001000 = .ok s₀ ∧
      Reaches VmSys.step (fun _ _ => True) s₀ s ∧ s.procs 0 = some c ∧
      (c.mappedInfo 4).segType = .code ∧ (c.mappedInfo 5).segType = .data ∧
      doExec (s.pmm.setReg c.trapframe tfEpc
        (u64 (readLE s.pmm.mem (c.trapframe + tfEpc) 8 + 4))) s.trapSec c sampleCall
        = .ok (s₁, c', 2 ^ 64 - 1) ∧
      handleSyscall s.pmm s.trapSec c sampleCall = .ok (s', c') ∧
      c'.pagetable.mid 1 = some c.trapframe ∧ c'.pagetable.Uses c.trapframe ∧
      s₁.mem (c.trapframe + tfA0) = 0 ∧ s'.mem (c.trapframe + tfA0) = 255 := by
  obtain ⟨s₀, hboot, s, hrun, c, hc, ⟨s', c'⟩, hs, hcode, hdata, ⟨⟨s₁, c₁, ret⟩, hexec, hbefore⟩,
      hmid, hafter⟩ : ReturnRun 0 (fun s c s' c' =>
      (c.mappedInfo 4).segType = .code ∧ (c.mappedInfo 5).segType = .data ∧
      (∃ r, doExec (s.pmm.setReg c.trapframe tfEpc
          (u64 (readLE s.pmm.mem (c.trapframe + tfEpc) 8 + 4))) s.trapSec c sampleCall = .ok r ∧
        r.1.mem (c.trapframe + tfA0) = 0) ∧
      c'.pagetable.mid 1 = some c.trapframe ∧ s'.mem (c.trapframe + tfA0) = 255) := by
    decide +kernel
  have hsame := hs
  rw [handleSyscall, hexec] at hsame
  simp only [ok_bind, pure_eq_ok, Except.ok.injEq, Prod.mk.injEq] at hsame
  obtain ⟨-, rfl⟩ := hsame
  obtain rfl : ret = 2 ^ 64 - 1 := doExec_ret hexec
  exact ⟨s₀, s, c, s', s₁, c₁, hboot, hrun.reaches .start, hc, hcode, hdata, hexec, hs, hmid,
    .inr (.inl (.inl ⟨1, hmid⟩)), hbefore, hafter⟩

end CabbagePKE
