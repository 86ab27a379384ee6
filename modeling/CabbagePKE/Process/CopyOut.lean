import CabbagePKE.Heap.Exec
import CabbagePKE.Lib.Words
import CabbagePKE.Vm.Copy
import CabbagePKE.Vm.Isolation

/-!
# What the kernel stores for a process

System calls that return data in memory translate the user's address with
`lookup_pa` or `user_va_to_pa`, which take any mapped page, read-only ones too,
and look up the first byte only. This file models those calls, with the block
heads of `vm_malloc` and `vm_free`, and says when another process cannot see the
difference.
-/

namespace CabbagePKE

open Lib Function List

variable {T : Type} [RefTable T]

/-! ## The calls -/

def intToU64 (x : Nat) : Nat :=
  if x % 2 ^ 32 < 2 ^ 31 then x % 2 ^ 32 else x % 2 ^ 32 + (2 ^ 64 - 2 ^ 32)

/-- The physical address behind `va`, to store through. An unmapped page
gives an address in page `0`, where no memory is. -/
def copyDst (pt : PageTable) (va : Nat) : Outcome Nat :=
  if userVaToPa pt va < PGSIZE then .error .undefined else .ok (userVaToPa pt va)

/-- What a `do_read` gives: the string `strcpy` finds in its buffer, and the
value it returns. -/
structure ReadResult where
  str : List UInt8
  ret : Nat

/-- The bytes `sys_user_read` asks for at `addr` when `rest` are missing. -/
def readLen (addr rest : Nat) : Nat := min rest (PGSIZE - addr % PGSIZE)

def sysUserReadFrom (pt : PageTable) (bufva count : Nat) (doRead : Nat → Nat → ReadResult) :
    Nat → Nat → Mem → Outcome Mem
  | 0, _, _ => .error .diverges
  | fuel + 1, i, m =>
    if count ≤ i then .ok m
    else do
      let addr := u64 (bufva + i)
      let len := readLen addr (count - i)
      let pa ← copyDst pt addr
      let r := doRead i len
      let m := putString m pa r.str
      if r.ret < len then return m
      else sysUserReadFrom pt bufva count doRead fuel (intToU64 (i + r.ret)) m

def sysUserRead (pt : PageTable) (m : Mem) (bufva count : Nat)
    (doRead : Nat → Nat → ReadResult) : Outcome Mem :=
  sysUserReadFrom pt bufva count doRead loopBound 0 m

def MAX_FILE_NAME_LEN : Nat := 32

/-- `sys_user_readdir`, with the entry that `rfs_readdir` finds. -/
def sysUserReaddir (pt : PageTable) (m : Mem) (vdir : Nat)
    (entry : Option (List UInt8 × Nat)) : Outcome Mem :=
  match entry with
  | none => .ok m
  | some (name, inum) => do
      let pa ← copyDst pt vdir
      return writeLE (putString m pa name) (pa + MAX_FILE_NAME_LEN) 4 inum

structure IStat where
  inum : Nat
  size : Nat
  type : Nat
  nlinks : Nat
  blocks : Nat

def sysUserStat (pt : PageTable) (m : Mem) (istat : Nat) (st : IStat) : Outcome Mem := do
  let pa ← copyDst pt istat
  let m := writeLE m pa 4 st.inum
  let m := writeLE m (pa + 4) 4 st.size
  let m := writeLE m (pa + 8) 4 st.type
  let m := writeLE m (pa + 12) 4 st.nlinks
  return writeLE m (pa + 16) 4 st.blocks

/-- `sys_user_gets`: the host stores what there is to read, at most `n`
bytes. -/
def sysUserGets (pt : PageTable) (m : Mem) (buf n : Nat) (line : List UInt8) : Outcome Mem :=
  if line.take n = [] then .ok m
  else do
    let pa ← copyDst pt buf
    return storeBytes m pa (line.take n)

/-- `sys_user_rcwd`: the name of the working directory, and then that of
the root before it, if they differ. -/
def sysUserRcwd (pt : PageTable) (m : Mem) (pathva : Nat) (cwd : List UInt8)
    (root : Option (List UInt8)) : Outcome Mem := do
  let pa ← copyDst pt pathva
  let m := putString m pa cwd
  match root with
  | none => return m
  | some root => return putString m pa (root ++ cwd)

/-- The calls by which the kernel stores into the memory of a process, each
with what the file system or the host has to give. -/
inductive CopyOut
  | read (bufva count : Nat) (doRead : Nat → Nat → ReadResult)
  | readdir (vdir : Nat) (entry : Option (List UInt8 × Nat))
  | stat (istat : Nat) (st : IStat)
  | gets (buf n : Nat) (line : List UInt8)
  | rcwd (pathva : Nat) (cwd : List UInt8) (root : Option (List UInt8))
  | malloc (n : Nat)
  | free (va : Nat)

def HeapUser.withMem (u : HeapUser T) (m : Mem) : HeapUser T :=
  { u with pmm := { u.pmm with mem := m } }

def HeapUser.copyOut (u : HeapUser T) : CopyOut → Outcome (HeapUser T)
  | .read bufva count doRead => do
      let m ← sysUserRead u.space.pagetable u.pmm.mem bufva count doRead
      return u.withMem m
  | .readdir vdir entry => do
      let m ← sysUserReaddir u.space.pagetable u.pmm.mem vdir entry
      return u.withMem m
  | .stat istat st => do
      let m ← sysUserStat u.space.pagetable u.pmm.mem istat st
      return u.withMem m
  | .gets buf n line => do
      let m ← sysUserGets u.space.pagetable u.pmm.mem buf n line
      return u.withMem m
  | .rcwd pathva cwd root => do
      let m ← sysUserRcwd u.space.pagetable u.pmm.mem pathva cwd root
      return u.withMem m
  | .malloc n => u.step (.malloc n)
  | .free va => u.step (.free va)

/-- Process `p`, whose `first_free_block` is `first`, makes the call. -/
def VmSys.copyOut (s : VmSys T) (p first : Nat) (call : CopyOut) : Outcome (VmSys T) := do
  let c ← s.space p
  let u ← HeapUser.copyOut ⟨s.pmm, c, first⟩ call
  return s.put u.pmm p u.space

def OnPage (A : Nat → Prop) (va n : Nat) : Prop := A (va / PGSIZE) ∧ va % PGSIZE + n ≤ PGSIZE

/-- The call stores to pages of `A` only, and never past the end of a page
it has looked up. -/
def CopyOut.Within (A : Nat → Prop) (u : HeapUser T) : CopyOut → Prop
  | .read bufva count doRead => ∀ i, i < count → OnPage A (u64 (bufva + i))
      ((doRead i (readLen (u64 (bufva + i)) (count - i))).str.length + 1)
  | .readdir vdir entry => ∀ name inum, entry = some (name, inum) →
      name.length < MAX_FILE_NAME_LEN ∧ OnPage A vdir (MAX_FILE_NAME_LEN + 4)
  | .stat istat _ => OnPage A istat 20
  | .gets buf n line => line.take n = [] ∨ OnPage A buf (line.take n).length
  | .rcwd pathva cwd root => OnPage A pathva (((root.getD []) ++ cwd).length + 1)
  | .malloc n => ∀ t ∈ mallocHeads u.proc n, OnPage A t.2 headSize
  | .free va => OnPage A (u64 (va + (2 ^ 64 - headSize))) headSize

/-! ## Keeping off foreign bytes -/

/-- The process has changed no byte of `foreign` since the memory was `m`.
The pages it maps are not free, and behind those of `A`, as on the free
list, there is no foreign byte. -/
structure Fence (foreign : Nat → Prop) (A : Nat → Prop) (m : Mem) (u : HeapProc T)
    (free : List Nat) : Prop where
  kept : ∀ x, foreign x → u.pmm.mem x = m x
  listed : u.pmm.Listed free
  clear : ∀ f ∈ free, ∀ k, k < PGSIZE → ¬ foreign (f + k)
  top : u.heapTop % PGSIZE = 0
  mapped : ∀ va, lookupPa u.pagetable va ≠ 0 →
    lookupPa u.pagetable va % PGSIZE = 0 ∧ lookupPa u.pagetable va ∉ free
  behind : ∀ va, A (va / PGSIZE) → lookupPa u.pagetable va ≠ 0 →
    ∀ k, k < PGSIZE → ¬ foreign (lookupPa u.pagetable va + k)

section

variable {foreign A : Nat → Prop} {m m' : Mem} {u u' : HeapProc T} {free : List Nat} {va v n : Nat}

section

omit [RefTable T]

theorem Fence.store (h : Fence foreign A m u free) (hpage : OnPage A va n)
    (hpa : PGSIZE ≤ userVaToPa u.pagetable va)
    (hm : ∀ x, x < userVaToPa u.pagetable va ∨ userVaToPa u.pagetable va + n ≤ x →
      m' x = u.pmm.mem x) : Fence foreign A m (u.withMem m') free := by
  obtain ⟨hA, hin⟩ := hpage
  have hlook : lookupPa u.pagetable va ≠ 0 := by
    intro hz
    rw [userVaToPa, hz, Nat.zero_add] at hpa
    have := Nat.mod_lt va (show 0 < PGSIZE by decide)
    omega
  obtain ⟨hal, hoff⟩ := h.mapped va hlook
  refine ⟨fun x hx => ?_, h.listed.write (fun f hf i hi => ?_), h.clear, h.top, h.mapped, h.behind⟩
  · show m' x = m x
    by_cases hx' : x < userVaToPa u.pagetable va ∨ userVaToPa u.pagetable va + n ≤ x
    · rw [hm x hx', h.kept x hx]
    · refine absurd ?_ (h.behind va hA hlook (x - lookupPa u.pagetable va) ?_)
      · rwa [Nat.add_sub_cancel' (by unfold userVaToPa at hx'; omega)]
      · unfold userVaToPa at hx'
        omega
  · have hne : f ≠ lookupPa u.pagetable va := fun heq => hoff (heq ▸ hf)
    have hap := page_apart (h.listed.managed f hf).1 hal hne
    refine hm _ ?_
    unfold userVaToPa PGSIZE at *
    omega

theorem Fence.setCapacity (h : Fence foreign A m u free) (hpage : OnPage A va headSize)
    (hs : setCapacity u va v = .ok u') : Fence foreign A m u' free := by
  unfold CabbagePKE.setCapacity headAt at hs
  split at hs
  · cases hs
  · rename_i hpa
    cases hs
    refine h.store hpage (by omega) (fun x hx => writeLE_of_outside ?_)
    unfold headSize at hx
    omega

theorem Fence.setNext (h : Fence foreign A m u free) (hpage : OnPage A va headSize)
    (hs : setNext u va v = .ok u') : Fence foreign A m u' free := by
  unfold CabbagePKE.setNext headAt at hs
  split at hs
  · cases hs
  · rename_i hpa
    cases hs
    refine h.store hpage (by omega) (fun x hx => writeLE_of_outside ?_)
    unfold headSize at hx
    omega

theorem Fence.withFirst (h : Fence foreign A m u free) (first : Nat) :
    Fence foreign A m { u with firstFreeBlock := first } free :=
  ⟨h.kept, h.listed, h.clear, h.top, h.mapped, h.behind⟩

theorem Fence.linkAfter {pre : Nat} (h : Fence foreign A m u free)
    (hpage : pre ≠ 0 → OnPage A pre headSize) (hs : linkAfter u pre va = .ok u') :
    Fence foreign A m u' free := by
  unfold CabbagePKE.linkAfter at hs
  split at hs
  · cases hs
    exact h.withFirst va
  · rename_i hpre
    exact h.setNext (hpage hpre) hs

end

/-! ### Pages from the allocator -/

theorem lookupPa_leaf {pt pt' : PageTable} {w pa : Nat} {perm : Perm}
    (hent : ∀ i, pt'.entry i = if i = w then Pte.leaf pa perm else pt.entry i)
    (ha : pa % PGSIZE = 0) (h : lookupPa pt' va ≠ 0) :
    lookupPa pt' va = pa ∨ lookupPa pt' va = lookupPa pt va := by
  obtain ⟨hlt, -, he⟩ := lookupPa_mapped h
  by_cases hv : va / PGSIZE = w
  · rw [hent, if_pos hv] at he
    exact .inl (he.trans (leaf_pa_of_aligned perm ha))
  · refine .inr ?_
    unfold lookupPa
    rw [hent, if_neg hv]

theorem Fence.addHeapPage (h : Fence foreign A m u free) (hs : addHeapPage u = .ok (va, u')) :
    va = u.heapTop ∧ ∃ free', Fence foreign A m u' free' := by
  simp only [CabbagePKE.addHeapPage, bind_eq_ok] at hs
  obtain ⟨⟨page, pmm1⟩, ha, hs⟩ := hs
  split at hs
  · cases hs
  rename_i hpage
  simp only [bind_eq_ok] at hs
  obtain ⟨⟨pmm2, pt⟩, hmap, rfl, ⟨⟩⟩ := hs
  obtain ⟨-, hpal, hpf, free1, hnew, ht1⟩ := allocPage_fresh h.listed ha
  have ht1' := ht1.write hpf h.listed hnew hpage (m := fillBytes pmm1.mem page 0 PGSIZE)
    (fun x hx => fillBytes_outside hx)
  obtain ⟨free2, ht2⟩ := userVmMap_took ht1'.listed hmap
  obtain ⟨-, -, hent⟩ := userVmMap_entry h.top hmap
  have ht := ht1'.trans ht2
  have hpfree : page ∈ free := hpf.resolve_left hpage
  refine ⟨rfl, free2, ?_, ht.listed, fun f hf => h.clear f (ht.mem_of_mem hf), ?_, ?_, ?_⟩
  · intro x hx
    rw [← h.kept x hx]
    refine ht.mem_eq (fun f hf => ?_)
    by_contra hin
    refine h.clear f hf (x - f) (by omega) ?_
    rwa [Nat.add_sub_cancel' (by omega)]
  · have := h.top
    simp only
    unfold u64 PGSIZE at *
    omega
  · intro w hw
    rcases lookupPa_leaf hent hpal hw with heq | heq
    · simp only at heq ⊢
      rw [heq]
      exact ⟨hpal, fun hmem => hnew (ht2.mem_of_mem hmem)⟩
    · simp only at heq hw ⊢
      rw [heq] at hw ⊢
      exact ⟨(h.mapped w hw).1, fun hmem => (h.mapped w hw).2 (ht.mem_of_mem hmem)⟩
  · intro w hA hw
    rcases lookupPa_leaf hent hpal hw with heq | heq
    · simp only at heq ⊢
      rw [heq]
      exact h.clear page hpfree
    · simp only at heq hw ⊢
      rw [heq] at hw ⊢
      exact h.behind w hA hw

theorem Fence.growHeap {lastVa need' : Nat} :
    ∀ (fuel : Nat) (u : HeapProc T) (need : Nat) (free : List Nat), Fence foreign A m u free →
      growHeap fuel u need = .ok (lastVa, need', u') → ∃ free', Fence foreign A m u' free' := by
  intro fuel
  induction fuel with
  | zero =>
    intro u need free h hs
    cases hs
  | succ fuel ih =>
    intro u need free h hs
    rw [CabbagePKE.growHeap, bind_eq_ok] at hs
    obtain ⟨⟨va, u1⟩, hadd, hs⟩ := hs
    dsimp only at hs
    obtain ⟨-, free1, h1⟩ := h.addHeapPage hadd
    by_cases hmore : PGSIZE < (if PGSIZE < need then need - PGSIZE else need)
    · rw [if_pos hmore] at hs
      exact ih u1 _ free1 h1 hs
    · rw [if_neg hmore] at hs
      cases hs
      exact ⟨free1, h1⟩

/-! ### `vm_malloc` and `vm_free` -/

theorem Fence.growBlock {need maxVa maxPre : Nat} (h : Fence foreign A m u free)
    (hmax : OnPage A maxVa headSize)
    (hheads : ∀ t ∈ restHeads u need maxVa maxPre, OnPage A t.2 headSize)
    (hs : growBlock u need maxVa maxPre = .ok (va, u')) : ∃ free', Fence foreign A m u' free' := by
  simp only [CabbagePKE.growBlock, bind_eq_ok] at hs
  obtain ⟨-, -, u1, h1, u2, h2, ⟨lastVa, need3, u3⟩, h3, hs⟩ := hs
  obtain ⟨free3, hf3⟩ := Fence.growHeap _ _ _ _ ((h.setNext hmax h1).setCapacity hmax h2) h3
  simp only [restHeads, h1, ok_bind, h2, h3] at hheads
  split at hs
  · rename_i hne
    rw [if_neg hne] at hheads
    simp only [bind_eq_ok] at hs
    obtain ⟨u4, h4, u5, h5, u6, h6, hs⟩ := hs
    cases hs
    have hrest := hheads _ (.head ..)
    refine ⟨free3, ((hf3.setCapacity hrest h4).setNext hrest h5).linkAfter (fun hpre => ?_) h6⟩
    exact hheads (u3.pagetable, maxPre) (by simp [hpre])
  · cases hs
    exact ⟨free3, hf3⟩

omit [RefTable T] in
theorem findFit_mem {need cur pre : Nat} : ∀ (fuel start pre0 : Nat),
    findFit u need fuel start pre0 = .ok (some (cur, pre)) → cur ∈ fitHeads u need fuel start := by
  intro fuel
  induction fuel with
  | zero =>
    intro start pre0 hs
    cases hs
  | succ fuel ih =>
    intro start pre0 hs
    rw [findFit] at hs
    rw [fitHeads]
    split at hs
    · cases hs
    · rename_i hstart
      rw [if_neg hstart]
      rw [bind_eq_ok] at hs
      obtain ⟨pa, -, hs⟩ := hs
      split at hs
      · rename_i hfit
        cases hs
        simp
      · rename_i hfit
        rw [if_neg hfit]
        exact .tail _ (ih _ _ hs)

omit [RefTable T] in
theorem Fence.takeFrom {need cur pre : Nat} (h : Fence foreign A m u free)
    (hcur : OnPage A cur headSize)
    (hsplit : capacityOf u cur ≠ need → OnPage A (u64 (cur + alignUp need)) headSize)
    (hpre : pre ≠ 0 → OnPage A pre headSize)
    (hs : takeFrom u need cur pre = .ok (va, u')) : Fence foreign A m u' free := by
  unfold CabbagePKE.takeFrom at hs
  dsimp only at hs
  split at hs
  · simp only [bind_eq_ok] at hs
    obtain ⟨u1, h1, hs⟩ := hs
    cases hs
    exact h.linkAfter hpre h1
  · rename_i hne
    simp only [bind_eq_ok] at hs
    obtain ⟨u1, h1, u2, h2, u3, h3, u4, h4, hs⟩ := hs
    cases hs
    exact ((((h.setCapacity hcur h1).setCapacity (hsplit hne) h2).setNext (hsplit hne) h3).linkAfter
      hpre h4)

theorem Fence.allocFromFreeBlock (h : Fence foreign A m u free)
    (hfit : ∀ b ∈ fitHeads u (u64 (n + headSize)) loopBound u.firstFreeBlock, OnPage A b headSize)
    (hserve : ∀ t ∈ serveHeads u (u64 (n + headSize)), OnPage A t.2 headSize)
    (hs : allocFromFreeBlock u n = .ok (va, u')) : ∃ free', Fence foreign A m u' free' := by
  simp only [CabbagePKE.allocFromFreeBlock, bind_eq_ok] at hs
  obtain ⟨found, hfound, hs⟩ := hs
  simp only [serveHeads, hfound] at hserve
  cases found with
  | none =>
    simp only [allocFromNewBlock, bind_eq_ok] at hs
    obtain ⟨⟨maxVa, maxPre⟩, hmax, hs⟩ := hs
    simp only [growHeads, hmax, mem_cons, forall_eq_or_imp] at hserve
    exact h.growBlock hserve.1 hserve.2 hs
  | some found =>
    obtain ⟨cur, pre⟩ := found
    simp only [mem_append] at hserve
    have hcur := hfit _ (findFit_mem _ _ _ hfound)
    refine ⟨free, h.takeFrom hcur (fun hne => ?_) (fun hne => ?_) hs⟩
    · refine hserve (u.pagetable, u64 (cur + alignUp (u64 (n + headSize)))) (.inl ?_)
      rw [if_neg hne]
      exact mem_singleton.mpr rfl
    · exact hserve (u.pagetable, pre) (.inr (by simp [hne]))

theorem Fence.vmMalloc (h : Fence foreign A m u free)
    (hheads : ∀ t ∈ mallocHeads u n, OnPage A t.2 headSize)
    (hs : vmMalloc u n = .ok (va, u')) : ∃ free', Fence foreign A m u' free' := by
  simp only [CabbagePKE.vmMalloc, bind_eq_ok] at hs
  obtain ⟨u1, htry, hs⟩ := hs
  simp only [mallocHeads, htry, mem_append, mem_map] at hheads
  have h1 : ∃ free1, Fence foreign A m u1 free1 := by
    unfold tryAllocFreeBlock at htry
    split at htry
    · rename_i hfirst
      simp only [bind_eq_ok] at htry
      obtain ⟨⟨va1, u2⟩, hadd, u3, hcap, u4, hnext, htry⟩ := htry
      cases htry
      obtain ⟨rfl, free1, h2⟩ := h.addHeapPage hadd
      have htop := hheads (u4.pagetable, u.heapTop) (.inl (.inl (by simp [hfirst])))
      exact ⟨free1, ((h2.setCapacity htop hcap).setNext htop hnext).withFirst _⟩
    · cases htry
      exact ⟨free, h⟩
  obtain ⟨free1, h1⟩ := h1
  refine h1.allocFromFreeBlock (fun b hb => ?_) (fun t ht => hheads t (.inr ht)) hs
  exact hheads (u1.pagetable, b) (.inl (.inr ⟨b, hb, rfl⟩))

section

omit [RefTable T]

theorem Fence.vmFree (h : Fence foreign A m u free)
    (hpage : OnPage A (u64 (va + (2 ^ 64 - headSize))) headSize)
    (hs : vmFree u va = .ok u') : Fence foreign A m u' free := by
  simp only [CabbagePKE.vmFree, bind_eq_ok] at hs
  obtain ⟨u1, hnext, hs⟩ := hs
  cases hs
  exact (h.setNext hpage hnext).withFirst _

/-! ### Copying out -/

theorem copyDst_inv {pt : PageTable} {pa : Nat} (h : copyDst pt va = .ok pa) :
    PGSIZE ≤ userVaToPa pt va ∧ pa = userVaToPa pt va := by
  unfold copyDst at h
  split at h
  · cases h
  · rename_i hpa
    cases h
    exact ⟨by omega, rfl⟩

theorem Fence.readFrom {bufva count : Nat} {doRead : Nat → Nat → ReadResult}
    (hpage : ∀ i, i < count → OnPage A (u64 (bufva + i))
      ((doRead i (readLen (u64 (bufva + i)) (count - i))).str.length + 1)) :
    ∀ (fuel i : Nat) (m1 : Mem), Fence foreign A m (u.withMem m1) free →
      sysUserReadFrom u.pagetable bufva count doRead fuel i m1 = .ok m' →
      Fence foreign A m (u.withMem m') free := by
  intro fuel
  induction fuel with
  | zero =>
    intro i m1 h hs
    cases hs
  | succ fuel ih =>
    intro i m1 h hs
    rw [sysUserReadFrom] at hs
    split at hs
    · cases hs
      exact h
    · rename_i hi
      rw [bind_eq_ok] at hs
      obtain ⟨pa, hdst, hs⟩ := hs
      obtain ⟨hpa, rfl⟩ := copyDst_inv hdst
      have h1 := h.store (hpage i (by omega)) hpa (fun x hx => putString_outside hx)
      dsimp only at hs
      split at hs
      · cases hs
        exact h1
      · exact ih _ _ h1 hs

theorem Fence.readdir {vdir : Nat} {entry : Option (List UInt8 × Nat)}
    (hpage : ∀ name inum, entry = some (name, inum) →
      name.length < MAX_FILE_NAME_LEN ∧ OnPage A vdir (MAX_FILE_NAME_LEN + 4))
    (h : Fence foreign A m u free)
    (hs : sysUserReaddir u.pagetable u.pmm.mem vdir entry = .ok m') :
    Fence foreign A m (u.withMem m') free := by
  cases entry with
  | none =>
    cases hs
    exact h
  | some e =>
    obtain ⟨name, inum⟩ := e
    obtain ⟨hlen, hon⟩ := hpage name inum rfl
    simp only [sysUserReaddir, bind_eq_ok] at hs
    obtain ⟨pa, hdst, hs⟩ := hs
    cases hs
    obtain ⟨hpa, rfl⟩ := copyDst_inv hdst
    refine h.store hon hpa (fun x hx => ?_)
    rw [writeLE_of_outside (by omega), putString_outside (by omega)]

theorem Fence.stat {istat : Nat} {st : IStat} (hpage : OnPage A istat 20)
    (h : Fence foreign A m u free) (hs : sysUserStat u.pagetable u.pmm.mem istat st = .ok m') :
    Fence foreign A m (u.withMem m') free := by
  simp only [sysUserStat, bind_eq_ok] at hs
  obtain ⟨pa, hdst, hs⟩ := hs
  cases hs
  obtain ⟨hpa, rfl⟩ := copyDst_inv hdst
  refine h.store hpage hpa (fun x hx => ?_)
  rw [writeLE_of_outside (by omega), writeLE_of_outside (by omega), writeLE_of_outside (by omega),
    writeLE_of_outside (by omega), writeLE_of_outside (by omega)]

theorem Fence.gets {buf : Nat} {line : List UInt8}
    (hpage : line.take n = [] ∨ OnPage A buf (line.take n).length)
    (h : Fence foreign A m u free)
    (hs : sysUserGets u.pagetable u.pmm.mem buf n line = .ok m') :
    Fence foreign A m (u.withMem m') free := by
  unfold sysUserGets at hs
  split at hs
  · cases hs
    exact h
  · rename_i hne
    rw [bind_eq_ok] at hs
    obtain ⟨pa, hdst, hs⟩ := hs
    cases hs
    obtain ⟨hpa, rfl⟩ := copyDst_inv hdst
    exact h.store (hpage.resolve_left hne) hpa (fun x hx => storeBytes_outside hx)

theorem Fence.rcwd {pathva : Nat} {cwd : List UInt8} {root : Option (List UInt8)}
    (hpage : OnPage A pathva ((root.getD [] ++ cwd).length + 1)) (h : Fence foreign A m u free)
    (hs : sysUserRcwd u.pagetable u.pmm.mem pathva cwd root = .ok m') :
    Fence foreign A m (u.withMem m') free := by
  simp only [sysUserRcwd, bind_eq_ok] at hs
  obtain ⟨pa, hdst, hs⟩ := hs
  obtain ⟨hpa, rfl⟩ := copyDst_inv hdst
  refine h.store hpage hpa (fun x hx => ?_)
  rw [length_append] at hx
  cases root with
  | none =>
    cases hs
    exact putString_outside (by omega)
  | some root =>
    cases hs
    have hlen : (root ++ cwd).length = root.length + cwd.length := length_append
    simp only [Option.getD_some] at hx
    rw [putString_outside (by omega), putString_outside (by omega)]

end

theorem Fence.copyOut {w w' : HeapUser T} {call : CopyOut} (hin : call.Within A w)
    (h : Fence foreign A m w.proc free) (hs : w.copyOut call = .ok w') :
    ∀ x, foreign x → w'.pmm.mem x = m x := by
  cases call with
  | read bufva count doRead =>
    simp only [HeapUser.copyOut, bind_eq_ok] at hs
    obtain ⟨m', hm, hs⟩ := hs
    cases hs
    exact (Fence.readFrom (u := w.proc) hin loopBound 0 w.pmm.mem h hm).kept
  | readdir vdir entry =>
    simp only [HeapUser.copyOut, bind_eq_ok] at hs
    obtain ⟨m', hm, hs⟩ := hs
    cases hs
    exact (h.readdir hin hm).kept
  | stat istat st =>
    simp only [HeapUser.copyOut, bind_eq_ok] at hs
    obtain ⟨m', hm, hs⟩ := hs
    cases hs
    exact (h.stat hin hm).kept
  | gets buf n line =>
    simp only [HeapUser.copyOut, bind_eq_ok] at hs
    obtain ⟨m', hm, hs⟩ := hs
    cases hs
    exact (h.gets hin hm).kept
  | rcwd pathva cwd root =>
    simp only [HeapUser.copyOut, bind_eq_ok] at hs
    obtain ⟨m', hm, hs⟩ := hs
    cases hs
    exact (h.rcwd hin hm).kept
  | malloc n =>
    simp only [HeapUser.copyOut, HeapUser.step, bind_eq_ok] at hs
    obtain ⟨⟨va, p⟩, hm, hs⟩ := hs
    cases hs
    obtain ⟨free', h'⟩ := h.vmMalloc hin hm
    exact h'.kept
  | free va =>
    simp only [HeapUser.copyOut, HeapUser.step, bind_eq_ok] at hs
    obtain ⟨p, hm, hs⟩ := hs
    cases hs
    exact (h.vmFree hin hm).kept

end

/-! ## What other processes read -/

def VmSys.Foreign (s : VmSys T) (p x : Nat) : Prop :=
  ∃ q c va, q ≠ p ∧ s.procs q = some c ∧ (c.translate va).loadable = true ∧
    x = (c.translate va).pa + va % PGSIZE

/-- Process `p` reaches no byte of another process through a page of `A`. -/
def VmSys.Private (s : VmSys T) (p : Nat) (c : Space) (A : Nat → Prop) : Prop :=
  ∀ va, A (va / PGSIZE) → lookupPa c.pagetable va ≠ 0 →
    ∀ k, k < PGSIZE → ¬ s.Foreign p (lookupPa c.pagetable va + k)

structure VmSys.Held (s : VmSys T) (free : List Nat) : Prop where
  listed : s.pmm.Listed free
  off : ∀ q c va, s.procs q = some c → va < MAXVA →
    (c.pagetable.entry (va / PGSIZE)).v = true →
    (c.pagetable.entry (va / PGSIZE)).pa % PGSIZE = 0 ∧
      (c.pagetable.entry (va / PGSIZE)).pa ∉ free

section

variable {s s' : VmSys T} {p : Nat} {c : Space} {free : List Nat} {A : Nat → Prop}

omit [RefTable T] in
theorem VmSys.read_eq_of_kept (hprocs : ∀ q, q ≠ p → s'.procs q = s.procs q)
    (hkept : ∀ x, s.Foreign p x → s'.pmm.mem x = s.pmm.mem x) {q : Nat} (hq : q ≠ p) (va : Nat) :
    s'.read q va = s.read q va := by
  unfold VmSys.read
  rw [hprocs q hq]
  cases hc : s.procs q with
  | none => rfl
  | some c =>
    simp only [Option.bind_some, userLoad]
    split
    · rename_i hload
      rw [hkept _ ⟨q, c, va, hq, hc, hload, rfl⟩]
    · rfl

theorem translate_of_loadable {va : Nat} (h : (c.translate va).loadable = true) :
    va < MAXVA ∧ c.translate va = c.pagetable.entry (va / PGSIZE) ∧
      (c.pagetable.entry (va / PGSIZE)).v = true := by
  by_cases hlt : va < MAXVA
  · have he : c.translate va = c.pagetable.entry (va / PGSIZE) := if_pos hlt
    rw [he] at h
    simp only [Pte.loadable, Bool.and_eq_true] at h
    exact ⟨hlt, he, h.1.1⟩
  · rw [Space.translate, if_neg hlt] at h
    exact absurd h (by decide)

omit [RefTable T] in
theorem VmSys.Held.not_foreign (h : s.Held free) {f k : Nat} (hf : f ∈ free) (hk : k < PGSIZE) :
    ¬ s.Foreign p (f + k) := by
  rintro ⟨q, c, va, -, hc, hload, heq⟩
  obtain ⟨hlt, he, hv⟩ := translate_of_loadable hload
  obtain ⟨hal, hoff⟩ := h.off q c va hc hlt hv
  rw [he] at heq
  have hfa := (h.listed.managed f hf).1
  have hsame : (c.pagetable.entry (va / PGSIZE)).pa = f := by
    unfold PGSIZE at *
    omega
  exact hoff (hsame ▸ hf)

omit [RefTable T] in
theorem VmSys.Held.fence (h : s.Held free) (hp : s.procs p = some c)
    (htop : c.heapTop % PGSIZE = 0) (hpriv : s.Private p c A) (first : Nat) :
    Fence (s.Foreign p) A s.pmm.mem (HeapUser.proc ⟨s.pmm, c, first⟩) free := by
  refine ⟨fun _ _ => rfl, h.listed, fun f hf k hk => h.not_foreign hf hk, htop, ?_, hpriv⟩
  intro va hva
  obtain ⟨hlt, hv, he⟩ := lookupPa_mapped hva
  show lookupPa c.pagetable va % PGSIZE = 0 ∧ lookupPa c.pagetable va ∉ free
  rw [show lookupPa c.pagetable va = _ from he]
  exact h.off p c va hp hlt hv

/-- **Copying out is private where the pages are**: whatever a process
asks the kernel to store into its pages `A`, other processes read what they
did before, exactly when none of these pages is a page another process can
read. No call may store past the end of a page it looked up. -/
theorem copyOut_private_iff (hp : s.procs p = some c) (hheld : s.Held free)
    (htop : c.heapTop % PGSIZE = 0) :
    (∀ first call s', call.Within A (⟨s.pmm, c, first⟩ : HeapUser T) →
        s.copyOut p first call = .ok s' → ∀ q va, q ≠ p → s'.read q va = s.read q va) ↔
      s.Private p c A := by
  have hspace : s.space p = .ok c := by simp only [VmSys.space, hp]
  constructor
  · -- one byte read from the console is enough
    intro hclaim va hA hva k hk hforeign
    obtain ⟨hlt, hv, he⟩ := lookupPa_mapped hva
    obtain ⟨q, d, va', hq, hd, hload, hx⟩ := hforeign
    have hal := (hheld.off p c va hp hlt hv).1
    have hvpn : (va / PGSIZE * PGSIZE + k) / PGSIZE = va / PGSIZE := by
      unfold PGSIZE at *
      omega
    have hmod : (va / PGSIZE * PGSIZE + k) % PGSIZE = k := by
      unfold PGSIZE at *
      omega
    have hlt' : va / PGSIZE * PGSIZE + k < MAXVA := by
      unfold MAXVA PGSIZE at *
      omega
    have hlook : lookupPa c.pagetable (va / PGSIZE * PGSIZE + k) = lookupPa c.pagetable va := by
      unfold lookupPa
      rw [hvpn, if_neg (not_le.mpr hlt'), if_neg (not_le.mpr hlt)]
    have hpa : userVaToPa c.pagetable (va / PGSIZE * PGSIZE + k) = lookupPa c.pagetable va + k := by
      rw [userVaToPa, hlook, hmod]
    have hge : ¬ lookupPa c.pagetable va + k < PGSIZE := by
      rw [he] at hva ⊢
      unfold PGSIZE at *
      omega
    let b : UInt8 := s.pmm.mem (lookupPa c.pagetable va + k) + 1
    have hcall : s.copyOut p 0 (.gets (va / PGSIZE * PGSIZE + k) 1 [b])
        = .ok (s.put { s.pmm with mem := storeBytes s.pmm.mem (lookupPa c.pagetable va + k) [b] }
          p c) := by
      simp only [VmSys.copyOut, hspace, ok_bind, HeapUser.copyOut, sysUserGets, take_succ_cons,
        take_zero, cons_ne_nil, if_false, copyDst, hpa, if_neg hge]
      rfl
    have hin : (CopyOut.gets (va / PGSIZE * PGSIZE + k) 1 [b]).Within A
        (⟨s.pmm, c, 0⟩ : HeapUser T) := by
      refine .inr ⟨by rw [hvpn]; exact hA, ?_⟩
      rwa [hmod]
    have hread := hclaim 0 _ _ hin hcall q va' hq
    have hput : ∀ m, (s.put { s.pmm with mem := m } p c).read q va'
        = some (m ((d.translate va').pa + va' % PGSIZE)) := by
      intro m
      simp [VmSys.read, VmSys.put, update_of_ne hq, hd, userLoad, hload]
    have hold : s.read q va' = some (s.pmm.mem ((d.translate va').pa + va' % PGSIZE)) := by
      simp [VmSys.read, hd, userLoad, hload]
    rw [hput, hold, ← hx] at hread
    simp [storeBytes, b] at hread
  · intro hpriv first call s' hin hs q va hq
    simp only [VmSys.copyOut, hspace, ok_bind, bind_eq_ok] at hs
    obtain ⟨u, hu, hs⟩ := hs
    cases hs
    refine VmSys.read_eq_of_kept (p := p) (fun q' hq' => ?_) (fun x hx => ?_) hq va
    · exact update_of_ne hq' _ _
    · exact (hheld.fence hp htop hpriv first).copyOut hin hu x hx

end

/-! ## Concrete systems -/

theorem VmSys.Sound.held {T : Type} [GuardedTable T] {iso : Nat → Prop} {lo hi : Nat} {s : VmSys T}
    (h : s.Sound iso lo hi) : ∃ free, s.Held free := by
  obtain ⟨isHeap, free, hl⟩ := h.books
  refine ⟨free, hl.wf.toListed, fun q c va hc hlt hv => ?_⟩
  have hent : s.entries q (va / PGSIZE) = c.pagetable.entry (va / PGSIZE) := by
    rw [VmSys.entries_some hc, entries_of_lt (vpn_lt_dirSlot hlt)]
  rw [← hent] at hv ⊢
  exact ⟨hl.paAligned q _ hv, hl.not_free hv⟩

/-- A child of a fork, and its stack page. -/
theorem copyOut_private_iff_stack :
    ∃ (s₀ s : VmSys IdealRefs) (c : Space), s₀.Booted ∧ s₀.Run VmSys.FrameOk s ∧
      s.procs 1 = some c ∧
      ((∀ first call s', call.Within (fun v => v = stackVpn) (⟨s.pmm, c, first⟩ : HeapUser _) →
          s.copyOut 1 first call = .ok s' → ∀ q va, q ≠ 1 → s'.read q va = s.read q va) ↔
        s.Private 1 c (fun v => v = stackVpn)) := by
  obtain ⟨s₀, hboot, s, hrun, c, hc, -⟩ : ∃ s₀, vmSmall (⟨fun _ => 0⟩ : IdealRefs) = .ok s₀ ∧
      ∃ s, Runs VmSys.step (fun s op => s.Allowed op ∧ s.FrameOk op) s₀
        [.load [segmentAt 0x10000 5, segmentAt 0x11000 6], .allocatePage 0,
          .fork 0 (fun _ => false)] s ∧ ∃ c, s.procs 1 = some c ∧ True := by decide +kernel
  have hbooted := vmSmall_booted trivial (fun _ => rfl) hboot trivial
  have hreach : s₀.Run VmSys.FrameOk s := hrun.reaches .start
  have hsound : s.Sound (fun _ => False) s₀.pmm.freeMemStartAddr s₀.pmm.freeMemEndAddr :=
    Reaches.invariant _ (hbooted.sound _)
      (fun s op s' hi hok hs => hi.step hok.1 hok.2 hs trivial) hreach
  obtain ⟨free, hheld⟩ := hsound.held
  exact ⟨s₀, s, c, hbooted, hreach, hc, copyOut_private_iff hc hheld (hsound.ok 1 c hc).aligned⟩

/-- A child reads a file into a heap page it shares with its parent. -/
theorem copyOut_seen_by_parent :
    ∃ s₀ s s' : VmSys RefList, s₀.Started ∧ Reaches VmSys.step (fun _ _ => True) s₀ s ∧
      s.copyOut 1 0 (.read USER_FREE_ADDRESS_START 1 (fun _ _ => ⟨[7], 1⟩)) = .ok s' ∧
      s'.read 0 USER_FREE_ADDRESS_START ≠ s.read 0 USER_FREE_ADDRESS_START := by
  obtain ⟨s₀, hboot, s, hrun, s', hs, ht⟩ : ∃ s₀, vmSmall ([] : RefList) = .ok s₀ ∧
      ∃ s, Runs VmSys.step (fun _ _ => True) s₀
        [.load [segmentAt 0x10000 5, segmentAt 0x11000 6], .allocatePage 0,
          .fork 0 (fun _ => false)] s ∧
      ∃ s', s.copyOut 1 0 (.read USER_FREE_ADDRESS_START 1 (fun _ _ => ⟨[7], 1⟩)) = .ok s' ∧
      s'.read 0 USER_FREE_ADDRESS_START ≠ s.read 0 USER_FREE_ADDRESS_START := by decide +kernel
  exact ⟨s₀, s, s', vmSmall_started hboot, hrun.reaches .start, hs, ht⟩

end CabbagePKE
