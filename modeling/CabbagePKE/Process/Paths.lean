import CabbagePKE.Process.CopyOut
import CabbagePKE.Process.Files

/-!
# Paths from user memory

The system calls that take a path translate the address of its first byte and
hand the physical address on. The file layer reads the string from there byte by
byte, which is the user's string as long as the pages it spans are neighbours in
memory too. `path_calls_iff` says for which addresses and lengths that is so.
-/

namespace CabbagePKE

open Lib

/-! ## The calls -/

def FileTable.doMkdir (t : FileTable) (path : Path) : Outcome (Int × FileTable) := do
  let (r, s) ← vfsMkdir t.vfs path t.pfiles.cwd
  return (r, { t with vfs := s })

def FileTable.doUnlink (t : FileTable) (path : Path) : Outcome (Int × FileTable) := do
  let (r, s) ← vfsUnlink t.vfs path t.pfiles.cwd
  return (r, { t with vfs := s })

def FileTable.doChangeCwd (t : FileTable) (path : Path) : Outcome (Int × FileTable) := do
  let (l, s) ← lookupFinalDentry t.vfs path t.pfiles.cwd
  match l.found with
  | none => return (-1, { t with vfs := s })
  | some d => do
      let type ← s.inodeType d
      if type ≠ R_DIR then return (-1, { t with vfs := s })
      else return (0, { vfs := s, pfiles := { t.pfiles with cwd := d } })

/-- What a system call sees of the current process, with the memory. -/
structure Caller where
  files : FileTable
  pagetable : PageTable
  mem : Mem

/-- The string at a physical address. `lookup_final_dentry` copies it to an array of
`MAX_PATH_LEN` bytes before anything else, so a longer one is as good as one of that length. -/
def pathAt (m : Mem) (pa : Nat) : Path := ⟨cstr m pa MAX_PATH_LEN, cstr_noNul m pa MAX_PATH_LEN⟩

def Caller.userPath (k : Caller) (pathva : Nat) : Outcome Path := do
  let pathpa ← copyDst k.pagetable pathva
  return pathAt k.mem pathpa

def Caller.sysUserOpen (k : Caller) (pathva flags : Nat) : Outcome (Int × FileTable) := do
  let path ← k.userPath pathva
  k.files.doOpen path flags

def Caller.sysUserOpendir (k : Caller) (pathva : Nat) (adjacent : Bool) :
    Outcome (Int × FileTable) := do
  let path ← k.userPath pathva
  k.files.doOpendir path adjacent

def Caller.sysUserMkdir (k : Caller) (pathva : Nat) : Outcome (Int × FileTable) := do
  let path ← k.userPath pathva
  k.files.doMkdir path

def Caller.sysUserUnlink (k : Caller) (vfn : Nat) : Outcome (Int × FileTable) := do
  let path ← k.userPath vfn
  k.files.doUnlink path

def Caller.sysUserCcwd (k : Caller) (pathva : Nat) : Outcome (Int × FileTable) := do
  let path ← k.userPath pathva
  k.files.doChangeCwd path

inductive PathCall where
  | openFile (flags : Nat)
  | opendir (adjacent : Bool)
  | mkdir
  | unlink
  | ccwd

def Caller.sysPath (k : Caller) (pathva : Nat) : PathCall → Outcome (Int × FileTable)
  | .openFile flags => k.sysUserOpen pathva flags
  | .opendir adjacent => k.sysUserOpendir pathva adjacent
  | .mkdir => k.sysUserMkdir pathva
  | .unlink => k.sysUserUnlink pathva
  | .ccwd => k.sysUserCcwd pathva

def FileTable.pathCall (t : FileTable) (path : Path) : PathCall → Outcome (Int × FileTable)
  | .openFile flags => t.doOpen path flags
  | .opendir adjacent => t.doOpendir path adjacent
  | .mkdir => t.doMkdir path
  | .unlink => t.doUnlink path
  | .ccwd => t.doChangeCwd path

/-! ## The string of the user -/

structure PageTable.Backed (pt : PageTable) (va : Nat) : Prop where
  frame : PGSIZE ≤ lookupPa pt va
  aligned : lookupPa pt va % PGSIZE = 0

def PageTable.BackedTo (pt : PageTable) (va n : Nat) : Prop := ∀ i, i ≤ n → pt.Backed (va + i)

def PageTable.Stores (pt : PageTable) (m : Mem) (va : Nat) (path : Path) : Prop :=
  ∀ i, i ≤ path.bytes.length → m (userVaToPa pt (va + i)) = path.bytes.getD i 0

structure Caller.Sees (k : Caller) (va : Nat) (path : Path) : Prop where
  path_eq : k.userPath va = .ok path
  calls : ∀ c, k.sysPath va c = k.files.pathCall path c

/-- Of the bytes from `va` to `va + n`, all are in one page, or the frames of the two pages are
neighbours. -/
def PageTable.Adjoins (pt : PageTable) (va n : Nat) : Prop :=
  va % PGSIZE + n < PGSIZE ∨ lookupPa pt (va + n) = lookupPa pt va + PGSIZE

section

variable {k : Caller} {pt : PageTable} {va n i : Nat} {path : Path}

theorem userVaToPa_near (pt : PageTable) (h : va % PGSIZE + i < PGSIZE) :
    userVaToPa pt (va + i) = userVaToPa pt va + i := by
  have hpage : (va + i) / PGSIZE = va / PGSIZE := by
    unfold PGSIZE at *
    omega
  have hoff : (va + i) % PGSIZE = va % PGSIZE + i := by
    unfold PGSIZE at *
    omega
  rw [userVaToPa, userVaToPa, lookupPa_page pt hpage, hoff, add_assoc]

theorem userVaToPa_far (pt : PageTable) (hi : i ≤ n) (hn : n < PGSIZE)
    (h : PGSIZE ≤ va % PGSIZE + i) :
    userVaToPa pt (va + i) + PGSIZE = lookupPa pt (va + n) + (va % PGSIZE + i) := by
  have hpage : (va + i) / PGSIZE = (va + n) / PGSIZE := by
    unfold PGSIZE at *
    omega
  have hoff : (va + i) % PGSIZE + PGSIZE = va % PGSIZE + i := by
    unfold PGSIZE at *
    omega
  rw [userVaToPa, lookupPa_page pt hpage, add_assoc, hoff]

theorem PageTable.Adjoins.userVaToPa_add (h : pt.Adjoins va n) (hn : n < PGSIZE) (hi : i ≤ n) :
    userVaToPa pt (va + i) = userVaToPa pt va + i := by
  by_cases hnear : va % PGSIZE + i < PGSIZE
  · exact userVaToPa_near pt hnear
  · have hfar := userVaToPa_far pt hi hn (not_lt.mp hnear)
    rcases h with hone | hnext
    · omega
    · rw [hnext] at hfar
      have hpa : userVaToPa pt va = lookupPa pt va + va % PGSIZE := rfl
      omega

theorem userPath_of_backed (h : k.pagetable.Backed va) :
    k.userPath va = .ok (pathAt k.mem (userVaToPa k.pagetable va)) := by
  have hframe := h.frame
  have hpa : ¬ userVaToPa k.pagetable va < PGSIZE := by
    unfold userVaToPa
    omega
  rw [Caller.userPath, copyDst, if_neg hpa, ok_bind, pure_eq_ok]

theorem sees_iff (h : k.pagetable.Backed va) (hlen : path.bytes.length < MAX_PATH_LEN) :
    k.Sees va path ↔ ∀ i, i ≤ path.bytes.length →
      k.mem (userVaToPa k.pagetable va + i) = path.bytes.getD i 0 := by
  rw [← cstr_eq_iff hlen path.noNul]
  constructor
  · intro hs
    have heq := hs.path_eq
    rw [userPath_of_backed h, Except.ok.injEq] at heq
    rw [← heq]
    rfl
  · intro heq
    have hpath : k.userPath va = .ok path := by
      rw [userPath_of_backed h, Except.ok.injEq]
      cases path with
      | mk bytes noNul =>
        subst heq
        rfl
    refine ⟨hpath, fun c => ?_⟩
    cases c with
    | openFile flags => rw [Caller.sysPath, Caller.sysUserOpen, hpath]; rfl
    | opendir adjacent => rw [Caller.sysPath, Caller.sysUserOpendir, hpath]; rfl
    | mkdir => rw [Caller.sysPath, Caller.sysUserMkdir, hpath]; rfl
    | unlink => rw [Caller.sysPath, Caller.sysUserUnlink, hpath]; rfl
    | ccwd => rw [Caller.sysPath, Caller.sysUserCcwd, hpath]; rfl

def letters (n : Nat) : Path := ⟨List.replicate n 97, by simp⟩

def lettersMem (a b : Nat) : Mem := fun x => if x = a ∨ x = b then 0 else 97

theorem letters_getD (n : Nat) (hi : i ≤ n) :
    (letters n).bytes.getD i 0 = if i = n then 0 else 97 := by
  show (List.replicate n (97 : UInt8)).getD i 0 = _
  rcases Nat.lt_or_eq_of_le hi with hlt | rfl
  · rw [List.getD_replicate _ hlt, if_neg (hlt.ne)]
  · rw [if_pos rfl, List.getD_eq_default _ _ (by rw [List.length_replicate])]

theorem userVaToPa_ne_after (hn : n < PGSIZE) (hfirst : lookupPa pt va % PGSIZE = 0)
    (hsecond : lookupPa pt (va + n) % PGSIZE = 0)
    (hnext : lookupPa pt (va + n) ≠ lookupPa pt va + PGSIZE) (hi : i ≤ n) :
    userVaToPa pt (va + i) ≠ lookupPa pt va + PGSIZE := by
  by_cases hnear : va % PGSIZE + i < PGSIZE
  · rw [userVaToPa_near pt hnear, userVaToPa]
    omega
  · have hfar := userVaToPa_far pt hi hn (not_lt.mp hnear)
    unfold PGSIZE at *
    omega

theorem userVaToPa_ne_last (hn : 2 * n < PGSIZE) (hcross : PGSIZE ≤ va % PGSIZE + n)
    (hfirst : lookupPa pt va % PGSIZE = 0) (hsecond : lookupPa pt (va + n) % PGSIZE = 0)
    (hi : i < n) : userVaToPa pt (va + i) ≠ userVaToPa pt (va + n) := by
  have hlast := userVaToPa_far pt le_rfl (by omega) hcross
  by_cases hnear : va % PGSIZE + i < PGSIZE
  · rw [userVaToPa_near pt hnear, userVaToPa]
    unfold PGSIZE at *
    omega
  · have hfar := userVaToPa_far pt hi.le (by omega) (not_lt.mp hnear)
    omega

/-- A string over pages that do not adjoin, and what follows the first frame in memory, such
that the two differ: the byte after the first frame ends the string too early, or does not
end it. -/
theorem exists_unseen (files : FileTable) (hn : n < MAX_PATH_LEN)
    (hb : pt.BackedTo va n) (h : ¬ pt.Adjoins va n) :
    ∃ m : Mem, pt.Stores m va (letters n) ∧ ¬ Caller.Sees ⟨files, pt, m⟩ va (letters n) := by
  have hcross : PGSIZE ≤ va % PGSIZE + n := not_lt.mp fun hc => h (.inl hc)
  have hnext : lookupPa pt (va + n) ≠ lookupPa pt va + PGSIZE := fun hc => h (.inr hc)
  have hfirst : lookupPa pt va % PGSIZE = 0 := (hb 0 (Nat.zero_le n)).aligned
  have hsecond : lookupPa pt (va + n) % PGSIZE = 0 := (hb n le_rfl).aligned
  have hoff : va % PGSIZE < PGSIZE := Nat.mod_lt _ (by decide)
  have hpa : userVaToPa pt va = lookupPa pt va + va % PGSIZE := rfl
  have hsmall : 2 * n < PGSIZE := by
    unfold MAX_PATH_LEN at hn
    unfold PGSIZE
    omega
  have hafter : ∀ i, i ≤ n → userVaToPa pt (va + i) ≠ lookupPa pt va + PGSIZE :=
    fun i hi => userVaToPa_ne_after (by omega) hfirst hsecond hnext hi
  have hlast : ∀ i, i < n → userVaToPa pt (va + i) ≠ userVaToPa pt (va + n) :=
    fun i hi => userVaToPa_ne_last hsmall hcross hfirst hsecond hi
  have hstored : ∀ b, (∀ i, i < n → userVaToPa pt (va + i) ≠ b) →
      pt.Stores (lettersMem (userVaToPa pt (va + n)) b) va (letters n) := by
    intro b hother i hi
    have hin : i ≤ n := by simpa [letters] using hi
    rw [letters_getD n hin]
    rcases Nat.lt_or_eq_of_le hin with hlt | rfl
    · rw [if_neg (hlt.ne)]
      exact if_neg (not_or.mpr ⟨hlast i hlt, hother i hlt⟩)
    · rw [if_pos rfl]
      exact if_pos (.inl rfl)
  by_cases hend : va % PGSIZE + n = PGSIZE
  · -- only the `NUL` is in the second page: the string goes on after the first frame
    refine ⟨_, hstored (userVaToPa pt (va + n)) hlast, fun hs => ?_⟩
    have hbyte := (sees_iff (hb 0 (Nat.zero_le n)) (by simpa [letters] using hn)).mp hs n
      (by simp [letters])
    have hpast : userVaToPa pt va + n = lookupPa pt va + PGSIZE := by omega
    have hne := Ne.symm (hafter n le_rfl)
    rw [letters_getD n le_rfl, if_pos rfl, hpast] at hbyte
    have hletter : lettersMem (userVaToPa pt (va + n)) (userVaToPa pt (va + n))
        (lookupPa pt va + PGSIZE) = 97 := if_neg (not_or.mpr ⟨hne, hne⟩)
    exact absurd (hletter.symm.trans hbyte) (by decide)
  · -- a letter is: the string ends after the first frame
    refine ⟨_, hstored (lookupPa pt va + PGSIZE) (fun i hi => hafter i hi.le), fun hs => ?_⟩
    have hin : PGSIZE - va % PGSIZE < n := by omega
    have hbyte := (sees_iff (hb 0 (Nat.zero_le n)) (by simpa [letters] using hn)).mp hs
      (PGSIZE - va % PGSIZE) (by simpa [letters] using Nat.le_of_lt hin)
    have hpast : userVaToPa pt va + (PGSIZE - va % PGSIZE) = lookupPa pt va + PGSIZE := by omega
    rw [letters_getD n hin.le, if_neg (hin.ne), hpast] at hbyte
    have hzero : lettersMem (userVaToPa pt (va + n)) (lookupPa pt va + PGSIZE)
        (lookupPa pt va + PGSIZE) = 0 := if_pos (.inr rfl)
    exact absurd (hzero.symm.trans hbyte) (by decide)

/-- **Paths.** Let the pages from `va` to `va + n` be mapped. Whatever string of `n` bytes the
user has there, the calls see that string, if and only if it lies in one page or the frame of
the second page follows that of the first. -/
theorem path_calls_iff (files : FileTable) (hn : n < MAX_PATH_LEN)
    (hb : pt.BackedTo va n) :
    (∀ (m : Mem) (path : Path), path.bytes.length = n → pt.Stores m va path →
      Caller.Sees ⟨files, pt, m⟩ va path) ↔ pt.Adjoins va n := by
  constructor
  · intro hall
    by_contra hno
    obtain ⟨m, hstored, hunseen⟩ := exists_unseen files hn hb hno
    exact hunseen (hall m (letters n) (by simp [letters]) hstored)
  · rintro hadj m path rfl hstored
    refine (sees_iff (hb 0 (Nat.zero_le _)) hn).mpr fun i hi => ?_
    have hn4096 : path.bytes.length < PGSIZE := hn.trans (by decide)
    rw [← hadj.userVaToPa_add hn4096 hi]
    exact hstored i hi

end

/-! ## A path over two pages of the heap -/

instance PageTable.Backed.decidable (pt : PageTable) (va : Nat) : Decidable (pt.Backed va) :=
  decidable_of_iff (PGSIZE ≤ lookupPa pt va ∧ lookupPa pt va % PGSIZE = 0)
    ⟨fun h => ⟨h.1, h.2⟩, fun h => ⟨h.frame, h.aligned⟩⟩

instance PageTable.BackedTo.decidable (pt : PageTable) (va n : Nat) :
    Decidable (pt.BackedTo va n) :=
  inferInstanceAs (Decidable (∀ i, i ≤ n → pt.Backed (va + i)))

instance PageTable.Stores.decidable (pt : PageTable) (m : Mem) (va : Nat) (path : Path) :
    Decidable (pt.Stores m va path) :=
  inferInstanceAs (Decidable (∀ i, i ≤ path.bytes.length →
    m (userVaToPa pt (va + i)) = path.bytes.getD i 0))

/-- The first process takes two pages of the heap and puts `"/a"` across their boundary. -/
def pathAcross : List VmOp :=
  [.load [segmentAt 0x10000 5], .allocatePage 0, .allocatePage 0,
    .store 0 0x7fffdff0 0x400fff 47, .store 0 0x7fffdff0 0x401000 97,
    .store 0 0x7fffdff0 0x401001 0]

def pathSlashA : Path := ⟨[47, 97], by decide⟩

/-- A string inside the first page. -/
theorem path_calls_iff_inside : ∃ (files : FileTable) (s : VmSys RefList) (c : Space),
    s.procs 0 = some c ∧ ∀ (m : Mem) (path : Path), path.bytes.length = 29 →
      c.pagetable.Stores m 0x400123 path → Caller.Sees ⟨files, c.pagetable, m⟩ 0x400123 path := by
  have hfiles : TableRun [] (fun _ => True) := by decide +kernel
  obtain ⟨-, files, -⟩ := hfiles.reached
  obtain ⟨-, -, s, -, c, hc, -, hb⟩ : ProcessAfter pathAcross (fun _ c =>
      c.pagetable.BackedTo 0x400123 29) := by decide +kernel
  exact ⟨files, s, c, hc, (path_calls_iff files (by decide) hb).mpr (.inl (by decide))⟩

/-- The second page has a frame below that of the first: the calls get `"/"`. -/
theorem path_cut_at_page : ∃ (files : FileTable) (s₀ s : VmSys RefList) (c : Space),
    vmBoot 0x80006000 (64 * PGSIZE) (fun _ => 0) [] 0x80001000 = .ok s₀ ∧
      Reaches VmSys.step (fun _ _ => True) s₀ s ∧ s.procs 0 = some c ∧
      c.pagetable.BackedTo 0x400fff 2 ∧ c.pagetable.Stores s.pmm.mem 0x400fff pathSlashA ∧
      Caller.userPath ⟨files, c.pagetable, s.pmm.mem⟩ 0x400fff = .ok ⟨[slash], by decide⟩ := by
  have hfiles : TableRun [] (fun _ => True) := by decide +kernel
  obtain ⟨-, files, -⟩ := hfiles.reached
  obtain ⟨s₀, hboot, s, hrun, c, hc, -, hb, hstored, hpath⟩ : ProcessAfter pathAcross (fun s c =>
      c.pagetable.BackedTo 0x400fff 2 ∧ c.pagetable.Stores s.mem 0x400fff pathSlashA ∧
        cstr s.mem (userVaToPa c.pagetable 0x400fff) MAX_PATH_LEN = [slash]) := by decide +kernel
  refine ⟨files, s₀, s, c, hboot, hrun.reaches .start, hc, hb, hstored, ?_⟩
  have hfirst : c.pagetable.Backed 0x400fff := hb 0 (Nat.zero_le 2)
  rwa [userPath_of_backed hfirst, Except.ok.injEq, pathAt, Path.mk.injEq]

end CabbagePKE
