import CabbagePKE.Process.Files
import CabbagePKE.Vfs.Retained

/-!
# The pages that opening and closing a file costs

`do_open` copies the `struct file` that `vfs_open` returns and forgets the page
it was on; `hash_erase_dentry` and `hash_erase_vinode` free the node they unlink
but not its key. So opening and closing a file of which nothing is in memory
loses a page for the file and one for each key (`open_close_loses_pages`).
-/

namespace CabbagePKE

open Lib Function Finset

open GuardedTable (Good)

/-! ## The code -/

structure PagedTable (T : Type) where
  placed : Placed T
  pfiles : ProcFiles

section

variable {T : Type}

def PagedTable.table (t : PagedTable T) : FileTable where
  vfs := t.placed.vfs
  pfiles := t.pfiles

variable [RefTable T]

def Placed.closeEntry (s : Placed T) (x : OpenFile) : Outcome (Int × Placed T) :=
  match x.dentry with
  | none => .error .undefined
  | some d => do
      let (r, s') ← (s.setVfs (s.vfs.withFile (x.toFile d))).vfsClose s.vfs.nextFile
      let _ ← s'.vfs.file s.vfs.nextFile
      return (r, s'.setVfs { s'.vfs with files := s.vfs.files })

/-- `do_open`: the page of the `struct file` is neither kept nor freed -/
def PagedTable.doOpen (t : PagedTable T) (path : Path) (flags : Nat) :
    Outcome (Int × PagedTable T) := do
  let (openedFile, s) ← t.placed.vfsOpen path flags t.pfiles.cwd
  match openedFile with
  | none => return (-1, { t with placed := s })
  | some f =>
    if (MAX_FILES : Int) ≤ t.pfiles.nfiles then
      .error (.panic "do_open: no file entry for current process!\n" [])
    else do
      let file ← s.vfs.file f
      return (t.pfiles.freeFd, { placed := s, pfiles := t.pfiles.install file.toEntry })

def PagedTable.doClose (t : PagedTable T) (fd : Int) : Outcome (Int × PagedTable T) := do
  let pfile := t.table.entry fd
  let (r, s) ← t.placed.closeEntry pfile
  let table := t.table.put fd (if r = 0 then { pfile with status := FD_NONE } else pfile) s.vfs
  return (r, { placed := s, pfiles := table.pfiles })

inductive PagedCall
  | openFile (path : Path) (flags : Nat)
  | close (fd : Int)

def PagedTable.step (t : PagedTable T) : PagedCall → Outcome (PagedTable T)
  | .openFile path flags => (t.doOpen path flags).map Prod.snd
  | .close fd => (t.doClose fd).map Prod.snd

/-- A process has just been made, and the free list is in order. -/
def PagedTable.Fresh (t : PagedTable T) : Prop :=
  t.table.Fresh ∧ ∃ free, t.placed.pmm.Wf free

end

/-! ## A file that is not in memory -/

/-- `path` leads to a file of the disk with inode `node`, and neither its dentry nor its vinode is
in memory. -/
def Vfs.Uncached (v : Vfs) (path : Path) (cwd : Nat) (node : Vinode) : Prop :=
  ∃ l v' d p, lookupFinalDentry v path cwd = .ok (l, v') ∧ l.found = some d ∧
    v'.points d = some p ∧ v'.rfs.vinodes p = some node ∧ node.type = R_FILE ∧
    v.dentries d = none ∧ v.rfs.vinodes p = none

section

variable {T : Type} [GuardedTable T] {path : Path} {flags cwd : Nat} {node : Vinode}
  {free : List Nat}

theorem Placed.vfsOpen_uncached {s s' : Placed T} {opened : Option Nat} (hw : s.pmm.Wf free)
    (hun : s.vfs.Uncached path cwd node) (h : s.vfsOpen path flags cwd = .ok (opened, s')) :
    ∃ (own : Finset Obj) (f : Nat) (file : File) (e : Dentry) (p : Nat), opened = some f ∧
      s'.vfs.files f = some file ∧ s'.Holds own s.pmm.freeCount ∧
      s'.vfs.BacksFile own file.dentry { e with dRef := 1 } p node ∧ (∃ k, .file k ∈ own) ∧
      .dentryKey file.dentry ∈ own ∧ (0 ≤ node.inum → .vinodeKey p ∈ own) := by
  obtain ⟨l, v', d, p, hlook, hfound, hpoint, hnode, htype, hd0, hp0⟩ := hun
  rw [Placed.vfsOpen, bind_eq_ok] at h
  obtain ⟨⟨target, s1⟩, htarget, h⟩ := h
  rw [Placed.openTarget, bind_eq_ok] at htarget
  obtain ⟨⟨l', s2⟩, hlook', htarget⟩ := htarget
  have hplain := Placed.lookupFinalDentry_follows _ _ _ _ hlook'
  cases hlook.symm.trans hplain
  dsimp only at htarget h hfound
  rw [hfound] at htarget
  cases htarget
  -- the lookup finds the dentry and leaves it complete
  have hstart : s.Since s.vfs s.pmm.freeCount ∅ := ⟨hw.holds s.page, by simp, Vfs.Backed.refl s.vfs⟩
  obtain ⟨own, hsince⟩ := (hstart.lookupFinalDentry path cwd).1 _ hlook' (by simp [hfound])
  obtain ⟨e, he, hi⟩ := Vfs.exists_of_points hpoint
  have hbd := hsince.backed.dentry d e (by simp) hd0 he
  have hbv := hsince.backed.vinode p node (by simp) hp0 hnode
  obtain ⟨f, file, hopened, hfile, hfd, hhold, hbf⟩ :=
    (hsince.openDentry he hi hnode hd0 hp0 htype).1 _ h
  subst hfd
  refine ⟨_, f, file, e, p, hopened, hfile, hhold, hbf, ⟨_, mem_insert_self ..⟩, ?_, ?_⟩
  · exact mem_insert_of_mem hbd.key
  · exact fun h0 => mem_insert_of_mem (hbv.key h0)

omit [GuardedTable T] in
theorem FileTable.entry_install (v : Vfs) (pfiles : ProcFiles) (x : OpenFile) :
    (FileTable.mk v (pfiles.install x)).entry pfiles.freeFd = x := by
  have hidx : getOpenedFile pfiles.freeFd = min pfiles.freeFd (MAX_FILES - 1) := by
    unfold getOpenedFile
    split
    · rename_i h
      rw [Int.toNat_natCast]
      omega
    · rename_i h
      omega
  rw [FileTable.entry, hidx]
  exact update_self ..

theorem Placed.Holds.closeEntry {s : Placed T} {own : Finset Obj} {n d p : Nat} {e : Dentry}
    {x : OpenFile} (h : s.Holds own n) (hf : s.vfs.BacksFile own d e p node) (hone : e.dRef = 1)
    (htype : node.type = R_FILE) (hx : x.dentry = some d) :
    Yields Halt.Never (s.closeEntry x) (fun r => ∃ own', r.2.Holds own' n ∧
      (((own.erase (.dentryNode d)).erase (.dentry d)).erase (.vinodeNode p)).erase (.vinode p)
        ⊆ own') := by
  have h1 : (s.setVfs (s.vfs.withFile (x.toFile d))).Holds own n := h
  have hf1 : (s.vfs.withFile (x.toFile d)).BacksFile own d e p node :=
    { hf with backs := { hf.backs with } }
  rw [Placed.closeEntry, hx]
  refine (h1.vfsClose hf1 hone htype (update_self ..) rfl).bind (fun r hr => ?_)
  exact (Yields.of_forall (P := fun _ => True) (fun _ _ => trivial)).bind (fun _ _ => .of_ok hr)

omit [GuardedTable T] in
theorem PagedTable.doOpen_inv [RefTable T] {t t1 : PagedTable T} {s : Placed T} {f : Nat} {fd : Int}
    (hvfs : t.placed.vfsOpen path flags t.pfiles.cwd = .ok (some f, s))
    (h : t.doOpen path flags = .ok (fd, t1)) :
    ∃ file, s.vfs.file f = .ok file ∧ fd = t.pfiles.freeFd ∧
      t1 = ⟨s, t.pfiles.install file.toEntry⟩ := by
  rw [PagedTable.doOpen, hvfs, ok_bind] at h
  dsimp only at h
  split at h
  · cases h
  · rw [bind_eq_ok] at h
    obtain ⟨file, hfile, h⟩ := h
    cases h
    exact ⟨file, hfile, rfl, rfl⟩

omit [GuardedTable T] in
theorem PagedTable.doClose_inv [RefTable T] {t t1 : PagedTable T} {fd r : Int}
    (h : t.doClose fd = .ok (r, t1)) :
    t.placed.closeEntry (t.table.entry fd) = .ok (r, t1.placed) := by
  rw [PagedTable.doClose, bind_eq_ok] at h
  obtain ⟨⟨r', s⟩, hentry, h⟩ := h
  cases h
  exact hentry

/-- Opening and closing a file that is not in memory loses pages: that of the `struct file`, that
of the dentry's key, and that of the vinode's key if the vinode went into the table. -/
theorem open_close_loses_pages {t t₁ t₂ : PagedTable T} {fd r : Int}
    (hw : t.placed.pmm.Wf free) (hun : t.placed.vfs.Uncached path t.pfiles.cwd node)
    (hopen : t.doOpen path flags = .ok (fd, t₁)) (hclose : t₁.doClose fd = .ok (r, t₂))
    (hgood : Good t₂.placed.pmm.refs) :
    t₂.placed.pmm.freeCount + 2 ≤ t.placed.pmm.freeCount ∧
      (0 ≤ node.inum → t₂.placed.pmm.freeCount + 3 ≤ t.placed.pmm.freeCount) := by
  obtain ⟨⟨opened, s⟩, hvfs, -⟩ := bind_eq_ok.mp hopen
  obtain ⟨own, f, file, e, p, rfl, hfile, hhold, hbf, ⟨k, hk⟩, hkey, hvkey⟩ :=
    Placed.vfsOpen_uncached hw hun hvfs
  obtain ⟨file', hread, rfl, rfl⟩ := PagedTable.doOpen_inv hvfs hopen
  have hsame : file' = file := by
    rw [Vfs.file, hfile] at hread
    cases hread
    rfl
  subst hsame
  have hentry := PagedTable.doClose_inv hclose
  have hx : ((PagedTable.mk s (t.pfiles.install file'.toEntry)).table.entry t.pfiles.freeFd).dentry
      = some file'.dentry := by
    have hinstalled := FileTable.entry_install s.vfs t.pfiles file'.toEntry
    exact congrArg OpenFile.dentry hinstalled
  obtain ⟨-, -, -, -, -, -, -, -, htype, -⟩ := hun
  obtain ⟨own', hhold', hsub⟩ := (hhold.closeEntry hbf rfl htype hx).1 _ hentry
  have hfile' : Obj.file k ∈ own' := hsub (by simp [hk])
  have hkey' : Obj.dentryKey file'.dentry ∈ own' := hsub (by simp [hkey])
  constructor
  · have htwo : ({.file k, .dentryKey file'.dentry} : Finset Obj) ⊆ own' := by
      simp [insert_subset_iff, hfile', hkey']
    exact Pmm.Holds.freeCount_le hhold' hgood htwo
  · intro h0
    have hvkey' : Obj.vinodeKey p ∈ own' := hsub (by simp [hvkey h0])
    have hthree : ({.file k, .dentryKey file'.dentry, .vinodeKey p} : Finset Obj) ⊆ own' := by
      simp [insert_subset_iff, hfile', hkey', hvkey']
    exact Pmm.Holds.freeCount_le hhold' hgood hthree

end

/-! ## A run -/

set_option synthInstance.maxSize 4096

/-- The first process opens `/RAMDISK0/a`, which has been created and closed before, on a blank
disk with 18 free pages, and closes it; `P` holds of the number of free pages before and after. -/
abbrev ReopenRun (P : Nat → Nat → Prop) : Prop :=
  ∃ pmm, pmmInit (KERN_BASE + PGSIZE) (20 * PGSIZE) (fun _ => 0) (IdealRefs.mk fun _ => 0)
      = .ok pmm ∧
    ∃ v, fsInit { blocks := fun _ _ => 0, iobuffer := fun _ => 0 } (fun _ => 0) = .ok v ∧
    ∃ t, Runs PagedTable.step (fun _ _ => True) ⟨⟨v, pmm, fun _ => 0⟩, (freshTable v).pfiles⟩
        [.openFile pathA 66, .close 0] t ∧
      (t.placed.pmm.Listed (t.placed.pmm.freeList 64) ∧
        ∀ p ∈ t.placed.pmm.freeList 64, t.placed.pmm.refs.counts p = 0) ∧
      (∃ r, lookupFinalDentry t.placed.vfs pathA t.pfiles.cwd = .ok r ∧
        ∃ d, r.1.found = some d ∧ ∃ p, r.2.points d = some p ∧
        ∃ node, r.2.rfs.vinodes p = some node ∧ node.type = R_FILE ∧ 0 ≤ node.inum ∧
          (t.placed.vfs.dentries d).isNone ∧ (t.placed.vfs.rfs.vinodes p).isNone) ∧
      ∃ r₁, t.doOpen pathA 0 = .ok r₁ ∧ r₁.1 = 0 ∧ ∃ r₂, r₁.2.doClose 0 = .ok r₂ ∧ r₂.1 = 0 ∧
        P t.placed.pmm.freeCount r₂.2.placed.pmm.freeCount

theorem ReopenRun.run {P : Nat → Nat → Prop} (h : ReopenRun P) :
    ∃ (t0 t t1 t2 : PagedTable IdealRefs) (node : Vinode), t0.Fresh ∧
      Reaches PagedTable.step (fun _ _ => True) t0 t ∧ t.placed.pmm.Wf (t.placed.pmm.freeList 64) ∧
      t.placed.vfs.Uncached pathA t.pfiles.cwd node ∧ 0 ≤ node.inum ∧
      t.doOpen pathA 0 = .ok (0, t1) ∧ t1.doClose 0 = .ok (0, t2) ∧
      P t.placed.pmm.freeCount t2.placed.pmm.freeCount := by
  obtain ⟨pmm, hpmm, v, hinit, t, hrun, ⟨hl, hzero⟩, ⟨⟨l, v'⟩, hlook, d, hd, p, hp, node, hnode,
    htype, hinum, hd0, hp0⟩, ⟨fd, t1⟩, hopen, rfl, ⟨r, t2⟩, hclose, rfl, hcount⟩ := h
  obtain ⟨-, free, hw, -⟩ := pmmInit_wf trivial (fun _ => rfl) hpmm
  have hun : t.placed.vfs.Uncached pathA t.pfiles.cwd node :=
    ⟨l, v', d, p, hlook, hd, hp, hnode, htype, Option.isNone_iff_eq_none.mp hd0,
      Option.isNone_iff_eq_none.mp hp0⟩
  exact ⟨_, t, t1, t2, node, ⟨⟨_, _, _, hinit, rfl⟩, free, hw⟩, hrun.reaches .start,
    ⟨hl, trivial, hzero⟩, hun, hinum, hopen, hclose, hcount⟩

/-- The file has an inode number, so three pages are lost. -/
theorem open_close_loses_pages_reopened : ∃ (t₀ t t₁ t₂ : PagedTable IdealRefs) (node : Vinode),
    t₀.Fresh ∧ Reaches PagedTable.step (fun _ _ => True) t₀ t ∧
      t.placed.vfs.Uncached pathA t.pfiles.cwd node ∧
      t.doOpen pathA 0 = .ok (0, t₁) ∧ t₁.doClose 0 = .ok (0, t₂) ∧
      t₂.placed.pmm.freeCount + 3 ≤ t.placed.pmm.freeCount := by
  have hrun : ReopenRun (fun _ _ => True) := by decide +kernel
  obtain ⟨t₀, t, t₁, t₂, node, hfresh, hreach, hw, hun, hinum, hopen, hclose, -⟩ := hrun.run
  have hloss := open_close_loses_pages hw hun hopen hclose trivial
  exact ⟨t₀, t, t₁, t₂, node, hfresh, hreach, hun, hopen, hclose, hloss.2 hinum⟩

/-- A file is created and closed, and 15 pages are free; opened and closed once more it leaves
12. -/
theorem open_close_not_balanced : ∃ (t₀ t t₁ t₂ : PagedTable IdealRefs) (node : Vinode),
    t₀.Fresh ∧ Reaches PagedTable.step (fun _ _ => True) t₀ t ∧
      t.placed.vfs.Uncached pathA t.pfiles.cwd node ∧
      t.doOpen pathA 0 = .ok (0, t₁) ∧ t₁.doClose 0 = .ok (0, t₂) ∧
      t.placed.pmm.freeCount = 15 ∧ t₂.placed.pmm.freeCount = 12 := by
  have hrun : ReopenRun (fun before after => before = 15 ∧ after = 12) := by decide +kernel
  obtain ⟨t₀, t, t₁, t₂, node, hfresh, hreach, -, hun, -, hopen, hclose, hcount⟩ := hrun.run
  exact ⟨t₀, t, t₁, t₂, node, hfresh, hreach, hun, hopen, hclose, hcount⟩

end CabbagePKE
