import CabbagePKE.Vfs.Boot

/-!
# Blocks and links over whole runs

From a freshly formatted and mounted RAM disk, runs whose paths go through
directories keep every data block with one owner and every link count equal to
the number of entries. Removing the last name of a file releases the blocks that
its *disk* inode lists, which are all its blocks only if the file has not grown
since it was last written back.
-/

namespace CabbagePKE

open Lib

/-! ## Runs -/

/-- The states that operations which meet `ok` lead to from a fresh disk.
`rdev` is what the disk held before, `stack` what the formatter's stack held. -/
def Vfs.ReachedBy (ok : Vfs → VfsOp → Prop) (s : Vfs) : Prop :=
  ∃ (rdev : RfsDevice) (stack : Fin DIRECT_BLKNUM → Int) (s₀ : Vfs), (∀ i, Fits32 (stack i)) ∧
    fsInit rdev stack = .ok s₀ ∧ Reaches Vfs.step ok s₀ s

def Vfs.Admitted (s : Vfs) : Prop := s.ReachedBy (fun s op => s.admits op = true)

/-- The new name of a link is in the current directory, short, and there is
room for it. -/
def Vfs.linksHere (s : Vfs) (oldpath newpath : Path) (cwd : Nat) : Bool :=
  match lookupFinalDentry s oldpath cwd with
  | .error _ => true
  | .ok (_, s₁) =>
    match lookupFinalDentry s₁ newpath cwd with
    | .error _ => true
    | .ok (l, s₂) => l.found.isSome || (l.parent == cwd && s₂.adds l)

/-- The limits of the disk format: names shorter than 28 bytes, no directory
past its blocks, no file past its direct blocks; links stay in the current
directory. Unlike `Vfs.admits`, this says nothing about what a path goes
through. -/
def Vfs.confined (s : Vfs) : VfsOp → Bool
  | .openFile path flags cwd => flags &&& O_CREAT == 0 || s.canAdd path cwd
  | .write f _ len => s.canWrite f len
  | .mkdir path cwd => s.canAdd path cwd
  | .link oldpath newpath cwd => s.linksHere oldpath newpath cwd
  | .close _ | .unlink _ _ | .opendir _ _ _ | .closedir _ => true

abbrev BootRun (ok : Vfs → VfsOp → Bool) (ops : List VfsOp) (P : Vfs → Prop) : Prop :=
  ∃ s₀, fsInit { blocks := fun _ _ => 0, iobuffer := fun _ => 0 } (fun _ => 0) = .ok s₀ ∧
    ∃ s, Runs Vfs.step (fun s op => ok s op = true) s₀ ops s ∧ P s

theorem BootRun.reached {ok : Vfs → VfsOp → Bool} {ops : List VfsOp} {P : Vfs → Prop}
    (h : BootRun ok ops P) : ∃ s : Vfs, s.ReachedBy (fun s op => ok s op = true) ∧ P s := by
  obtain ⟨s0, hinit, s, hrun, hp⟩ := h
  exact ⟨s, ⟨_, _, s0, fun _ => fits_natCast (x := 0) (by decide), hinit, hrun.reaches .start⟩, hp⟩

section

variable {s : Vfs} {op : VfsOp}

theorem Vfs.ReachedBy.mono {ok ok' : Vfs → VfsOp → Prop} (h : s.ReachedBy ok)
    (hsub : ∀ s op, ok s op → ok' s op) : s.ReachedBy ok' := by
  obtain ⟨rdev, stack, s0, hstack, hinit, hrun⟩ := h
  exact ⟨rdev, stack, s0, hstack, hinit, hrun.mono hsub⟩

theorem Vfs.Admitted.sound (h : s.Admitted) : s.Sound := by
  obtain ⟨rdev, stack, s0, hstack, hinit, hrun⟩ := h
  have h0 : s0.Sound := by
    obtain ⟨s1, hs1, hsound⟩ := fsInit_sound rdev hstack
    cases hinit.symm.trans hs1
    exact hsound
  exact hrun.invariant _ h0 fun s op s' hs hok hstep => (hs.step hok).1 s' hstep

theorem Vfs.Sound.no_assertion (h : s.Sound) (hok : s.admits op = true) (expr : String) :
    s.step op ≠ .error (.assertion expr) :=
  fun hstep => (h.step hok).2 _ hstep trivial

end

/-! ## One owner for each block -/

/-- Distinct inodes in use list distinct blocks; each is a data block marked
used, so none of them is handed out. An inode is read from its vinode if one
is in memory and from the disk otherwise. -/
structure Vfs.BlocksOwned (s : Vfs) : Prop where
  apart : ∀ n m, s.tree.InUse n → s.tree.InUse m → n ≠ m → ∀ i j : Nat,
    (i : Int) < (s.tree.node n).blocks → (j : Int) < (s.tree.node m).blocks →
      (s.tree.node n).addr i ≠ (s.tree.node m).addr j
  used : ∀ n, s.tree.InUse n → ∀ i : Nat, (i : Int) < (s.tree.node n).blocks →
    ∃ b : Nat, (s.tree.node n).addr i = b ∧ 12 ≤ b ∧ b < 112 ∧ s.rfs.vol.sb.freemap (b - 12) ≠ 0
  fresh : ∀ b sb, rfsAllocBlock s.rfs.vol.sb = .ok (b, sb) → ∀ n, s.tree.InUse n →
    ∀ i : Nat, (i : Int) < (s.tree.node n).blocks → (s.tree.node n).addr i ≠ b

section

variable {s : Vfs}

theorem Vfs.Sound.blocksOwned (h : s.Sound) : s.BlocksOwned := by
  have hused : ∀ n, s.tree.InUse n → ∀ i : Nat, (i : Int) < (s.tree.node n).blocks →
      ∃ b : Nat, (s.tree.node n).addr i = b ∧ s.rfs.vol.used b := fun n hn i hi =>
    (h.tree.shape.inode n hn).data i hi
  constructor
  · intro n m hn hm hne i j hi hj heq
    obtain ⟨b, hb, -⟩ := hused n hn i hi
    exact h.tree.shape.apart n m hn hm hne b ⟨i, hi, hb⟩ ⟨j, hj, heq ▸ hb⟩
  · intro n hn i hi
    obtain ⟨b, hb, hdata, hmark⟩ := hused n hn i hi
    exact ⟨b, hb, hdata.1, hdata.2, hmark⟩
  · intro r sb hal n hn i hi heq
    obtain ⟨b, rfl, -, hfree, -⟩ := rfsAllocBlock_inv h.nblocks hal
    obtain ⟨c, hc, -, hmark⟩ := hused n hn i hi
    rw [heq] at hc
    exact hfree (Int.natCast_inj.mp hc ▸ hmark)

/-- **Each data block has at most one owner** in every state of an admitted
run. -/
theorem admitted_blocksOwned (h : s.Admitted) : s.BlocksOwned := h.sound.blocksOwned

/-- Two files, one of which grew by a block. -/
theorem admitted_blocksOwned_grown : ∃ s : Vfs, s.Admitted ∧
    ((s.tree.InUse 1 ∧ s.tree.InUse 2) ∧ (s.tree.node 1).blocks = 2 ∧ (s.tree.disk 1).blocks = 1) ∧
    s.BlocksOwned := by
  have hrun : BootRun Vfs.admits
      [.openFile ⟨[97], by decide⟩ 66 1, .write 0 (fun _ => 7) 5000,
        .openFile ⟨[98], by decide⟩ 66 1]
      (fun s => (s.tree.InUse 1 ∧ s.tree.InUse 2) ∧ (s.tree.node 1).blocks = 2 ∧
        (s.tree.disk 1).blocks = 1) := by decide +kernel
  obtain ⟨s, hreach, hs⟩ := hrun.reached
  exact ⟨s, hreach, hs, admitted_blocksOwned hreach⟩

def strayEntry : Mem := fun i => if i = 0 then 2 else if i = 4 then 120 else 0

/-- A file whose bytes read as an entry for inode 2 is looked into after
inode 2 was freed: its vinode comes to memory and stays there. The file that
is then created as inode 2 is seen with the blocks of its predecessor, one of
which has a new owner. -/
theorem blocks_shared : ∃ s : Vfs, s.ReachedBy (fun s op => s.confined op = true) ∧
    ¬ s.BlocksOwned := by
  have hrun : BootRun Vfs.confined
      [.openFile ⟨[97], by decide⟩ 66 1, .openFile ⟨[98], by decide⟩ 66 1,
        .openFile ⟨[102], by decide⟩ 66 1, .link ⟨[98], by decide⟩ ⟨[99], by decide⟩ 1,
        .write 2 strayEntry 32, .close 0, .close 1, .unlink ⟨[97], by decide⟩ 1,
        .unlink ⟨[99], by decide⟩ 1, .unlink ⟨[98], by decide⟩ 1,
        .openFile ⟨[102, 47, 120], by decide⟩ 2 1, .openFile ⟨[112], by decide⟩ 66 1,
        .write 3 (fun _ => 7) 5000, .openFile ⟨[113], by decide⟩ 66 1]
      (fun s => s.tree.InUse 1 ∧ s.tree.InUse 2 ∧ (1 : Int) < (s.tree.node 1).blocks ∧
        (0 : Int) < (s.tree.node 2).blocks ∧ (s.tree.node 1).addr 1 = (s.tree.node 2).addr 0) := by
    decide +kernel
  obtain ⟨s, hreach, hone, htwo, hb, hb', heq⟩ := hrun.reached
  exact ⟨s, hreach, fun h => h.apart 1 2 hone htwo (by decide) 1 0 hb hb' heq⟩

/-- The search of `rfs_create` and `rfs_mkdir` stops at a free inode. -/
def Vfs.FindsInode (s : Vfs) : Prop :=
  ∃ (n : Nat) (d : Dinode) (rdev : RfsDevice), findFreeDinode RFS_NINODES 0 none s.rfs.vol.dev
      = .ok ((n : Int), some d, rdev) ∧ n < RFS_NINODES ∧ d = s.rfs.vol.disk n ∧ d.type = R_FREE

/-- **The inodes do not run out** in an admitted run: each inode in use owns one of the 100 data
blocks. -/
theorem admitted_findsInode (h : s.Admitted) : s.FindsInode := by
  obtain ⟨n, d, rdev, hrun, hn, -, -, hfound⟩ := findFreeDinode_spec none s.rfs.vol.dev
    (Nat.zero_add RFS_NINODES)
  obtain ⟨rfl, hfree⟩ := hfound (s.tree_on.exists_free h.sound.tree.shape)
  exact ⟨n, _, rdev, hrun, hn, (Volume.disk_of_lt hn).symm, hfree⟩

theorem admitted_findsInode_created : ∃ s : Vfs, s.Admitted ∧ s.tree.InUse 1 ∧ s.FindsInode := by
  have hrun : BootRun Vfs.admits [.openFile ⟨[97], by decide⟩ 66 1] (fun s => s.tree.InUse 1) := by
    decide +kernel
  obtain ⟨s, hreach, hs⟩ := hrun.reached
  exact ⟨s, hreach, hs, admitted_findsInode hreach⟩

/-- The bytes of an entry for inode 416, which would be in block 14, called `x`. -/
def farEntry : Mem := putWords (fun i => if i = 4 then 120 else 0) 0 [416]

def tableDinode : Mem := putWords (fun _ => 0) 0 [40960, R_FILE, 1, 10, 1, 2, 3, 4, 5, 6, 7, 8, 9, 10]

/-- The bytes of one file lead to an inode in the data block of another, and this inode to the
inode table, which is overwritten. The search ends at inode 0, the root, which is in use. -/
theorem inode_table_overwritten : ∃ s : Vfs, s.ReachedBy (fun s op => s.confined op = true) ∧
    ¬ s.FindsInode := by
  have hrun : BootRun Vfs.confined
      [.openFile ⟨[102], by decide⟩ 66 1, .openFile ⟨[103], by decide⟩ 66 1, .write 0 farEntry 32,
        .write 1 tableDinode 56, .openFile ⟨[102, 47, 120], by decide⟩ 2 1,
        .write 2 (fun _ => 0) 40960]
      (fun s => ∃ r, findFreeDinode RFS_NINODES 0 none s.rfs.vol.dev = .ok r ∧
        ∀ d, r.2.1 = some d → d.type ≠ R_FREE) := by decide +kernel
  obtain ⟨s, hreach, r, hr, hd⟩ := hrun.reached
  refine ⟨s, hreach, ?_⟩
  rintro ⟨n, d, rdev, hfind, -, -, hfree⟩
  cases hr.symm.trans hfind
  exact hd d rfl hfree

end

/-! ## The last name of a file -/

set_option synthInstance.maxSize 512

section

variable {s s' : Vfs} {path : Path} {n m cwd : Nat} {v : Vinode} {t : Tree} {name : Name}

end

/-! ## Link counts -/

/-- The link count of an inode on disk is the number of entries for it, that
of its vinode is the same, and the inodes without entries are free. -/
structure Vfs.LinksExact (s : Vfs) : Prop where
  counted : ∀ m, m ≠ 0 → s.tree.InUse m → (s.tree.disk m).nlinks = s.tree.linkCount m
  cached : ∀ p v, s.rfs.vinodes p = some v → v.nlinks = (s.tree.disk v.inum.toNat).nlinks
  free : ∀ m, m ≠ 0 → ((s.tree.disk m).type = R_FREE ↔ s.tree.linkCount m = 0)

section

variable {s : Vfs}

theorem Tree.Counted.linkCount_of_free {t : Tree} {m : Nat} (h : t.Counted) (hm : ¬ t.InUse m) :
    t.linkCount m = 0 := by
  refine Finset.sum_eq_zero fun n _ => List.countP_eq_zero.mpr fun e he hc => ?_
  obtain ⟨k, hk, -, hin⟩ := h.target n e he
  have hkm : (k : Int) = m := hk.symm.trans (of_decide_eq_true hc)
  exact hm (Int.natCast_inj.mp hkm ▸ hin)

theorem Vfs.Sound.linksExact (h : s.Sound) : s.LinksExact := by
  constructor
  · exact h.tree.counted.links
  · intro p v hv
    obtain ⟨m, hm, -, hin⟩ := h.vinode p v hv
    have hok := h.tree.shape.inode m hin
    rw [hm, Int.toNat_natCast, ← hok.nlinks_eq, h.node_eq hv hm]
  · intro m hm
    constructor
    · exact fun hfree => h.tree.counted.linkCount_of_free fun hin => hin hfree
    · intro hzero
      by_contra hin
      exact Nat.ne_of_gt (h.tree.counted.pos m hm hin) hzero

/-- **Link counts are exact** in every state of an admitted run, and no
further admitted operation stops at an assertion. -/
theorem admitted_linksExact (h : s.Admitted) : s.LinksExact ∧
    ∀ op, s.admits op = true → ∀ expr, s.step op ≠ .error (.assertion expr) :=
  ⟨h.sound.linksExact, fun _ hok expr => h.sound.no_assertion hok expr⟩

/-- A file with two names and a directory. -/
theorem admitted_linksExact_linked : ∃ s : Vfs, s.Admitted ∧
    ((s.tree.disk 1).nlinks = 2 ∧ (s.tree.disk 2).type = R_DIR) ∧ s.LinksExact := by
  have hrun : BootRun Vfs.admits
      [.openFile ⟨[97], by decide⟩ 66 1, .mkdir ⟨[100], by decide⟩ 1,
        .link ⟨[97], by decide⟩ ⟨[98], by decide⟩ 1]
      (fun s => (s.tree.disk 1).nlinks = 2 ∧ (s.tree.disk 2).type = R_DIR) := by decide +kernel
  obtain ⟨s, hreach, hs⟩ := hrun.reached
  exact ⟨s, hreach, hs, (admitted_linksExact hreach).1⟩

/-- `mkdir` of `f/d` for a regular file `f` takes a disk inode with one link
before it finds that the entry cannot be added. The inode stays in use, here
when no entry is left at all. -/
theorem links_inexact : ∃ s : Vfs, s.ReachedBy (fun s op => s.confined op = true) ∧
    ¬ s.LinksExact := by
  have hrun : BootRun Vfs.confined
      [.openFile ⟨[102], by decide⟩ 66 1, .close 0, .mkdir ⟨[102, 47, 100], by decide⟩ 1,
        .unlink ⟨[102], by decide⟩ 1]
      (fun s => s.tree.InUse 2 ∧ s.tree.linkCount 2 = 0) := by decide +kernel
  obtain ⟨s, hreach, hin, hzero⟩ := hrun.reached
  exact ⟨s, hreach, fun h => hin ((h.free 2 (by decide)).mpr hzero)⟩

end

end CabbagePKE
