import CabbagePKE.Rfs.Directory

/-!
# Files and directories of the RAM disk

The operations of `kernel/rfs.c` that the virtual file system calls, and
formatting and mounting. A `struct vinode` lives in a page of its own and is
shared through its address, so the vinodes form a heap from addresses to objects.
An address is used once: a freed object stays unreadable.
-/

namespace CabbagePKE

open Lib Function

/-! ## Vinodes in memory -/

structure Rfs where
  vol : Volume
  vinodes : Nat → Option Vinode
  nextVinode : Nat

def Rfs.vinode (fs : Rfs) (p : Nat) : Outcome Vinode :=
  match fs.vinodes p with
  | some v => .ok v
  | none => .error .undefined

def Rfs.setVinode (fs : Rfs) (p : Nat) (v : Vinode) : Rfs :=
  { fs with vinodes := update fs.vinodes p (some v) }

def Rfs.setDev (fs : Rfs) (rdev : RfsDevice) : Rfs :=
  { fs with vol := { fs.vol with dev := rdev } }

/-- `rfs_alloc_vinode`, the number of the inode, `rfs_update_vinode`: a new
vinode for disk inode `inum`. -/
def loadVinode (fs : Rfs) (inum : Int) : Outcome (Nat × Rfs) := do
  let (dinode, rdev) ← rfsReadDinode fs.vol.dev inum
  let vinode : Vinode := { toDinode := dinode, inum := inum, ref := 0 }
  return (fs.nextVinode,
    { (fs.setDev rdev).setVinode fs.nextVinode vinode with nextVinode := fs.nextVinode + 1 })

def rfsUpdateVinode (rdev : RfsDevice) (v : Vinode) : Outcome (Vinode × RfsDevice) := do
  let (dinode, rdev) ← rfsReadDinode rdev v.inum
  return ({ v with toDinode := dinode }, rdev)

/-- **The inode area is an array.** A write of disk inode `n` is read back, no other inode and no
other block changes, and an update after a write back restores the vinode. -/
theorem inode_area_array (rdev : RfsDevice) {d : Dinode} {n : Nat} (hn : n < RFS_NINODES)
    (hd : d.Fits) :
    ∃ rdev', rfsWriteDinode rdev d n = .ok rdev' ∧
      (∀ m : Nat, m < RFS_NINODES → (rfsReadDinode rdev' m).map Prod.fst
        = if m = n then .ok d else (rfsReadDinode rdev m).map Prod.fst) ∧
      (∀ b, b ≠ inodeBlock n → rdev'.blocks b = rdev.blocks b) ∧
      ∀ v w : Vinode, v.toDinode = d → v.inum = n → w.inum = n →
        rfsWriteBackVinode rdev v = .ok rdev' ∧
        (rfsUpdateVinode rdev' w).map Prod.fst = .ok { w with toDinode := v.toDinode } := by
  obtain ⟨rdev', hwrite, hread, hframe⟩ := rfsWriteDinode_spec rdev d hn
  have hself : dinodeAt rdev'.blocks n = d := (hread hd n).trans (if_pos rfl)
  refine ⟨rdev', hwrite, fun m hm => ?_, hframe, fun v w hv hinum hw => ?_⟩
  · rw [rfsReadDinode_eq hm, rfsReadDinode_eq hm, Except.map, hread hd m]
    split_ifs
    · rfl
    · rfl
  · rw [rfsWriteBackVinode, hv, hinum, rfsUpdateVinode, hw, rfsReadDinode_eq hn, ok_bind, hself]
    exact ⟨hwrite, rfl⟩

/-- Inode 33, the second of its block, on a disk of zeros. -/
theorem inode_area_array_second :
    ∃ rdev', rfsWriteDinode ⟨fun _ _ => 0, fun _ => 0⟩ (dinodeOf (fun _ => 1) 0) (33 : Nat)
        = .ok rdev' ∧
      (rfsReadDinode rdev' (33 : Nat)).map Prod.fst = .ok (dinodeOf (fun _ => 1) 0) := by
  obtain ⟨rdev', hwrite, hread, -⟩ := inode_area_array ⟨fun _ _ => 0, fun _ => 0⟩ (n := 33)
    (by decide) (dinodeOf_fits (fun _ => 1) 0)
  exact ⟨rdev', hwrite, hread 33 (by decide)⟩

def Rfs.freeVinode (fs : Rfs) (p : Nat) : Rfs :=
  { fs with vinodes := update fs.vinodes p none }

/-! ## Lookup -/

def rfsLookup (fs : Rfs) (parent : Nat) (name : Name) : Outcome (Option Nat × Rfs) := do
  let dir ← fs.vinode parent
  let total := totalDirentrys dir.toDinode
  let (found, rdev) ← findDirentry dir.toDinode name total.toNat 0 fs.vol.dev
  match found with
  | none => return (none, fs.setDev rdev)
  | some i => do
      let (child, fs) ← loadVinode (fs.setDev rdev) (direntryInum rdev.iobuffer i)
      return (some child, fs)

/-! ## Creation -/

/-- The search for a free disk inode among the `n` inodes from inode `i` on.
If none is free, `free_inum` keeps its initial 0 and `free_dinode` is the
last inode read. -/
def findFreeDinode :
    Nat → Nat → Option Dinode → RfsDevice → Outcome (Int × Option Dinode × RfsDevice)
  | 0, _, freeDinode, rdev => .ok (0, freeDinode, rdev)
  | n + 1, i, _, rdev => do
      let (dinode, rdev) ← rfsReadDinode rdev i
      if dinode.type = R_FREE then return (i, some dinode, rdev)
      else findFreeDinode n (i + 1) (some dinode) rdev

/-- The part that `rfs_create` and `rfs_mkdir` share: a disk inode of the
given type with one block. -/
def allocDinode (vol : Volume) (type : Int) (noMore : String) : Outcome (Int × Volume) := do
  let (freeInum, freeDinode, rdev) ← findFreeDinode RFS_NINODES 0 none vol.dev
  match freeDinode with
  | none => .error (.panic noMore [])
  | some dinode => do
      let (b, sb) ← rfsAllocBlock vol.sb
      let dinode := { dinode with size := 0, type := type, nlinks := 1, blocks := 1 }
      let rdev ← rfsWriteDinode rdev (dinode.setAddr 0 b) freeInum
      return (freeInum, { dev := rdev, sb := sb })

/-- `rfs_add_direntry` on the directory at `parent` -/
def addDirentry (fs : Rfs) (parent : Nat) (name : Name) (inum : Int) : Outcome (Int × Rfs) := do
  let dir ← fs.vinode parent
  let (result, rdev, dir) ← rfsAddDirentry fs.vol.dev dir name inum
  return (result, (fs.setDev rdev).setVinode parent dir)

def rfsCreate (fs : Rfs) (parent : Nat) (name : Name) : Outcome (Option Nat × Rfs) := do
  let _ ← fs.vinode parent
  let (freeInum, vol) ← allocDinode fs.vol R_FILE
    "rfs_create: no more free disk inode, we cannot create file.\n"
  let (newVinode, fs) ← loadVinode { fs with vol := vol } freeInum
  let (result, fs) ← addDirentry fs parent name freeInum
  return (if result = -1 then none else some newVinode, fs)

/-- `rfs_mkdir`, which adds the entry before it builds the vinode -/
def rfsMkdir (fs : Rfs) (parent : Nat) (name : Name) : Outcome (Option Nat × Rfs) := do
  let _ ← fs.vinode parent
  let (freeInum, vol) ← allocDinode fs.vol R_DIR
    "rfs_mkdir: no more free disk inode, we cannot create directory.\n"
  let (result, fs) ← addDirentry { fs with vol := vol } parent name freeInum
  if result = -1 then return (none, fs)
  else do
    let (subVinode, fs) ← loadVinode fs freeInum
    return (some subVinode, fs)

/-! ## Links -/

/-- `rfs_link`; the result of `rfs_add_direntry` is not looked at -/
def rfsLink (fs : Rfs) (parent : Nat) (name : Name) (linkNode : Nat) : Outcome (Int × Rfs) := do
  let node ← fs.vinode linkNode
  let fs := fs.setVinode linkNode { node with nlinks := wrap32 (node.nlinks + 1) }
  let (_, fs) ← addDirentry fs parent name node.inum
  let node ← fs.vinode linkNode
  let rdev ← rfsWriteBackVinode fs.vol.dev node
  return (0, fs.setDev rdev)

def freeDinodeBlocks (dinode : Dinode) : Nat → Nat → SuperBlock → Outcome SuperBlock
  | 0, _, sb => .ok sb
  | n + 1, i, sb => do
      let b ← addrAt dinode i
      let sb ← rfsFreeBlock sb b
      freeDinodeBlocks dinode n (i + 1) sb

def releaseDinode (sb : SuperBlock) (dinode : Dinode) : Outcome (SuperBlock × Dinode) :=
  if dinode.nlinks = 0 then do
    let sb ← freeDinodeBlocks dinode dinode.blocks.toNat 0 sb
    return (sb, { dinode with type := R_FREE })
  else .ok (sb, dinode)

/-- The part of `rfs_unlink` after the search: entry `deleteIndex` carries
`inum`. -/
def unlinkEntry (fs : Rfs) (parent : Nat) (total : Int) (deleteIndex : Nat) (inum : Int)
    (unlinkVinode : Nat) : Outcome Rfs := do
  let (dinode, rdev) ← rfsReadDinode fs.vol.dev inum
  let node ← fs.vinode unlinkVinode
  if node.nlinks ≠ dinode.nlinks then
    .error (.assertion "unlink_vinode->nlinks == unlink_dinode->nlinks")
  else do
    let nlinks := wrap32 (node.nlinks - 1)
    let fs := fs.setVinode unlinkVinode { node with nlinks := nlinks }
    let (sb, dinode) ← releaseDinode fs.vol.sb { dinode with nlinks := nlinks }
    let rdev ← rfsWriteDinode rdev dinode inum
    let dir ← fs.vinode parent
    let (vol, dir) ← removeDirentry { dev := rdev, sb := sb } dir total deleteIndex
    return { fs.setVinode parent dir with vol := vol }

def rfsUnlink (fs : Rfs) (parent : Nat) (name : Name) (unlinkVinode : Nat) :
    Outcome (Int × Rfs) := do
  let dir ← fs.vinode parent
  let total := totalDirentrys dir.toDinode
  let (found, rdev) ← findDirentry dir.toDinode name total.toNat 0 fs.vol.dev
  match found with
  | none =>
    -- with no entry at all `p_direntry` is still null when it is read
    if total ≤ 0 then .error .undefined else return (-1, fs.setDev rdev)
  | some i => do
      let fs ← unlinkEntry (fs.setDev rdev) parent total i (direntryInum rdev.iobuffer i)
        unlinkVinode
      return (0, fs)

/-! ## Formatting and mounting -/

def RFS_MAGIC : Int := 0xBEAF

/-- An unused disk inode as `rfs_format_dev` writes it, before its addresses. -/
def emptyDinodeWords : List Int := [0, R_FREE, 0, 0]

def putEmptyDinodes (m : Mem) : Nat → Mem
  | 0 => m
  | n + 1 => putWords (putEmptyDinodes m n) (n * RFS_INODESIZE) emptyDinodeWords

def writeSame : Nat → Nat → RfsDevice → Outcome RfsDevice
  | 0, _, rdev => .ok rdev
  | n + 1, b, rdev => do
      let rdev ← ramdiskWrite rdev b
      writeSame n (b + 1) rdev

/-- `rfs_format_dev`; `stack` is what the uninitialised addresses of
`root_dinode` hold -/
def rfsFormatDev (rdev : RfsDevice) (stack : Fin DIRECT_BLKNUM → Int) : Outcome RfsDevice := do
  let super : List Int := [RFS_MAGIC, 1 + RFS_MAX_INODE_BLKNUM + 1 + RFS_NBLOCKS, RFS_NBLOCKS,
    RFS_NINODES]
  let rdev ← ramdiskWrite { rdev with iobuffer := putWords rdev.iobuffer 0 super } 0
  let rdev ← writeSame RFS_MAX_INODE_BLKNUM RFS_BLK_OFFSET_INODE
    { rdev with iobuffer := putEmptyDinodes rdev.iobuffer INODES_PER_BLK }
  let rootDinode : Dinode := { size := 0, type := R_DIR, nlinks := 1, blocks := 1, addrs := stack }
  let rdev ← rfsWriteDinode rdev (rootDinode.setAddr 0 RFS_BLK_OFFSET_FREE) 0
  let freemap := putWords (fillBytes rdev.iobuffer 0 0 RFS_BLKSIZE) 0 [1]
  ramdiskWrite { rdev with iobuffer := freemap } RFS_BLK_OFFSET_BITMAP

/-- `rfs_get_superblock`: the super block, and the vinode of the root -/
def rfsGetSuperblock (rdev : RfsDevice) : Outcome (Nat × Rfs) := do
  let rdev ← ramdiskRead rdev 0
  let magic := getWord rdev.iobuffer 0
  let nblocks := getWord rdev.iobuffer 8
  if magic ≠ RFS_MAGIC then .error (.panic "rfs_get_superblock: wrong ramdisk device!\n" [])
  else do
    let (root, fs) ← loadVinode
      { vol := { dev := rdev, sb := { nblocks := nblocks, freemap := fun _ => 0 } },
        vinodes := fun _ => none, nextVinode := 0 } 0
    let rdev ← ramdiskRead fs.vol.dev RFS_BLK_OFFSET_BITMAP
    let freemap := fun block => getWord rdev.iobuffer (4 * block)
    return (root, { fs with vol := { dev := rdev, sb := { nblocks := nblocks, freemap := freemap } } })

end CabbagePKE
