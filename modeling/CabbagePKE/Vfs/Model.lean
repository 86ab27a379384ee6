import CabbagePKE.Rfs.Inode

/-!
# The virtual file system

`kernel/vfs.c`: the dentries and vinodes in memory, the two hash tables that find
them again, path lookup, and the operations on files. As `fs_init` builds it, the
host file system is the root and the RAM disk is mounted at `/RAMDISK0`. A lookup
that reaches the host file system, which is not modelled, ends the run.
-/

namespace CabbagePKE

open Lib Function

/-! ## Objects -/

/-- The `dentry_inode` of a dentry: the root of the host file system, or a
vinode of the RAM disk. -/
inductive InodePtr
  | null
  | host
  | rfs (p : Nat)
  deriving DecidableEq

/-- `struct dentry`. As for `ref`, each thing that `d_ref` counts takes a page,
so the counts stay far below the range of an `int` and are not wrapped. -/
structure Dentry where
  name : Name
  dRef : Int
  inode : InodePtr
  parent : Option Nat

structure File where
  opened : Bool
  readable : Bool
  writable : Bool
  offset : Int
  dentry : Nat

/-- `struct rfs_dir_cache`: the pages that an open directory was read into;
`released` once `rfs_hook_closedir` has freed them. -/
structure DirCache where
  blockCount : Int
  pages : List Mem
  released : Bool

/-- The kernel's file system state. Objects are found by address; the hash
tables map keys to addresses. `dirCaches` is the `i_fs_info` of the vinodes. -/
structure Vfs where
  rfs : Rfs
  dirCaches : Nat → Option DirCache
  vinodeHash : Int → Option Nat
  dentries : Nat → Option Dentry
  nextDentry : Nat
  dentryHash : Option Nat × Name → Option Nat
  files : Nat → Option File
  nextFile : Nat

structure Path where
  bytes : List UInt8
  noNul : (0 : UInt8) ∉ bytes

def MAX_PATH_LEN : Nat := 30

def O_CREAT : Nat := 64

def MASK_FILEMODE : Nat := 3

def slash : UInt8 := 47

def dot : UInt8 := 46

/-! ## Access to objects -/

def Vfs.dentry (s : Vfs) (d : Nat) : Outcome Dentry :=
  match s.dentries d with
  | some e => .ok e
  | none => .error .undefined

def Vfs.setDentry (s : Vfs) (d : Nat) (e : Dentry) : Vfs :=
  { s with dentries := update s.dentries d (some e) }

def Vfs.setVinode (s : Vfs) (p : Nat) (v : Vinode) : Vfs := { s with rfs := s.rfs.setVinode p v }

def Vfs.freeDentry (s : Vfs) (d : Nat) : Vfs :=
  { s with dentries := update s.dentries d none }

def Vfs.freeVinode (s : Vfs) (p : Nat) : Vfs := { s with rfs := s.rfs.freeVinode p }

def Vfs.file (s : Vfs) (f : Nat) : Outcome File :=
  match s.files f with
  | some x => .ok x
  | none => .error .undefined

def Vfs.rfsInode (s : Vfs) (d : Nat) : Outcome Nat := do
  let e ← s.dentry d
  match e.inode with
  | .null => .error .undefined
  | .host => .error .foreign
  | .rfs p => return p

/-- `dentry->dentry_inode->type`; the root of the host file system is a
directory -/
def Vfs.inodeType (s : Vfs) (d : Nat) : Outcome Int := do
  let e ← s.dentry d
  match e.inode with
  | .null => .error .undefined
  | .host => return R_DIR
  | .rfs p => do
      let v ← s.rfs.vinode p
      return v.type

def Vfs.addRef (s : Vfs) (p : Nat) (k : Int) : Outcome Vfs := do
  let v ← s.rfs.vinode p
  return s.setVinode p { v with ref := v.ref + k }

/-! ## Hash tables -/

def hashGetVinode (s : Vfs) (inum : Int) : Option Nat :=
  if inum < 0 then none else s.vinodeHash inum

/-- `hash_put_vinode`: a bound key stays as it is -/
def hashPutVinode (s : Vfs) (p : Nat) : Outcome Vfs := do
  let v ← s.rfs.vinode p
  if v.inum < 0 ∨ (s.vinodeHash v.inum).isSome then return s
  else return { s with vinodeHash := update s.vinodeHash v.inum (some p) }

def hashEraseVinode (s : Vfs) (p : Nat) : Outcome Vfs := do
  let v ← s.rfs.vinode p
  if v.inum < 0 then return s
  else return { s with vinodeHash := update s.vinodeHash v.inum none }

def hashGetDentry (s : Vfs) (parent : Nat) (name : Name) : Option Nat :=
  s.dentryHash (some parent, name)

/-- `hash_put_dentry`: a bound key stays as it is -/
def hashPutDentry (s : Vfs) (d : Nat) : Outcome Vfs := do
  let e ← s.dentry d
  if (s.dentryHash (e.parent, e.name)).isSome then return s
  else return { s with dentryHash := update s.dentryHash (e.parent, e.name) (some d) }

def hashEraseDentry (s : Vfs) (d : Nat) : Outcome Vfs := do
  let e ← s.dentry d
  return { s with dentryHash := update s.dentryHash (e.parent, e.name) none }

/-! ## Dentries -/

def allocVfsDentry (s : Vfs) (name : Name) (parent : Option Nat) : Nat × Vfs :=
  (s.nextDentry, { s.setDentry s.nextDentry
    { name := name, dRef := 0, inode := .null, parent := parent } with
      nextDentry := s.nextDentry + 1 })

def freeVfsDentry (s : Vfs) (d : Nat) : Outcome Vfs := do
  let e ← s.dentry d
  if 0 < e.dRef then return s else return s.freeDentry d

def pointDentry (s : Vfs) (d p : Nat) : Outcome Vfs := do
  let e ← s.dentry d
  (s.setDentry d { e with inode := .rfs p }).addRef p 1

/-! ## Path lookup -/

def tokens (path : List UInt8) : List Name :=
  (path.splitOnP (fun c => c == slash)).filter (fun token => !token.isEmpty)

def viopLookup (s : Vfs) (parent : Nat) (name : Name) : Outcome (Option Nat × Vfs) := do
  let dir ← s.rfsInode parent
  let (found, fs) ← rfsLookup s.rfs dir name
  return (found, { s with rfs := fs })

/-- Give the new dentry `d` the vinode that was found, or the one that is
already in memory for the same inode. -/
def shareVinode (s : Vfs) (d found : Nat) : Outcome Vfs := do
  let v ← s.rfs.vinode found
  match hashGetVinode s v.inum with
  | some same => do
      let s ← pointDentry s d same
      return s.freeVinode found
  | none => do
      let s ← pointDentry s d found
      hashPutVinode s found

/-- One token of a path: the entry `token` of directory `parent`, from the
hash table or from the disk. -/
def lookupToken (s : Vfs) (parent : Nat) (token : Name) : Outcome (Option Nat × Vfs) :=
  match hashGetDentry s parent token with
  | some d => .ok (some d, s)
  | none => do
      let (d, s) := allocVfsDentry s token (some parent)
      let (found, s) ← viopLookup s parent token
      match found with
      | none => return (none, s.freeDentry d)
      | some p => do
          let s ← shareVinode s d p
          let s ← hashPutDentry s d
          return (some d, s)

/-- What `lookup_final_dentry` returns: the dentry, the last directory
accessed, and `miss_name` if it was written. -/
structure Lookup where
  found : Option Nat
  parent : Nat
  missName : Option Name

def walk : List Name → Vfs → (this parent : Nat) → Outcome (Lookup × Vfs)
  | [], s, this, parent => .ok (⟨some this, parent, none⟩, s)
  | token :: rest, s, this, parent =>
    if token = [dot] then walk rest s this parent
    else if token = [dot, dot] then do
      let e ← s.dentry this
      match e.parent with
      | none => .ok (⟨none, parent, none⟩, s)
      | some up => walk rest s up parent
    else do
      let (found, s) ← lookupToken s this token
      match found with
      | none => .ok (⟨none, this, some token⟩, s)
      | some d => walk rest s d this

def vfsRootDentry : Nat := 0

def startDentry (path : Path) (parent : Nat) : Nat :=
  if path.bytes.head? = some slash then vfsRootDentry else parent

/-- `lookup_final_dentry`; a longer path does not fit into `path_copy` -/
def lookupFinalDentry (s : Vfs) (path : Path) (parent : Nat) : Outcome (Lookup × Vfs) :=
  if MAX_PATH_LEN ≤ path.bytes.length then .error .undefined
  else walk (tokens path.bytes) s (startDentry path parent) parent

/-- `get_base_name`; a path without a token makes it copy from null -/
def getBaseName (path : Path) : Outcome Name :=
  match (tokens path.bytes).getLast? with
  | none => .error .undefined
  | some name => .ok name

/-- The comparison of `miss_name` with the base name of the path. -/
def missesBaseName (l : Lookup) (path : Path) : Outcome (Option Name) := do
  let basename ← getBaseName path
  match l.missName with
  | none => .error .undefined
  | some miss => return if miss = basename then some basename else none

/-! ## Files -/

/-- What `vfs_open` and `vfs_mkdir` do with the vinode of the new file. -/
def bindDentry (s : Vfs) (d p : Nat) : Outcome Vfs := do
  let s ← pointDentry s d p
  let s ← hashPutDentry s d
  hashPutVinode s p

/-- The part of `vfs_open` that creates a missing file. -/
def openMissing (s : Vfs) (path : Path) (flags : Nat) (l : Lookup) : Outcome (Option Nat × Vfs) :=
  if flags &&& O_CREAT = 0 then .ok (none, s)
  else do
    match ← missesBaseName l path with
    | none => .ok (none, s)
    | some basename => do
        let (d, s) := allocVfsDentry s basename (some l.parent)
        let dir ← s.rfsInode l.parent
        let (newInode, fs) ← rfsCreate s.rfs dir basename
        match newInode with
        | none => .error (.panic "vfs_open: cannot create file!\n" [])
        | some p => do
            let s ← bindDentry { s with rfs := fs } d p
            return (some d, s)

def openMode (flags : Nat) : Outcome (Bool × Bool) :=
  match flags &&& MASK_FILEMODE with
  | 0 => .ok (true, false)
  | 1 => .ok (false, true)
  | 2 => .ok (true, true)
  | _ => .error (.panic "fs_open: invalid open flags!\n" [])

def allocVfsFile (s : Vfs) (d : Nat) (readable writable : Bool) : Outcome (Nat × Vfs) := do
  let e ← s.dentry d
  let s := s.setDentry d { e with dRef := e.dRef + 1 }
  let file : File :=
    { opened := true, readable := readable, writable := writable, offset := 0, dentry := d }
  return (s.nextFile,
    { s with files := update s.files s.nextFile (some file), nextFile := s.nextFile + 1 })

/-- The part of `vfs_open` after the dentry is found. -/
def openDentry (s : Vfs) (d flags : Nat) : Outcome (Option Nat × Vfs) := do
  let type ← s.inodeType d
  if type ≠ R_FILE then return (none, s)
  else do
    let (readable, writable) ← openMode flags
    let (f, s) ← allocVfsFile s d readable writable
    return (some f, s)

def openTarget (s : Vfs) (path : Path) (flags parent : Nat) : Outcome (Option Nat × Vfs) := do
  let (l, s) ← lookupFinalDentry s path parent
  match l.found with
  | some d => .ok (some d, s)
  | none => openMissing s path flags l

def vfsOpen (s : Vfs) (path : Path) (flags parent : Nat) : Outcome (Option Nat × Vfs) := do
  let (target, s) ← openTarget s path flags parent
  match target with
  | none => return (none, s)
  | some d => openDentry s d flags

def vfsWrite (s : Vfs) (f : Nat) (buf : Mem) (len : Nat) : Outcome (Int × Vfs) := do
  let file ← s.file f
  if !file.writable then return (-1, s)
  else do
    let type ← s.inodeType file.dentry
    if type ≠ R_FILE then return (-1, s)
    else do
      let p ← s.rfsInode file.dentry
      let node ← s.rfs.vinode p
      let (count, offset, vol, node) ← rfsWrite s.rfs.vol node buf len file.offset
      let s := { s with rfs := { s.rfs.setVinode p node with vol := vol } }
      return (count,
        { s with files := update s.files f (some { file with offset := offset }) })

/-- Drop a dentry from the table and its reference to vinode `p`. -/
def dropDentry (s : Vfs) (d p : Nat) : Outcome Vfs := do
  let s ← hashEraseDentry s d
  let s ← freeVfsDentry s d
  s.addRef p (-1)

/-- The part of `vfs_close` that forgets a vinode without references. -/
def evictVinode (s : Vfs) (p : Nat) : Outcome Vfs := do
  let node ← s.rfs.vinode p
  if node.ref = 0 then do
    let rdev ← rfsWriteBackVinode s.rfs.vol.dev node
    let s ← hashEraseVinode { s with rfs := s.rfs.setDev rdev } p
    return s.freeVinode p
  else return s

/-- The part of `vfs_close` that drops the dentry. -/
def closeDentry (s : Vfs) (d p : Nat) (dRef : Int) : Outcome Vfs :=
  if dRef = 0 then do
    let s ← dropDentry s d p
    evictVinode s p
  else .ok s

def vfsClose (s : Vfs) (f : Nat) : Outcome (Int × Vfs) := do
  let file ← s.file f
  let type ← s.inodeType file.dentry
  if type ≠ R_FILE then return (-1, s)
  else do
    let p ← s.rfsInode file.dentry
    let e ← s.dentry file.dentry
    let dRef := e.dRef - 1
    let s ← closeDentry (s.setDentry file.dentry { e with dRef := dRef }) file.dentry p dRef
    return (0, { s with files := update s.files f (some { file with opened := false }) })

/-! ## Names -/

/-- The part of `vfs_link` that makes the link. -/
def linkMissing (s : Vfs) (newpath : Path) (l : Lookup) (old parent : Nat) :
    Outcome (Int × Vfs) := do
  match ← missesBaseName l newpath with
  | none => return (-1, s)
  | some basename => do
      let p ← s.rfsInode old
      let (d, s) := allocVfsDentry s basename (some parent)
      let s ← pointDentry s d p
      let dir ← s.rfsInode parent
      let (_, fs) ← rfsLink s.rfs dir basename p
      let s ← hashPutDentry { s with rfs := fs } d
      return (0, s)

def vfsLink (s : Vfs) (oldpath newpath : Path) (parent : Nat) : Outcome (Int × Vfs) := do
  let (lOld, s) ← lookupFinalDentry s oldpath parent
  match lOld.found with
  | none => return (-1, s)
  | some old => do
      let type ← s.inodeType old
      if type ≠ R_FILE then return (-1, s)
      else do
        let (lNew, s) ← lookupFinalDentry s newpath parent
        match lNew.found with
        | some _ => return (-1, s)
        | none => linkMissing s newpath lNew old parent

/-- The end of `vfs_unlink`: nobody remembers a dead inode. -/
def forgetDead (s : Vfs) (p : Nat) : Outcome Vfs := do
  let node ← s.rfs.vinode p
  if node.nlinks = 0 then
    if node.ref ≠ 0 then .error (.assertion "unlinked_vinode->ref == 0")
    else do
      let s ← hashEraseVinode s p
      return s.freeVinode p
  else return s

/-- The part of `vfs_unlink` after its checks. -/
def unlinkDentry (s : Vfs) (d parent : Nat) : Outcome (Int × Vfs) := do
  let e ← s.dentry d
  let p ← s.rfsInode d
  let dir ← s.rfsInode parent
  let (err, fs) ← rfsUnlink s.rfs dir e.name p
  if err ≠ 0 then return (-1, { s with rfs := fs })
  else do
    let s ← dropDentry { s with rfs := fs } d p
    let s ← forgetDead s p
    return (0, s)

def vfsUnlink (s : Vfs) (path : Path) (parent : Nat) : Outcome (Int × Vfs) := do
  let (l, s) ← lookupFinalDentry s path parent
  match l.found with
  | none => return (-1, s)
  | some d => do
      let type ← s.inodeType d
      if type ≠ R_FILE then return (-1, s)
      else do
        let e ← s.dentry d
        if 0 < e.dRef then return (-1, s) else unlinkDentry s d l.parent

/-- The part of `vfs_mkdir` that makes the directory. -/
def mkdirMissing (s : Vfs) (path : Path) (l : Lookup) : Outcome (Int × Vfs) := do
  match ← missesBaseName l path with
  | none => return (-1, s)
  | some basename => do
      let (d, s) := allocVfsDentry s basename (some l.parent)
      let dir ← s.rfsInode l.parent
      let (newInode, fs) ← rfsMkdir s.rfs dir basename
      match newInode with
      | none => return (-1, { s with rfs := fs }.freeDentry d)
      | some p => do
          let s ← bindDentry { s with rfs := fs } d p
          return (0, s)

def vfsMkdir (s : Vfs) (path : Path) (parent : Nat) : Outcome (Int × Vfs) := do
  let (l, s) ← lookupFinalDentry s path parent
  match l.found with
  | some _ => return (-1, s)
  | none => mkdirMissing s path l

/-! ## Directories -/

/-- The loop of `rfs_hook_opendir`, from the last block to the first. The
pages have to be adjacent in memory, which `adjacent` answers. -/
def readDirBlocks (dir : Dinode) (adjacent : Bool) :
    Nat → RfsDevice → List Mem → Outcome (List Mem × RfsDevice)
  | 0, rdev, pages => .ok (pages, rdev)
  | n + 1, rdev, pages =>
    if pages ≠ [] ∧ !adjacent then
      .error (.panic "rfs_hook_opendir: memory discontinuity" [])
    else do
      let b ← addrAt dir n
      let rdev ← ramdiskRead rdev b
      readDirBlocks dir adjacent n rdev (rdev.iobuffer :: pages)

def rfsHookOpendir (s : Vfs) (p : Nat) (adjacent : Bool) : Outcome Vfs := do
  let dir ← s.rfs.vinode p
  let (pages, rdev) ← readDirBlocks dir.toDinode adjacent dir.blocks.toNat s.rfs.vol.dev []
  let cache : DirCache := { blockCount := dir.blocks, pages := pages, released := false }
  return { s with
    rfs := s.rfs.setDev rdev
    dirCaches := update s.dirCaches p (some cache) }

/-- `viop_hook_opendir`; the host file system has none -/
def hookOpendir (s : Vfs) (d : Nat) (adjacent : Bool) : Outcome Vfs := do
  let e ← s.dentry d
  match e.inode with
  | .null => .error .undefined
  | .host => return s
  | .rfs p => rfsHookOpendir s p adjacent

def vfsOpendir (s : Vfs) (path : Path) (parent : Nat) (adjacent : Bool) :
    Outcome (Option Nat × Vfs) := do
  let (l, s) ← lookupFinalDentry s path parent
  match l.found with
  | none => return (none, s)
  | some d => do
      let type ← s.inodeType d
      if type ≠ R_DIR then return (none, s)
      else do
        let (f, s) ← allocVfsFile s d true false
        let s ← hookOpendir s d adjacent
        return (some f, s)

/-- `rfs_hook_closedir`: the pages of the cache are freed. -/
def rfsHookClosedir (s : Vfs) (p : Nat) : Outcome Vfs :=
  match s.dirCaches p with
  | none => .error .undefined
  | some cache =>
    if cache.released then .error .undefined
    else .ok { s with
      dirCaches := update s.dirCaches p (some { cache with released := true }) }

def hookClosedir (s : Vfs) (d : Nat) : Outcome Vfs := do
  let e ← s.dentry d
  match e.inode with
  | .null => .error .undefined
  | .host => return s
  | .rfs p => rfsHookClosedir s p

def vfsClosedir (s : Vfs) (f : Nat) : Outcome (Int × Vfs) := do
  let file ← s.file f
  let type ← s.inodeType file.dentry
  if type ≠ R_DIR then return (-1, s)
  else do
    let e ← s.dentry file.dentry
    let s := s.setDentry file.dentry { e with dRef := e.dRef - 1 }
    let s ← hookClosedir
      { s with files := update s.files f (some { file with opened := false }) } file.dentry
    return (0, s)

/-! ## The system -/

def ramdisk0 : Name := [82, 65, 77, 68, 73, 83, 75, 48]

def rfsRootDentry : Nat := 1

/-- `vfs_mount` of both file systems, as in `fs_init`. -/
def vfsMount (rdev : RfsDevice) : Outcome Vfs := do
  let (root, fs) ← rfsGetSuperblock rdev
  let hostRoot : Dentry := { name := [slash], dRef := 0, inode := .host, parent := none }
  let rfsRoot : Dentry :=
    { name := ramdisk0, dRef := 0, inode := .rfs root, parent := some vfsRootDentry }
  let s : Vfs :=
    { rfs := fs
      dirCaches := fun _ => none
      vinodeHash := fun _ => none
      dentries := update (update (fun _ => none) vfsRootDentry (some hostRoot))
        rfsRootDentry (some rfsRoot)
      nextDentry := 2
      dentryHash := fun _ => none
      files := fun _ => none
      nextFile := 0 }
  let s ← hashPutDentry s vfsRootDentry
  let s ← s.addRef root 1
  let s ← hashPutVinode s root
  hashPutDentry s rfsRootDentry

/-- `fs_init`: format the RAM disk and mount it. -/
def fsInit (rdev : RfsDevice) (stack : Fin DIRECT_BLKNUM → Int) : Outcome Vfs := do
  let rdev ← rfsFormatDev rdev stack
  vfsMount rdev

/-- The operations; the last argument of those that take a path is the
current directory of the caller. -/
inductive VfsOp
  | openFile (path : Path) (flags cwd : Nat)
  | write (f : Nat) (buf : Mem) (len : Nat)
  | close (f : Nat)
  | mkdir (path : Path) (cwd : Nat)
  | link (oldpath newpath : Path) (cwd : Nat)
  | unlink (path : Path) (cwd : Nat)
  | opendir (path : Path) (cwd : Nat) (adjacent : Bool)
  | closedir (f : Nat)

def Vfs.step (s : Vfs) : VfsOp → Outcome Vfs
  | .openFile path flags cwd => (vfsOpen s path flags cwd).map Prod.snd
  | .write f buf len => (vfsWrite s f buf len).map Prod.snd
  | .close f => (vfsClose s f).map Prod.snd
  | .mkdir path cwd => (vfsMkdir s path cwd).map Prod.snd
  | .link oldpath newpath cwd => (vfsLink s oldpath newpath cwd).map Prod.snd
  | .unlink path cwd => (vfsUnlink s path cwd).map Prod.snd
  | .opendir path cwd adjacent => (vfsOpendir s path cwd adjacent).map Prod.snd
  | .closedir f => (vfsClosedir s f).map Prod.snd

end CabbagePKE
