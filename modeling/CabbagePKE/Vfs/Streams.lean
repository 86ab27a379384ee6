import CabbagePKE.Rfs.Read
import CabbagePKE.Vfs.Model

/-!
# Reading, seeking and listing

The rest of the calls on an open `struct file`: `vfs_read`, `vfs_lseek` and
`vfs_readdir`. A directory is listed from the pages that `rfs_hook_opendir`
filled, but the number of its entries is taken from the vinode at each call.
-/

namespace CabbagePKE

open Lib Function

def Vfs.setOffset (s : Vfs) (f : Nat) (file : File) (offset : Int) : Vfs :=
  { s with files := update s.files f (some { file with offset := offset }) }

def vfsRead (s : Vfs) (f : Nat) (buf : Mem) (count : Nat) : Outcome ((Int × Mem) × Vfs) := do
  let file ← s.file f
  if !file.readable then return ((-1, buf), s)
  else do
    let type ← s.inodeType file.dentry
    if type ≠ R_FILE then return ((-1, buf), s)
    else do
      let p ← s.rfsInode file.dentry
      let node ← s.rfs.vinode p
      let (n, offset, buf, vol) ← rfsRead s.rfs.vol node buf count file.offset
      return ((n, buf), { s with rfs := { s.rfs with vol := vol } }.setOffset f file offset)

def vfsLseek (s : Vfs) (f : Nat) (newOffset whence : Int) : Outcome (Int × Vfs) := do
  let file ← s.file f
  let type ← s.inodeType file.dentry
  if type ≠ R_FILE then return (-1, s)
  else do
    let p ← s.rfsInode file.dentry
    let node ← s.rfs.vinode p
    let (r, offset) := rfsLseek node newOffset whence file.offset
    return (if r ≠ 0 then -1 else offset, s.setOffset f file offset)

/-- `p_direntry->name` of entry `j` of a page, as `strcpy` finds it; the string may run on into
the next entries, but not past the page. -/
def direntryName (page : Mem) (j : Nat) : Outcome Name :=
  let start := j * DIRENTRY_SIZE + 4
  let name := cstr page start (RFS_BLKSIZE - start)
  if start + name.length < RFS_BLKSIZE then .ok name else .error .undefined

def DirCache.entry (cache : DirCache) (index : Int) : Outcome (Name × Int) :=
  if index < 0 ∨ cache.released then .error .undefined
  else
    match cache.pages[index.toNat / ONE_BLOCK_DIRENTRYS]? with
    | none => .error .undefined
    | some page => do
        let name ← direntryName page (index.toNat % ONE_BLOCK_DIRENTRYS)
        return (name, direntryInum page index.toNat)

/-- `rfs_readdir`: the result, the entry for `dir` and the offset after it. -/
def rfsReaddir (s : Vfs) (p : Nat) (offset : Int) :
    Outcome (Int × Option (Name × Int) × Int) := do
  let dir ← s.rfs.vinode p
  if totalDirentrys dir.toDinode ≤ offset then return (-1, none, offset)
  else
    match s.dirCaches p with
    | none => .error .undefined
    | some cache => do
        let entry ← cache.entry offset
        return (0, some entry, wrap32 (offset + 1))

def viopReaddir (s : Vfs) (d : Nat) (offset : Int) :
    Outcome (Int × Option (Name × Int) × Int) := do
  let e ← s.dentry d
  match e.inode with
  | .null => .error .undefined
  | .host => .error (.panic "hostfs_readdir not implemented!\n" [])
  | .rfs p => rfsReaddir s p offset

def vfsReaddir (s : Vfs) (f : Nat) : Outcome ((Int × Option (Name × Int)) × Vfs) := do
  let file ← s.file f
  let type ← s.inodeType file.dentry
  if type ≠ R_DIR then return ((-1, none), s)
  else do
    let (r, entry, offset) ← viopReaddir s file.dentry file.offset
    return ((r, entry), s.setOffset f file offset)

end CabbagePKE
