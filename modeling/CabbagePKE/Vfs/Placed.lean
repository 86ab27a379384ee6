import CabbagePKE.Lib.Yields
import CabbagePKE.Pmm.Holdings
import CabbagePKE.Vfs.Model

/-!
# The pages of the file system's objects

Every object of `kernel/vfs.c` has a page: dentries, vinodes, files, and the
nodes and keys of the two hash tables of `util/hash_table.c`. `Placed` is the
file system with the allocator and the page of each object; its operations are
those that `vfs_open` and `vfs_close` are made of. A page is written at once, so
a null pointer ends the run.
-/

namespace CabbagePKE

open Lib Function

/-- What a page holds. The nodes and keys of the hash tables are named after
the object they stand for; `dinode` is the disk inode that is being read. -/
inductive Obj
  | dentry (d : Nat)
  | dentryKey (d : Nat)
  | dentryNode (d : Nat)
  | vinode (p : Nat)
  | vinodeKey (p : Nat)
  | vinodeNode (p : Nat)
  | file (f : Nat)
  | dinode
  deriving DecidableEq

structure Placed (T : Type) where
  vfs : Vfs
  pmm : Pmm T
  page : Obj → Nat

section

variable {T : Type} [RefTable T]

/-! ## Pages -/

def Placed.take (s : Placed T) (x : Obj) : Outcome (Placed T) := do
  let (page, pmm) ← allocPage s.pmm
  if page = 0 then .error .undefined
  else return { s with pmm := pmm, page := update s.page x page }

def Placed.free (s : Placed T) (x : Obj) : Outcome (Placed T) := do
  let pmm ← freePage s.pmm (s.page x)
  return { s with pmm := pmm }

def Placed.borrow (s : Placed T) : Outcome (Placed T) := do
  let s ← s.take .dinode
  s.free .dinode

def Placed.setVfs (s : Placed T) (v : Vfs) : Placed T := { s with vfs := v }

def Placed.freeVinode (s : Placed T) (p : Nat) : Outcome (Placed T) := do
  let s ← s.free (.vinode p)
  return s.setVfs (s.vfs.freeVinode p)

def Placed.freeDentry (s : Placed T) (d : Nat) : Outcome (Placed T) := do
  let s ← s.free (.dentry d)
  return s.setVfs (s.vfs.freeDentry d)

/-! ## Hash tables -/

/-- `hash_put_vinode`. `default_put` takes the page of the node before it looks for the key; if
the key is there, the new key is freed and the new node is not. -/
def Placed.hashPutVinode (s : Placed T) (p : Nat) : Outcome (Placed T) := do
  let v ← s.vfs.rfs.vinode p
  if v.inum < 0 then return s
  else do
    let s ← s.take (.vinodeKey p)
    let s ← s.take (.vinodeNode p)
    if (s.vfs.vinodeHash v.inum).isSome then s.free (.vinodeKey p)
    else return { s with
      vfs := { s.vfs with vinodeHash := update s.vfs.vinodeHash v.inum (some p) } }

/-- `hash_erase_vinode`; the key that was put in stays where it is -/
def Placed.hashEraseVinode (s : Placed T) (p : Nat) : Outcome (Placed T) := do
  let v ← s.vfs.rfs.vinode p
  if v.inum < 0 then return s
  else
    match s.vfs.vinodeHash v.inum with
    | none => return s
    | some q => do
        let s ← s.free (.vinodeNode q)
        return { s with
          vfs := { s.vfs with vinodeHash := update s.vfs.vinodeHash v.inum none } }

def Placed.hashPutDentry (s : Placed T) (d : Nat) : Outcome (Placed T) := do
  let e ← s.vfs.dentry d
  let s ← s.take (.dentryKey d)
  let s ← s.take (.dentryNode d)
  if (s.vfs.dentryHash (e.parent, e.name)).isSome then s.free (.dentryKey d)
  else return { s with
    vfs := { s.vfs with
      dentryHash := update s.vfs.dentryHash (e.parent, e.name) (some d) } }

def Placed.hashEraseDentry (s : Placed T) (d : Nat) : Outcome (Placed T) := do
  let e ← s.vfs.dentry d
  match s.vfs.dentryHash (e.parent, e.name) with
  | none => return s
  | some d' => do
      let s ← s.free (.dentryNode d')
      return { s with
        vfs := { s.vfs with
          dentryHash := update s.vfs.dentryHash (e.parent, e.name) none } }

/-! ## Path lookup -/

def Placed.allocVfsDentry (s : Placed T) (name : Name) (parent : Option Nat) :
    Outcome (Nat × Placed T) := do
  let (d, v) := CabbagePKE.allocVfsDentry s.vfs name parent
  let s ← s.take (.dentry d)
  return (d, s.setVfs v)

/-- `viop_lookup`: a vinode that is found gets a page, and its disk inode is read. -/
def Placed.viopLookup (s : Placed T) (parent : Nat) (name : Name) :
    Outcome (Option Nat × Placed T) := do
  let (found, v) ← CabbagePKE.viopLookup s.vfs parent name
  match found with
  | none => return (none, s.setVfs v)
  | some p => do
      let s ← s.take (.vinode p)
      let s ← s.borrow
      return (some p, s.setVfs v)

/-- Give the new dentry `d` the vinode that was found, or the one that is
already in memory for the same inode. -/
def Placed.shareVinode (s : Placed T) (d found : Nat) : Outcome (Placed T) := do
  let v ← s.vfs.rfs.vinode found
  match hashGetVinode s.vfs v.inum with
  | some same => do
      let vfs ← pointDentry s.vfs d same
      (s.setVfs vfs).freeVinode found
  | none => do
      let vfs ← pointDentry s.vfs d found
      (s.setVfs vfs).hashPutVinode found

def Placed.lookupToken (s : Placed T) (parent : Nat) (token : Name) :
    Outcome (Option Nat × Placed T) :=
  match hashGetDentry s.vfs parent token with
  | some d => .ok (some d, s)
  | none => do
      let (d, s) ← s.allocVfsDentry token (some parent)
      let (found, s) ← s.viopLookup parent token
      match found with
      | none => do
          let s ← s.freeDentry d
          return (none, s)
      | some p => do
          let s ← s.shareVinode d p
          let s ← s.hashPutDentry d
          return (some d, s)

def Placed.walk : List Name → Placed T → (this parent : Nat) → Outcome (Lookup × Placed T)
  | [], s, this, parent => .ok (⟨some this, parent, none⟩, s)
  | token :: rest, s, this, parent =>
    if token = [dot] then Placed.walk rest s this parent
    else if token = [dot, dot] then do
      let e ← s.vfs.dentry this
      match e.parent with
      | none => .ok (⟨none, parent, none⟩, s)
      | some up => Placed.walk rest s up parent
    else do
      let (found, s) ← s.lookupToken this token
      match found with
      | none => .ok (⟨none, this, some token⟩, s)
      | some d => Placed.walk rest s d this

def Placed.lookupFinalDentry (s : Placed T) (path : Path) (parent : Nat) :
    Outcome (Lookup × Placed T) :=
  if MAX_PATH_LEN ≤ path.bytes.length then .error .undefined
  else Placed.walk (tokens path.bytes) s (startDentry path parent) parent

/-! ## Files -/

/-- The search of `rfs_create` for a free disk inode, which stays on its page. If there is none,
`free_dinode` points to the last page read, which was freed and is written all the same. -/
def Placed.findFreeDinode : Nat → Nat → RfsDevice → Placed T → Outcome (Placed T)
  | 0, _, _, _ => .error .undefined
  | n + 1, i, rdev, s => do
      let (dinode, rdev) ← rfsReadDinode rdev i
      let s ← s.take .dinode
      if dinode.type = R_FREE then return s
      else do
        let s ← s.free .dinode
        Placed.findFreeDinode n (i + 1) rdev s

/-- `rfs_create`: the disk inode is written and its page freed, and the new vinode gets a page
and reads the disk inode back. -/
def Placed.rfsCreate (s : Placed T) (parent : Nat) (name : Name) :
    Outcome (Option Nat × Placed T) := do
  let (newInode, fs) ← CabbagePKE.rfsCreate s.vfs.rfs parent name
  let s ← Placed.findFreeDinode RFS_NINODES 0 s.vfs.rfs.vol.dev s
  let s ← s.free .dinode
  let s ← s.take (.vinode s.vfs.rfs.nextVinode)
  let s ← s.borrow
  return (newInode, s.setVfs { s.vfs with rfs := fs })

/-- What `vfs_open` does with the vinode of the new file. -/
def Placed.bindDentry (s : Placed T) (d p : Nat) : Outcome (Placed T) := do
  let v ← pointDentry s.vfs d p
  let s ← (s.setVfs v).hashPutDentry d
  s.hashPutVinode p

def Placed.openMissing (s : Placed T) (path : Path) (flags : Nat) (l : Lookup) :
    Outcome (Option Nat × Placed T) :=
  if flags &&& O_CREAT = 0 then .ok (none, s)
  else do
    match ← missesBaseName l path with
    | none => .ok (none, s)
    | some basename => do
        let (d, s) ← s.allocVfsDentry basename (some l.parent)
        let dir ← s.vfs.rfsInode l.parent
        let (newInode, s) ← s.rfsCreate dir basename
        match newInode with
        | none => .error (.panic "vfs_open: cannot create file!\n" [])
        | some p => do
            let s ← s.bindDentry d p
            return (some d, s)

def Placed.allocVfsFile (s : Placed T) (d : Nat) (readable writable : Bool) :
    Outcome (Nat × Placed T) := do
  let s ← s.take (.file s.vfs.nextFile)
  let (f, v) ← CabbagePKE.allocVfsFile s.vfs d readable writable
  return (f, s.setVfs v)

def Placed.openDentry (s : Placed T) (d flags : Nat) : Outcome (Option Nat × Placed T) := do
  let type ← s.vfs.inodeType d
  if type ≠ R_FILE then return (none, s)
  else do
    let (readable, writable) ← openMode flags
    let (f, s) ← s.allocVfsFile d readable writable
    return (some f, s)

def Placed.openTarget (s : Placed T) (path : Path) (flags parent : Nat) :
    Outcome (Option Nat × Placed T) := do
  let (l, s) ← s.lookupFinalDentry path parent
  match l.found with
  | some d => .ok (some d, s)
  | none => s.openMissing path flags l

def Placed.vfsOpen (s : Placed T) (path : Path) (flags parent : Nat) :
    Outcome (Option Nat × Placed T) := do
  let (target, s) ← s.openTarget path flags parent
  match target with
  | none => return (none, s)
  | some d => s.openDentry d flags

def Placed.freeVfsDentry (s : Placed T) (d : Nat) : Outcome (Placed T) := do
  let e ← s.vfs.dentry d
  if 0 < e.dRef then return s else s.freeDentry d

def Placed.dropDentry (s : Placed T) (d p : Nat) : Outcome (Placed T) := do
  let s ← s.hashEraseDentry d
  let s ← s.freeVfsDentry d
  let v ← s.vfs.addRef p (-1)
  return s.setVfs v

/-- The part of `vfs_close` that forgets a vinode without references;
`rfs_write_back_vinode` builds the disk inode on the stack. -/
def Placed.evictVinode (s : Placed T) (p : Nat) : Outcome (Placed T) := do
  let node ← s.vfs.rfs.vinode p
  if node.ref = 0 then do
    let rdev ← rfsWriteBackVinode s.vfs.rfs.vol.dev node
    let s ← (s.setVfs { s.vfs with rfs := s.vfs.rfs.setDev rdev }).hashEraseVinode p
    s.freeVinode p
  else return s

def Placed.closeDentry (s : Placed T) (d p : Nat) (dRef : Int) : Outcome (Placed T) :=
  if dRef = 0 then do
    let s ← s.dropDentry d p
    s.evictVinode p
  else .ok s

def Placed.vfsClose (s : Placed T) (f : Nat) : Outcome (Int × Placed T) := do
  let file ← s.vfs.file f
  let type ← s.vfs.inodeType file.dentry
  if type ≠ R_FILE then return (-1, s)
  else do
    let p ← s.vfs.rfsInode file.dentry
    let e ← s.vfs.dentry file.dentry
    let dRef := e.dRef - 1
    let s ← (s.setVfs (s.vfs.setDentry file.dentry { e with dRef := dRef })).closeDentry
      file.dentry p dRef
    return (0, s.setVfs { s.vfs with
      files := update s.vfs.files f (some { file with opened := false }) })

end

/-! ## Without the pages -/

section

variable {T : Type} [RefTable T] {s s' : Placed T} {x : Obj}

def Placed.plain {α : Type} (r : α × Placed T) : α × Vfs := (r.1, r.2.vfs)

theorem Placed.take_vfs (h : s.take x = .ok s') : s'.vfs = s.vfs := by
  rw [Placed.take, bind_eq_ok] at h
  obtain ⟨⟨page, pmm⟩, -, h⟩ := h
  dsimp only at h
  split at h
  · cases h
  · cases h
    rfl

theorem Placed.free_vfs (h : s.free x = .ok s') : s'.vfs = s.vfs := by
  rw [Placed.free, bind_eq_ok] at h
  obtain ⟨pmm, -, h⟩ := h
  cases h
  rfl

theorem Placed.freeVinode_vfs {p : Nat} (h : s.freeVinode p = .ok s') :
    s'.vfs = s.vfs.freeVinode p := by
  rw [Placed.freeVinode, bind_eq_ok] at h
  obtain ⟨s1, hfree, h⟩ := h
  cases h
  rw [← Placed.free_vfs hfree]
  rfl

theorem Placed.freeDentry_vfs {d : Nat} (h : s.freeDentry d = .ok s') :
    s'.vfs = s.vfs.freeDentry d := by
  rw [Placed.freeDentry, bind_eq_ok] at h
  obtain ⟨s1, hfree, h⟩ := h
  cases h
  rw [← Placed.free_vfs hfree]
  rfl

theorem Placed.allocVfsDentry_vfs {name : Name} {parent : Option Nat} {d : Nat}
    (h : s.allocVfsDentry name parent = .ok (d, s')) :
    CabbagePKE.allocVfsDentry s.vfs name parent = (d, s'.vfs) := by
  rw [Placed.allocVfsDentry, bind_eq_ok] at h
  obtain ⟨s1, -, h⟩ := h
  cases h
  rfl

theorem Placed.hashPutVinode_follows (s : Placed T) (p : Nat) :
    Follows Placed.vfs (s.hashPutVinode p) (CabbagePKE.hashPutVinode s.vfs p) := by
  refine .bind_same (fun v => ?_)
  by_cases hneg : v.inum < 0
  · rw [if_pos hneg, if_pos (.inl hneg)]
    exact .of_ok s
  · rw [if_neg hneg]
    refine .bind_left (fun s1 h1 => .bind_left (fun s2 h2 => ?_))
    rw [← Placed.take_vfs h1, ← Placed.take_vfs h2]
    by_cases hbound : (s2.vfs.vinodeHash v.inum).isSome = true
    · rw [if_pos hbound, if_pos (.inr hbound)]
      intro s3 h3
      rw [Placed.free_vfs h3]
      rfl
    · rw [if_neg hbound, if_neg (not_or.mpr ⟨hneg, hbound⟩)]
      exact .of_ok _

theorem Placed.hashPutDentry_follows (s : Placed T) (d : Nat) :
    Follows Placed.vfs (s.hashPutDentry d) (CabbagePKE.hashPutDentry s.vfs d) := by
  refine .bind_same (fun e => ?_)
  refine .bind_left (fun s1 h1 => .bind_left (fun s2 h2 => ?_))
  rw [← Placed.take_vfs h1, ← Placed.take_vfs h2]
  by_cases hbound : (s2.vfs.dentryHash (e.parent, e.name)).isSome = true
  · rw [if_pos hbound, if_pos hbound]
    intro s3 h3
    rw [Placed.free_vfs h3]
    rfl
  · rw [if_neg hbound, if_neg hbound]
    exact .of_ok _

theorem Placed.viopLookup_follows (s : Placed T) (parent : Nat) (name : Name) :
    Follows Placed.plain (s.viopLookup parent name) (CabbagePKE.viopLookup s.vfs parent name) := by
  rintro r h
  rw [Placed.viopLookup, bind_eq_ok] at h
  obtain ⟨⟨found, v⟩, hlook, h⟩ := h
  rw [hlook]
  cases found with
  | none =>
    cases h
    rfl
  | some p =>
    rw [bind_eq_ok] at h
    obtain ⟨s1, -, h⟩ := h
    rw [bind_eq_ok] at h
    obtain ⟨s2, -, h⟩ := h
    cases h
    rfl

theorem Placed.shareVinode_follows (s : Placed T) (d found : Nat) :
    Follows Placed.vfs (s.shareVinode d found) (CabbagePKE.shareVinode s.vfs d found) := by
  refine .bind_same (fun v => ?_)
  cases hashGetVinode s.vfs v.inum with
  | some same =>
    refine .bind_same (fun vfs => ?_)
    intro s' h
    rw [Placed.freeVinode_vfs h]
    rfl
  | none => exact .bind_same (fun vfs => (s.setVfs vfs).hashPutVinode_follows found)

theorem Placed.lookupToken_follows (s : Placed T) (parent : Nat) (token : Name) :
    Follows Placed.plain (s.lookupToken parent token)
      (CabbagePKE.lookupToken s.vfs parent token) := by
  unfold Placed.lookupToken CabbagePKE.lookupToken
  cases hashGetDentry s.vfs parent token with
  | some d => exact .of_ok (some d, s)
  | none =>
    refine .bind_left (fun r hr => ?_)
    obtain ⟨d, s1⟩ := r
    rw [Placed.allocVfsDentry_vfs hr]
    refine (s1.viopLookup_follows parent token).bind (fun r => ?_)
    obtain ⟨found, s2⟩ := r
    cases found with
    | none =>
      refine .bind_left (fun s3 h3 => ?_)
      dsimp only [Placed.plain]
      rw [← Placed.freeDentry_vfs h3]
      exact .of_ok (none, s3)
    | some p =>
      refine (s2.shareVinode_follows d p).bind (fun s3 => ?_)
      exact (s3.hashPutDentry_follows d).bind (fun s4 => .of_ok (some d, s4))

theorem Placed.walk_follows : ∀ (names : List Name) (s : Placed T) (this parent : Nat),
    Follows Placed.plain (Placed.walk names s this parent)
      (CabbagePKE.walk names s.vfs this parent) := by
  intro names
  induction names with
  | nil =>
    intro s this parent
    exact .of_ok (Lookup.mk (some this) parent none, s)
  | cons token rest ih =>
    intro s this parent
    unfold Placed.walk CabbagePKE.walk
    by_cases hdot : token = [dot]
    · rw [if_pos hdot, if_pos hdot]
      exact ih s this parent
    · rw [if_neg hdot, if_neg hdot]
      by_cases hup : token = [dot, dot]
      · rw [if_pos hup, if_pos hup]
        refine .bind_same (fun e => ?_)
        cases e.parent with
        | none => exact .of_ok (Lookup.mk none parent none, s)
        | some up => exact ih s up parent
      · rw [if_neg hup, if_neg hup]
        refine (s.lookupToken_follows this token).bind (fun r => ?_)
        obtain ⟨found, s1⟩ := r
        cases found with
        | none => exact .of_ok (Lookup.mk none this (some token), s1)
        | some d => exact ih s1 d this

theorem Placed.lookupFinalDentry_follows (s : Placed T) (path : Path) (parent : Nat) :
    Follows Placed.plain (s.lookupFinalDentry path parent)
      (CabbagePKE.lookupFinalDentry s.vfs path parent) := by
  unfold Placed.lookupFinalDentry CabbagePKE.lookupFinalDentry
  split
  · exact .of_error Halt.undefined
  · exact Placed.walk_follows _ s _ parent

end

end CabbagePKE
