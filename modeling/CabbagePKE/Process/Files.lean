import CabbagePKE.Process.Fork
import CabbagePKE.Vfs.Streams

/-!
# The open files of a process

`kernel/proc_file.c`: a process has a table of `MAX_FILES` entries, and the calls
on a descriptor hand a pointer to its entry to the virtual file system.
`get_opened_file` gives the last entry for every number outside the table, and
nothing looks at the status of the entry, so a call on a descriptor that is not
open does what the left-over fields make it do (`not_open_refused_iff`).
-/

namespace CabbagePKE

open Lib Function

/-! ## The code -/

def FD_OPENED : Int := 1

structure FileTable where
  vfs : Vfs
  pfiles : ProcFiles

/-- The index of the entry that `get_opened_file` returns. -/
def getOpenedFile (fd : Int) : Nat :=
  if 0 ≤ fd ∧ fd < (MAX_FILES : Int) then fd.toNat else MAX_FILES - 1

def FileTable.entry (t : FileTable) (fd : Int) : OpenFile :=
  t.pfiles.openedFiles (getOpenedFile fd)

def FileTable.put (t : FileTable) (fd : Int) (x : OpenFile) (s : Vfs) : FileTable where
  vfs := s
  pfiles := { t.pfiles with
    openedFiles := update t.pfiles.openedFiles (getOpenedFile fd) x }

def OpenFile.toFile (x : OpenFile) (d : Nat) : File where
  opened := x.status = FD_OPENED
  readable := x.readable ≠ 0
  writable := x.writable ≠ 0
  offset := x.offset
  dentry := d

def File.toEntry (file : File) : OpenFile where
  status := if file.opened then FD_OPENED else FD_NONE
  readable := if file.readable then 1 else 0
  writable := if file.writable then 1 else 0
  offset := file.offset
  dentry := some file.dentry

def Vfs.withFile (s : Vfs) (file : File) : Vfs :=
  { s with files := update s.files s.nextFile (some file) }

def onEntry {α : Type} (s : Vfs) (x : OpenFile) (call : Vfs → Nat → Outcome (α × Vfs)) :
    Outcome (α × File × Vfs) :=
  match x.dentry with
  | none => .error .undefined
  | some d => do
      let (a, s') ← call (s.withFile (x.toFile d)) s.nextFile
      let file ← s'.file s.nextFile
      return (a, file, { s' with files := s.files })

/-- `do_read`; `stack` is what the local buffer holds at first -/
def FileTable.doRead (t : FileTable) (fd : Int) (stack buf : Mem) (count : Nat) :
    Outcome (Int × Mem × FileTable) :=
  let pfile := t.entry fd
  if pfile.readable = 0 then .error (.panic "do_read: no readable file!\n" [])
  else do
    let ((len, buffer), file, s) ← onEntry t.vfs pfile (fun s f => vfsRead s f stack count)
    return (wrap32 len, putString buf 0 (cstr buffer 0 count),
      t.put fd { pfile with offset := file.offset } s)

def FileTable.doWrite (t : FileTable) (fd : Int) (buf : Mem) (count : Nat) :
    Outcome (Int × FileTable) :=
  let pfile := t.entry fd
  if pfile.writable = 0 then .error (.panic "do_write: cannot write file!\n" [])
  else do
    let (len, file, s) ← onEntry t.vfs pfile (fun s f => vfsWrite s f buf count)
    return (wrap32 len, t.put fd { pfile with offset := file.offset } s)

def FileTable.doLseek (t : FileTable) (fd offset whence : Int) : Outcome (Int × FileTable) := do
  let pfile := t.entry fd
  let (r, file, s) ← onEntry t.vfs pfile (fun s f => vfsLseek s f offset whence)
  return (wrap32 r, t.put fd { pfile with offset := file.offset } s)

def FileTable.doReaddir (t : FileTable) (fd : Int) :
    Outcome (Int × Option (Name × Int) × FileTable) := do
  let pfile := t.entry fd
  let ((r, dir), file, s) ← onEntry t.vfs pfile vfsReaddir
  return (r, dir, t.put fd { pfile with offset := file.offset } s)

/-- `do_close`; the status is set where `vfs_close` returns 0 -/
def FileTable.doClose (t : FileTable) (fd : Int) : Outcome (Int × FileTable) := do
  let pfile := t.entry fd
  let (r, _, s) ← onEntry t.vfs pfile vfsClose
  return (r, t.put fd (if r = 0 then { pfile with status := FD_NONE } else pfile) s)

def FileTable.doClosedir (t : FileTable) (fd : Int) : Outcome (Int × FileTable) := do
  let pfile := t.entry fd
  let (r, _, s) ← onEntry t.vfs pfile vfsClosedir
  return (r, t.put fd (if r = 0 then { pfile with status := FD_NONE } else pfile) s)

/-- The loop of `do_open` and `do_opendir`: the first free entry, or `MAX_FILES`. -/
def ProcFiles.freeFd (pfiles : ProcFiles) : Nat :=
  ((List.range MAX_FILES).find? (fun fd => (pfiles.openedFiles fd).status = FD_NONE)).getD MAX_FILES

/-- `memcpy(pfile, opened_file, sizeof(struct file)); ++nfiles`. After a loop that found no entry,
`pfile` is the last one. The count is not wrapped: each open takes a page that is not given back. -/
def ProcFiles.install (pfiles : ProcFiles) (x : OpenFile) : ProcFiles :=
  { pfiles with
    openedFiles := update pfiles.openedFiles (min pfiles.freeFd (MAX_FILES - 1)) x
    nfiles := pfiles.nfiles + 1 }

def FileTable.doOpen (t : FileTable) (path : Path) (flags : Nat) : Outcome (Int × FileTable) := do
  let (openedFile, s) ← vfsOpen t.vfs path flags t.pfiles.cwd
  match openedFile with
  | none => return (-1, { t with vfs := s })
  | some f =>
    if (MAX_FILES : Int) ≤ t.pfiles.nfiles then
      .error (.panic "do_open: no file entry for current process!\n" [])
    else do
      let file ← s.file f
      return (t.pfiles.freeFd, { vfs := s, pfiles := t.pfiles.install file.toEntry })

def FileTable.doOpendir (t : FileTable) (path : Path) (adjacent : Bool) :
    Outcome (Int × FileTable) := do
  let (openedFile, s) ← vfsOpendir t.vfs path t.pfiles.cwd adjacent
  match openedFile with
  | none => return (-1, { t with vfs := s })
  | some f =>
    if (t.pfiles.openedFiles (min t.pfiles.freeFd (MAX_FILES - 1))).status ≠ FD_NONE then
      .error (.panic "do_opendir: no file entry for current process!\n" [])
    else do
      let file ← s.file f
      return (t.pfiles.freeFd, { vfs := s, pfiles := t.pfiles.install file.toEntry })

inductive FdCall where
  | read (stack buf : Mem) (count : Nat)
  | write (buf : Mem) (count : Nat)
  | lseek (offset whence : Int)
  | readdir
  | close
  | closedir

def FileTable.call (t : FileTable) (fd : Int) : FdCall → Outcome (Int × FileTable)
  | .read stack buf count => do
      let (len, _, t) ← t.doRead fd stack buf count
      return (len, t)
  | .write buf count => t.doWrite fd buf count
  | .lseek offset whence => t.doLseek fd offset whence
  | .readdir => do
      let (r, _, t) ← t.doReaddir fd
      return (r, t)
  | .close => t.doClose fd
  | .closedir => t.doClosedir fd

/-- What happens to the table and the file system: calls of the process, and operations that
others do on the file system. -/
inductive TableOp where
  | openFile (path : Path) (flags : Nat)
  | opendir (path : Path) (adjacent : Bool)
  | call (fd : Int) (c : FdCall)
  | other (op : VfsOp)

def FileTable.step (t : FileTable) : TableOp → Outcome FileTable
  | .openFile path flags => (t.doOpen path flags).map Prod.snd
  | .opendir path adjacent => (t.doOpendir path adjacent).map Prod.snd
  | .call fd c => (t.call fd c).map Prod.snd
  | .other op => do
      let s ← t.vfs.step op
      return { t with vfs := s }

/-- A process has just been made; its table is on a page that held `old`. -/
def FileTable.Fresh (t : FileTable) : Prop :=
  ∃ rdev stack old, fsInit rdev stack = .ok t.vfs ∧
    t.pfiles = initProcFileManagement vfsRootDentry old

/-! ## Refused calls -/

def FileTable.IsOpen (t : FileTable) (fd : Int) : Prop :=
  (0 ≤ fd ∧ fd < (MAX_FILES : Int)) ∧ (t.entry fd).status = FD_OPENED

def FileTable.Refused (t : FileTable) (out : Outcome (Int × FileTable)) : Prop :=
  (∃ fmt args, out = .error (.panic fmt args)) ∨ out = .ok (-1, t)

inductive FdOp where
  | read
  | write
  | lseek
  | readdir
  | close
  | closedir

def FdCall.op : FdCall → FdOp
  | .read _ _ _ => .read
  | .write _ _ => .write
  | .lseek _ _ => .lseek
  | .readdir => .readdir
  | .close => .close
  | .closedir => .closedir

/-- The operation is refused on `fd`, whatever its other arguments are. -/
def FileTable.Refuses (t : FileTable) (fd : Int) (op : FdOp) : Prop :=
  ∀ c : FdCall, c.op = op → t.Refused (t.call fd c)

def Vfs.WrongType (s : Vfs) (x : OpenFile) (type : Int) : Prop :=
  ∃ d type', x.dentry = some d ∧ s.inodeType d = .ok type' ∧ type' ≠ type

/-- The dentry of the entry is `e`, its inode the vinode `node` of the RAM disk. -/
def Vfs.Node (s : Vfs) (x : OpenFile) (e : Dentry) (node : Vinode) : Prop :=
  ∃ d p, x.dentry = some d ∧ s.dentries d = some e ∧ e.inode = .rfs p ∧ s.rfs.vinodes p = some node

/-- What the left-over fields of the entry `x` have to be for an operation to be refused. -/
def Vfs.Guards (s : Vfs) (x : OpenFile) : FdOp → Prop
  | .read => x.readable = 0 ∨ s.WrongType x R_FILE ∨
      ∃ e node, s.Node x e node ∧ (node.size < x.offset ∨ node.BlockOff x.offset)
  | .write => x.writable = 0 ∨ s.WrongType x R_FILE ∨
      ∃ e node, s.Node x e node ∧ (node.size < x.offset ∨
        x.offset.tmod RFS_BLKSIZE ≠ 0 ∧ node.BlockOff x.offset)
  | .lseek => s.WrongType x R_FILE ∨ ∃ e node, s.Node x e node ∧ node.size < 0
  | .readdir => s.WrongType x R_DIR ∨
      (∃ d e, x.dentry = some d ∧ s.dentries d = some e ∧ e.inode = .host) ∨
      ∃ e node, s.Node x e node ∧ totalDirentrys node.toDinode ≤ x.offset
  | .close => s.WrongType x R_FILE ∨
      ∃ e node, s.Node x e node ∧ e.dRef = 1 ∧ node.ref = 1 ∧
        ¬ OnDisk (node.inum.tdiv INODES_PER_BLK + RFS_BLK_OFFSET_INODE)
  | .closedir => s.WrongType x R_DIR

section

variable {s : Vfs} {x : OpenFile} {d : Nat} {e : Dentry} {node : Vinode}

theorem Vfs.inode_cases (s : Vfs) (d : Nat) :
    s.inodeType d = .error .undefined ∨
      (∃ e, s.dentries d = some e ∧ e.inode = .host ∧ s.inodeType d = .ok R_DIR) ∨
      ∃ e p node, s.dentries d = some e ∧ e.inode = .rfs p ∧ s.rfs.vinodes p = some node ∧
        s.inodeType d = .ok node.type := by
  unfold Vfs.inodeType Vfs.dentry Rfs.vinode
  cases hd : s.dentries d with
  | none => exact .inl rfl
  | some e =>
    rw [ok_bind]
    cases hi : e.inode with
    | null => exact .inl rfl
    | host => exact .inr (.inl ⟨e, rfl, hi, rfl⟩)
    | rfs p =>
      dsimp only
      cases hp : s.rfs.vinodes p with
      | none => exact .inl rfl
      | some node => exact .inr (.inr ⟨e, p, node, rfl, hi, hp, rfl⟩)

theorem Vfs.entry_cases (s : Vfs) (x : OpenFile) :
    (∀ d, x.dentry = some d → s.inodeType d = .error .undefined) ∨
      (∃ d e, x.dentry = some d ∧ s.dentries d = some e ∧ e.inode = .host ∧
        s.inodeType d = .ok R_DIR) ∨
      ∃ d e p node, x.dentry = some d ∧ s.dentries d = some e ∧ e.inode = .rfs p ∧
        s.rfs.vinodes p = some node ∧ s.inodeType d = .ok node.type := by
  cases hx : x.dentry with
  | none => exact .inl (fun d hd => by cases hd)
  | some d =>
    rcases s.inode_cases d with hdead | ⟨e, he, hi, htype⟩ | ⟨e, p, node, he, hi, hp, htype⟩
    · refine .inl (fun d' hd => ?_)
      cases hd
      exact hdead
    · exact .inr (.inl ⟨d, e, rfl, he, hi, htype⟩)
    · exact .inr (.inr ⟨d, e, p, node, rfl, he, hi, hp, htype⟩)

@[simp] theorem Vfs.withFile_file (s : Vfs) (file : File) :
    (s.withFile file).file s.nextFile = .ok file := by simp [Vfs.withFile, Vfs.file]

@[simp] theorem Vfs.withFile_inodeType (s : Vfs) (file : File) (d : Nat) :
    (s.withFile file).inodeType d = s.inodeType d := rfl

@[simp] theorem Vfs.withFile_rfsInode (s : Vfs) (file : File) (d : Nat) :
    (s.withFile file).rfsInode d = s.rfsInode d := rfl

@[simp] theorem Vfs.withFile_dentry (s : Vfs) (file : File) (d : Nat) :
    (s.withFile file).dentry d = s.dentry d := rfl

@[simp] theorem Vfs.withFile_rfs (s : Vfs) (file : File) : (s.withFile file).rfs = s.rfs := rfl

theorem Vfs.setOffset_same (s : Vfs) (file : File) :
    (s.withFile file).setOffset s.nextFile file file.offset = s.withFile file := by
  simp [Vfs.setOffset, Vfs.withFile]

variable {α : Type} {call : Vfs → Nat → Outcome (α × Vfs)} {a : α}

theorem onEntry_error {halt : Halt} (hd : x.dentry = some d)
    (hcall : call (s.withFile (x.toFile d)) s.nextFile = .error halt) :
    onEntry s x call = .error halt := by
  rw [onEntry, hd]
  dsimp only
  rw [hcall, error_bind]

theorem onEntry_same (hd : x.dentry = some d)
    (hcall : call (s.withFile (x.toFile d)) s.nextFile = .ok (a, s.withFile (x.toFile d))) :
    onEntry s x call = .ok (a, x.toFile d, s) := by
  rw [onEntry, hd]
  dsimp only
  rw [hcall, ok_bind]
  rw [Vfs.withFile_file, ok_bind]
  rfl

theorem onEntry_proceeds {P : α → Prop}
    (hcall : ∀ d, x.dentry = some d →
      call (s.withFile (x.toFile d)) s.nextFile = .error .undefined ∨
        ∃ a s', call (s.withFile (x.toFile d)) s.nextFile = .ok (a, s') ∧ P a) :
    onEntry s x call = .error .undefined ∨
      ∃ a file s', onEntry s x call = .ok (a, file, s') ∧ P a := by
  unfold onEntry
  cases hx : x.dentry with
  | none => exact .inl rfl
  | some d =>
    dsimp only
    rcases hcall d hx with herr | ⟨a, s', hok, hP⟩
    · rw [herr, error_bind]
      exact .inl rfl
    · rw [hok, ok_bind]
      unfold Vfs.file
      cases hf : s'.files s.nextFile with
      | none => exact .inl rfl
      | some file => exact .inr ⟨a, file, _, rfl, hP⟩

end

section

variable {t t' : FileTable} {fd : Int} {out : Outcome (Int × FileTable)}
  {s : Vfs} {x : OpenFile} {e : Dentry} {node : Vinode} {d p : Nat}

theorem FileTable.put_entry (t : FileTable) (fd : Int) : t.put fd (t.entry fd) t.vfs = t := by
  unfold FileTable.put FileTable.entry
  rw [update_eq_self]

/-- A call goes on if it returns 0 or does what C does not define. -/
def Proceeds (out : Outcome (Int × FileTable)) : Prop :=
  out = .error .undefined ∨ ∃ t', out = .ok (0, t')

theorem Proceeds.not_refused (h : Proceeds out) : ¬ t.Refused out := by
  rintro (⟨fmt, args, hpanic⟩ | hok) <;> rcases h with hundef | ⟨t', h0⟩
  · cases hundef.symm.trans hpanic
  · cases h0.symm.trans hpanic
  · cases hundef.symm.trans hok
  · cases h0.symm.trans hok

theorem Vfs.Node.reads (h : s.Node x e node) :
    ∃ d p, x.dentry = some d ∧ s.dentry d = .ok e ∧ e.inode = .rfs p ∧ s.rfsInode d = .ok p ∧
      s.rfs.vinode p = .ok node ∧ s.inodeType d = .ok node.type := by
  obtain ⟨d, p, hd, he, hi, hp⟩ := h
  have hdentry : s.dentry d = .ok e := by rw [Vfs.dentry, he]
  have hvinode : s.rfs.vinode p = .ok node := by rw [Rfs.vinode, hp]
  refine ⟨d, p, hd, hdentry, hi, ?_, hvinode, ?_⟩
  · simp [Vfs.rfsInode, hdentry, hi]
  · simp [Vfs.inodeType, hdentry, hi, hvinode]

theorem Vfs.Node.typed {type : Int}
    (h : s.Node x e node) (hwrong : ¬ s.WrongType x type) : node.type = type := by
  obtain ⟨d, p, hd, -, -, -, -, htype⟩ := h.reads
  by_contra hne
  exact hwrong ⟨d, _, hd, htype, hne⟩

theorem wrap32_neg_one : wrap32 (-1) = -1 := wrap32_of_fits (by unfold Fits32; omega)

theorem Vfs.not_wrongType {type : Int} (h : ¬ s.WrongType x type) :
    (∀ d, x.dentry = some d → s.inodeType d = .error .undefined) ∨
      (∃ d e, x.dentry = some d ∧ s.dentries d = some e ∧ e.inode = .host ∧ type = R_DIR) ∨
      ∃ e node, s.Node x e node ∧ node.type = type := by
  rcases s.entry_cases x with hdead | ⟨d, e, hd, he, hi, htype⟩ | ⟨d, e, p, node, hd, he, hi, hp, htype⟩
  · exact .inl hdead
  · refine .inr (.inl ⟨d, e, hd, he, hi, ?_⟩)
    by_contra hne
    exact h ⟨d, _, hd, htype, fun heq => hne heq.symm⟩
  · refine .inr (.inr ⟨e, node, ⟨d, p, hd, he, hi, hp⟩, ?_⟩)
    by_contra hne
    exact h ⟨d, _, hd, htype, hne⟩

/-! ### The end of a call -/

theorem Vfs.file_cases {d : Nat} (h : ¬ s.WrongType x R_FILE) (hd : x.dentry = some d) :
    s.inodeType d = .error .undefined ∨ ∃ e node p, s.Node x e node ∧ s.rfsInode d = .ok p ∧
      s.rfs.vinode p = .ok node ∧ s.inodeType d = .ok R_FILE := by
  rcases s.not_wrongType h with hdead | ⟨-, e, -, -, -, htype⟩ | ⟨e, node, hnode, htype⟩
  · exact .inl (hdead d hd)
  · exact absurd htype (by decide)
  · obtain ⟨d', p, hd', -, -, hp, hv, htype'⟩ := hnode.reads
    cases hd.symm.trans hd'
    rw [htype] at htype'
    exact .inr ⟨e, node, p, hnode, hp, hv, htype'⟩

/-- What the calls do with the answer of the file system: return a value and store the entry. -/
def FileTable.store {α : Type} (t : FileTable) (fd : Int) (value : α → Int)
    (update : α → File → OpenFile) (answer : Outcome (α × File × Vfs)) :
    Outcome (Int × FileTable) := do
  let (a, file, s) ← answer
  return (value a, t.put fd (update a file) s)

section

variable {α : Type} {value : α → Int} {update : α → File → OpenFile}
  {call : Vfs → Nat → Outcome (α × Vfs)}

theorem refused_of_error (h : ∃ d, (t.entry fd).dentry = some d ∧ ∃ fmt args,
      call (t.vfs.withFile ((t.entry fd).toFile d)) t.vfs.nextFile = .error (.panic fmt args)) :
    t.Refused (t.store fd value update (onEntry t.vfs (t.entry fd) call)) := by
  obtain ⟨d, hd, fmt, args, hcall⟩ := h
  left
  refine ⟨fmt, args, ?_⟩
  rw [onEntry_error hd hcall]
  rfl

theorem refused_of_same {d : Nat} (a : α) (hd : (t.entry fd).dentry = some d)
    (hcall : call (t.vfs.withFile ((t.entry fd).toFile d)) t.vfs.nextFile
      = .ok (a, t.vfs.withFile ((t.entry fd).toFile d)))
    (hvalue : value a = -1) (hupdate : update a ((t.entry fd).toFile d) = t.entry fd) :
    t.Refused (t.store fd value update (onEntry t.vfs (t.entry fd) call)) := by
  right
  rw [onEntry_same hd hcall, FileTable.store, ok_bind]
  dsimp only
  rw [hvalue, hupdate, t.put_entry]
  rfl

theorem proceeds_of_call
    (hcall : ∀ d, (t.entry fd).dentry = some d →
      call (t.vfs.withFile ((t.entry fd).toFile d)) t.vfs.nextFile = .error .undefined ∨
        ∃ a s', call (t.vfs.withFile ((t.entry fd).toFile d)) t.vfs.nextFile = .ok (a, s') ∧
          value a = 0) :
    Proceeds (t.store fd value update (onEntry t.vfs (t.entry fd) call)) := by
  rcases onEntry_proceeds hcall with hundef | ⟨a, file, s', hok, hvalue⟩
  · left
    rw [hundef]
    rfl
  · right
    rw [hok, FileTable.store, ok_bind]
    dsimp only
    rw [hvalue]
    exact ⟨_, rfl⟩

end

/-! ### `do_read` -/

theorem call_read (stack buf : Mem) (count : Nat) (hr : (t.entry fd).readable ≠ 0) :
    t.call fd (.read stack buf count) = t.store fd (fun a => wrap32 a.1)
      (fun _ file => { t.entry fd with offset := file.offset })
      (onEntry t.vfs (t.entry fd) (fun s f => vfsRead s f stack count)) := by
  simp only [FileTable.call, FileTable.doRead, FileTable.store, if_neg hr, bind_assoc, pure_bind]

theorem vfsRead_node (buf : Mem) (count : Nat)
    (hr : x.readable ≠ 0) (hp : s.rfsInode d = .ok p) (hnode : s.rfs.vinode p = .ok node)
    (htype : s.inodeType d = .ok R_FILE) :
    vfsRead (s.withFile (x.toFile d)) s.nextFile buf count = (do
      let (n, offset, buf, vol) ← rfsRead s.rfs.vol node buf count x.offset
      return (((n : Int), buf), { s.withFile (x.toFile d) with
        rfs := { s.rfs with vol := vol } }.setOffset s.nextFile (x.toFile d) offset)) := by
  simp [vfsRead, OpenFile.toFile, hr, htype, hp, hnode]

theorem read_refused (h : t.vfs.Guards (t.entry fd) .read) (stack buf : Mem) (count : Nat) :
    t.Refused (t.call fd (.read stack buf count)) := by
  by_cases hr : (t.entry fd).readable = 0
  · have hpanic : t.call fd (.read stack buf count)
        = .error (.panic "do_read: no readable file!\n" []) := by
      simp only [FileTable.call, FileTable.doRead, if_pos hr, error_bind]
    exact .inl ⟨_, _, hpanic⟩
  · rw [call_read stack buf count hr]
    by_cases hwrong : t.vfs.WrongType (t.entry fd) R_FILE
    · obtain ⟨d, type, hd, htype, hne⟩ := hwrong
      refine refused_of_same (-1, stack) hd ?_ wrap32_neg_one rfl
      simp [vfsRead, OpenFile.toFile, hr, htype, hne]
    · obtain ⟨e, node, hnode, hoff⟩ := (h.resolve_left hr).resolve_left hwrong
      obtain ⟨d, p, hd, -, -, hp, hv, htype⟩ := hnode.reads
      rw [hnode.typed hwrong] at htype
      have hpanic : ∃ fmt args, rfsRead t.vfs.rfs.vol node stack count (t.entry fd).offset
          = .error (.panic fmt args) := by
        by_cases hsize : node.size < (t.entry fd).offset
        · exact ⟨_, _, by rw [rfsRead, if_pos hsize]⟩
        · exact rfsRead_blockOff stack count hsize (hoff.resolve_left hsize)
      obtain ⟨fmt, args, hpanic⟩ := hpanic
      refine refused_of_error ⟨d, hd, fmt, args, ?_⟩
      rw [vfsRead_node stack count hr hp hv htype, hpanic, error_bind]

theorem read_proceeds (h : ¬ t.vfs.Guards (t.entry fd) .read) (stack buf : Mem) :
    Proceeds (t.call fd (.read stack buf 0)) := by
  obtain ⟨hr, hrest⟩ := not_or.mp h
  obtain ⟨hwrong, hoff⟩ := not_or.mp hrest
  rw [call_read stack buf 0 hr]
  apply proceeds_of_call
  intro d hd
  rcases t.vfs.file_cases hwrong hd with hdead | ⟨e, node, p, hnode, hp, hv, htype⟩
  · left
    simp [vfsRead, OpenFile.toFile, hr, hdead]
  · have hsize : ¬ node.size < (t.entry fd).offset := fun hlt =>
      hoff ⟨e, node, hnode, .inl hlt⟩
    have hblock : ¬ node.BlockOff (t.entry fd).offset := fun hb =>
      hoff ⟨e, node, hnode, .inr hb⟩
    rw [vfsRead_node stack 0 hr hp hv htype]
    rcases rfsRead_nothing stack hsize hblock with hundef | ⟨offset, buf', vol, hok⟩
    · left
      rw [hundef, error_bind]
    · right
      rw [hok, ok_bind]
      refine ⟨_, _, rfl, ?_⟩
      exact wrap32_of_fits (fits_natCast (x := 0) (by decide))

/-! ### `do_write` -/

theorem call_write (buf : Mem) (count : Nat) (hw : (t.entry fd).writable ≠ 0) :
    t.call fd (.write buf count) = t.store fd (fun a => wrap32 a)
      (fun _ file => { t.entry fd with offset := file.offset })
      (onEntry t.vfs (t.entry fd) (fun s f => vfsWrite s f buf count)) := by
  simp only [FileTable.call, FileTable.doWrite, FileTable.store, if_neg hw]

theorem vfsWrite_node (buf : Mem) (count : Nat) (hw : x.writable ≠ 0) (hp : s.rfsInode d = .ok p)
    (hnode : s.rfs.vinode p = .ok node) (htype : s.inodeType d = .ok R_FILE) :
    vfsWrite (s.withFile (x.toFile d)) s.nextFile buf count = (do
      let (n, offset, vol, node) ← rfsWrite s.rfs.vol node buf count x.offset
      return ((n : Int), { s.withFile (x.toFile d) with
        rfs := { s.rfs.setVinode p node with vol := vol } }.setOffset s.nextFile (x.toFile d)
          offset)) := by simp [vfsWrite, OpenFile.toFile, Vfs.setOffset, hw, htype, hp, hnode]

theorem write_refused (h : t.vfs.Guards (t.entry fd) .write) (buf : Mem) (count : Nat) :
    t.Refused (t.call fd (.write buf count)) := by
  by_cases hw : (t.entry fd).writable = 0
  · have hpanic : t.call fd (.write buf count)
        = .error (.panic "do_write: cannot write file!\n" []) := by
      simp only [FileTable.call, FileTable.doWrite, if_pos hw]
    exact .inl ⟨_, _, hpanic⟩
  · rw [call_write buf count hw]
    by_cases hwrong : t.vfs.WrongType (t.entry fd) R_FILE
    · obtain ⟨d, type, hd, htype, hne⟩ := hwrong
      refine refused_of_same (-1) hd ?_ wrap32_neg_one rfl
      simp [vfsWrite, OpenFile.toFile, hw, htype, hne]
    · obtain ⟨e, node, hnode, hoff⟩ := (h.resolve_left hw).resolve_left hwrong
      obtain ⟨d, p, hd, -, -, hp, hv, htype⟩ := hnode.reads
      rw [hnode.typed hwrong] at htype
      have hpanic : ∃ fmt args, rfsWrite t.vfs.rfs.vol node buf count (t.entry fd).offset
          = .error (.panic fmt args) := by
        by_cases hsize : node.size < (t.entry fd).offset
        · exact ⟨_, _, by rw [rfsWrite, if_pos hsize]⟩
        · obtain ⟨halign, hblock⟩ := hoff.resolve_left hsize
          exact rfsWrite_blockOff buf count hsize halign hblock
      obtain ⟨fmt, args, hpanic⟩ := hpanic
      refine refused_of_error ⟨d, hd, fmt, args, ?_⟩
      rw [vfsWrite_node buf count hw hp hv htype, hpanic, error_bind]

theorem write_proceeds (h : ¬ t.vfs.Guards (t.entry fd) .write) (buf : Mem) :
    Proceeds (t.call fd (.write buf 0)) := by
  obtain ⟨hw, hrest⟩ := not_or.mp h
  obtain ⟨hwrong, hoff⟩ := not_or.mp hrest
  rw [call_write buf 0 hw]
  apply proceeds_of_call
  intro d hd
  rcases t.vfs.file_cases hwrong hd with hdead | ⟨e, node, p, hnode, hp, hv, htype⟩
  · left
    simp [vfsWrite, OpenFile.toFile, hw, hdead]
  · have hsize : ¬ node.size < (t.entry fd).offset := fun hlt =>
      hoff ⟨e, node, hnode, .inl hlt⟩
    have hblock : ¬ ((t.entry fd).offset.tmod RFS_BLKSIZE ≠ 0 ∧ node.BlockOff (t.entry fd).offset) :=
      fun hb => hoff ⟨e, node, hnode, .inr hb⟩
    rw [vfsWrite_node buf 0 hw hp hv htype]
    rcases rfsWrite_nothing buf hsize hblock with hundef | ⟨offset, vol, node', hok⟩
    · left
      rw [hundef, error_bind]
    · right
      rw [hok, ok_bind]
      refine ⟨_, _, rfl, ?_⟩
      exact wrap32_of_fits (fits_natCast (x := 0) (by decide))

/-! ### `do_lseek` -/

theorem call_lseek (offset whence : Int) :
    t.call fd (.lseek offset whence) = t.store fd (fun a => wrap32 a)
      (fun _ file => { t.entry fd with offset := file.offset })
      (onEntry t.vfs (t.entry fd) (fun s f => vfsLseek s f offset whence)) := rfl

theorem vfsLseek_node (offset whence : Int)
    (hp : s.rfsInode d = .ok p) (hnode : s.rfs.vinode p = .ok node)
    (htype : s.inodeType d = .ok R_FILE) :
    vfsLseek (s.withFile (x.toFile d)) s.nextFile offset whence =
      .ok (if (rfsLseek node offset whence x.offset).1 ≠ 0 then -1
          else (rfsLseek node offset whence x.offset).2,
        (s.withFile (x.toFile d)).setOffset s.nextFile (x.toFile d)
          (rfsLseek node offset whence x.offset).2) := by
  simp [vfsLseek, OpenFile.toFile, htype, hp, hnode]

theorem rfsLseek_negative (h : node.size < 0) (newOffset whence offset : Int) :
    rfsLseek node newOffset whence offset = (-1, offset) := by
  unfold rfsLseek
  split
  · rw [if_pos (by omega)]
  · split
    · rw [if_pos (by omega)]
    · rfl

theorem lseek_refused (h : t.vfs.Guards (t.entry fd) .lseek) (offset whence : Int) :
    t.Refused (t.call fd (.lseek offset whence)) := by
  rw [call_lseek]
  by_cases hwrong : t.vfs.WrongType (t.entry fd) R_FILE
  · obtain ⟨d, type, hd, htype, hne⟩ := hwrong
    refine refused_of_same (-1) hd ?_ wrap32_neg_one rfl
    simp [vfsLseek, OpenFile.toFile, htype, hne]
  · obtain ⟨e, node, hnode, hsize⟩ := h.resolve_left hwrong
    obtain ⟨d, p, hd, -, -, hp, hv, htype⟩ := hnode.reads
    rw [hnode.typed hwrong] at htype
    refine refused_of_same (-1) hd ?_ wrap32_neg_one rfl
    rw [vfsLseek_node offset whence hp hv htype, rfsLseek_negative hsize]
    exact congrArg (fun s => Except.ok (-1, s)) (t.vfs.setOffset_same _)

theorem lseek_proceeds (h : ¬ t.vfs.Guards (t.entry fd) .lseek) :
    Proceeds (t.call fd (.lseek 0 LSEEK_SET)) := by
  obtain ⟨hwrong, hsize⟩ := not_or.mp h
  rw [call_lseek]
  apply proceeds_of_call
  intro d hd
  rcases t.vfs.file_cases hwrong hd with hdead | ⟨e, node, p, hnode, hp, hv, htype⟩
  · left
    simp [vfsLseek, OpenFile.toFile, hdead]
  · right
    have hpos : ¬ ((0 : Int) < 0 ∨ node.size < 0) := by
      rintro (hlt | hlt)
      · exact absurd hlt (by decide)
      · exact hsize ⟨e, node, hnode, hlt⟩
    have hwrap : wrap32 0 = 0 := wrap32_of_fits (fits_natCast (x := 0) (by decide))
    have hseek : rfsLseek node 0 LSEEK_SET (t.entry fd).offset = (0, 0) := by
      rw [rfsLseek, if_pos rfl, if_neg hpos, hwrap]
    rw [vfsLseek_node 0 LSEEK_SET hp hv htype, hseek]
    exact ⟨_, _, rfl, hwrap⟩

/-! ### `do_readdir` -/

theorem call_readdir :
    t.call fd .readdir = t.store fd (fun a => a.1)
      (fun _ file => { t.entry fd with offset := file.offset })
      (onEntry t.vfs (t.entry fd) vfsReaddir) := by
  simp only [FileTable.call, FileTable.doReaddir, FileTable.store, bind_assoc, pure_bind]

theorem vfsReaddir_node (he : s.dentry d = .ok e)
    (hi : e.inode = .rfs p) (htype : s.inodeType d = .ok R_DIR) :
    vfsReaddir (s.withFile (x.toFile d)) s.nextFile = (do
      let (r, entry, offset) ← rfsReaddir (s.withFile (x.toFile d)) p x.offset
      return ((r, entry), (s.withFile (x.toFile d)).setOffset s.nextFile (x.toFile d) offset)) := by
  simp [vfsReaddir, viopReaddir, OpenFile.toFile, htype, he, hi]

theorem readdir_refused (h : t.vfs.Guards (t.entry fd) .readdir) :
    t.Refused (t.call fd .readdir) := by
  rw [call_readdir]
  by_cases hwrong : t.vfs.WrongType (t.entry fd) R_DIR
  · obtain ⟨d, type, hd, htype, hne⟩ := hwrong
    refine refused_of_same (-1, none) hd ?_ rfl rfl
    simp [vfsReaddir, OpenFile.toFile, htype, hne]
  · rcases h.resolve_left hwrong with ⟨d, e, hd, he, hi⟩ | ⟨e, node, hnode, hend⟩
    · have hdentry : t.vfs.dentry d = .ok e := by rw [Vfs.dentry, he]
      have htype : t.vfs.inodeType d = .ok R_DIR := by
        rw [Vfs.inodeType, hdentry, ok_bind, hi]
        rfl
      refine refused_of_error ⟨d, hd, "hostfs_readdir not implemented!\n", [], ?_⟩
      simp [vfsReaddir, viopReaddir, OpenFile.toFile, htype, hdentry, hi]
    · obtain ⟨d, p, hd, hdentry, hi, -, hv, htype⟩ := hnode.reads
      rw [hnode.typed hwrong] at htype
      refine refused_of_same (-1, none) hd ?_ rfl rfl
      rw [vfsReaddir_node hdentry hi htype, rfsReaddir, Vfs.withFile_rfs, hv, ok_bind, if_pos hend]
      exact congrArg (fun s => Except.ok ((-1, none), s)) (t.vfs.setOffset_same _)

theorem DirCache.entry_cases (cache : DirCache) (index : Int) :
    cache.entry index = .error .undefined ∨ ∃ entry, cache.entry index = .ok entry := by
  unfold DirCache.entry direntryName
  split
  · exact .inl rfl
  · split
    · exact .inl rfl
    · dsimp only
      split
      · exact .inr ⟨_, rfl⟩
      · exact .inl rfl

theorem readdir_proceeds (h : ¬ t.vfs.Guards (t.entry fd) .readdir) :
    Proceeds (t.call fd .readdir) := by
  obtain ⟨hwrong, hrest⟩ := not_or.mp h
  obtain ⟨hhost, hend⟩ := not_or.mp hrest
  rw [call_readdir]
  apply proceeds_of_call
  intro d hd
  rcases t.vfs.not_wrongType hwrong with hdead | ⟨d', e, hd', he, hi, -⟩ | ⟨e, node, hnode, htype⟩
  · left
    simp [vfsReaddir, OpenFile.toFile, hdead d hd]
  · exact absurd ⟨d', e, hd', he, hi⟩ hhost
  · obtain ⟨d', p, hd', hdentry, hi, -, hv, htype'⟩ := hnode.reads
    rw [hd] at hd'
    cases hd'
    rw [htype] at htype'
    have hlt : ¬ totalDirentrys node.toDinode ≤ (t.entry fd).offset := fun hle =>
      hend ⟨e, node, hnode, hle⟩
    rw [vfsReaddir_node hdentry hi htype', rfsReaddir, Vfs.withFile_rfs, hv, ok_bind, if_neg hlt]
    cases hcache : t.vfs.dirCaches p with
    | none =>
      left
      simp [Vfs.withFile, hcache]
    | some cache =>
      rcases cache.entry_cases (t.entry fd).offset with hundef | ⟨entry, hok⟩
      · left
        simp [Vfs.withFile, hcache, hundef]
      · right
        simp [Vfs.withFile, hcache, hok]

/-! ### `do_close` -/

theorem call_close :
    t.call fd .close = t.store fd id
      (fun r _ => if r = 0 then { t.entry fd with status := FD_NONE } else t.entry fd)
      (onEntry t.vfs (t.entry fd) vfsClose) := rfl

theorem rfsWriteBackVinode_cases (rdev : RfsDevice) (v : Vinode) :
    (OnDisk (v.inum.tdiv INODES_PER_BLK + RFS_BLK_OFFSET_INODE) ∧
      (rfsWriteBackVinode rdev v = .error .undefined ∨
        ∃ rdev', rfsWriteBackVinode rdev v = .ok rdev')) ∨
    (¬ OnDisk (v.inum.tdiv INODES_PER_BLK + RFS_BLK_OFFSET_INODE) ∧
      ∃ fmt args, rfsWriteBackVinode rdev v = .error (.panic fmt args)) := by
  unfold rfsWriteBackVinode rfsWriteDinode
  dsimp only
  by_cases hon : OnDisk (v.inum.tdiv INODES_PER_BLK + RFS_BLK_OFFSET_INODE)
  · refine .inl ⟨hon, ?_⟩
    rw [ramdiskRead_eq hon, ok_bind]
    split
    · exact .inl rfl
    · rw [ramdiskWrite_eq hon]
      exact .inr ⟨_, rfl⟩
  · obtain ⟨fmt, args, hpanic⟩ := ramdiskRead_panics rdev hon
    refine .inr ⟨hon, fmt, args, ?_⟩
    rw [hpanic, error_bind]

theorem hashEraseDentry_ok (he : s.dentry d = .ok e) :
    ∃ s', hashEraseDentry s d = .ok s' ∧ s'.dentry d = .ok e ∧ s'.rfs = s.rfs := by
  rw [hashEraseDentry, he, ok_bind]
  exact ⟨_, rfl, he, rfl⟩

theorem freeVfsDentry_ok (he : s.dentry d = .ok e) :
    ∃ s', freeVfsDentry s d = .ok s' ∧ s'.rfs = s.rfs := by
  rw [freeVfsDentry, he, ok_bind]
  split
  · exact ⟨_, rfl, rfl⟩
  · exact ⟨_, rfl, rfl⟩

theorem hashEraseVinode_ok (hv : s.rfs.vinode p = .ok node) :
    ∃ s', hashEraseVinode s p = .ok s' := by
  rw [hashEraseVinode, hv, ok_bind]
  split
  · exact ⟨_, rfl⟩
  · exact ⟨_, rfl⟩

theorem dropDentry_ok (he : s.dentry d = .ok e) (hv : s.rfs.vinode p = .ok node) :
    ∃ s', dropDentry s d p = .ok s' ∧ s'.rfs.vinode p = .ok { node with ref := node.ref - 1 } := by
  obtain ⟨s1, hs1, he1, hrfs1⟩ := hashEraseDentry_ok he
  obtain ⟨s2, hs2, hrfs2⟩ := freeVfsDentry_ok he1
  have hv2 : s2.rfs.vinode p = .ok node := by rw [hrfs2, hrfs1, hv]
  refine ⟨s2.setVinode p { node with ref := node.ref + -1 }, ?_, ?_⟩
  · rw [dropDentry, hs1, ok_bind, hs2, ok_bind, Vfs.addRef, hv2]
    rfl
  · simp [Vfs.setVinode, Rfs.setVinode, Rfs.vinode, Int.sub_eq_add_neg]

theorem closeDentry_cases (dRef : Int) (he : s.dentry d = .ok e) (hv : s.rfs.vinode p = .ok node) :
    ((dRef = 0 ∧ node.ref = 1 ∧ ¬ OnDisk (node.inum.tdiv INODES_PER_BLK + RFS_BLK_OFFSET_INODE)) ∧
      ∃ fmt args, closeDentry s d p dRef = .error (.panic fmt args)) ∨
    (¬ (dRef = 0 ∧ node.ref = 1 ∧ ¬ OnDisk (node.inum.tdiv INODES_PER_BLK + RFS_BLK_OFFSET_INODE)) ∧
      (closeDentry s d p dRef = .error .undefined ∨ ∃ s', closeDentry s d p dRef = .ok s')) := by
  unfold closeDentry
  by_cases h0 : dRef = 0
  · obtain ⟨s1, hdrop, hv1⟩ := dropDentry_ok he hv
    rw [if_pos h0, hdrop, ok_bind, evictVinode, hv1, ok_bind]
    by_cases h1 : node.ref = 1
    · rw [if_pos (by dsimp only; omega)]
      rcases rfsWriteBackVinode_cases s1.rfs.vol.dev { node with ref := node.ref - 1 } with
        ⟨hon, hback⟩ | ⟨hoff, fmt, args, hpanic⟩
      · refine .inr ⟨fun hall => hall.2.2 hon, ?_⟩
        rcases hback with hundef | ⟨rdev', hok⟩
        · rw [hundef]
          exact .inl rfl
        · obtain ⟨s2, hs2⟩ := hashEraseVinode_ok
            (s := { s1 with rfs := s1.rfs.setDev rdev' }) (p := p) hv1
          rw [hok, ok_bind, hs2]
          exact .inr ⟨_, rfl⟩
      · refine .inl ⟨⟨h0, h1, hoff⟩, fmt, args, ?_⟩
        rw [hpanic]
        rfl
    · rw [if_neg (by dsimp only; omega)]
      exact .inr ⟨fun hall => h1 hall.2.1, .inr ⟨_, rfl⟩⟩
  · rw [if_neg h0]
    exact .inr ⟨fun hall => h0 hall.1, .inr ⟨_, rfl⟩⟩

theorem vfsClose_node
    (he : s.dentry d = .ok e) (hp : s.rfsInode d = .ok p) (htype : s.inodeType d = .ok R_FILE) :
    vfsClose (s.withFile (x.toFile d)) s.nextFile = (do
      let s' ← closeDentry ((s.withFile (x.toFile d)).setDentry d { e with dRef := e.dRef - 1 }) d p
        (e.dRef - 1)
      return (0, { s' with
        files := update s'.files s.nextFile (some { x.toFile d with opened := false }) })) := by
  simp [vfsClose, OpenFile.toFile, htype, he, hp]

theorem close_refused (h : t.vfs.Guards (t.entry fd) .close) : t.Refused (t.call fd .close) := by
  rw [call_close]
  by_cases hwrong : t.vfs.WrongType (t.entry fd) R_FILE
  · obtain ⟨d, type, hd, htype, hne⟩ := hwrong
    refine refused_of_same (-1) hd ?_ rfl rfl
    simp [vfsClose, OpenFile.toFile, htype, hne]
  · obtain ⟨e, node, hnode, hdRef, href, hoff⟩ := h.resolve_left hwrong
    obtain ⟨d, p, hd, hdentry, hi, hp, hv, htype⟩ := hnode.reads
    rw [hnode.typed hwrong] at htype
    have hdentry' : ((t.vfs.withFile ((t.entry fd).toFile d)).setDentry d
        { e with dRef := e.dRef - 1 }).dentry d = .ok { e with dRef := e.dRef - 1 } := by
      simp [Vfs.setDentry, Vfs.dentry]
    rcases closeDentry_cases (e.dRef - 1) hdentry' hv with ⟨-, fmt, args, hpanic⟩ | ⟨hnot, -⟩
    · refine refused_of_error ⟨d, hd, fmt, args, ?_⟩
      rw [vfsClose_node hdentry hp htype, hpanic, error_bind]
    · exact absurd ⟨by omega, href, hoff⟩ hnot

theorem close_proceeds (h : ¬ t.vfs.Guards (t.entry fd) .close) : Proceeds (t.call fd .close) := by
  obtain ⟨hwrong, hlast⟩ := not_or.mp h
  rw [call_close]
  apply proceeds_of_call
  intro d hd
  rcases t.vfs.not_wrongType hwrong with hdead | ⟨-, e, -, -, -, htype⟩ | ⟨e, node, hnode, htype⟩
  · left
    simp [vfsClose, OpenFile.toFile, hdead d hd]
  · exact absurd htype (by decide)
  · obtain ⟨d', p, hd', hdentry, hi, hp, hv, htype'⟩ := hnode.reads
    rw [hd] at hd'
    cases hd'
    rw [htype] at htype'
    have hdentry' : ((t.vfs.withFile ((t.entry fd).toFile d)).setDentry d
        { e with dRef := e.dRef - 1 }).dentry d = .ok { e with dRef := e.dRef - 1 } := by
      simp [Vfs.setDentry, Vfs.dentry]
    rw [vfsClose_node hdentry hp htype']
    rcases closeDentry_cases (e.dRef - 1) hdentry' hv with ⟨⟨h0, h1, hoff⟩, -⟩ | ⟨-, hundef | ⟨s', hok⟩⟩
    · exact absurd ⟨e, node, hnode, by omega, h1, hoff⟩ hlast
    · left
      rw [hundef, error_bind]
    · right
      rw [hok, ok_bind]
      exact ⟨_, _, rfl, rfl⟩

/-! ### `do_closedir` -/

theorem call_closedir :
    t.call fd .closedir = t.store fd id
      (fun r _ => if r = 0 then { t.entry fd with status := FD_NONE } else t.entry fd)
      (onEntry t.vfs (t.entry fd) vfsClosedir) := rfl

theorem closedir_refused (h : t.vfs.Guards (t.entry fd) .closedir) :
    t.Refused (t.call fd .closedir) := by
  obtain ⟨d, type, hd, htype, hne⟩ := h
  rw [call_closedir]
  refine refused_of_same (-1) hd ?_ rfl rfl
  simp [vfsClosedir, OpenFile.toFile, htype, hne]

theorem hookClosedir_cases (s : Vfs) (he : s.dentry d = .ok e) (hi : e.inode ≠ .null) :
    hookClosedir s d = .error .undefined ∨ ∃ s', hookClosedir s d = .ok s' := by
  rw [hookClosedir, he, ok_bind]
  cases hinode : e.inode with
  | null => exact absurd hinode hi
  | host => exact .inr ⟨_, rfl⟩
  | rfs p =>
    dsimp only
    unfold rfsHookClosedir
    split
    · exact .inl rfl
    · split
      · exact .inl rfl
      · exact .inr ⟨_, rfl⟩

theorem vfsClosedir_dir (he : s.dentry d = .ok e) (htype : s.inodeType d = .ok R_DIR) :
    vfsClosedir (s.withFile (x.toFile d)) s.nextFile = (do
      let s' ← hookClosedir { (s.withFile (x.toFile d)).setDentry d { e with dRef := e.dRef - 1 } with
        files := update (s.withFile (x.toFile d)).files s.nextFile
          (some { x.toFile d with opened := false }) } d
      return (0, s')) := by simp [vfsClosedir, OpenFile.toFile, Vfs.setDentry, htype, he]

theorem closedir_proceeds (h : ¬ t.vfs.Guards (t.entry fd) .closedir) :
    Proceeds (t.call fd .closedir) := by
  rw [call_closedir]
  apply proceeds_of_call
  intro d hd
  rcases t.vfs.inode_cases d with hdead | hlive
  · left
    simp [vfsClosedir, OpenFile.toFile, hdead]
  · have hdentry : ∃ e, t.vfs.dentry d = .ok e ∧ e.inode ≠ .null ∧
        t.vfs.inodeType d = .ok R_DIR := by
      rcases hlive with ⟨e, he, hi, htype⟩ | ⟨e, p, node, he, hi, hp, htype⟩
      · exact ⟨e, by rw [Vfs.dentry, he], by rw [hi]; decide, htype⟩
      · refine ⟨e, by rw [Vfs.dentry, he], by rw [hi]; exact InodePtr.noConfusion, ?_⟩
        have hnode : t.vfs.Node (t.entry fd) e node := ⟨d, p, hd, he, hi, hp⟩
        rw [htype, hnode.typed h]
    obtain ⟨e, he, hi, htype⟩ := hdentry
    rw [vfsClosedir_dir he htype]
    have he' : ({ (t.vfs.withFile ((t.entry fd).toFile d)).setDentry d
          { e with dRef := e.dRef - 1 } with
        files := update (t.vfs.withFile ((t.entry fd).toFile d)).files t.vfs.nextFile
          (some { (t.entry fd).toFile d with opened := false }) } : Vfs).dentry d
        = .ok { e with dRef := e.dRef - 1 } := by simp [Vfs.setDentry, Vfs.dentry]
    rcases hookClosedir_cases _ he' hi with hundef | ⟨s'', hok⟩
    · left
      rw [hundef, error_bind]
    · right
      rw [hok, ok_bind]
      exact ⟨_, _, rfl, rfl⟩

/-! ### All calls -/

theorem refuses_iff_guards (t : FileTable) (fd : Int) (op : FdOp) :
    t.Refuses fd op ↔ t.vfs.Guards (t.entry fd) op := by
  constructor
  · intro h
    by_contra hno
    cases op with
    | read => exact (read_proceeds hno (fun _ => 0) (fun _ => 0)).not_refused (h _ rfl)
    | write => exact (write_proceeds hno (fun _ => 0)).not_refused (h _ rfl)
    | lseek => exact (lseek_proceeds hno).not_refused (h _ rfl)
    | readdir => exact (readdir_proceeds hno).not_refused (h _ rfl)
    | close => exact (close_proceeds hno).not_refused (h _ rfl)
    | closedir => exact (closedir_proceeds hno).not_refused (h _ rfl)
  · intro h c hc
    cases c with
    | read stack buf count =>
      cases hc
      exact read_refused h stack buf count
    | write buf count =>
      cases hc
      exact write_refused h buf count
    | lseek offset whence =>
      cases hc
      exact lseek_refused h offset whence
    | readdir =>
      cases hc
      exact readdir_refused h
    | close =>
      cases hc
      exact close_refused h
    | closedir =>
      cases hc
      exact closedir_refused h

/-- **When a descriptor that is not open is refused.** In every state of the table, an operation on
such a descriptor panics or returns -1 without a change, whatever its arguments are, if and only if
the fields that are left in the entry it is mapped to make it so. -/
theorem not_open_refused_iff (t : FileTable) (fd : Int) (op : FdOp) :
    (¬ t.IsOpen fd → t.Refuses fd op) ↔ (t.IsOpen fd ∨ t.vfs.Guards (t.entry fd) op) := by
  rw [refuses_iff_guards]
  by_cases hopen : t.IsOpen fd
  · simp [hopen]
  · simp [hopen]

end

/-! ## Runs of one process -/

def freshTable (s : Vfs) : FileTable where
  vfs := s
  pfiles := initProcFileManagement vfsRootDentry
    { cwd := 0, openedFiles := fun _ => ⟨0, 0, 0, 0, none⟩, nfiles := 0 }

abbrev TableRun (ops : List TableOp) (P : FileTable → Prop) : Prop :=
  ∃ s, fsInit { blocks := fun _ _ => 0, iobuffer := fun _ => 0 } (fun _ => 0) = .ok s ∧
    ∃ t, Runs FileTable.step (fun _ _ => True) (freshTable s) ops t ∧ P t

theorem TableRun.reached {ops : List TableOp} {P : FileTable → Prop} (h : TableRun ops P) :
    ∃ t0 t : FileTable, t0.Fresh ∧ Reaches FileTable.step (fun _ _ => True) t0 t ∧ P t := by
  obtain ⟨s, hinit, t, hrun, hp⟩ := h
  exact ⟨freshTable s, t, ⟨_, _, _, hinit, rfl⟩, hrun.reaches .start, hp⟩

def pathA : Path := ⟨[47, 82, 65, 77, 68, 73, 83, 75, 48, 47, 97], by decide⟩

instance (t : FileTable) (fd : Int) : Decidable (t.IsOpen fd) :=
  inferInstanceAs (Decidable ((0 ≤ fd ∧ fd < (MAX_FILES : Int)) ∧ (t.entry fd).status = FD_OPENED))

/-- A file is opened twice, as 0 and as 1, and descriptor 0 is closed. Closing it once more
succeeds, and takes the dentry away from the file that is still open. -/
theorem closed_twice_frees_dentry :
    ∃ (t₀ t t' : FileTable) (d : Nat), t₀.Fresh ∧ Reaches FileTable.step (fun _ _ => True) t₀ t ∧
      ¬ t.IsOpen 0 ∧ (t.IsOpen 1 ∧ (t.entry 1).dentry = some d) ∧ t.vfs.dentries d ≠ none ∧
      t.call 0 .close = .ok (0, t') ∧ (t'.IsOpen 1 ∧ (t'.entry 1).dentry = some d) ∧
      t'.vfs.dentries d = none := by
  have hrun : TableRun [.openFile pathA 66, .openFile pathA 66, .call 0 .close]
      (fun t => ¬ t.IsOpen 0 ∧ (t.IsOpen 1 ∧ (t.entry 1).dentry = some 3) ∧
        (t.vfs.dentries 3).isSome ∧ ∃ out, t.call 0 .close = .ok out ∧ out.1 = 0 ∧
          (out.2.IsOpen 1 ∧ (out.2.entry 1).dentry = some 3) ∧
          (out.2.vfs.dentries 3).isNone) := by decide +kernel
  obtain ⟨t₀, t, hfresh, hreach, hclosed, hopen, hlive, ⟨r, t'⟩, hout, rfl, hopen', hdead⟩ :=
    hrun.reached
  exact ⟨t₀, t, t', 3, hfresh, hreach, hclosed, hopen, Option.isSome_iff_ne_none.mp hlive, hout,
    hopen', Option.isNone_iff_eq_none.mp hdead⟩

end CabbagePKE
