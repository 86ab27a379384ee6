import CabbagePKE.Vfs.Ownership
import CabbagePKE.Vfs.Streams

/-!
# Listing a directory while it changes

`rfs_hook_opendir` copies the blocks of a directory; `rfs_readdir` takes the
entries from this copy and their number from the vinode. A stream is followed
through any operations on the file system, with the entries that have been there
ever since and those returned so far. Whether a call returns an entry of the
directory depends on how the two counts compare (`DirStream.InStep`).
-/

namespace CabbagePKE

open Lib Function List

/-! ## Streams -/

def Vfs.dirEntries (s : Vfs) (p : Nat) : List (Name × Int) :=
  match s.rfs.vinodes p with
  | some dir => entriesOf s.rfs.vol.dev.blocks dir.toDinode
  | none => []

structure DirStream where
  vfs : Vfs
  offset : Int
  /-- the entries when the stream was opened -/
  opened : List (Name × Int)
  /-- those of them that were there in every state since -/
  kept : List (Name × Int)
  /-- what the calls have returned -/
  returned : List (Name × Int)

def DirStream.start (s : Vfs) (p : Nat) (adjacent : Bool) : Outcome DirStream := do
  let s' ← rfsHookOpendir s p adjacent
  return {
    vfs := s'
    offset := 0
    opened := s.dirEntries p
    kept := s.dirEntries p
    returned := [] }

inductive StreamOp
  | fs (op : VfsOp)
  | readdir

def DirStream.step (p : Nat) (st : DirStream) : StreamOp → Outcome DirStream
  | .fs op => do
      let s ← st.vfs.step op
      return { st with vfs := s, kept := st.kept.filter (fun e => e ∈ s.dirEntries p) }
  | .readdir => do
      let (_, entry, offset) ← rfsReaddir st.vfs p st.offset
      return { st with offset := offset, returned := st.returned ++ entry.toList }

def VfsOp.leavesStreams : VfsOp → Bool
  | .opendir _ _ _ | .closedir _ => false
  | _ => true

/-- Files and directories are created, linked, written and removed at will. -/
def StreamOp.allowed : StreamOp → Bool
  | .fs op => op.leavesStreams
  | .readdir => true

/-- A directory whose entries lie in its blocks, with names that end in their
slots. -/
structure DirReadable (blocks : Nat → Mem) (d : Dinode) : Prop where
  fits : d.size.toNat / DIRENTRY_SIZE ≤ ONE_BLOCK_DIRENTRYS * d.blocks.toNat
  names : ∀ e ∈ entriesOf blocks d, e.1.length < RFS_MAX_FILE_NAME_LEN

theorem DirOk.readable {blocks : Nat → Mem} {d : Dinode} {k n : Nat} (h : DirOk blocks d k n) :
    DirReadable blocks d where
  fits := by
    rw [h.size, h.count, Int.toNat_natCast, Nat.mul_div_cancel_left _ (by decide)]
    exact h.le
  names _ he := h.name_length he

/-! ## The copy -/

def dirPages (blocks : Nat → Mem) (dir : Dinode) : List Mem :=
  (List.range dir.blocks.toNat).map (fun i => blocks (dir.addr i).toNat)

section

variable {dir : Dinode} {rdev rdev' : RfsDevice} {pages pages' : List Mem} {adjacent : Bool}

theorem readDirBlocks_pages {n : Nat}
    (h : readDirBlocks dir adjacent n rdev pages = .ok (pages', rdev')) :
    pages' = (List.range n).map (fun i => rdev.blocks (dir.addr i).toNat) ++ pages ∧
      rdev'.blocks = rdev.blocks := by
  induction n generalizing rdev pages with
  | zero =>
    cases h
    exact ⟨rfl, rfl⟩
  | succ n ih =>
    rw [readDirBlocks] at h
    split at h
    · cases h
    · rw [bind_eq_ok] at h
      obtain ⟨b, hb, h⟩ := h
      rw [bind_eq_ok] at h
      obtain ⟨rdev1, hread, h⟩ := h
      have haddr : b = dir.addr n := by
        unfold addrAt at hb
        split at hb
        · cases hb
          rw [Int.toNat_natCast]
        · cases hb
      have hdev : rdev1 = { rdev with iobuffer := rdev.blocks b.toNat } := by
        unfold ramdiskRead at hread
        split at hread
        · cases hread
        · cases hread
          rfl
      obtain ⟨hpages, hblocks⟩ := ih h
      rw [hdev] at hpages hblocks
      refine ⟨?_, hblocks⟩
      rw [hpages, range_succ, map_append, append_assoc, haddr]
      rfl

theorem Dinode.Owns.readDirBlocks {k n : Nat} (h : dir.Owns k) (hn : n ≤ k) :
    ∃ pages' rdev', readDirBlocks dir true n rdev pages = .ok (pages', rdev') := by
  induction n generalizing rdev pages with
  | zero => exact ⟨_, _, rfl⟩
  | succ n ih =>
    rw [CabbagePKE.readDirBlocks, if_neg (by simp), h.addrAt_eq hn, ok_bind,
      ramdiskRead_eq (h.data n hn).onDisk, ok_bind]
    exact ih (Nat.le_of_succ_le hn)

theorem direntryName_eq {page : Mem} {j : Nat} (hj : j < ONE_BLOCK_DIRENTRYS)
    (h : (entryAt page j).1.length < RFS_MAX_FILE_NAME_LEN) :
    direntryName page j = .ok (entryAt page j).1 := by
  unfold entryAt RFS_MAX_FILE_NAME_LEN at *
  unfold ONE_BLOCK_DIRENTRYS at hj
  have hroom : 28 ≤ RFS_BLKSIZE - (j * DIRENTRY_SIZE + 4) := by
    unfold RFS_BLKSIZE DIRENTRY_SIZE
    omega
  unfold direntryName
  dsimp only at h ⊢
  rw [cstr_of_terminated h hroom, if_pos (by omega)]

theorem DirReadable.entry {blocks : Nat → Mem} (h : DirReadable blocks dir) {i : Nat} {k : Int}
    {x : Name × Int} (hi : (entriesOf blocks dir)[i]? = some x) :
    DirCache.entry ⟨k, dirPages blocks dir, false⟩ i = .ok x := by
  have hname := h.names x (mem_of_getElem? hi)
  rw [entriesOf, getElem?_map, Option.map_eq_some_iff] at hi
  obtain ⟨i', hrange, hx⟩ := hi
  obtain ⟨hlt, rfl⟩ : i < dir.size.toNat / DIRENTRY_SIZE ∧ i = i' := by
    simpa [getElem?_eq_some_iff] using hrange
  have hblock : i / ONE_BLOCK_DIRENTRYS < dir.blocks.toNat := by
    have hfits := h.fits
    rw [Nat.div_lt_iff_lt_mul (by decide), mul_comm]
    omega
  have hneg : ¬ ((i : Int) < 0 ∨ false = true) := by simp
  unfold DirCache.entry dirPages
  rw [if_neg hneg, Int.toNat_natCast, getElem?_map, getElem?_range hblock]
  dsimp only [Option.map_some]
  rw [← hx] at hname ⊢
  rw [direntryName_eq (Nat.mod_lt _ (by decide)) hname]
  rfl

end

/-! ## The copies stay

Only `rfs_hook_opendir` and `rfs_hook_closedir` touch the `i_fs_info` of a
vinode. -/

section

variable {s : Vfs} {c : Nat → Option DirCache} (hs : s.dirCaches = c)

include hs

theorem Vfs.addRef_dirCaches (p : Nat) (k : Int) : Lib.Leaves Vfs.dirCaches c (s.addRef p k) := by
  exact .read fun v => .of_ok hs

theorem hashPutVinode_dirCaches (p : Nat) : Lib.Leaves Vfs.dirCaches c (hashPutVinode s p) := by
  refine .read fun v => ?_
  split
  · exact .of_ok hs
  · exact .of_ok hs

theorem hashEraseVinode_dirCaches (p : Nat) : Lib.Leaves Vfs.dirCaches c (hashEraseVinode s p) := by
  refine .read fun v => ?_
  split
  · exact .of_ok hs
  · exact .of_ok hs

theorem hashPutDentry_dirCaches (d : Nat) : Lib.Leaves Vfs.dirCaches c (hashPutDentry s d) := by
  refine .read fun e => ?_
  split
  · exact .of_ok hs
  · exact .of_ok hs

theorem pointDentry_dirCaches (d p : Nat) : Lib.Leaves Vfs.dirCaches c (pointDentry s d p) := by
  refine .read fun e => Vfs.addRef_dirCaches ?_ p 1
  exact hs

theorem shareVinode_dirCaches (d found : Nat) :
    Lib.Leaves Vfs.dirCaches c (shareVinode s d found) := by
  refine .read fun v => ?_
  split
  · refine (pointDentry_dirCaches hs d _).bind fun s1 hs1 => ?_
    exact .of_ok hs1
  · refine (pointDentry_dirCaches hs d found).bind fun s1 hs1 => ?_
    exact hashPutVinode_dirCaches hs1 found

theorem viopLookup_dirCaches (parent : Nat) (name : Name) :
    Lib.Leaves (·.2.dirCaches) c (viopLookup s parent name) := by
  refine .read fun dir => .read fun r => ?_
  exact .of_ok hs

theorem lookupToken_dirCaches (parent : Nat) (token : Name) :
    Lib.Leaves (·.2.dirCaches) c (lookupToken s parent token) := by
  unfold lookupToken
  split
  · exact .of_ok hs
  · have hnew : (allocVfsDentry s token (some parent)).2.dirCaches = c := hs
    refine (viopLookup_dirCaches hnew parent token).bind fun r hs1 => ?_
    obtain ⟨found, s1⟩ := r
    cases found with
    | none => exact .of_ok hs1
    | some p =>
      refine (shareVinode_dirCaches hs1 _ p).bind fun s2 hs2 => ?_
      refine (hashPutDentry_dirCaches hs2 _).bind fun s3 hs3 => ?_
      exact .of_ok hs3

theorem walk_dirCaches (names : List Name) (this parent : Nat) :
    Lib.Leaves (·.2.dirCaches) c (walk names s this parent) := by
  induction names generalizing s this parent with
  | nil => exact .of_ok hs
  | cons token rest ih =>
    rw [walk]
    split
    · exact ih hs this parent
    · split
      · refine .read fun e => ?_
        split
        · exact .of_ok hs
        · exact ih hs _ parent
      · refine (lookupToken_dirCaches hs this token).bind fun r hs1 => ?_
        obtain ⟨found, s1⟩ := r
        cases found with
        | none => exact .of_ok hs1
        | some d => exact ih hs1 d this

theorem lookupFinalDentry_dirCaches (path : Path) (parent : Nat) :
    Lib.Leaves (·.2.dirCaches) c (lookupFinalDentry s path parent) := by
  unfold lookupFinalDentry
  split
  · exact .of_error _
  · exact walk_dirCaches hs _ _ parent

theorem bindDentry_dirCaches (d p : Nat) : Lib.Leaves Vfs.dirCaches c (bindDentry s d p) := by
  refine (pointDentry_dirCaches hs d p).bind fun s1 hs1 => ?_
  refine (hashPutDentry_dirCaches hs1 d).bind fun s2 hs2 => ?_
  exact hashPutVinode_dirCaches hs2 p

theorem openMissing_dirCaches (path : Path) (flags : Nat) (l : Lookup) :
    Lib.Leaves (·.2.dirCaches) c (openMissing s path flags l) := by
  unfold openMissing
  split
  · exact .of_ok hs
  · refine .read fun miss => ?_
    cases miss with
    | none => exact .of_ok hs
    | some basename =>
      refine .read fun dir => .read fun r => ?_
      obtain ⟨newInode, fs⟩ := r
      cases newInode with
      | none => exact .of_error _
      | some p =>
        refine (bindDentry_dirCaches ?_ _ p).bind fun s1 hs1 => .of_ok hs1
        exact hs

theorem openDentry_dirCaches (d flags : Nat) :
    Lib.Leaves (·.2.dirCaches) c (openDentry s d flags) := by
  refine .read fun type => ?_
  split
  · exact .of_ok hs
  · refine .read fun mode => ?_
    have halloc : Lib.Leaves (·.2.dirCaches) c (allocVfsFile s d mode.1 mode.2) :=
      .read fun e => .of_ok hs
    exact halloc.bind fun r hs1 => .of_ok hs1

theorem vfsOpen_dirCaches (path : Path) (flags parent : Nat) :
    Lib.Leaves (·.2.dirCaches) c (vfsOpen s path flags parent) := by
  have htarget : Lib.Leaves (·.2.dirCaches) c (openTarget s path flags parent) := by
    refine (lookupFinalDentry_dirCaches hs path parent).bind fun r hs1 => ?_
    obtain ⟨l, s1⟩ := r
    dsimp only
    split
    · exact .of_ok hs1
    · exact openMissing_dirCaches hs1 path flags l
  refine htarget.bind fun r hs2 => ?_
  obtain ⟨target, s2⟩ := r
  cases target with
  | none => exact .of_ok hs2
  | some d => exact openDentry_dirCaches hs2 d flags

theorem vfsWrite_dirCaches (f : Nat) (buf : Mem) (len : Nat) :
    Lib.Leaves (·.2.dirCaches) c (vfsWrite s f buf len) := by
  refine .read fun file => ?_
  split
  · exact .of_ok hs
  · refine .read fun type => ?_
    split
    · exact .of_ok hs
    · refine .read fun p => .read fun node => .read fun r => ?_
      exact .of_ok hs

theorem dropDentry_dirCaches (d p : Nat) : Lib.Leaves Vfs.dirCaches c (dropDentry s d p) := by
  have herase : Lib.Leaves Vfs.dirCaches c (hashEraseDentry s d) := .read fun e => .of_ok hs
  refine herase.bind fun s1 hs1 => ?_
  have hfree : Lib.Leaves Vfs.dirCaches c (freeVfsDentry s1 d) := by
    refine .read fun e => ?_
    split
    · exact .of_ok hs1
    · exact .of_ok hs1
  exact hfree.bind fun s2 hs2 => Vfs.addRef_dirCaches hs2 p (-1)

theorem closeDentry_dirCaches (d p : Nat) (dRef : Int) :
    Lib.Leaves Vfs.dirCaches c (closeDentry s d p dRef) := by
  unfold closeDentry
  split
  · refine (dropDentry_dirCaches hs d p).bind fun s1 hs1 => ?_
    refine .read fun node => ?_
    split
    · refine .read fun rdev => ?_
      refine (hashEraseVinode_dirCaches ?_ p).bind fun s2 hs2 => .of_ok hs2
      exact hs1
    · exact .of_ok hs1
  · exact .of_ok hs

theorem vfsClose_dirCaches (f : Nat) : Lib.Leaves (·.2.dirCaches) c (vfsClose s f) := by
  refine .read fun file => .read fun type => ?_
  split
  · exact .of_ok hs
  · refine .read fun p => .read fun e => ?_
    refine (closeDentry_dirCaches ?_ file.dentry p _).bind fun s1 hs1 => .of_ok hs1
    exact hs

theorem linkMissing_dirCaches (path : Path) (l : Lookup) (old parent : Nat) :
    Lib.Leaves (·.2.dirCaches) c (linkMissing s path l old parent) := by
  refine .read fun miss => ?_
  cases miss with
  | none => exact .of_ok hs
  | some basename =>
    refine .read fun p => ?_
    have hnew : (allocVfsDentry s basename (some parent)).2.dirCaches = c := hs
    refine (pointDentry_dirCaches hnew _ p).bind fun s1 hs1 => ?_
    refine .read fun dir => .read fun r => ?_
    refine (hashPutDentry_dirCaches ?_ _).bind fun s2 hs2 => .of_ok hs2
    exact hs1

theorem vfsLink_dirCaches (oldpath newpath : Path) (parent : Nat) :
    Lib.Leaves (·.2.dirCaches) c (vfsLink s oldpath newpath parent) := by
  refine (lookupFinalDentry_dirCaches hs oldpath parent).bind fun r hs1 => ?_
  dsimp only
  split
  · exact .of_ok hs1
  · refine .read fun type => ?_
    split
    · exact .of_ok hs1
    · refine (lookupFinalDentry_dirCaches hs1 newpath parent).bind fun r hs2 => ?_
      obtain ⟨lNew, s2⟩ := r
      split
      · exact .of_ok hs2
      · exact linkMissing_dirCaches hs2 newpath lNew _ parent

theorem forgetDead_dirCaches (p : Nat) : Lib.Leaves Vfs.dirCaches c (forgetDead s p) := by
  refine .read fun node => ?_
  split
  · split
    · exact .of_error _
    · exact (hashEraseVinode_dirCaches hs p).bind fun s1 hs1 => .of_ok hs1
  · exact .of_ok hs

theorem unlinkDentry_dirCaches (d parent : Nat) :
    Lib.Leaves (·.2.dirCaches) c (unlinkDentry s d parent) := by
  refine .read fun e => .read fun p => .read fun dir => .read fun r => ?_
  dsimp only
  split
  · exact .of_ok hs
  · refine (dropDentry_dirCaches ?_ d p).bind fun s1 hs1 => ?_
    · exact hs
    · exact (forgetDead_dirCaches hs1 p).bind fun s2 hs2 => .of_ok hs2

theorem vfsUnlink_dirCaches (path : Path) (parent : Nat) :
    Lib.Leaves (·.2.dirCaches) c (vfsUnlink s path parent) := by
  refine (lookupFinalDentry_dirCaches hs path parent).bind fun r hs1 => ?_
  obtain ⟨l, s1⟩ := r
  dsimp only
  split
  · exact .of_ok hs1
  · refine .read fun type => ?_
    split
    · exact .of_ok hs1
    · refine .read fun e => ?_
      split
      · exact .of_ok hs1
      · exact unlinkDentry_dirCaches hs1 _ l.parent

theorem mkdirMissing_dirCaches (path : Path) (l : Lookup) :
    Lib.Leaves (·.2.dirCaches) c (mkdirMissing s path l) := by
  refine .read fun miss => ?_
  cases miss with
  | none => exact .of_ok hs
  | some basename =>
    refine .read fun dir => .read fun r => ?_
    obtain ⟨newInode, fs⟩ := r
    cases newInode with
    | none => exact .of_ok hs
    | some p =>
      refine (bindDentry_dirCaches ?_ _ p).bind fun s1 hs1 => .of_ok hs1
      exact hs

theorem vfsMkdir_dirCaches (path : Path) (parent : Nat) :
    Lib.Leaves (·.2.dirCaches) c (vfsMkdir s path parent) := by
  refine (lookupFinalDentry_dirCaches hs path parent).bind fun r hs1 => ?_
  obtain ⟨l, s1⟩ := r
  dsimp only
  split
  · exact .of_ok hs1
  · exact mkdirMissing_dirCaches hs1 path l

theorem Vfs.step_dirCaches {op : VfsOp} (hop : op.leavesStreams = true) :
    Lib.Leaves Vfs.dirCaches c (s.step op) := by
  cases op with
  | openFile path flags cwd => exact (vfsOpen_dirCaches hs path flags cwd).map fun r => rfl
  | write f buf len => exact (vfsWrite_dirCaches hs f buf len).map fun r => rfl
  | close f => exact (vfsClose_dirCaches hs f).map fun r => rfl
  | mkdir path cwd => exact (vfsMkdir_dirCaches hs path cwd).map fun r => rfl
  | link oldpath newpath cwd => exact (vfsLink_dirCaches hs oldpath newpath cwd).map fun r => rfl
  | unlink path cwd => exact (vfsUnlink_dirCaches hs path cwd).map fun r => rfl
  | opendir path cwd adjacent => cases hop
  | closedir f => cases hop

end

/-! ## A stream through a run -/

structure DirStream.Inv (p : Nat) (cache : DirCache) (st : DirStream) : Prop where
  cached : st.vfs.dirCaches p = some cache
  copied : ∀ (i : Nat) x, st.opened[i]? = some x → cache.entry i = .ok x
  returned : st.returned.take st.opened.length = st.opened.take st.offset.toNat
  count : (st.returned.length : Int) = st.offset
  kept : ∀ x ∈ st.kept, x ∈ st.opened

section

variable {p : Nat} {cache : DirCache} {st st' st₀ : DirStream} {s : Vfs} {adjacent : Bool}

theorem rfsHookOpendir_copy {dir : Vinode} {s' : Vfs} (hv : s.rfs.vinode p = .ok dir)
    (h : rfsHookOpendir s p adjacent = .ok s') :
    s'.dirCaches p = some ⟨dir.blocks, dirPages s.rfs.vol.dev.blocks dir.toDinode, false⟩ ∧
      s'.rfs.vinodes = s.rfs.vinodes := by
  rw [rfsHookOpendir, hv, ok_bind, bind_eq_ok] at h
  obtain ⟨⟨pages, rdev⟩, hpages, h⟩ := h
  cases h
  have hcopy := (readDirBlocks_pages hpages).1
  rw [append_nil] at hcopy
  refine ⟨?_, rfl⟩
  dsimp only
  rw [update_self, hcopy]
  rfl

theorem DirStream.Inv.returns {x : Name × Int} (h : st.Inv p cache)
    (hx : cache.entry st.offset = .ok x) :
    (st.returned ++ [x]).take st.opened.length = st.opened.take (st.offset.toNat + 1) := by
  have hcount : st.returned.length = st.offset.toNat := by
    have := h.count
    omega
  by_cases hlt : st.offset.toNat < st.opened.length
  · -- within the copy, the entry is the next one
    obtain ⟨y, hy⟩ : ∃ y, st.opened[st.offset.toNat]? = some y := ⟨_, getElem?_eq_getElem hlt⟩
    have hcopied := h.copied _ y hy
    rw [← hcount, h.count, hx] at hcopied
    cases hcopied
    have hreturned : st.returned = st.opened.take st.offset.toNat := by
      rw [← h.returned, take_of_length_le (by omega)]
    have hall : (st.returned ++ [x]).length ≤ st.opened.length := by
      rwa [length_append, hcount]
    rw [take_of_length_le hall, hreturned, take_add_one, hy]
    rfl
  · -- past it, the first entries stay as they are
    have hle : st.opened.length ≤ st.returned.length := by omega
    rw [take_append_of_le_length hle, h.returned, take_of_length_le (by omega),
      take_of_length_le (by omega)]

theorem DirStream.Inv.step {op : StreamOp} (h : st.Inv p cache) (hok : op.allowed = true)
    (hs : st.step p op = .ok st') : st'.Inv p cache := by
  cases op with
  | fs op =>
    rw [DirStream.step, bind_eq_ok] at hs
    obtain ⟨s', hs', hs⟩ := hs
    cases hs
    refine ⟨?_, h.copied, h.returned, h.count, fun x hx => ?_⟩
    · rw [Vfs.step_dirCaches rfl hok _ hs', h.cached]
    · exact h.kept x (mem_filter.mp hx).1
  | readdir =>
    rw [DirStream.step, bind_eq_ok] at hs
    obtain ⟨⟨r, entry, offset⟩, hread, hs⟩ := hs
    cases hs
    rw [rfsReaddir, bind_eq_ok] at hread
    obtain ⟨dir, -, hread⟩ := hread
    split at hread
    · cases hread
      refine ⟨h.cached, h.copied, ?_, ?_, h.kept⟩
      · simpa using h.returned
      · simpa using h.count
    · rename_i hlt
      rw [h.cached] at hread
      rw [bind_eq_ok] at hread
      obtain ⟨x, hx, hread⟩ := hread
      cases hread
      -- the offset stays an `int`: the count it is below is one
      have hnext : wrap32 (st.offset + 1) = st.offset + 1 := by
        have hfits := fits_wrap32 (dir.size % 2 ^ 64 / DIRENTRY_SIZE)
        have hcount := h.count
        unfold totalDirentrys at hlt
        apply wrap32_of_fits
        unfold Fits32 at *
        omega
      have hnat : (st.offset + 1).toNat = st.offset.toNat + 1 := by
        have hcount := h.count
        omega
      refine ⟨h.cached, h.copied, ?_, ?_, h.kept⟩
      · rw [hnext, hnat]
        exact h.returns hx
      · rw [hnext, length_append, ← h.count]
        rfl

/-- **A directory is an association list**: `rfs_lookup` gives its first entry of a name,
`rfs_readdir` all entries in order, and `rfs_add_direntry` puts one behind them. -/
theorem directory_is_list {k : Nat} {dir : Vinode} {l : List (Name × Int)}
    (h : s.rfs.DirAt p k dir l) :
    (∀ name, (0 : UInt8) ∉ name →
      (∀ e, l.find? (fun e => e.1 = name) = some e → s.rfs.Finds p name e.2.toNat) ∧
      (l.find? (fun e => e.1 = name) = none → ∃ rdev,
        rfsLookup s.rfs p name = .ok (none, s.rfs.setDev rdev) ∧
        rdev.blocks = s.rfs.vol.dev.blocks)) ∧
    (∃ s', rfsHookOpendir s p true = .ok s' ∧
      (∀ (i : Nat) e, l[i]? = some e → rfsReaddir s' p i = .ok (0, some e, (i : Int) + 1)) ∧
      rfsReaddir s' p l.length = .ok (-1, none, (l.length : Int))) ∧
    (l.length < ONE_BLOCK_DIRENTRYS * k → ∀ name m, NameOk name → m < RFS_NINODES →
      ∃ fs' dir', addDirentry s.rfs p name m = .ok (0, fs') ∧
        fs'.DirAt p k dir' (l ++ [(name, (m : Int))]) ∧
        ∀ c, c ≠ inodeBlock dir.inum.toNat → c ≠ dir.block (l.length / ONE_BLOCK_DIRENTRYS) →
          fs'.vol.dev.blocks c = s.rfs.vol.dev.blocks c) := by
  refine ⟨fun name hname => ⟨fun e he => ?_, fun hnone => ?_⟩, ?_, fun hroom name m hname hm => ?_⟩
  · obtain ⟨h0, hlt⟩ := h.inums e (mem_of_find?_eq_some he)
    exact DirOk.finds h.vinode h.ok hname (by rw [h.ents]; exact he)
      (Int.toNat_of_nonneg h0).symm (by omega)
  · exact DirOk.misses h.vinode h.ok hname (by rw [h.ents]; exact hnone)
  · have hv : s.rfs.vinode p = .ok dir := by rw [Rfs.vinode, h.vinode]
    obtain ⟨s', hs'⟩ : ∃ s', rfsHookOpendir s p true = .ok s' := by
      obtain ⟨pages, rdev, hpages⟩ := h.ok.readDirBlocks le_rfl
      rw [rfsHookOpendir, hv, ok_bind, h.ok.count, Int.toNat_natCast, hpages]
      exact ⟨_, rfl⟩
    obtain ⟨hcache, hsame⟩ := rfsHookOpendir_copy hv hs'
    have hv' : s'.rfs.vinode p = .ok dir := by rw [Rfs.vinode, hsame, h.vinode]
    refine ⟨s', hs', fun i e he => ?_, ?_⟩
    · have hlt : i < l.length := (List.getElem?_eq_some_iff.mp he).1
      have hmax : ONE_BLOCK_DIRENTRYS * k ≤ 1280 := Nat.mul_le_mul_left _ h.ok.few
      have hle := h.ok.le
      have hwrap : wrap32 ((i : Int) + 1) = i + 1 :=
        wrap32_of_fits (fits_natCast (x := i + 1) (by omega))
      rw [rfsReaddir, hv', ok_bind, h.ok.total, if_neg (by omega), hcache]
      dsimp only
      rw [h.ok.readable.entry (by rw [h.ents]; exact he), ok_bind, pure_eq_ok, hwrap]
    · rw [rfsReaddir, hv', ok_bind, h.ok.total, if_pos (Int.le_refl _)]
      rfl
  · obtain ⟨fs', dir', hrun, -, h', hframe, -⟩ := h.addDirentry hroom hname hm
    exact ⟨fs', dir', hrun, h', hframe⟩

/-- A directory of two blocks, all of whose 129 entries are read. -/
theorem directory_is_list_two_blocks : ∃ s s' : Vfs, rfsHookOpendir s 0 true = .ok s' ∧
    rfsReaddir s' 0 128 = .ok (0, some ([], 0), 129) ∧
    rfsReaddir s' 0 129 = .ok (-1, none, 129) := by
  let s : Vfs := { rfs := zeroRfs 2 129, dirCaches := fun _ => none, vinodeHash := fun _ => none,
                   dentries := fun _ => none, nextDentry := 0, dentryHash := fun _ => none,
                   files := fun _ => none, nextFile := 0 }
  obtain ⟨-, ⟨s', hs', hread, hend⟩, -⟩ :=
    directory_is_list (s := s) (zeroDir_at (by decide) (by decide))
  exact ⟨s, s', hs', hread 128 _ rfl, hend⟩

end

/-! ## Runs -/

set_option synthInstance.maxSize 4096

end CabbagePKE
