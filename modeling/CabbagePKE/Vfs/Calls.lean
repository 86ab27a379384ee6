import CabbagePKE.Vfs.Held
import CabbagePKE.Vfs.Ownership

/-!
# The calls on open files

Every call on a file keeps the counts and the offsets of `Vfs.Held`, and none
of them stops because an offset is past the end of its file. Two conditions
are needed: a file that is opened does not have a negative size
(`Vfs.opensSized`), and a name is removed from a directory
(`Vfs.unlinksFromDir`).
-/

namespace CabbagePKE

open Lib Function

/-! ## The RAM disk -/

section

variable {bad : Halt → Prop} [Halt.Spares bad] {fs : Rfs} {p : Nat}

theorem Rfs.yields_vinode (fs : Rfs) (p : Nat) :
    Yields bad (fs.vinode p) (fun v => fs.vinodes p = some v) := by
  unfold Rfs.vinode
  cases fs.vinodes p with
  | none => exact yields_access .undefined
  | some v => exact .of_ok rfl

theorem yields_rfsReadDinode (rdev : RfsDevice) (n : Int) :
    Yields bad (rfsReadDinode rdev n) (fun r => r.1.Fits) := by
  refine (yields_ramdiskRead rdev _).bind fun rdev' _ => ?_
  split
  · exact yields_access .undefined
  · exact .of_ok (dinodeOf_fits ..)

theorem yields_rfsWriteDinode (rdev : RfsDevice) (d : Dinode) (n : Int) :
    Yields bad (rfsWriteDinode rdev d n) (fun _ => True) := by
  refine (yields_ramdiskRead rdev _).bind fun rdev' _ => ?_
  split
  · exact yields_access .undefined
  · exact yields_ramdiskWrite _ _

theorem yields_loadVinode (fs : Rfs) (inum : Int) :
    Yields bad (loadVinode fs inum) (fun r => ∃ vol v,
      r = (fs.nextVinode, fs.fetched vol v) ∧ v.ref = 0 ∧ Fits32 v.size) := by
  refine (yields_rfsReadDinode fs.vol.dev inum).bind fun r hr => ?_
  exact .of_ok ⟨_, _, rfl, rfl, hr.size⟩

theorem yields_findDirentry (dir : Dinode) (name : Name) (n i : Nat) (rdev : RfsDevice) :
    Yields bad (findDirentry dir name n i rdev) (fun _ => True) := by
  induction n generalizing i rdev with
  | zero => exact .of_ok trivial
  | succ n ih =>
    have hread : Yields bad (readAtBoundary dir i rdev) (fun _ => True) := by
      unfold readAtBoundary
      split
      · refine (yields_addrAt dir _).bind fun b _ => ?_
        exact (yields_ramdiskRead rdev b).mono fun _ _ => trivial
      · exact .of_ok trivial
    refine hread.bind fun rdev' _ => ?_
    split
    · exact yields_access .undefined
    · exact .of_ok trivial
    · exact ih _ _

theorem yields_rfsLookup (fs : Rfs) (parent : Nat) (name : Name) :
    Yields bad (rfsLookup fs parent name) (fun r => (∃ rdev, r = (none, fs.setDev rdev)) ∨
      ∃ vol v, r = (some fs.nextVinode, fs.fetched vol v) ∧ v.ref = 0 ∧ Fits32 v.size) := by
  refine (fs.yields_vinode parent).bind fun dir _ => ?_
  refine (yields_findDirentry _ name _ 0 fs.vol.dev).bind fun r _ => ?_
  obtain ⟨found, rdev⟩ := r
  cases found with
  | none => exact .of_ok (.inl ⟨rdev, rfl⟩)
  | some i =>
    refine (yields_loadVinode (fs.setDev rdev) _).bind fun r hr => ?_
    obtain ⟨vol, v, rfl, href, hfits⟩ := hr
    exact .of_ok (.inr ⟨vol, v, rfl, href, hfits⟩)

theorem yields_rfsAddDirentry (rdev : RfsDevice) (dir : Vinode) (name : Name) (inum : Int) :
    Yields bad (rfsAddDirentry rdev dir name inum) (fun r => dir.Kept r.2.2) := by
  unfold rfsAddDirentry
  split
  · exact .of_ok (.refl dir)
  rename_i hdir
  have hkept : dir.Kept { dir with size := wrap32 (dir.size + DIRENTRY_SIZE) } :=
    ⟨rfl, rfl, fun _ => fits_wrap32 _, fun hfile =>
      absurd (hfile.symm.trans (not_not.mp hdir)) R_FILE_ne_R_DIR⟩
  refine (yields_addrAt _ _).bind fun b _ => ?_
  refine (yields_ramdiskRead rdev b).bind fun rdev1 _ => ?_
  dsimp only
  split
  · exact yields_access .undefined
  refine (yields_ramdiskWrite _ b).bind fun rdev2 _ => ?_
  exact (yields_rfsWriteDinode rdev2 _ _).bind fun rdev3 _ => .of_ok hkept

theorem yields_addDirentry (fs : Rfs) (parent : Nat) (name : Name) (inum : Int) :
    Yields bad (addDirentry fs parent name inum) (fun r => fs.Kept r.2) := by
  refine (fs.yields_vinode parent).bind fun dir hdir => ?_
  refine (yields_rfsAddDirentry fs.vol.dev dir name inum).bind fun r hr => ?_
  exact .of_ok (Rfs.Kept.setVinode hdir hr _)

theorem yields_rfsLink (fs : Rfs) (parent : Nat) (name : Name) (linkNode : Nat) :
    Yields bad (rfsLink fs parent name linkNode) (fun r => fs.Kept r.2) := by
  refine (fs.yields_vinode linkNode).bind fun node hnode => ?_
  have hkept : node.Kept { node with nlinks := wrap32 (node.nlinks + 1) } :=
    ⟨rfl, rfl, id, fun _ => Int.le_refl _⟩
  have hlinks : fs.Kept (fs.setVinode linkNode { node with nlinks := wrap32 (node.nlinks + 1) }) :=
    Rfs.Kept.setVinode hnode hkept fs.vol
  refine (yields_addDirentry _ parent name node.inum).bind fun r hr => ?_
  refine (r.2.yields_vinode linkNode).bind fun node' _ => ?_
  refine (yields_rfsWriteDinode _ _ _).bind fun rdev _ => ?_
  exact .of_ok ((hlinks.trans hr).trans (.of_eq rfl rfl))

theorem yields_findFreeDinode (n i : Nat) (last : Option Dinode) (rdev : RfsDevice) :
    Yields bad (findFreeDinode n i last rdev) (fun _ => True) := by
  induction n generalizing i last rdev with
  | zero => exact .of_ok trivial
  | succ n ih =>
    refine (yields_rfsReadDinode rdev i).bind fun r _ => ?_
    dsimp only
    split
    · exact .of_ok trivial
    · exact ih _ _ _

theorem yields_allocDinode (vol : Volume) (type : Int) {noMore : String}
    (hno : ¬ bad (.panic noMore [])) :
    Yields bad (allocDinode vol type noMore) (fun _ => True) := by
  refine (yields_findFreeDinode _ 0 none vol.dev).bind fun r _ => ?_
  obtain ⟨inum, dinode, rdev⟩ := r
  cases dinode with
  | none => exact .of_error hno
  | some d =>
    refine (yields_rfsAllocBlock vol.sb).bind fun r _ => ?_
    exact (yields_rfsWriteDinode rdev _ inum).bind fun rdev' _ => .of_ok trivial

theorem yields_rfsFreeBlock (sb : SuperBlock) (b : Int) :
    Yields bad (rfsFreeBlock sb b) (fun _ => True) := by
  unfold rfsFreeBlock
  dsimp only
  split
  · exact yields_access .undefined
  · exact .of_ok trivial

theorem yields_freeDinodeBlocks (d : Dinode) (n i : Nat) (sb : SuperBlock) :
    Yields bad (freeDinodeBlocks d n i sb) (fun _ => True) := by
  induction n generalizing i sb with
  | zero => exact .of_ok trivial
  | succ n ih =>
    refine (yields_addrAt d i).bind fun b _ => ?_
    exact (yields_rfsFreeBlock sb b).bind fun sb' _ => ih _ sb'

theorem yields_releaseDinode (sb : SuperBlock) (d : Dinode) :
    Yields bad (releaseDinode sb d) (fun _ => True) := by
  unfold releaseDinode
  split
  · exact (yields_freeDinodeBlocks d _ 0 sb).bind fun sb' _ => .of_ok trivial
  · exact .of_ok trivial

theorem yields_shiftBlocks (d : Dinode) (n i : Nat) (rdev : RfsDevice) (previous : Mem) :
    Yields bad (shiftBlocks d n i rdev previous) (fun _ => True) := by
  induction n generalizing i rdev previous with
  | zero => exact .of_ok trivial
  | succ n ih =>
    refine (yields_addrAt d i).bind fun b _ => ?_
    refine (yields_ramdiskRead rdev b).bind fun rdev1 _ => ?_
    refine (yields_addrAt d _).bind fun b' _ => ?_
    exact (yields_ramdiskWrite _ b').bind fun rdev2 _ => ih _ rdev2 _

theorem yields_removeDirentry (v : Volume) (dir : Vinode) (total : Int) (i : Nat) :
    Yields bad (removeDirentry v dir total i) (fun r =>
      r.2.ref = dir.ref ∧ r.2.type = dir.type ∧ Fits32 r.2.size) := by
  have hfree : ∀ b, Yields bad (freeEmptyBlock v.sb dir total b)
      (fun r => r.2.ref = dir.ref ∧ r.2.type = dir.type) := by
    intro b
    unfold freeEmptyBlock
    split
    · exact (yields_rfsFreeBlock v.sb b).bind fun sb _ => .of_ok ⟨rfl, rfl⟩
    · exact .of_ok ⟨rfl, rfl⟩
  refine (yields_addrAt _ _).bind fun b _ => ?_
  refine (yields_ramdiskRead v.dev b).bind fun rdev1 _ => ?_
  refine (yields_shiftBlocks _ _ _ _ _).bind fun r _ => ?_
  refine (yields_addrAt _ _).bind fun b' _ => ?_
  refine (yields_ramdiskWrite _ b').bind fun rdev2 _ => ?_
  refine (hfree b').bind fun r' hr' => ?_
  refine (yields_rfsWriteDinode rdev2 _ _).bind fun rdev3 _ => ?_
  exact .of_ok ⟨hr'.1, hr'.2, fits_wrap32 _⟩

end

/-! ## Objects in memory -/

section

variable {bad : Halt → Prop} [Halt.Spares bad] {s : Vfs} {c : Option Nat} {d p : Nat} {e : Dentry}
  {v : Vinode}

theorem Vfs.yields_rfsInode (s : Vfs) (d : Nat) :
    Yields bad (s.rfsInode d) (fun p => s.points d = some p) := by
  refine (s.yields_dentry d).bind fun e he => ?_
  cases hi : e.inode with
  | null => exact yields_access .undefined
  | host => exact yields_access .foreign
  | rfs p => exact .of_ok (Vfs.points_of_inode he hi)

theorem Vfs.yields_inodeType (s : Vfs) (d : Nat) :
    Yields bad (s.inodeType d) (fun type => type = R_FILE → ∃ p v, s.points d = some p ∧
      s.rfs.vinodes p = some v ∧ v.type = R_FILE) := by
  refine (s.yields_dentry d).bind fun e he => ?_
  cases hi : e.inode with
  | null => exact yields_access .undefined
  | host => exact .of_ok fun hdir => absurd hdir.symm R_FILE_ne_R_DIR
  | rfs p =>
    refine (s.rfs.yields_vinode p).bind fun v hv => ?_
    exact .of_ok fun hfile => ⟨p, v, Vfs.points_of_inode he hi, hv, hfile⟩

theorem Vfs.Held.hashPutVinode (h : s.Held c) (p : Nat) :
    Yields bad (CabbagePKE.hashPutVinode s p) (fun s' => s'.Held c) := by
  refine (s.rfs.yields_vinode p).bind fun v hv => ?_
  have hlt : p < s.rfs.nextVinode := by
    by_contra hle
    simp [h.freshVinode p (by omega)] at hv
  split
  · exact .of_ok h
  · refine .of_ok (h.rehash fun i q hq => ?_)
    rcases update_eq_some_iff.mp hq with ⟨-, hq⟩ | ⟨-, hq⟩
    · cases hq
      exact hlt
    · exact h.hashed i q hq

theorem Vfs.Held.hashEraseVinode (h : s.Held c) (p : Nat) :
    Yields bad (CabbagePKE.hashEraseVinode s p) (fun s' => s'.Held c ∧ s'.points = s.points ∧
      s'.files = s.files) := by
  refine (s.rfs.yields_vinode p).bind fun v _ => ?_
  split
  · exact .of_ok ⟨h, rfl, rfl⟩
  · refine .of_ok ⟨h.rehash fun i q hq => ?_, rfl, rfl⟩
    rcases update_eq_some_iff.mp hq with ⟨-, hq⟩ | ⟨-, hq⟩
    · cases hq
    · exact h.hashed i q hq

theorem Vfs.Held.hashPutDentry (h : s.Held c) (d : Nat) :
    Yields bad (CabbagePKE.hashPutDentry s d) (fun s' => s'.Held c) := by
  refine (s.yields_dentry d).bind fun e _ => ?_
  split
  · exact .of_ok h
  · exact .of_ok (h.rehash h.hashed)

theorem Vfs.Held.pointDentry (h : s.Held c) (hd : s.dentries d = some e) (hnull : e.inode = .null)
    (p : Nat) : Yields bad (CabbagePKE.pointDentry s d p) (fun s' => s'.Held c ∧
      s'.points = update s.points d (some p) ∧ s'.rfs.nextVinode = s.rfs.nextVinode) := by
  have hden : s.dentry d = .ok e := by rw [Vfs.dentry, hd]
  unfold CabbagePKE.pointDentry Vfs.addRef
  rw [hden, ok_bind]
  refine (Rfs.yields_vinode _ p).bind fun v hv => ?_
  have hv' := hv
  have hle := h.refs p v hv'
  have hcount : (s.setVinode p { v with ref := v.ref + 1 }).Held c := h.setRef hv' (by omega)
  have hpoint := hcount.point (p := p) (v := { v with ref := v.ref + 1 }) hd hnull
    (update_self ..) (Int.add_le_add_right hle 1)
  exact .of_ok ⟨hpoint, s.points_setDentry d _, rfl⟩

theorem Vfs.Held.shareVinode {found : Nat} (h : s.Held c) (hd : s.dentries d = some e)
    (hnull : e.inode = .null) (hfound : ∀ k, s.points k ≠ some found)
    (hhash : ∀ i, s.vinodeHash i ≠ some found) :
    Yields bad (CabbagePKE.shareVinode s d found) (fun s' => s'.Held c) := by
  refine (s.rfs.yields_vinode found).bind fun v _ => ?_
  cases hget : hashGetVinode s v.inum with
  | none =>
    refine (h.pointDentry hd hnull found).bind fun s' hs' => ?_
    exact hs'.1.hashPutVinode found
  | some same =>
    have hne : same ≠ found := by
      rintro rfl
      unfold hashGetVinode at hget
      split at hget
      · cases hget
      · exact hhash _ hget
    refine (h.pointDentry hd hnull same).bind fun s' hs' => ?_
    refine .of_ok (hs'.1.freeVinode fun k hk => ?_)
    rw [hs'.2.1] at hk
    rcases update_eq_some_iff.mp hk with ⟨-, hk⟩ | ⟨-, hk⟩
    · exact hne (Option.some.inj hk)
    · exact hfound k hk

end

/-! ## Path lookup -/

section

variable {bad : Halt → Prop} [Halt.Spares bad] {s : Vfs} {c : Option Nat}

theorem yields_viopLookup (s : Vfs) (parent : Nat) (name : Name) :
    Yields bad (viopLookup s parent name) (fun r =>
      (∃ rdev, r = (none, { s with rfs := s.rfs.setDev rdev })) ∨
      ∃ vol v, r = (some s.rfs.nextVinode, { s with rfs := s.rfs.fetched vol v }) ∧ v.ref = 0 ∧
        Fits32 v.size) := by
  refine (s.yields_rfsInode parent).bind fun dir _ => ?_
  refine (yields_rfsLookup s.rfs dir name).bind fun r hr => ?_
  rcases hr with ⟨rdev, rfl⟩ | ⟨vol, v, rfl, href, hfits⟩
  · exact .of_ok (.inl ⟨rdev, rfl⟩)
  · exact .of_ok (.inr ⟨vol, v, rfl, href, hfits⟩)

theorem Vfs.Held.lookupToken (h : s.Held c) (parent : Nat) (token : Name) :
    Yields bad (CabbagePKE.lookupToken s parent token) (fun r => r.2.Held c) := by
  unfold CabbagePKE.lookupToken
  cases hashGetDentry s parent token with
  | some d => exact .of_ok h
  | none =>
    have hnew := h.allocVfsDentry token (some parent)
    have hd : (CabbagePKE.allocVfsDentry s token (some parent)).2.dentries s.nextDentry
        = some { name := token, dRef := 0, inode := .null, parent := some parent } :=
      update_self ..
    have hunused : ∀ f, (CabbagePKE.allocVfsDentry s token (some parent)).2.user c f
        ≠ some s.nextDentry := hnew.unused hd (Int.lt_irrefl 0)
    refine (yields_viopLookup _ parent token).bind fun r hr => ?_
    rcases hr with ⟨rdev, rfl⟩ | ⟨vol, v, rfl, href, hfits⟩
    · exact .of_ok ((hnew.setDev rdev).freeDentry hd hunused)
    · have hfetched := hnew.fetched vol href hfits
      refine (hfetched.shareVinode hd rfl ?_ ?_).bind fun s1 hs1 => ?_
      · exact fun k hk => absurd (hnew.points_lt hk) (lt_irrefl _)
      · exact fun i hi => absurd (hnew.hashed i _ hi) (lt_irrefl _)
      · exact (hs1.hashPutDentry _).bind fun s2 hs2 => .of_ok hs2

theorem Vfs.Held.walk (names : List Name) (h : s.Held c) (this parent : Nat) :
    Yields bad (CabbagePKE.walk names s this parent) (fun r => r.2.Held c) := by
  induction names generalizing s this parent with
  | nil => exact .of_ok h
  | cons token rest ih =>
    rw [CabbagePKE.walk]
    split
    · exact ih h this parent
    split
    · refine (s.yields_dentry this).bind fun e _ => ?_
      cases e.parent with
      | none => exact .of_ok h
      | some up => exact ih h up parent
    · refine (h.lookupToken this token).bind fun r hr => ?_
      obtain ⟨found, s1⟩ := r
      cases found with
      | none => exact .of_ok hr
      | some d => exact ih hr d this

theorem Vfs.Held.lookupFinalDentry (h : s.Held c) (path : Path) (parent : Nat) :
    Yields bad (CabbagePKE.lookupFinalDentry s path parent) (fun r => r.2.Held c) := by
  unfold CabbagePKE.lookupFinalDentry
  split
  · exact yields_access .undefined
  · exact h.walk _ _ _

end

/-! ## The panics for an offset -/

/-- The panics of `rfs_read` and `rfs_write` for an offset past the end of the file. -/
def Halt.PastEnd : Halt → Prop
  | .panic fmt _ => fmt = "rfs_read:offset should less than file size!" ∨
      fmt = "rfs_write:offset should less than file size!"
  | _ => False

instance : Halt.Spares Halt.PastEnd where
  access e h := by
    cases h with
    | undefined => exact not_false
    | foreign => exact not_false
    | read => simp [Halt.PastEnd]
    | write blkno => simp [Halt.PastEnd]
    | full => simp [Halt.PastEnd]

/-! ## Opening and closing -/

def Vfs.sizedAt (s : Vfs) (d : Nat) : Bool :=
  match (s.points d).bind s.rfs.vinodes with
  | some v => v.type ≠ R_FILE || 0 ≤ v.size
  | none => true

/-- The file that `vfs_open` opens does not have a negative size. -/
def Vfs.opensSized (s : Vfs) (path : Path) (flags cwd : Nat) : Bool :=
  match openTarget s path flags cwd with
  | .ok (some d, s') => s'.sizedAt d
  | _ => true

section

variable {s : Vfs} {c : Option Nat} {d p f : Nat} {e : Dentry} {v : Vinode} {x : File}

theorem Vfs.Held.rfsCreate (h : s.Held c) (dir : Nat) (name : Name) :
    Yields Halt.PastEnd (CabbagePKE.rfsCreate s.rfs dir name)
      (fun r => Vfs.Held { s with rfs := r.2 } c) := by
  refine (s.rfs.yields_vinode dir).bind fun _ _ => ?_
  refine (yields_allocDinode s.rfs.vol R_FILE (by simp [Halt.PastEnd])).bind fun r _ => ?_
  obtain ⟨inum, vol⟩ := r
  refine (yields_loadVinode { s.rfs with vol := vol } inum).bind fun r hr => ?_
  obtain ⟨vol', v, rfl, href, hfits⟩ := hr
  have hloaded := h.fetched vol' href hfits
  refine (yields_addDirentry _ dir name inum).bind fun r hr => ?_
  exact .of_ok (hloaded.kept hr)

theorem Vfs.Held.bindDentry {bad : Halt → Prop} [Halt.Spares bad] (h : s.Held c)
    (hd : s.dentries d = some e) (hnull : e.inode = .null) (p : Nat) :
    Yields bad (CabbagePKE.bindDentry s d p) (fun s' => s'.Held c) := by
  refine (h.pointDentry hd hnull p).bind fun s1 hs1 => ?_
  exact (hs1.1.hashPutDentry d).bind fun s2 hs2 => hs2.hashPutVinode p

theorem Vfs.Held.openMissing (h : s.Held c) (path : Path) (flags : Nat) (l : Lookup) :
    Yields Halt.PastEnd (CabbagePKE.openMissing s path flags l) (fun r => r.2.Held c) := by
  unfold CabbagePKE.openMissing
  split
  · exact .of_ok h
  refine (yields_missesBaseName l path).bind fun r _ => ?_
  cases r with
  | none => exact .of_ok h
  | some name =>
    have hnew := h.allocVfsDentry name (some l.parent)
    refine (Vfs.yields_rfsInode _ l.parent).bind fun dir _ => ?_
    refine (hnew.rfsCreate dir name).bind fun r hr => ?_
    obtain ⟨newInode, fs⟩ := r
    cases newInode with
    | none => exact .of_error (by simp [Halt.PastEnd])
    | some p =>
      have hd : (CabbagePKE.allocVfsDentry s name (some l.parent)).2.dentries s.nextDentry
          = some { name := name, dRef := 0, inode := .null, parent := some l.parent } :=
        update_self ..
      exact (hr.bindDentry hd rfl p).bind fun s1 hs1 => .of_ok hs1

theorem Vfs.Held.openTarget (h : s.Held c) (path : Path) (flags cwd : Nat) :
    Yields Halt.PastEnd (CabbagePKE.openTarget s path flags cwd) (fun r => r.2.Held c) := by
  refine (h.lookupFinalDentry path cwd).bind fun r hr => ?_
  obtain ⟨l, s1⟩ := r
  dsimp only
  cases l.found with
  | some d => exact .of_ok hr
  | none => exact hr.openMissing path flags l

theorem Vfs.Held.openDentry (h : s.Held none) (hsized : s.sizedAt d = true) (flags : Nat) :
    Yields Halt.PastEnd (CabbagePKE.openDentry s d flags) (fun r => r.2.Held none) := by
  refine (s.yields_inodeType d).bind fun type htype => ?_
  split
  · exact .of_ok h
  rename_i hfile
  obtain ⟨p, v, hp, hv, hvtype⟩ := htype (not_not.mp hfile)
  have hmode : Yields Halt.PastEnd (openMode flags) (fun _ => True) := by
    unfold openMode
    split
    · exact .of_ok trivial
    · exact .of_ok trivial
    · exact .of_ok trivial
    · exact .of_error (by simp [Halt.PastEnd])
  have hsize : 0 ≤ v.size := by simpa [Vfs.sizedAt, hp, hv, hvtype] using hsized
  have halloc : ∀ readable writable, Yields Halt.PastEnd (allocVfsFile s d readable writable)
      (fun r => r.2.Held none) := by
    intro readable writable
    refine (s.yields_dentry d).bind fun e he => ?_
    exact .of_ok (h.openFile he ⟨rfl, rfl⟩ ⟨p, v, hp, hv, hvtype, Int.le_refl 0, hsize⟩)
  refine hmode.bind fun mode _ => ?_
  exact (halloc mode.1 mode.2).bind fun r hr => .of_ok hr

theorem Vfs.Held.vfsOpen {path : Path} {flags cwd : Nat} (h : s.Held none)
    (hsized : s.opensSized path flags cwd = true) :
    Yields Halt.PastEnd (CabbagePKE.vfsOpen s path flags cwd) (fun r => r.2.Held none) := by
  have htarget : Yields Halt.PastEnd (CabbagePKE.openTarget s path flags cwd)
      (fun r => r.2.Held none) := h.openTarget path flags cwd
  unfold CabbagePKE.vfsOpen
  unfold Vfs.opensSized at hsized
  cases hrun : CabbagePKE.openTarget s path flags cwd with
  | error e => exact .of_error (htarget.2 e hrun)
  | ok r =>
    have hheld := htarget.1 r hrun
    rw [hrun] at hsized
    obtain ⟨target, s1⟩ := r
    cases target with
    | none => exact .of_ok hheld
    | some d => exact hheld.openDentry hsized flags

theorem Vfs.Held.dropDentry {bad : Halt → Prop} [Halt.Spares bad] (h : s.Held c)
    (hd : s.dentries d = some e) (href : ¬ 0 < e.dRef) (hp : s.points d = some p) :
    Yields bad (CabbagePKE.dropDentry s d p) (fun s' => s'.Held c ∧ s'.files = s.files) := by
  obtain ⟨v, hv⟩ := h.pointed d p hp
  have hfreed := h.freeDentry hd (h.unused hd href)
  have hset := holders_set (n := s.nextDentry) (p := s.points) (k := p) (h.dentry_lt hd) none
  have hnone : ¬ (none : Option Nat) = some p := by simp
  rw [if_pos hp, if_neg hnone] at hset
  have hle := h.refs p v hv
  have hcover : (holders (s.freeDentry d).nextDentry (s.freeDentry d).points p : Int)
      ≤ v.ref + -1 := by
    rw [Vfs.points_freeDentry]
    show ((holders s.nextDentry (update s.points d none) p : Nat) : Int) ≤ v.ref + -1
    omega
  have hcounted := hfreed.setRef (p := p) hv hcover
  rw [dropDentry_eq hd href hv]
  exact .of_ok ⟨hcounted.rehash hcounted.hashed, rfl⟩

theorem Vfs.Held.evictVinode {bad : Halt → Prop} [Halt.Spares bad] (h : s.Held c) (p : Nat) :
    Yields bad (CabbagePKE.evictVinode s p) (fun s' => s'.Held c ∧ s'.files = s.files) := by
  refine (s.rfs.yields_vinode p).bind fun node hnode => ?_
  split
  · rename_i href
    refine (yields_rfsWriteDinode _ _ _).bind fun rdev _ => ?_
    refine ((h.setDev rdev).hashEraseVinode p).bind fun s1 hs1 => ?_
    obtain ⟨hheld, hpts, hfiles⟩ := hs1
    refine .of_ok ⟨hheld.freeVinode ?_, hfiles⟩
    rw [hpts]
    exact h.unpointed hnode (by omega)
  · exact .of_ok ⟨h, rfl⟩

theorem Vfs.Held.vfsClose (h : s.Held none) (hx : s.files f = some x) (hopen : x.opened = true) :
    Yields Halt.PastEnd (CabbagePKE.vfsClose s f) (fun r => r.2.Held none) := by
  have hfile : s.file f = .ok x := by rw [Vfs.file, hx]
  rw [CabbagePKE.vfsClose, hfile, ok_bind]
  refine (s.yields_inodeType x.dentry).bind fun type _ => ?_
  split
  · exact .of_ok h
  refine (s.yields_rfsInode x.dentry).bind fun p hp => ?_
  refine (s.yields_dentry x.dentry).bind fun e he => ?_
  have hclosing := h.closing hx hopen he
  have hpts : (s.setDentry x.dentry { e with dRef := e.dRef - 1 }).points = s.points :=
    Vfs.points_setDentry_same he rfl
  have hdrop : Yields Halt.PastEnd (closeDentry (s.setDentry x.dentry { e with dRef := e.dRef - 1 })
      x.dentry p (e.dRef - 1)) (fun s' => s'.Held (some f) ∧ s'.files = s.files) := by
    unfold closeDentry
    split
    · rename_i hzero
      have hden : (s.setDentry x.dentry { e with dRef := e.dRef - 1 }).dentries x.dentry
        = some { e with dRef := e.dRef - 1 } := update_self ..
      refine (hclosing.dropDentry hden ?_ ?_).bind fun s1 hs1 => ?_
      · dsimp only
        omega
      · rwa [hpts]
      · exact (hs1.1.evictVinode p).mono fun s2 hs2 => ⟨hs2.1, hs2.2.trans hs1.2⟩
    · exact .of_ok ⟨hclosing, rfl⟩
  refine hdrop.bind fun s1 hs1 => ?_
  refine .of_ok (hs1.1.closed ?_)
  rwa [hs1.2]

end

/-! ## Names -/

/-- The name of a file that `vfs_unlink` removes is removed from a directory. -/
def Vfs.unlinksFromDir (s : Vfs) (path : Path) (cwd : Nat) : Bool :=
  match lookupFinalDentry s path cwd with
  | .ok (l, s') => l.found.all (fun d => s'.isDir d || s'.isDir l.parent)
  | .error _ => true

section

variable {s : Vfs} {c : Option Nat} {d p dir : Nat} {e : Dentry} {v : Vinode} {fs : Rfs}

theorem Vfs.type_of_isDir (hd : s.isDir d = true) (hp : s.points d = some p)
    (hv : s.rfs.vinodes p = some v) : v.type = R_DIR := by
  obtain ⟨e, he, hi⟩ := Vfs.exists_of_points hp
  simpa [Vfs.isDir, Vfs.inodeType, Vfs.dentry, he, hi, Rfs.vinode, hv] using hd

theorem yields_rfsUnlink (name : Name) (node : Nat)
    (hdir : ∀ v, fs.vinodes dir = some v → v.type = R_DIR) :
    Yields Halt.PastEnd (rfsUnlink fs dir name node) (fun r => fs.Kept r.2) := by
  have hentry : ∀ (rdev : RfsDevice) (total : Int) (i : Nat) (inum : Int), Yields Halt.PastEnd
      (unlinkEntry (fs.setDev rdev) dir total i inum node) (fun fs' => fs.Kept fs') := by
    intro rdev total i inum
    refine (yields_rfsReadDinode _ inum).bind fun r _ => ?_
    refine ((fs.setDev rdev).yields_vinode node).bind fun v hv => ?_
    split
    · exact .of_error not_false
    have hlinks : v.Kept { v with nlinks := wrap32 (v.nlinks - 1) } :=
      ⟨rfl, rfl, id, fun _ => Int.le_refl _⟩
    have hset : fs.Kept ((fs.setDev rdev).setVinode node
        { v with nlinks := wrap32 (v.nlinks - 1) }) :=
      Rfs.Kept.setVinode (show fs.vinodes node = some v from hv) hlinks (fs.setDev rdev).vol
    refine (yields_releaseDinode _ _).bind fun r' _ => ?_
    refine (yields_rfsWriteDinode _ _ _).bind fun rdev' _ => ?_
    refine (Rfs.yields_vinode _ dir).bind fun w hw => ?_
    refine (yields_removeDirentry _ w total i).bind fun r'' hr'' => ?_
    obtain ⟨href, htype, hfits⟩ := hr''
    obtain ⟨w0, hw0, hkept0⟩ := hset.back dir w hw
    have hwdir : w.type = R_DIR := hkept0.type.trans (hdir w0 hw0)
    have hkept : w.Kept r''.2 := ⟨href, htype, fun _ => hfits, fun hfile =>
      absurd (hfile.symm.trans hwdir) R_FILE_ne_R_DIR⟩
    exact .of_ok (hset.trans (Rfs.Kept.setVinode hw hkept _))
  refine (fs.yields_vinode dir).bind fun v _ => ?_
  refine (yields_findDirentry _ name _ 0 fs.vol.dev).bind fun r _ => ?_
  obtain ⟨found, rdev⟩ := r
  cases found with
  | none =>
    dsimp only
    split
    · exact yields_access .undefined
    · exact .of_ok (.of_eq rfl rfl)
  | some i => exact (hentry rdev _ i _).bind fun fs' hfs' => .of_ok hfs'

theorem Vfs.Held.forgetDead (h : s.Held c) (p : Nat) :
    Yields Halt.PastEnd (CabbagePKE.forgetDead s p) (fun s' => s'.Held c) := by
  refine (s.rfs.yields_vinode p).bind fun node hnode => ?_
  split
  · split
    · exact .of_error not_false
    · rename_i href
      refine (h.hashEraseVinode p).bind fun s1 hs1 => ?_
      obtain ⟨hheld, hpts, -⟩ := hs1
      refine .of_ok (hheld.freeVinode ?_)
      rw [hpts]
      exact h.unpointed hnode (by omega)
  · exact .of_ok h

theorem Vfs.Held.unlinkDentry {parent : Nat} (h : s.Held c) (hd : s.dentries d = some e)
    (href : ¬ 0 < e.dRef) (hdir : s.isDir parent = true) :
    Yields Halt.PastEnd (CabbagePKE.unlinkDentry s d parent) (fun r => r.2.Held c) := by
  have hden : s.dentry d = .ok e := by rw [Vfs.dentry, hd]
  rw [CabbagePKE.unlinkDentry, hden, ok_bind]
  refine (s.yields_rfsInode d).bind fun p hp => ?_
  refine (s.yields_rfsInode parent).bind fun dir hparent => ?_
  have htype : ∀ v, s.rfs.vinodes dir = some v → v.type = R_DIR := fun v hv =>
    Vfs.type_of_isDir hdir hparent hv
  refine (yields_rfsUnlink e.name p htype).bind fun r hr => ?_
  have hkept := h.kept hr
  dsimp only at hkept ⊢
  split
  · exact .of_ok hkept
  · refine (hkept.dropDentry hd href hp).bind fun s1 hs1 => ?_
    exact (hs1.1.forgetDead p).bind fun s2 hs2 => .of_ok hs2

theorem Vfs.Held.vfsUnlink {path : Path} {cwd : Nat} (h : s.Held c)
    (hdir : s.unlinksFromDir path cwd = true) :
    Yields Halt.PastEnd (CabbagePKE.vfsUnlink s path cwd) (fun r => r.2.Held c) := by
  have hlook : Yields Halt.PastEnd (CabbagePKE.lookupFinalDentry s path cwd)
      (fun r => r.2.Held c) := h.lookupFinalDentry path cwd
  unfold CabbagePKE.vfsUnlink
  unfold Vfs.unlinksFromDir at hdir
  cases hrun : CabbagePKE.lookupFinalDentry s path cwd with
  | error e => exact .of_error (hlook.2 e hrun)
  | ok r =>
    have hheld := hlook.1 r hrun
    rw [hrun] at hdir
    obtain ⟨l, s1⟩ := r
    rw [ok_bind]
    dsimp only at hheld hdir ⊢
    cases hl : l.found with
    | none => exact .of_ok hheld
    | some d =>
      rw [hl, Option.all_some, Bool.or_eq_true] at hdir
      refine (s1.yields_inodeType d).bind fun type htype => ?_
      split
      · exact .of_ok hheld
      rename_i hfile
      obtain ⟨p, v, hp, hv, hvtype⟩ := htype (not_not.mp hfile)
      have hparent : s1.isDir l.parent = true := hdir.resolve_left fun hd =>
        R_FILE_ne_R_DIR (hvtype.symm.trans (Vfs.type_of_isDir hd hp hv))
      refine (s1.yields_dentry d).bind fun e he => ?_
      split
      · exact .of_ok hheld
      rename_i href
      exact hheld.unlinkDentry he href hparent

theorem Vfs.Held.linkMissing (h : s.Held c) (newpath : Path) (l : Lookup) (old parent : Nat) :
    Yields Halt.PastEnd (CabbagePKE.linkMissing s newpath l old parent) (fun r => r.2.Held c) := by
  refine (yields_missesBaseName l newpath).bind fun r _ => ?_
  cases r with
  | none => exact .of_ok h
  | some name =>
    refine (s.yields_rfsInode old).bind fun p _ => ?_
    have hnew := h.allocVfsDentry name (some parent)
    have hd : (CabbagePKE.allocVfsDentry s name (some parent)).2.dentries s.nextDentry
        = some { name := name, dRef := 0, inode := .null, parent := some parent } :=
      update_self ..
    refine (hnew.pointDentry hd rfl p).bind fun s1 hs1 => ?_
    refine (s1.yields_rfsInode parent).bind fun dir _ => ?_
    refine (yields_rfsLink s1.rfs dir name p).bind fun r hr => ?_
    refine ((hs1.1.kept hr).hashPutDentry _).bind fun s2 hs2 => ?_
    exact .of_ok hs2

theorem Vfs.Held.vfsLink (h : s.Held c) (oldpath newpath : Path) (cwd : Nat) :
    Yields Halt.PastEnd (CabbagePKE.vfsLink s oldpath newpath cwd) (fun r => r.2.Held c) := by
  refine (h.lookupFinalDentry oldpath cwd).bind fun r hr => ?_
  obtain ⟨lOld, s1⟩ := r
  dsimp only at hr ⊢
  cases lOld.found with
  | none => exact .of_ok hr
  | some old =>
    refine (s1.yields_inodeType old).bind fun type _ => ?_
    split
    · exact .of_ok hr
    refine (hr.lookupFinalDentry newpath cwd).bind fun r hr' => ?_
    obtain ⟨lNew, s2⟩ := r
    cases lNew.found with
    | some _ => exact .of_ok hr'
    | none => exact hr'.linkMissing newpath lNew old cwd

end

/-! ## Reading, writing and seeking -/

section

variable {s : Vfs} {f : Nat} {x : File} {vol vol' : Volume} {node node' : Vinode} {offset : Int}

section

variable {bad : Halt → Prop} [Halt.Spares bad]

theorem yields_readChunk (v : Volume) (f : Vinode) (buffer : Mem) (o first n : Nat) (k : Int) :
    Yields bad (readChunk v f buffer o first n k) (fun _ => True) := by
  refine (yields_addrAt f.toDinode k).bind fun b _ => ?_
  exact (yields_ramdiskRead v.dev b).bind fun dev _ => .of_ok trivial

theorem yields_readBlocks (f : Vinode) (n : Nat) (v : Volume) (buffer : Mem) (o : Nat) (k : Int) :
    Yields bad (readBlocks f n v buffer o k) (fun _ => True) := by
  induction n generalizing v buffer o k with
  | zero => exact .of_ok trivial
  | succ n ih => exact (yields_readChunk v f buffer o 0 RFS_BLKSIZE k).bind fun r _ => ih _ _ _ _

theorem yields_readData (v : Volume) (f : Vinode) (buffer : Mem) (len : Nat) (offset : Int) :
    Yields bad (readData v f buffer len offset) (fun _ => True) := by
  have hrest : ∀ (v : Volume) (buffer : Mem) (o : Nat) (k times remain : Int),
      Yields bad (readRest v f buffer o k times remain) (fun _ => True) := by
    intro v buffer o k times remain
    unfold readRest
    split
    · exact .of_ok trivial
    · refine (yields_readBlocks f _ v buffer o k).bind fun r _ => ?_
      dsimp only
      split
      · exact yields_readChunk _ _ _ _ _ _ _
      · exact .of_ok trivial
  have hfirst : ∀ align n k : Int, Yields bad (readFirst v f buffer align n k) (fun _ => True) := by
    intro align n k
    refine (yields_addrAt f.toDinode k).bind fun b _ => ?_
    refine (yields_ramdiskRead v.dev b).bind fun dev _ => ?_
    split
    · exact yields_access .undefined
    · exact .of_ok trivial
  exact (hfirst _ _ _).bind fun r _ => hrest _ _ _ _ _ _

end

theorem yields_rfsRead (buf : Mem) (len : Nat) (hlo : 0 ≤ offset) (hhi : offset ≤ node.size)
    (hfits : Fits32 node.size) :
    Yields Halt.PastEnd (rfsRead vol node buf len offset)
      (fun r => 0 ≤ r.2.1 ∧ r.2.1 ≤ node.size) := by
  rw [rfsRead, if_neg (by omega)]
  refine (yields_readData _ _ _ _ _).bind fun r _ => .of_ok ?_
  dsimp only
  generalize hn : (if node.size < offset + len then (node.size - offset).toNat else len) = n
  have hend : offset + n ≤ node.size := by split at hn <;> omega
  have hwrap : wrap32 (offset + n) = offset + n := by
    unfold Fits32 at hfits
    exact wrap32_of_fits ⟨by omega, by omega⟩
  rw [hwrap]
  omega

theorem yields_rfsWrite_inside (buf : Mem) {len : Nat} (hlo : 0 ≤ offset)
    (hhi : offset ≤ node.size) (hmax : offset + len ≤ DIRECT_BLKNUM * RFS_BLKSIZE) :
    Yields Halt.PastEnd (rfsWrite vol node buf len offset)
      (fun r => node.Kept r.2.2.2 ∧ 0 ≤ r.2.1 ∧ r.2.1 ≤ r.2.2.2.size) := by
  have hwrap : wrap32 (offset + len) = offset + len := by
    unfold DIRECT_BLKNUM RFS_BLKSIZE at hmax
    exact wrap32_of_fits ⟨by omega, by omega⟩
  rw [rfsWrite, if_neg (by omega)]
  refine (yields_writeData vol node buf len offset).bind fun r hr => ?_
  obtain ⟨vol', node'⟩ := r
  obtain ⟨blocks, addrs, rfl⟩ := hr
  rw [hwrap]
  refine .of_ok ⟨⟨rfl, rfl, ?_, ?_⟩, ?_⟩
  · intro hfits
    split
    · rw [← hwrap]
      exact fits_wrap32 _
    · exact hfits
  · intro _
    dsimp only
    split <;> omega
  · dsimp only
    split <;> omega

theorem Vfs.Held.file (h : s.Held none) (hx : s.files f = some x) (hopen : x.opened = true) :
    ∃ p node, s.points x.dentry = some p ∧ s.rfs.vinodes p = some node ∧ node.type = R_FILE ∧
      0 ≤ x.offset ∧ x.offset ≤ node.size ∧ s.file f = .ok x ∧
      s.inodeType x.dentry = .ok R_FILE ∧ s.rfsInode x.dentry = .ok p ∧
      s.rfs.vinode p = .ok node := by
  obtain ⟨p, node, hp, hnode, htype, hlo, hhi⟩ := h.inFile f x hx (Vfs.user_of_opened hx hopen)
  obtain ⟨e, he, hi⟩ := Vfs.exists_of_points hp
  have hvin : s.rfs.vinode p = .ok node := by rw [Rfs.vinode, hnode]
  refine ⟨p, node, hp, hnode, htype, hlo, hhi, ?_, ?_, Vfs.rfsInode_eq he hi, hvin⟩
  · rw [Vfs.file, hx]
  · simp [Vfs.inodeType, Vfs.dentry, he, hi, hvin, htype]

theorem Vfs.Held.vfsRead (h : s.Held none) (hx : s.files f = some x) (hopen : x.opened = true)
    (buf : Mem) (count : Nat) :
    Yields Halt.PastEnd (CabbagePKE.vfsRead s f buf count) (fun r => r.2.Held none) := by
  obtain ⟨p, node, hp, hnode, htype, hlo, hhi, hfile, hitype, hinode, hvin⟩ := h.file hx hopen
  rw [CabbagePKE.vfsRead, hfile, ok_bind]
  split
  · exact .of_ok h
  rw [hitype, ok_bind, if_neg (not_not_intro rfl), hinode, ok_bind, hvin, ok_bind]
  refine (yields_rfsRead buf count hlo hhi (h.fits p node hnode)).bind fun r hr => ?_
  obtain ⟨n, offset, buf', vol⟩ := r
  have hread : Vfs.Held { s with rfs := { s.rfs with vol := vol } } none := h.kept (.of_eq rfl rfl)
  exact .of_ok (hread.setOffset hx hopen ⟨p, node, hp, hnode, htype, hr.1, hr.2⟩)

theorem Vfs.Held.vfsWrite (h : s.Held none) (hx : s.files f = some x) (hopen : x.opened = true)
    (buf : Mem) {len : Nat} (hmax : x.offset + len ≤ DIRECT_BLKNUM * RFS_BLKSIZE) :
    Yields Halt.PastEnd (CabbagePKE.vfsWrite s f buf len) (fun r => r.2.Held none) := by
  obtain ⟨p, node, hp, hnode, htype, hlo, hhi, hfile, hitype, hinode, hvin⟩ := h.file hx hopen
  rw [CabbagePKE.vfsWrite, hfile, ok_bind]
  split
  · exact .of_ok h
  rw [hitype, ok_bind, if_neg (not_not_intro rfl), hinode, ok_bind, hvin, ok_bind]
  refine (yields_rfsWrite_inside buf hlo hhi hmax).bind fun r hr => ?_
  obtain ⟨n, offset, vol, node'⟩ := r
  obtain ⟨hkept, hlo', hhi'⟩ := hr
  have hwritten := h.kept (Rfs.Kept.setVinode hnode hkept vol)
  have hin : Vfs.InFile { s with rfs := { s.rfs.setVinode p node' with vol := vol } }
      { x with offset := offset } :=
    ⟨p, node', hp, update_self .., hkept.type.trans htype, hlo', hhi'⟩
  exact .of_ok (hwritten.setOffset hx hopen hin)

theorem rfsLseek_inside (newOffset whence : Int) (hlo : 0 ≤ offset) (hhi : offset ≤ node.size)
    (hfits : Fits32 node.size) :
    0 ≤ (rfsLseek node newOffset whence offset).2 ∧
      (rfsLseek node newOffset whence offset).2 ≤ node.size := by
  have hwrap : ∀ o, 0 ≤ o → o ≤ node.size → wrap32 o = o := by
    intro o hlo hhi
    unfold Fits32 at hfits
    exact wrap32_of_fits ⟨by omega, by omega⟩
  unfold rfsLseek
  split
  · split
    · exact ⟨hlo, hhi⟩
    · rw [hwrap _ (by omega) (by omega)]
      omega
  · split
    · split
      · exact ⟨hlo, hhi⟩
      · rw [hwrap _ (by omega) (by omega)]
        omega
    · exact ⟨hlo, hhi⟩

theorem rfsLseek_failed {newOffset whence : Int}
    (h : (rfsLseek node newOffset whence offset).1 ≠ 0) :
    (rfsLseek node newOffset whence offset).2 = offset := by
  unfold rfsLseek at h ⊢
  split
  · rename_i hset
    rw [if_pos hset] at h
    split
    · rfl
    · rename_i hin
      rw [if_neg hin] at h
      exact absurd rfl h
  · rename_i hset
    rw [if_neg hset] at h
    split
    · rename_i hcur
      rw [if_pos hcur] at h
      split
      · rfl
      · rename_i hin
        rw [if_neg hin] at h
        exact absurd rfl h
    · rfl

theorem Vfs.Held.vfsLseek (h : s.Held none) (hx : s.files f = some x) (hopen : x.opened = true)
    (newOffset whence : Int) :
    Yields Halt.PastEnd (CabbagePKE.vfsLseek s f newOffset whence)
      (fun r => r.2.Held none ∧ (r.1 < 0 → r.2 = s)) := by
  obtain ⟨p, node, hp, hnode, htype, hlo, hhi, hfile, hitype, hinode, hvin⟩ := h.file hx hopen
  unfold CabbagePKE.vfsLseek
  rw [hfile, ok_bind, hitype, ok_bind, if_neg (not_not_intro rfl), hinode, ok_bind, hvin, ok_bind]
  have hin := rfsLseek_inside newOffset whence hlo hhi (h.fits p node hnode)
  refine .of_ok ⟨h.setOffset hx hopen ⟨p, node, hp, hnode, htype, hin⟩, ?_⟩
  intro hneg
  have hneg' : (if (rfsLseek node newOffset whence x.offset).1 ≠ 0 then -1
    else (rfsLseek node newOffset whence x.offset).2) < 0 := hneg
  by_cases hok : (rfsLseek node newOffset whence x.offset).1 = 0
  · rw [if_neg (not_not_intro hok)] at hneg'
    omega
  · have hself : update s.files f (some x) = s.files := by rw [← hx, update_eq_self]
    show s.setOffset f x (rfsLseek node newOffset whence x.offset).2 = s
    rw [rfsLseek_failed hok, Vfs.setOffset, hself]

end

end CabbagePKE
