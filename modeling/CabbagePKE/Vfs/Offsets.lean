import CabbagePKE.Vfs.Calls

/-!
# Offsets stay inside the file

`rfs_read` and `rfs_write` panic if the offset of a file is past its end. A read,
a write or a seek leaves the offset in the file, and no other call moves the end
of an open file below it, with two exceptions (`offsets_inside`): a file is
opened whose inode has a negative size, and an entry is removed from a regular
file, which `lookup_final_dentry` takes for a directory.
-/

namespace CabbagePKE

open Lib

/-! ## Runs -/

inductive FileCall
  | openFile (path : Path) (flags cwd : Nat)
  | read (f : Nat) (buf : Mem) (count : Nat)
  | write (f : Nat) (buf : Mem) (len : Nat)
  | lseek (f : Nat) (offset whence : Int)
  | close (f : Nat)
  | link (oldpath newpath : Path) (cwd : Nat)
  | unlink (path : Path) (cwd : Nat)

def Vfs.call (s : Vfs) : FileCall → Outcome Vfs
  | .openFile path flags cwd => s.step (.openFile path flags cwd)
  | .read f buf count => (vfsRead s f buf count).map Prod.snd
  | .write f buf len => s.step (.write f buf len)
  | .lseek f offset whence => (vfsLseek s f offset whence).map Prod.snd
  | .close f => s.step (.close f)
  | .link oldpath newpath cwd => s.step (.link oldpath newpath cwd)
  | .unlink path cwd => s.step (.unlink path cwd)

def Vfs.isOpen (s : Vfs) (f : Nat) : Bool := (s.files f).any (fun x => x.opened)

/-- A call goes to an open descriptor, and no file grows past its direct blocks. -/
def Vfs.permits (s : Vfs) : FileCall → Bool
  | .read f _ _ | .lseek f _ _ | .close f => s.isOpen f
  | .write f _ len => s.isOpen f && s.canWrite f len
  | .openFile _ _ _ | .link _ _ _ | .unlink _ _ => true

/-- The file that is opened does not have a negative size, and the name that is removed is
removed from a directory. -/
def Vfs.keepsSizes (s : Vfs) : FileCall → Bool
  | .openFile path flags cwd => s.opensSized path flags cwd
  | .unlink path cwd => s.unlinksFromDir path cwd
  | _ => true

def Vfs.CalledBy (ok : Vfs → FileCall → Prop) (s : Vfs) : Prop :=
  ∃ (rdev : RfsDevice) (stack : Fin DIRECT_BLKNUM → Int) (s₀ : Vfs), (∀ i, Fits32 (stack i)) ∧
    fsInit rdev stack = .ok s₀ ∧ Reaches Vfs.call ok s₀ s

abbrev CallRun (ok : Vfs → FileCall → Prop) (calls : List FileCall) (P : Vfs → Prop) : Prop :=
  ∃ s₀, fsInit { blocks := fun _ _ => 0, iobuffer := fun _ => 0 } (fun _ => 0) = .ok s₀ ∧
    ∃ s, Runs Vfs.call ok s₀ calls s ∧ P s

theorem CallRun.reached {ok : Vfs → FileCall → Prop} {calls : List FileCall} {P : Vfs → Prop}
    (h : CallRun ok calls P) : ∃ s : Vfs, s.CalledBy ok ∧ P s := by
  obtain ⟨s0, hinit, s, hrun, hp⟩ := h
  exact ⟨s, ⟨_, _, s0, fun _ => fits_natCast (x := 0) (by decide), hinit, hrun.reaches .start⟩, hp⟩

section

variable {s : Vfs} {c : FileCall} {f : Nat}

theorem Vfs.exists_of_isOpen (h : s.isOpen f = true) :
    ∃ x, s.files f = some x ∧ x.opened = true := by
  unfold Vfs.isOpen at h
  cases hx : s.files f with
  | none => simp [hx] at h
  | some x =>
    rw [hx] at h
    exact ⟨x, rfl, h⟩

theorem Vfs.Held.call (h : s.Held none) (hok : s.permits c = true) (hsizes : s.keepsSizes c = true) :
    Yields Halt.PastEnd (s.call c) (fun s' => s'.Held none) := by
  cases c with
  | openFile path flags cwd => exact (h.vfsOpen hsizes).map fun r hr => hr
  | read f buf count =>
    obtain ⟨x, hx, hopen⟩ := Vfs.exists_of_isOpen hok
    exact (h.vfsRead hx hopen buf count).map fun r hr => hr
  | write f buf len =>
    rw [Vfs.permits, Bool.and_eq_true] at hok
    obtain ⟨x, hx, hopen⟩ := Vfs.exists_of_isOpen hok.1
    have hmax : x.offset + len ≤ DIRECT_BLKNUM * RFS_BLKSIZE := by
      simpa [Vfs.canWrite, hx] using hok.2
    exact (h.vfsWrite hx hopen buf hmax).map fun r hr => hr
  | lseek f offset whence =>
    obtain ⟨x, hx, hopen⟩ := Vfs.exists_of_isOpen hok
    exact (h.vfsLseek hx hopen offset whence).map fun r hr => hr.1
  | close f =>
    obtain ⟨x, hx, hopen⟩ := Vfs.exists_of_isOpen hok
    exact (h.vfsClose hx hopen).map fun r hr => hr
  | link oldpath newpath cwd => exact (h.vfsLink oldpath newpath cwd).map fun r hr => hr
  | unlink path cwd => exact (h.vfsUnlink hsizes).map fun r hr => hr

theorem mounted_held {v : Volume} {root : Dinode} (h : (mounted v root).Sound)
    (hfits : root.Fits) : (mounted v root).Held none where
  freshVinode := h.freshVinode
  freshDentry := h.freshDentry
  freshFile _ _ := rfl
  hashed i p hi := by
    obtain ⟨w, hw, -⟩ := h.hashed i p hi
    by_contra hle
    simp [h.freshVinode p (by omega)] at hw
  pointed d p hp := by
    obtain ⟨w, hw, -⟩ := h.points_live hp
    exact ⟨w, hw⟩
  refs p w hw := (h.refs p w hw).ge
  users d e he := by
    have hzero : holders 0 ((mounted v root).user none) d = 0 := holders_eq_zero fun _ hlt => by omega
    show ((holders 0 ((mounted v root).user none) d : Nat) : Int) ≤ e.dRef
    rcases mounted_dentries he with ⟨-, rfl⟩ | ⟨-, rfl⟩
    · rw [hzero]
      exact Int.le_refl 0
    · rw [hzero]
      exact Int.le_refl 0
  fits p w hw := by
    obtain ⟨-, rfl⟩ := mounted_vinodes hw
    exact hfits.size
  inFile f x hx := by cases hx

theorem Vfs.CalledBy.held
    (h : s.CalledBy (fun s c => s.permits c = true ∧ s.keepsSizes c = true)) : s.Held none := by
  obtain ⟨rdev, stack, s0, hstack, hinit, hrun⟩ := h
  obtain ⟨vol, hmount, hfresh, hnb⟩ := fsInit_mounted rdev hstack
  cases hinit.symm.trans hmount
  have h0 := mounted_held (hfresh.sound hnb) (rootDinode_new hstack).fits
  refine hrun.invariant (fun s => s.Held none) h0 ?_
  intro s c s' hs hok hstep
  exact (hs.call hok.1 hok.2).1 s' hstep

/-- **Offsets stay inside the file.** In every state of a run in which no file with a negative
size is opened and names are removed from directories only, every open descriptor is at an offset
in its file, no call stops because an offset is past the end, and a seek that fails leaves
everything as it is. -/
theorem offsets_inside
    (h : s.CalledBy (fun s c => s.permits c = true ∧ s.keepsSizes c = true)) :
    (∀ f x, s.files f = some x → x.opened = true → s.InFile x) ∧
    (∀ c, s.permits c = true → s.keepsSizes c = true → ∀ e, s.call c = .error e → ¬ e.PastEnd) ∧
    (∀ f newOffset whence r s', s.isOpen f = true →
      vfsLseek s f newOffset whence = .ok (r, s') → r < 0 → s' = s) := by
  have hheld := h.held
  refine ⟨?_, ?_, ?_⟩
  · intro f x hx hopen
    exact hheld.inFile f x hx (Vfs.user_of_opened hx hopen)
  · intro c hok hsizes
    exact (hheld.call hok hsizes).2
  · intro f newOffset whence r s' hisOpen hrun
    obtain ⟨x, hx, hopen⟩ := Vfs.exists_of_isOpen hisOpen
    exact ((hheld.vfsLseek hx hopen newOffset whence).1 _ hrun).2

/-- Two descriptors on one file, which grows through the first and is read through the second. -/
theorem offsets_inside_shared :
    ∃ s : Vfs, s.CalledBy (fun s c => s.permits c = true ∧ s.keepsSizes c = true) ∧
      (s.isOpen 1 = true ∧ (s.files 1).map (fun x => x.offset) = some 4200) ∧
      (∀ f x, s.files f = some x → x.opened = true → s.InFile x) ∧
      (∀ c, s.permits c = true → s.keepsSizes c = true → ∀ e, s.call c = .error e →
        ¬ e.PastEnd) ∧
      (∀ f newOffset whence r s', s.isOpen f = true →
        vfsLseek s f newOffset whence = .ok (r, s') → r < 0 → s' = s) := by
  have hrun : CallRun (fun s c => s.permits c = true ∧ s.keepsSizes c = true)
      [.openFile ⟨[97], by decide⟩ 66 1, .openFile ⟨[97], by decide⟩ 2 1,
        .write 0 (fun _ => 7) 5000, .lseek 1 4000 LSEEK_SET, .read 1 (fun _ => 0) 200,
        .link ⟨[97], by decide⟩ ⟨[98], by decide⟩ 1, .unlink ⟨[98], by decide⟩ 1, .close 0]
      (fun s => s.isOpen 1 = true ∧ (s.files 1).map (fun x => x.offset) = some 4200) := by
    decide +kernel
  obtain ⟨s, hreach, hs⟩ := hrun.reached
  exact ⟨s, hreach, hs, offsets_inside hreach⟩

def Vfs.PastEnd (s : Vfs) (f : Nat) : Prop :=
  ∃ x p v, s.files f = some x ∧ x.opened = true ∧ s.points x.dentry = some p ∧
    s.rfs.vinodes p = some v ∧ v.size < x.offset

abbrev Vfs.ReadsPast (s : Vfs) (f : Nat) : Prop :=
  (∃ x, s.files f = some x ∧ x.opened = true ∧ ∃ p, s.points x.dentry = some p ∧
    ∃ v, s.rfs.vinodes p = some v ∧ v.size < x.offset) ∧
  s.call (.read f (fun _ => 0) 4)
    = .error (.panic "rfs_read:offset should less than file size!" [])

theorem Vfs.ReadsPast.pastEnd (h : s.ReadsPast f) : s.PastEnd f := by
  obtain ⟨⟨x, hx, hopen, p, hp, v, hv, hlt⟩, -⟩ := h
  exact ⟨x, p, v, hx, hopen, hp, hv, hlt⟩

/-- The bytes of a directory entry with the name `x` and an inode number below 65536. -/
def entryBytes (inum : Nat) : Mem := fun i =>
  if i = 0 then UInt8.ofNat inum else if i = 1 then UInt8.ofNat (inum / 256)
  else if i = 4 then 120 else 0

def negativeBytes : Mem := fun i => if i < 4 then 255 else if i = 8 then 1 else 0

/-- The file `f` holds a directory entry. Removing `f/x` takes it out, and the descriptor at the
end of `f` is past its end. Opening `f/x` opens a file whose size is -1, and the new descriptor is
past its end at once. -/
theorem offset_past_end :
    (∃ s : Vfs, s.CalledBy (fun s c => s.permits c = true) ∧ s.PastEnd 1 ∧
      s.call (.read 1 (fun _ => 0) 4)
        = .error (.panic "rfs_read:offset should less than file size!" [])) ∧
    ∃ s : Vfs, s.CalledBy (fun s c => s.permits c = true) ∧ s.PastEnd 2 ∧
      s.call (.read 2 (fun _ => 0) 4)
        = .error (.panic "rfs_read:offset should less than file size!" []) := by
  have hunlink : CallRun (fun s c => s.permits c = true)
      [.openFile ⟨[97], by decide⟩ 66 1, .close 0, .openFile ⟨[102], by decide⟩ 66 1,
        .write 1 (entryBytes 1) 32, .unlink ⟨[102, 47, 120], by decide⟩ 1]
      (fun s => s.ReadsPast 1) := by decide +kernel
  have hopen : CallRun (fun s c => s.permits c = true)
      [.openFile ⟨[97], by decide⟩ 66 1, .write 0 negativeBytes 16,
        .openFile ⟨[102], by decide⟩ 66 1, .write 1 (entryBytes 384) 32,
        .openFile ⟨[102, 47, 120], by decide⟩ 0 1]
      (fun s => s.ReadsPast 2) := by decide +kernel
  obtain ⟨s, hs, hpast⟩ := hunlink.reached
  obtain ⟨s', hs', hpast'⟩ := hopen.reached
  exact ⟨⟨s, hs, hpast.pastEnd, hpast.2⟩, s', hs', hpast'.pastEnd, hpast'.2⟩

end

end CabbagePKE
