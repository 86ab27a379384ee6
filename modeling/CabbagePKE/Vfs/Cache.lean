import CabbagePKE.Vfs.Ownership
import Mathlib.Data.Set.Card

/-!
# The caches over whole runs

Runs of operations whose paths have one component, relative to a directory:
the vinodes and dentries in memory agree with each other and with the disk as
long as the names and directories stay within the limits of the disk format.
-/

namespace CabbagePKE

open Lib Function Finset

/-! ## Paths of one component -/

/-- `path` is relative to the directory `cwd` and has one component. -/
def Vfs.singlePath (s : Vfs) (path : Path) (cwd : Nat) : Bool :=
  s.isDir cwd && decide (path.bytes.head? ≠ some slash) && (tokens path.bytes).length == 1

def Vfs.single (s : Vfs) : VfsOp → Bool
  | .openFile path _ cwd | .mkdir path cwd | .unlink path cwd | .opendir path cwd _ =>
    s.singlePath path cwd
  | .link oldpath newpath cwd => s.singlePath oldpath cwd && s.singlePath newpath cwd
  | .write _ _ _ | .close _ | .closedir _ => true

section

variable {s s' : Vfs} {path : Path} {cwd : Nat} {op : VfsOp}

theorem Vfs.throughDirs_of_single (hdir : s.isDir cwd = true)
    (hrel : path.bytes.head? ≠ some slash) (hone : (tokens path.bytes).length = 1) :
    s.throughDirs path cwd = true := by
  obtain ⟨token, htok⟩ := List.length_eq_one_iff.mp hone
  rw [Vfs.throughDirs, Bool.and_eq_true, startDentry, if_neg hrel, htok, walksDirs]
  refine ⟨hdir, ?_⟩
  split
  · rfl
  split
  · split <;> rfl
  rw [hdir, Bool.true_and]
  split <;> rfl

theorem Vfs.Sound.singlePath_grows (h : s.Sound) (hs' : s'.Sound) (hg : s.Grows s')
    (hp : s.singlePath path cwd = true) : s'.throughDirs path cwd = true := by
  simp only [Vfs.singlePath, Bool.and_eq_true, decide_eq_true_eq, beq_iff_eq] at hp
  have hdir := hs'.isDir_of_dirAt (hg.dirAt (h.dirAt_of_isDir hp.1.1).1)
  exact Vfs.throughDirs_of_single hdir hp.1.2 hp.2

theorem Vfs.Sound.admits_of_single (h : s.Sound) (hone : s.single op = true)
    (hconf : s.confined op = true) : s.admits op = true := by
  have hthrough : ∀ {path cwd}, s.singlePath path cwd = true → s.throughDirs path cwd = true :=
    fun hp => h.singlePath_grows h (Vfs.Grows.refl s) hp
  cases op with
  | openFile path flags cwd =>
    rw [Vfs.admits, Bool.and_eq_true]
    exact ⟨hthrough hone, hconf⟩
  | write f buf len => exact hconf
  | close f => rfl
  | mkdir path cwd =>
    rw [Vfs.admits, Bool.and_eq_true]
    exact ⟨hthrough hone, hconf⟩
  | link oldpath newpath cwd =>
    rw [Vfs.single, Bool.and_eq_true] at hone
    rw [Vfs.admits, Bool.and_eq_true]
    refine ⟨hthrough hone.1, ?_⟩
    rw [Vfs.confined, Vfs.linksHere] at hconf
    rw [Vfs.canLink]
    -- the new path is looked up in the state after the lookup of the old one
    cases hlook : CabbagePKE.lookupFinalDentry s oldpath cwd with
    | error e => rfl
    | ok r =>
      obtain ⟨hs1, hg, -⟩ := (h.lookupFinalDentry (hthrough hone.1)).1 _ hlook
      rw [hlook] at hconf
      rw [Bool.and_eq_true]
      exact ⟨h.singlePath_grows hs1 hg hone.2, hconf⟩
  | unlink path cwd => exact hthrough hone
  | opendir path cwd adjacent => exact hthrough hone
  | closedir f => rfl

def Vfs.SingleRun (s : Vfs) : Prop :=
  s.ReachedBy (fun s op => s.single op = true ∧ s.confined op = true)

theorem Vfs.SingleRun.sound (h : s.SingleRun) : s.Sound := by
  obtain ⟨rdev, stack, s0, hstack, hinit, hrun⟩ := h
  have h0 : s0.Sound := Vfs.Admitted.sound ⟨rdev, stack, s0, hstack, hinit, .start⟩
  refine hrun.invariant _ h0 fun s op s' hs hok hstep => ?_
  exact (hs.step (hs.admits_of_single hok.1 hok.2)).1 s' hstep

end

/-! ## Vinodes and their references -/

section

variable {s : Vfs} {p d : Nat}

end

/-! ## Dentries and the disk -/

section

variable {s : Vfs} {parent p d : Nat} {name : Name}

/-- **The dentry table agrees with the disk**: a dentry found under a
directory of the RAM disk has the inode that `rfs_lookup` finds. -/
theorem hashed_dentry_agrees (h : s.SingleRun) (hget : hashGetDentry s parent name = some d)
    (hp : s.points parent = some p) :
    ∃ child fs w q v, rfsLookup s.rfs p name = .ok (some child, fs) ∧ fs.vinodes child = some w ∧
      s.points d = some q ∧ s.rfs.vinodes q = some v ∧ w.inum = v.inum := by
  have hs := h.sound
  obtain ⟨e, he, hek⟩ := hs.key _ d hget
  obtain ⟨hpar, rfl⟩ := Prod.mk.inj hek
  -- neither is the root of the host, which has no parent and is not on the RAM disk
  obtain ⟨e0, he0, -, hnone⟩ := hs.hostRoot
  have hd0 : d ≠ vfsRootDentry := by
    rintro rfl
    cases he.symm.trans he0
    simp [hpar] at hnone
  have hp0 := hs.ne_vfsRoot hp
  obtain ⟨up, hup, -, m, hm, hcase⟩ := hs.dentry d e he hd0
  cases hpar.symm.trans hup
  obtain ⟨n, hn, ht⟩ := hcase.resolve_left fun hroot => hp0 hroot.2.1
  obtain ⟨-, q, v, -, -, hq, hv, hvm⟩ := Vfs.exists_of_inumOf hm
  obtain ⟨-, p', w, -, -, hp', hw, hwn⟩ := Vfs.exists_of_inumOf hn
  cases hp.symm.trans hp'
  have hname := (hs.tree.shape.nameOk_of_target ht).noNul
  obtain ⟨rdev, -, ⟨hmiss, -⟩ | ⟨k, hk, -, hlook⟩⟩ :=
    hs.rfsLookup hw hwn (hs.tree.shape.dir_of_target ht) hname
  · simp [ht] at hmiss
  · rw [ht] at hk
    refine ⟨_, _, _, q, v, hlook, update_self .., hq, hv, ?_⟩
    exact (Option.some.inj hk).symm.trans hvm.symm

/-- A name that was looked up again after its file was closed. -/
theorem hashed_dentry_agrees_reopened : ∃ (s : Vfs) (d p : Nat), s.SingleRun ∧
    hashGetDentry s rfsRootDentry [97] = some d ∧ s.points rfsRootDentry = some p ∧
    ∃ child fs w q v, rfsLookup s.rfs p [97] = .ok (some child, fs) ∧
      fs.vinodes child = some w ∧ s.points d = some q ∧ s.rfs.vinodes q = some v ∧
      w.inum = v.inum := by
  have hrun : BootRun (fun s op => s.single op && s.confined op)
      [.openFile ⟨[97], by decide⟩ 66 1, .close 0, .openFile ⟨[97], by decide⟩ 0 1]
      (fun s => ∃ d, hashGetDentry s rfsRootDentry [97] = some d ∧
        ∃ p, s.points rfsRootDentry = some p ∧ True) := by decide +kernel
  obtain ⟨s, hreach, d, hd, p, hp, -⟩ := hrun.reached
  have hsingle : s.SingleRun := hreach.mono fun _ _ hok => Bool.and_eq_true_iff.mp hok
  exact ⟨s, d, p, hsingle, hd, hp, hashed_dentry_agrees hsingle hd hp⟩

end

end CabbagePKE
