import CabbagePKE.Rfs.DirList
import CabbagePKE.Vfs.Tables
import CabbagePKE.Lib.Yields

/-!
# Path lookup

A lookup fills the caches and keeps the tree: each name that is looked up in
a directory gives the entry of that name, from the hash table or from the
disk. The code does not check that what it looks a name up in is a
directory, so the results here assume it (`walksDirs`).
-/

namespace CabbagePKE

open Lib Function List

/-! ## How an access stops -/

inductive Halt.OfAccess : Halt → Prop
  | undefined : Halt.OfAccess .undefined
  | foreign : Halt.OfAccess .foreign
  | read : Halt.OfAccess (.panic "ramdisk_read: read block No out of range!\n" [])
  | write (blkno : Int) :
      Halt.OfAccess (.panic "ramdisk_write: write block No %d out of range!\n" [blkno])
  | full : Halt.OfAccess (.panic "rfs_alloc_block: no more free block!\n" [])

class Halt.Spares (bad : Halt → Prop) : Prop where
  access : ∀ e : Halt, e.OfAccess → ¬ bad e

instance : Halt.Spares Halt.Asserts where
  access e h := by
    cases h with
    | undefined => exact not_false
    | foreign => exact not_false
    | read => exact not_false
    | write blkno => exact not_false
    | full => exact not_false

theorem yields_access {α : Type} {bad : Halt → Prop} [Halt.Spares bad] {P : α → Prop} {e : Halt}
    (h : e.OfAccess) : Yields bad (.error e : Outcome α) P :=
  Yields.of_error (Halt.Spares.access e h)

/-! ## Conditions on a lookup -/

def Vfs.isDir (s : Vfs) (d : Nat) : Bool :=
  match s.inodeType d with
  | .ok type => type = R_DIR
  | .error _ => false

def walksDirs : List Name → Vfs → Nat → Bool
  | [], _, _ => true
  | token :: rest, s, this =>
    if token = [dot] then walksDirs rest s this
    else if token = [dot, dot] then
      match (s.dentries this).bind Dentry.parent with
      | none => true
      | some up => walksDirs rest s up
    else s.isDir this &&
      match lookupToken s this token with
      | .ok (some d, s') => walksDirs rest s' d
      | _ => true

/-- The lookup of a path from `cwd` goes through directories only. -/
def Vfs.throughDirs (s : Vfs) (path : Path) (cwd : Nat) : Bool :=
  s.isDir cwd && walksDirs (tokens path.bytes) s (startDentry path cwd)

/-- Dentry `d` is the root of the host or a directory of the RAM disk. -/
def Vfs.DirAt (s : Vfs) (d : Nat) : Prop :=
  d = vfsRootDentry ∨ ∃ n : Nat, s.inumOf d = some (n : Int) ∧ (s.tree.disk n).type = R_DIR

/-- Directory `d` of the RAM disk, with inode `n`, has no entry `name`, on
disk or in the table. -/
def Vfs.Misses (s : Vfs) (d : Nat) (name : Name) (n : Nat) : Prop :=
  s.inumOf d = some (n : Int) ∧ (s.tree.disk n).type = R_DIR ∧
    s.dentryHash (some d, name) = none ∧ s.tree.target n name = none

/-- `s'` has the objects of `s`, and perhaps more of the same tree. -/
structure Vfs.Grows (s s' : Vfs) : Prop where
  tree : s'.tree = s.tree
  files : s'.files = s.files
  dentries : ∀ d e, s.dentries d = some e → s'.dentries d = some e
  inumOf : ∀ d i, s.inumOf d = some i → s'.inumOf d = some i

/-- The RAM disk is at `fs`, and a dentry is allocated that has no inode yet. -/
def Vfs.pending (s : Vfs) (name : Name) (up : Nat) (fs : Rfs) : Vfs :=
  { s with
    rfs := fs
    dentries := update s.dentries s.nextDentry
      (some { name := name, dRef := 0, inode := .null, parent := some up })
    nextDentry := s.nextDentry + 1 }

/-- The state after reads, with addresses skipped that were used for a while. -/
def Vfs.skip (s : Vfs) (rdev : RfsDevice) (i j : Nat) : Vfs :=
  { s with
    rfs := { s.rfs.setDev rdev with nextVinode := s.rfs.nextVinode + i }
    nextDentry := s.nextDentry + j }

section

variable {s s' s'' : Vfs} {d p n m up : Nat} {name : Name} {rdev : RfsDevice}

theorem Vfs.Grows.refl (s : Vfs) : s.Grows s := ⟨rfl, rfl, fun _ _ h => h, fun _ _ h => h⟩

theorem Vfs.Grows.trans (h : s.Grows s') (h' : s'.Grows s'') : s.Grows s'' where
  tree := h'.tree.trans h.tree
  files := h'.files.trans h.files
  dentries d e hd := h'.dentries d e (h.dentries d e hd)
  inumOf d i hi := h'.inumOf d i (h.inumOf d i hi)

theorem Vfs.Grows.dirAt (h : s.Grows s') (hd : s.DirAt d) : s'.DirAt d := by
  rcases hd with rfl | ⟨n, hn, hdir⟩
  · exact .inl rfl
  · exact .inr ⟨n, h.inumOf d n hn, by rw [h.tree]; exact hdir⟩

theorem Vfs.tree_skip (hb : rdev.blocks = s.rfs.vol.dev.blocks) (i j : Nat) :
    (s.skip rdev i j).tree = s.tree := by
  have hon : s.tree.On (s.skip rdev i j).rfs.vol := s.tree_on.read hb rfl
  apply hon.tree_eq
  rw [← hon.disk]
  rfl

theorem Vfs.Grows.skip (hb : rdev.blocks = s.rfs.vol.dev.blocks) (i j : Nat) :
    s.Grows (s.skip rdev i j) :=
  ⟨Vfs.tree_skip hb i j, rfl, fun _ _ h => h, fun _ _ h => h⟩

theorem Vfs.Sound.skip (h : s.Sound) (hb : rdev.blocks = s.rfs.vol.dev.blocks) (i j : Nat) :
    (s.skip rdev i j).Sound := by
  have hnone : ∀ k, s.nextDentry ≤ k → s.points k = none := by
    intro k hk
    simp [Vfs.points, h.freshDentry k hk]
  have hholders : ∀ q, holders (s.nextDentry + j) s.points q = holders s.nextDentry s.points q := by
    intro q
    induction j with
    | zero => rfl
    | succ j ih =>
      have hpush := holders_push (n := s.nextDentry + j) (p := s.points) (k := q) none
      have hself : update s.points (s.nextDentry + j) none = s.points := by
        rw [← hnone (s.nextDentry + j) (by omega), update_eq_self]
      rwa [hself, ih] at hpush
  have htree := Vfs.tree_skip hb i j
  constructor
  · exact h.nblocks
  · rw [htree]
    exact h.tree
  · exact fun q hq => h.freshVinode q ((Nat.le_add_right _ _).trans hq)
  · intro q v hv
    rw [htree]
    exact h.vinode q v hv
  · exact h.hashed
  · exact fun k hk => h.freshDentry k ((Nat.le_add_right _ _).trans hk)
  · exact h.hostRoot
  · exact h.rfsRoot
  · exact h.key
  · intro k e he hk
    obtain ⟨up, hup, hkey, m, hm, hcase⟩ := h.dentry k e he hk
    refine ⟨up, hup, hkey, m, hm, ?_⟩
    rwa [htree]
  · intro k k' n h1 h2 hdir
    rw [htree] at hdir
    exact h.dirs k k' n h1 h2 hdir
  · intro q v hv
    show v.ref = ((holders (s.nextDentry + j) s.points q : Nat) : Int)
    rw [hholders q]
    exact h.refs q v hv
  · exact h.offsets

theorem Vfs.Sound.grows_addVinode (h : s.Sound) (hn : s.vinodeHash n = none) :
    s.Grows (s.addVinode n) := by
  refine ⟨h.tree_addVinode hn, rfl, fun _ _ hd => hd, fun k i hi => ?_⟩
  obtain ⟨e, q, v, hd, he, hq, hv, hvi⟩ := Vfs.exists_of_inumOf hi
  have hne : q ≠ s.rfs.nextVinode := by
    rintro rfl
    simp [h.freshVinode _ le_rfl] at hv
  have hv' : (s.addVinode n).rfs.vinodes q = some v := by
    simp only [Vfs.addVinode, update_of_ne hne]
    exact hv
  rw [Vfs.inumOf_of_vinode (s := s.addVinode n) hq hv', hvi]

theorem Vfs.Sound.grows_addDentry {v : Vinode} (h : s.Sound) (hv : s.rfs.vinodes p = some v) :
    s.Grows (s.addDentry name up p v) := by
  have hold : ∀ k e, s.dentries k = some e → (s.addDentry name up p v).dentries k = some e := by
    intro k e hk
    have hlt := h.lt_of_live hk
    simp only [Vfs.addDentry, update_of_ne (hlt.ne)]
    exact hk
  refine ⟨h.tree_setRef hv rfl rfl rfl, rfl, hold, fun k i hi => ?_⟩
  obtain ⟨e, q, w, hd, he, -, hw, hwi⟩ := Vfs.exists_of_inumOf hi
  have hq := Vfs.points_of_inode (hold k e hd) he
  by_cases hqp : q = p
  · subst hqp
    cases hv.symm.trans hw
    have hv' : (s.addDentry name up q v).rfs.vinodes q = some { v with ref := v.ref + 1 } := by
      simp [Vfs.addDentry, Rfs.setVinode]
    rw [Vfs.inumOf_of_vinode hq hv']
    exact congrArg some hwi
  · have hw' : (s.addDentry name up p v).rfs.vinodes q = some w := by
      simp only [Vfs.addDentry, Rfs.setVinode, update_of_ne hqp]
      exact hw
    rw [Vfs.inumOf_of_vinode hq hw', hwi]

end

/-! ## One name -/

section

variable {s s' : Vfs} {d p n m up : Nat} {name : Name} {v : Vinode} {e : Dentry}

theorem Vfs.Sound.dirVinode (h : s.Sound) (hup : s.inumOf up = some (n : Int))
    (hdir : (s.tree.disk n).type = R_DIR) :
    ∃ e q v, s.dentries up = some e ∧ e.inode = .rfs q ∧ s.rfs.vinodes q = some v ∧ v.inum = n ∧
      v.toDinode = s.tree.disk n := by
  obtain ⟨e, q, v, hd, he, -, hv, hi⟩ := Vfs.exists_of_inumOf hup
  refine ⟨e, q, v, hd, he, hv, hi, ?_⟩
  rw [← h.node_eq hv hi]
  exact (h.tree.shape.dir n hdir).same

theorem Vfs.rfsInode_eq (hd : s.dentries d = some e) (he : e.inode = .rfs p) :
    s.rfsInode d = .ok p := by simp [Vfs.rfsInode, Vfs.dentry, hd, he]

theorem Vfs.inodeType_eq {w : Vinode} (hd : s.dentries d = some e)
    (he : e.inode = .rfs p) (hw : s.rfs.vinodes p = some w) : s.inodeType d = .ok w.type := by
  simp [Vfs.inodeType, Vfs.dentry, Rfs.vinode, hd, he, hw]

theorem Vfs.Sound.rfsLookup (h : s.Sound) (hv : s.rfs.vinodes p = some v) (hn : v.inum = n)
    (hdir : (s.tree.disk n).type = R_DIR) (hname : (0 : UInt8) ∉ name) :
    ∃ rdev : RfsDevice, rdev.blocks = s.rfs.vol.dev.blocks ∧
      ((s.tree.target n name = none ∧
          CabbagePKE.rfsLookup s.rfs p name = .ok (none, s.rfs.setDev rdev)) ∨
        ∃ m : Nat, s.tree.target n name = some (m : Int) ∧ s.tree.InUse m ∧
          CabbagePKE.rfsLookup s.rfs p name
            = .ok (some s.rfs.nextVinode, s.rfs.loaded rdev m)) := by
  obtain ⟨hd, hents⟩ := s.tree_on.dirOk h.tree.shape hdir
  have hvd : v.toDinode = s.tree.disk n := by
    rw [← h.node_eq hv hn]
    exact (h.tree.shape.dir n hdir).same
  rw [← hvd] at hd hents
  cases ht : (s.tree.ents n).find? (fun e => e.1 = name) with
  | none =>
    obtain ⟨rdev, hrun, hb⟩ := hd.misses hv hname (hents ▸ ht)
    exact ⟨rdev, hb, .inl ⟨by rw [Tree.target, ht, Option.map_none], hrun⟩⟩
  | some e =>
    -- the entry carries an inode in use
    obtain ⟨m, hm, -, hmu⟩ := h.tree.counted.target n e (mem_of_find?_eq_some ht)
    obtain ⟨rdev, hrun, hb⟩ := hd.finds hv hname (hents ▸ ht) hm (h.tree.shape.lt m hmu)
    exact ⟨rdev, hb, .inr ⟨m, by rw [Tree.target, ht, Option.map_some, hm], hmu, hrun⟩⟩

theorem shareVinode_shared {w : Vinode} {found : Nat} (hd : s.dentries d = some e)
    (hf : s.rfs.vinodes found = some w) (hh : hashGetVinode s w.inum = some p)
    (hv : s.rfs.vinodes p = some v) :
    shareVinode s d found = .ok (((s.setDentry d { e with inode := .rfs p }).setVinode p
      { v with ref := v.ref + 1 }).freeVinode found) := by
  simp [shareVinode, Rfs.vinode, hf, hh, pointDentry, Vfs.dentry, hd, Vfs.addRef, Vfs.setDentry, hv]

theorem shareVinode_fresh {w : Vinode} {found : Nat} (hd : s.dentries d = some e)
    (hf : s.rfs.vinodes found = some w) (hm : w.inum = m) (hh : s.vinodeHash m = none) :
    shareVinode s d found = .ok { (s.setDentry d { e with inode := .rfs found }).setVinode found
      { w with ref := w.ref + 1 } with
        vinodeHash := update s.vinodeHash m (some found) } := by
  have hneg : ¬ ((m : Int) < 0) := by omega
  simp [shareVinode, Rfs.vinode, hf, hashGetVinode, hm, hneg, hh, pointDentry, Vfs.dentry, hd,
    Vfs.addRef, Vfs.setDentry, Vfs.setVinode, Rfs.setVinode, hashPutVinode]

theorem Vfs.Sound.pending_rfsInode (h : s.Sound) (hd : s.dentries d = some e)
    (he : e.inode = .rfs p) (fs : Rfs) : (s.pending name up fs).rfsInode d = .ok p := by
  apply Vfs.rfsInode_eq _ he
  have hne : d ≠ s.nextDentry := Nat.ne_of_lt (h.lt_of_live hd)
  simp only [Vfs.pending, update_of_ne hne]
  exact hd

theorem Vfs.Sound.lookupToken_eq (h : s.Sound) (hd : s.dentries up = some e)
    (he : e.inode = .rfs p) (hk : s.dentryHash (some up, name) = none) :
    lookupToken s up name = (CabbagePKE.rfsLookup s.rfs p name >>= fun r =>
      match r.1 with
      | none => .ok (none, (s.pending name up r.2).freeDentry s.nextDentry)
      | some found => do
          let s' ← shareVinode (s.pending name up r.2) s.nextDentry found
          let s' ← hashPutDentry s' s.nextDentry
          return (some s.nextDentry, s')) := by
  have hin : (allocVfsDentry s name (some up)).2.rfsInode up = .ok p :=
    h.pending_rfsInode hd he s.rfs
  rw [lookupToken, hashGetDentry, hk]
  dsimp only
  rw [viopLookup, hin, ok_bind]
  show ((CabbagePKE.rfsLookup s.rfs p name >>= _) >>= _) = _
  cases CabbagePKE.rfsLookup s.rfs p name with
  | error e => rfl
  | ok r =>
    obtain ⟨found, fs⟩ := r
    cases found with
    | none => rfl
    | some q => rfl

theorem hashPutDentry_eq (hd : s.dentries d = some e)
    (hk : s.dentryHash (e.parent, e.name) = none) :
    hashPutDentry s d
      = .ok { s with dentryHash := update s.dentryHash (e.parent, e.name) (some d) } := by
  simp [hashPutDentry, Vfs.dentry, hd, hk]

theorem Vfs.Sound.lookupToken_found (h : s.Sound) (hup : s.inumOf up = some (n : Int))
    (hdir : (s.tree.disk n).type = R_DIR) (hname : (0 : UInt8) ∉ name)
    (hk : s.dentryHash (some up, name) = none) (ht : s.tree.target n name = some (m : Int)) :
    ∃ s1 q w, s1.Sound ∧ s.Grows s1 ∧ s1.rfs.vinodes q = some w ∧ w.inum = m ∧
      s1.dentryHash = s.dentryHash ∧ s1.nextDentry = s.nextDentry ∧
      lookupToken s up name = .ok (some s.nextDentry, s1.addDentry name up q w) := by
  obtain ⟨e, q, w, hd, he, hw, hwi, -⟩ := h.dirVinode hup hdir
  obtain ⟨rdev, hbl, ⟨hno, -⟩ | ⟨m', hm', hmu, hrun⟩⟩ := h.rfsLookup hw hwi hdir hname
  · simp [hno] at ht
  rw [ht] at hm'
  obtain rfl : m = m' := Int.natCast_inj.mp (Option.some.inj hm')
  have hpd : (s.pending name up (s.rfs.loaded rdev m)).dentries s.nextDentry
      = some { name := name, dRef := 0, inode := .null, parent := some up } := update_self ..
  have hnew : (s.pending name up (s.rfs.loaded rdev m)).rfs.vinodes s.rfs.nextVinode
      = some { toDinode := s.rfs.vol.disk m, inum := m, ref := 0 } := update_self ..
  have hfresh := h.freshVinode _ le_rfl
  have hdisk : (s.skip rdev 0 0).rfs.vol.disk = s.rfs.vol.disk := Volume.disk_congr hbl
  cases hh : s.vinodeHash m with
  | some same =>
    obtain ⟨v, hv, hvm⟩ := h.hashed m same hh
    have hne : same ≠ s.rfs.nextVinode := by
      rintro rfl
      simp [hfresh] at hv
    have hget : hashGetVinode (s.pending name up (s.rfs.loaded rdev m)) (m : Int) = some same := by
      have hneg : ¬ ((m : Int) < 0) := by omega
      rwa [hashGetVinode, if_neg hneg]
    have hsame : (s.pending name up (s.rfs.loaded rdev m)).rfs.vinodes same = some v := by
      simp only [Vfs.pending, Rfs.loaded, update_of_ne hne]
      exact hv
    refine ⟨s.skip rdev 1 0, same, v, h.skip hbl 1 0, Vfs.Grows.skip hbl 1 0, hv, hvm, rfl, rfl, ?_⟩
    rw [h.lookupToken_eq hd he hk, hrun, ok_bind]
    dsimp only
    rw [shareVinode_shared hpd hnew hget hsame, ok_bind, hashPutDentry_eq (update_self ..) hk]
    have hvin : update (update (update s.rfs.vinodes
          s.rfs.nextVinode (some { toDinode := s.rfs.vol.disk m, inum := m, ref := 0 }))
          same (some { v with ref := v.ref + 1 })) s.rfs.nextVinode none
        = update s.rfs.vinodes same (some { v with ref := v.ref + 1 }) := by
      rw [update_comm hne, update_idem, ← hfresh, update_eq_self]
    simp only [Vfs.pending, Rfs.loaded, Vfs.setDentry, Vfs.setVinode, Rfs.setVinode,
      Vfs.freeVinode, Rfs.freeVinode, update_idem, hvin]
    rfl
  | none =>
    have hs := (h.skip hbl 0 0).addVinode (n := m) hh (by rw [Vfs.tree_skip hbl]; exact hmu)
    refine ⟨(s.skip rdev 0 0).addVinode m, s.rfs.nextVinode,
      { toDinode := (s.skip rdev 0 0).rfs.vol.disk m, inum := m, ref := 0 }, hs,
      (Vfs.Grows.skip hbl 0 0).trans ((h.skip hbl 0 0).grows_addVinode hh),
      update_self .., rfl, rfl, rfl, ?_⟩
    rw [h.lookupToken_eq hd he hk, hrun, ok_bind]
    dsimp only
    rw [shareVinode_fresh hpd hnew rfl hh, ok_bind, hashPutDentry_eq (update_self ..) hk, hdisk]
    simp only [Vfs.pending, Rfs.loaded, Vfs.setDentry, Vfs.setVinode, Rfs.setVinode,
      update_idem, Vfs.addDentry, Vfs.addVinode, hdisk]
    simp only [Vfs.skip, Rfs.setDev, Nat.add_zero, update_idem]
    rfl

def Vfs.Answers (s : Vfs) (up : Nat) (name : Name) : Option Nat → Prop
  | none => ∃ n, s.Misses up name n
  | some d => ∃ e, s.dentries d = some e ∧ e.parent = some up

theorem Vfs.Sound.lookupToken (h : s.Sound) (hup : s.DirAt up) (hname : (0 : UInt8) ∉ name) :
    Yields Halt.Asserts (CabbagePKE.lookupToken s up name)
      (fun r => r.2.Sound ∧ s.Grows r.2 ∧ r.2.Answers up name r.1 ∧
        ∀ d, r.1 = some d → r.2.dentryHash (some up, name) = some d) := by
  cases hk : s.dentryHash (some up, name) with
  | some d =>
    -- the table answers
    obtain ⟨e, hd, hek⟩ := h.key _ _ hk
    have hrun : CabbagePKE.lookupToken s up name = .ok (some d, s) := by
      rw [CabbagePKE.lookupToken, hashGetDentry, hk]
    exact .of_eq hrun ⟨h, Vfs.Grows.refl s, ⟨e, hd, congrArg Prod.fst hek⟩,
      fun d' hd' => hk.trans hd'⟩
  | none =>
    rcases hup with rfl | ⟨n, hn, hdir⟩
    · -- the host is not modelled
      obtain ⟨e, hd, he, -⟩ := h.hostRoot
      have hne : vfsRootDentry ≠ s.nextDentry := Nat.ne_of_lt (h.lt_of_live hd)
      have hin : (allocVfsDentry s name (some vfsRootDentry)).2.rfsInode vfsRootDentry
          = .error .foreign := by
        simp [allocVfsDentry, Vfs.setDentry, Vfs.rfsInode, Vfs.dentry, hne, hd, he]
      have hrun : CabbagePKE.lookupToken s vfsRootDentry name = .error .foreign := by
        rw [CabbagePKE.lookupToken, hashGetDentry, hk]
        dsimp only
        rw [viopLookup, hin]
        rfl
      exact .of_eq_error hrun not_false
    · cases ht : s.tree.target n name with
      | none =>
        obtain ⟨e, q, w, hd, he, hw, hwi, -⟩ := h.dirVinode hn hdir
        obtain ⟨rdev, hbl, ⟨-, hrun⟩ | ⟨m, hm, -⟩⟩ := h.rfsLookup hw hwi hdir hname
        · have hgone : update (update s.dentries s.nextDentry
              (some { name := name, dRef := 0, inode := .null, parent := some up }))
              s.nextDentry none = s.dentries := by
            rw [update_idem, ← h.freshDentry _ le_rfl, update_eq_self]
          have hres : CabbagePKE.lookupToken s up name = .ok (none, s.skip rdev 0 1) := by
            rw [h.lookupToken_eq hd he hk, hrun, ok_bind]
            simp only [Vfs.pending, Vfs.freeDentry, hgone]
            rfl
          refine .of_eq hres ⟨h.skip hbl 0 1, Vfs.Grows.skip hbl 0 1, ⟨n, hn, ?_⟩, by rintro d ⟨⟩⟩
          rw [Vfs.tree_skip hbl]
          exact ⟨hdir, hk, ht⟩
        · simp [ht] at hm
      | some i =>
        obtain ⟨ent, hent, hsnd⟩ := Option.map_eq_some_iff.mp ht
        obtain ⟨m, hm, -⟩ := h.tree.counted.target n ent (mem_of_find?_eq_some hent)
        obtain rfl : i = m := hsnd.symm.trans hm
        obtain ⟨s1, q, w, hs1, hg, hw, hwi, hdh, hnd, hrun⟩ :=
          h.lookupToken_found hn hdir hname hk ht
        have hsound : (s1.addDentry name up q w).Sound := hs1.addDentry hw (by rw [hdh, hk])
          (hg.inumOf _ _ hn) (by rw [hg.tree, hwi, ht])
        refine .of_eq hrun ⟨hsound, hg.trans (hs1.grows_addDentry hw),
          ⟨{ name := name, dRef := 0, inode := .rfs q, parent := some up }, ?_, rfl⟩, ?_⟩
        · rw [← hnd]
          exact update_self ..
        · rintro d ⟨⟩
          rw [← hnd]
          exact update_self ..

end

/-! ## Paths -/

section

variable {s : Vfs} {d this parent cwd : Nat} {path : Path}

theorem mem_of_mem_splitOnP {α : Type} (p : α → Bool) {a : α} {l piece : List α}
    (hpiece : piece ∈ l.splitOnP p) (ha : a ∈ piece) : a ∈ l ∧ p a = false := by
  induction l generalizing piece with
  | nil =>
    rw [splitOnP_nil, mem_singleton] at hpiece
    subst hpiece
    cases ha
  | cons b l ih =>
    rw [splitOnP_cons_eq_if_modifyHead] at hpiece
    split at hpiece
    · rcases mem_cons.mp hpiece with rfl | hmem
      · cases ha
      · exact ⟨.tail _ (ih hmem ha).1, (ih hmem ha).2⟩
    · rename_i hb
      obtain ⟨first, more, hsplit⟩ := exists_cons_of_ne_nil (splitOnP_ne_nil p l)
      rw [hsplit] at ih
      rw [hsplit, modifyHead_cons] at hpiece
      rcases mem_cons.mp hpiece with rfl | hmem
      · rcases mem_cons.mp ha with rfl | hin
        · exact ⟨.head .., Bool.eq_false_iff.mpr hb⟩
        · have hfirst := ih (.head ..) hin
          exact ⟨.tail _ hfirst.1, hfirst.2⟩
      · have hmore := ih (.tail _ hmem) ha
        exact ⟨.tail _ hmore.1, hmore.2⟩

theorem zero_notMem_of_mem_tokens {name : Name} (h : name ∈ tokens path.bytes) :
    (0 : UInt8) ∉ name := by
  intro h0
  exact path.noNul (mem_of_mem_splitOnP _ (mem_of_mem_filter h) h0).1

theorem Vfs.Sound.dirAt_of_isDir (h : s.Sound) (hd : s.isDir d = true) :
    s.DirAt d ∧ ∃ e, s.dentries d = some e := by
  cases he : s.dentries d with
  | none => simp [Vfs.isDir, Vfs.inodeType, Vfs.dentry, he] at hd
  | some e =>
    refine ⟨?_, e, rfl⟩
    by_cases h0 : d = vfsRootDentry
    · exact .inl h0
    · obtain ⟨up, -, -, m, hm, -⟩ := h.dentry d e he h0
      obtain ⟨e', q, v, he', hi, -, hv, hvm⟩ := Vfs.exists_of_inumOf hm
      cases he.symm.trans he'
      refine .inr ⟨m, hm, ?_⟩
      rw [← h.type_eq hv hvm]
      simpa [Vfs.isDir, Vfs.inodeType, Vfs.dentry, he, hi, Rfs.vinode, hv] using hd

theorem Vfs.Sound.isDir_of_dirAt (h : s.Sound) (hd : s.DirAt d) : s.isDir d = true := by
  rcases hd with rfl | ⟨n, hn, hdir⟩
  · obtain ⟨e, he, hhost, -⟩ := h.hostRoot
    simp [Vfs.isDir, Vfs.inodeType, Vfs.dentry, he, hhost]
  · obtain ⟨e, p, v, he, hi, -, hv, hvn⟩ := Vfs.exists_of_inumOf hn
    have htype := (h.type_eq hv hvn).trans hdir
    simp [Vfs.isDir, Vfs.inodeType, Vfs.dentry, he, hi, Rfs.vinode, hv, htype]

theorem Vfs.Sound.dirAt_parent {e : Dentry} {up : Nat} (h : s.Sound) (hd : s.dentries d = some e)
    (hup : e.parent = some up) : s.DirAt up ∧ ∃ e', s.dentries up = some e' := by
  by_cases h0 : d = vfsRootDentry
  · subst h0
    obtain ⟨e0, he0, -, hpar⟩ := h.hostRoot
    cases hd.symm.trans he0
    simp [hpar] at hup
  · obtain ⟨up', hup', -, m, -, hcase⟩ := h.dentry d e hd h0
    cases hup.symm.trans hup'
    rcases hcase with ⟨-, rfl, -⟩ | ⟨n, hn, ht⟩
    · obtain ⟨e0, he0, -⟩ := h.hostRoot
      exact ⟨.inl rfl, e0, he0⟩
    · obtain ⟨e', -, -, he', -⟩ := Vfs.exists_of_inumOf hn
      exact ⟨.inr ⟨n, hn, h.tree.shape.dir_of_target ht⟩, e', he'⟩

/-- Where a lookup stands: at a directory, or at a file with its directory. -/
def Vfs.At (s : Vfs) (this parent : Nat) : Prop :=
  ∃ e, s.dentries this = some e ∧ (s.DirAt this ∨ e.parent = some parent)

def Vfs.Found (s : Vfs) (l : Lookup) : Prop :=
  match l.found with
  | some d => s.At d l.parent
  | none => ∀ name, l.missName = some name → (0 : UInt8) ∉ name ∧ ∃ n, s.Misses l.parent name n

theorem Vfs.Sound.walk (names : List Name) (hnames : ∀ name ∈ names, (0 : UInt8) ∉ name)
    (h : s.Sound) (hthis : s.At this parent) (hw : walksDirs names s this = true) :
    Yields Halt.Asserts (CabbagePKE.walk names s this parent)
      (fun r => r.2.Sound ∧ s.Grows r.2 ∧ r.2.Found r.1) := by
  induction names generalizing s this parent with
  | nil => exact .of_ok ⟨h, Vfs.Grows.refl s, hthis⟩
  | cons token rest ih =>
    have hrest : ∀ name ∈ rest, (0 : UInt8) ∉ name := fun name hm =>
      hnames name (.tail _ hm)
    rw [CabbagePKE.walk]
    rw [walksDirs] at hw
    by_cases hdot : token = [dot]
    · rw [if_pos hdot] at hw ⊢
      exact ih hrest h hthis hw
    rw [if_neg hdot] at hw ⊢
    by_cases hup : token = [dot, dot]
    · rw [if_pos hup] at hw ⊢
      obtain ⟨e, he, -⟩ := hthis
      have hden : s.dentry this = .ok e := by rw [Vfs.dentry, he]
      rw [he, Option.bind_some] at hw
      rw [hden, ok_bind]
      cases hpar : e.parent with
      | none =>
        refine .of_ok ⟨h, Vfs.Grows.refl s, ?_⟩
        rintro name ⟨⟩
      | some up =>
        obtain ⟨hdir, e', he'⟩ := h.dirAt_parent he hpar
        rw [hpar] at hw
        exact ih hrest h ⟨e', he', .inl hdir⟩ hw
    · rw [if_neg hup] at hw ⊢
      rw [Bool.and_eq_true] at hw
      obtain ⟨hdir, -⟩ := h.dirAt_of_isDir hw.1
      have htok := h.lookupToken hdir (hnames token (.head ..))
      have hnext := hw.2
      cases hrun : CabbagePKE.lookupToken s this token with
      | error e => exact .of_error (htok.2 e hrun)
      | ok r =>
        obtain ⟨found, s1⟩ := r
        obtain ⟨hs1, hg, hans, -⟩ := htok.1 _ hrun
        rw [hrun] at hnext
        rw [ok_bind]
        cases found with
        | none =>
          refine .of_ok ⟨hs1, hg, ?_⟩
          rintro name ⟨⟩
          exact ⟨hnames token (.head ..), hans⟩
        | some d =>
          obtain ⟨e, he, hpar⟩ := hans
          exact (ih hrest hs1 ⟨e, he, .inr hpar⟩ hnext).mono
            (fun r hr => ⟨hr.1, hg.trans hr.2.1, hr.2.2⟩)

theorem Vfs.Sound.lookupFinalDentry (h : s.Sound) (hw : s.throughDirs path cwd = true) :
    Yields Halt.Asserts (CabbagePKE.lookupFinalDentry s path cwd)
      (fun r => r.2.Sound ∧ s.Grows r.2 ∧ r.2.Found r.1) := by
  rw [Vfs.throughDirs, Bool.and_eq_true] at hw
  rw [CabbagePKE.lookupFinalDentry]
  split
  · exact .of_error not_false
  · refine h.walk _ (fun name hname => zero_notMem_of_mem_tokens hname) ?_ hw.2
    rw [startDentry]
    split
    · obtain ⟨e, he, -⟩ := h.hostRoot
      exact ⟨e, he, .inl (.inl rfl)⟩
    · obtain ⟨hdir, e, he⟩ := h.dirAt_of_isDir hw.1
      exact ⟨e, he, .inl hdir⟩

end

end CabbagePKE
