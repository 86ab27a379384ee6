import CabbagePKE.Vfs.Removal

/-!
# Every operation keeps the tables

One lemma for each operation of the virtual file system: from a sound state
it returns a sound state or stops, and never at an assertion. The conditions
under which this holds are computed by `Vfs.admits`.
-/

namespace CabbagePKE

open Lib Function

/-! ## Conditions -/

def Vfs.canAdd (s : Vfs) (path : Path) (cwd : Nat) : Bool :=
  match lookupFinalDentry s path cwd with
  | .ok (l, s') => l.found.isSome || s'.adds l
  | .error _ => true

/-- The new name of a link can be added, in the current directory. -/
def Vfs.canLink (s : Vfs) (oldpath newpath : Path) (cwd : Nat) : Bool :=
  match lookupFinalDentry s oldpath cwd with
  | .error _ => true
  | .ok (_, s₁) => s₁.throughDirs newpath cwd &&
      match lookupFinalDentry s₁ newpath cwd with
      | .error _ => true
      | .ok (l, s₂) => l.found.isSome || (l.parent == cwd && s₂.adds l)

def Vfs.canWrite (s : Vfs) (f len : Nat) : Bool :=
  match s.files f with
  | some file => file.offset + len ≤ DIRECT_BLKNUM * RFS_BLKSIZE
  | none => true

/-- Paths go through directories, new names are short and go to directories
with room, links go to the current directory, and files stay within their
direct blocks. -/
def Vfs.admits (s : Vfs) : VfsOp → Bool
  | .openFile path flags cwd =>
    s.throughDirs path cwd && (flags &&& O_CREAT == 0 || s.canAdd path cwd)
  | .write f _ len => s.canWrite f len
  | .close _ => true
  | .mkdir path cwd => s.throughDirs path cwd && s.canAdd path cwd
  | .link oldpath newpath cwd => s.throughDirs oldpath cwd && s.canLink oldpath newpath cwd
  | .unlink path cwd => s.throughDirs path cwd
  | .opendir path cwd _ => s.throughDirs path cwd
  | .closedir _ => true

/-! ## Reading the tables -/

section

variable {bad : Halt → Prop} [Halt.Spares bad] {s : Vfs} {d f : Nat}

theorem Vfs.yields_dentry (s : Vfs) (d : Nat) :
    Yields bad (s.dentry d) (fun e => s.dentries d = some e) := by
  unfold Vfs.dentry
  cases s.dentries d with
  | none => exact yields_access .undefined
  | some e => exact .of_ok rfl

theorem Vfs.yields_file (s : Vfs) (f : Nat) :
    Yields bad (s.file f) (fun x => s.files f = some x) := by
  unfold Vfs.file
  cases s.files f with
  | none => exact yields_access .undefined
  | some x => exact .of_ok rfl

def Vfs.FileAt (s : Vfs) (e : Dentry) : Prop :=
  ∃ (q : Nat) (v : Vinode) (m : Nat), e.inode = .rfs q ∧ s.rfs.vinodes q = some v ∧ v.inum = m ∧
    (s.tree.disk m).type = R_FILE

theorem Vfs.Sound.yields_inodeType (h : s.Sound) (d : Nat) :
    Yields Halt.Asserts (s.inodeType d) (fun type => ∃ e, s.dentries d = some e ∧
      (type = R_FILE → s.FileAt e)) := by
  refine (s.yields_dentry d).bind fun e he => ?_
  cases hi : e.inode with
  | null => exact .of_error not_false
  | host => exact .of_ok ⟨e, he, fun hc => absurd hc.symm R_FILE_ne_R_DIR⟩
  | rfs q =>
    obtain ⟨v, hv, m, hm⟩ := h.points_live (Vfs.points_of_inode he hi)
    have hvin : s.rfs.vinode q = .ok v := by rw [Rfs.vinode, hv]
    dsimp only
    rw [hvin, ok_bind]
    refine .of_ok ⟨e, he, fun htype => ⟨q, v, m, hi, hv, hm, ?_⟩⟩
    rwa [← h.type_eq hv hm]

theorem Vfs.Sound.setFiles (h : s.Sound) {e : Dentry} (hd : s.dentries d = some e) (r : Int)
    (caches : Nat → Option DirCache) (files : Nat → Option File) (k : Nat)
    (hoff : ∀ f x, files f = some x → 0 ≤ x.offset) :
    Vfs.Sound { s with
      dirCaches := caches
      dentries := update s.dentries d (some { e with dRef := r })
      files := files
      nextFile := k } := by
  refine h.same _ ⟨fun j => ?_, rfl, rfl⟩ rfl rfl le_rfl rfl rfl hoff
  by_cases hj : j = d
  · subst hj
    simp [hd, Dentry.entry]
  · simp [hj]

theorem offsets_update {files : Nat → Option File} {x : File}
    (h : ∀ f x, files f = some x → 0 ≤ x.offset) (hx : 0 ≤ x.offset) :
    ∀ g y, update files f (some x) g = some y → 0 ≤ y.offset := by
  intro g y hy
  rcases update_eq_some_iff.mp hy with ⟨-, hy⟩ | ⟨-, hy⟩
  · cases hy
    exact hx
  · exact h g y hy

end

/-! ## Opening and closing -/

section

variable {s : Vfs} {path : Path} {flags cwd d f : Nat}

theorem yields_openMode (flags : Nat) : Yields Halt.Asserts (openMode flags) (fun _ => True) := by
  unfold openMode
  split
  · exact .of_ok trivial
  · exact .of_ok trivial
  · exact .of_ok trivial
  · exact .of_error not_false

theorem Vfs.Sound.allocVfsFile (h : s.Sound) (d : Nat) (readable writable : Bool) :
    Yields Halt.Asserts (CabbagePKE.allocVfsFile s d readable writable) (fun r => r.2.Sound) := by
  refine (s.yields_dentry d).bind fun e he => ?_
  refine .of_ok (h.setFiles he (e.dRef + 1) s.dirCaches _ _ ?_)
  exact offsets_update h.offsets (Int.le_refl _)

theorem Vfs.Sound.openDentry (h : s.Sound) (d flags : Nat) :
    Yields Halt.Asserts (CabbagePKE.openDentry s d flags) (fun r => r.2.Sound) := by
  refine (h.yields_inodeType d).bind fun type _ => ?_
  split
  · exact .of_ok h
  · refine (yields_openMode flags).bind fun mode _ => ?_
    exact (h.allocVfsFile d mode.1 mode.2).bind fun r hr => .of_ok hr

theorem Vfs.Sound.openTarget (h : s.Sound) (hok : s.admits (.openFile path flags cwd) = true) :
    Yields Halt.Asserts (CabbagePKE.openTarget s path flags cwd) (fun r => r.2.Sound) := by
  rw [Vfs.admits, Bool.and_eq_true] at hok
  obtain ⟨hdirs, hadd⟩ := hok
  have hlook := h.lookupFinalDentry hdirs
  unfold CabbagePKE.openTarget
  cases hrun : CabbagePKE.lookupFinalDentry s path cwd with
  | error e => exact .of_error (hlook.2 e hrun)
  | ok r =>
    obtain ⟨l, s1⟩ := r
    obtain ⟨hs1, -, hfound⟩ := hlook.1 _ hrun
    rw [ok_bind]
    dsimp only
    cases hl : l.found with
    | some d => exact .of_ok hs1
    | none =>
      refine (hs1.openMissing hfound hl ?_).mono fun r hr => hr.1
      rw [Bool.or_eq_true, Vfs.canAdd, hrun] at hadd
      dsimp only at hadd
      rcases hadd with hflag | hadds
      · exact .inl (beq_iff_eq.mp hflag)
      · rw [hl] at hadds
        exact .inr hadds

theorem Vfs.Sound.vfsOpen (h : s.Sound) (hok : s.admits (.openFile path flags cwd) = true) :
    Yields Halt.Asserts (CabbagePKE.vfsOpen s path flags cwd) (fun r => r.2.Sound) := by
  refine (h.openTarget hok).bind fun r hr => ?_
  obtain ⟨target, s1⟩ := r
  cases target with
  | none => exact .of_ok hr
  | some d => exact hr.openDentry d flags

theorem Vfs.Sound.vfsClose (h : s.Sound) (f : Nat) :
    Yields Halt.Asserts (CabbagePKE.vfsClose s f) (fun r => r.2.Sound) := by
  refine (s.yields_file f).bind fun file hfile => ?_
  refine (h.yields_inodeType file.dentry).bind fun type ⟨e, he, htype⟩ => ?_
  split
  · exact .of_ok h
  rename_i hnot
  obtain ⟨q, v, m, hi, hv, hm, hdisk⟩ := htype (not_not.mp hnot)
  have hden : s.dentry file.dentry = .ok e := by rw [Vfs.dentry, he]
  rw [Vfs.rfsInode_eq he hi, ok_bind, hden, ok_bind]
  have hs := h.setFiles he (e.dRef - 1) s.dirCaches s.files s.nextFile h.offsets
  refine (hs.closeDentry (update_self ..) hi hv hm hdisk).bind fun s' hs' => ?_
  refine .of_ok (hs'.1.same _ (Vfs.SameDentries.of_eq rfl rfl rfl) rfl rfl le_rfl rfl
    rfl ?_)
  exact offsets_update hs'.1.offsets (h.offsets f file hfile)

end

/-! ## Names -/

section

variable {s : Vfs} {path oldpath newpath : Path} {cwd d : Nat}

theorem Vfs.Sound.vfsMkdir (h : s.Sound) (hok : s.admits (.mkdir path cwd) = true) :
    Yields Halt.Asserts (CabbagePKE.vfsMkdir s path cwd) (fun r => r.2.Sound) := by
  rw [Vfs.admits, Bool.and_eq_true] at hok
  obtain ⟨hdirs, hadd⟩ := hok
  have hlook := h.lookupFinalDentry hdirs
  unfold CabbagePKE.vfsMkdir
  cases hrun : CabbagePKE.lookupFinalDentry s path cwd with
  | error e => exact .of_error (hlook.2 e hrun)
  | ok r =>
    obtain ⟨l, s1⟩ := r
    obtain ⟨hs1, -, hfound⟩ := hlook.1 _ hrun
    rw [ok_bind]
    dsimp only
    cases hl : l.found with
    | some d => exact .of_ok hs1
    | none =>
      rw [Vfs.canAdd, hrun] at hadd
      dsimp only at hadd
      rw [hl] at hadd
      exact (hs1.mkdirMissing hfound hl hadd).mono fun r hr => hr.1

theorem Vfs.Sound.parent_of_file {l : Lookup} {e : Dentry} (h : s.Sound) (hfound : s.Found l)
    (hl : l.found = some d) (he : s.dentries d = some e) (hfile : s.FileAt e) :
    e.parent = some l.parent := by
  obtain ⟨q, v, m, hi, hv, hm, hdisk⟩ := hfile
  rw [Vfs.Found, hl] at hfound
  obtain ⟨e', he', hcase⟩ := hfound
  cases he.symm.trans he'
  refine hcase.resolve_left ?_
  rintro (rfl | ⟨n, hn, hdir⟩)
  · obtain ⟨e0, he0, hhost, -⟩ := h.hostRoot
    cases he.symm.trans he0
    simp [hi] at hhost
  · rw [Vfs.inumOf_of_vinode (Vfs.points_of_inode he hi) hv, hm] at hn
    obtain rfl : m = n := Int.natCast_inj.mp (Option.some.inj hn)
    exact R_FILE_ne_R_DIR (hdisk.symm.trans hdir)

theorem Vfs.Sound.vfsUnlink (h : s.Sound) (hok : s.admits (.unlink path cwd) = true) :
    Yields Halt.Asserts (CabbagePKE.vfsUnlink s path cwd) (fun r => r.2.Sound) := by
  refine (h.lookupFinalDentry hok).bind fun r hr => ?_
  obtain ⟨l, s1⟩ := r
  obtain ⟨hs1, -, hfound⟩ := hr
  dsimp only at hs1 hfound ⊢
  cases hl : l.found with
  | none => exact .of_ok hs1
  | some d =>
    refine (hs1.yields_inodeType d).bind fun type ⟨e, he, htype⟩ => ?_
    split
    · exact .of_ok hs1
    rename_i hnot
    have hfile := htype (not_not.mp hnot)
    have hpar := hs1.parent_of_file hfound hl he hfile
    obtain ⟨q, v, m, hi, hv, hm, hdisk⟩ := hfile
    have hden : s1.dentry d = .ok e := by rw [Vfs.dentry, he]
    rw [hden, ok_bind]
    split
    · exact .of_ok hs1
    rename_i href
    exact (hs1.unlinkDentry he hpar hi hv hm hdisk href).mono fun r hr => hr.1

theorem Vfs.Sound.vfsLink (h : s.Sound) (hok : s.admits (.link oldpath newpath cwd) = true) :
    Yields Halt.Asserts (CabbagePKE.vfsLink s oldpath newpath cwd) (fun r => r.2.Sound) := by
  rw [Vfs.admits, Bool.and_eq_true] at hok
  obtain ⟨hdirs, hcan⟩ := hok
  have hlook := h.lookupFinalDentry hdirs
  unfold CabbagePKE.vfsLink
  cases hrun : CabbagePKE.lookupFinalDentry s oldpath cwd with
  | error e => exact .of_error (hlook.2 e hrun)
  | ok r =>
    obtain ⟨lOld, s1⟩ := r
    obtain ⟨hs1, -, -⟩ := hlook.1 _ hrun
    rw [Vfs.canLink, hrun, Bool.and_eq_true] at hcan
    obtain ⟨hdirs', hnew⟩ := hcan
    rw [ok_bind]
    dsimp only
    cases hold : lOld.found with
    | none => exact .of_ok hs1
    | some old =>
      refine (hs1.yields_inodeType old).bind fun type ⟨e, he, htype⟩ => ?_
      split
      · exact .of_ok hs1
      rename_i hnot
      obtain ⟨q, v, m, hi, hv, hm, hdisk⟩ := htype (not_not.mp hnot)
      have hlook' := hs1.lookupFinalDentry hdirs'
      cases hrun' : CabbagePKE.lookupFinalDentry s1 newpath cwd with
      | error e => exact .of_error (hlook'.2 e hrun')
      | ok r =>
        obtain ⟨l, s2⟩ := r
        obtain ⟨hs2, hg, hfound⟩ := hlook'.1 _ hrun'
        rw [ok_bind]
        cases hl : l.found with
        | some _ => exact .of_ok hs2
        | none =>
          rw [hrun'] at hnew
          dsimp only at hnew
          rw [hl] at hnew
          simp only [Option.isSome_none, Bool.false_or, Bool.and_eq_true, beq_iff_eq] at hnew
          -- the file is still there after the second lookup
          have hinum := Vfs.inumOf_of_vinode (Vfs.points_of_inode he hi) hv
          obtain ⟨e', q', v', he', hi', -, hv', hvm'⟩ := Vfs.exists_of_inumOf (hg.inumOf _ _ hinum)
          exact hs2.linkMissing hfound hl hnew.2 hnew.1 he' hi' hv' (hvm'.trans hm)
            (by rw [hg.tree]; exact hdisk)

end

/-! ## Writing -/

def Vinode.OnBlocks (f f' : Vinode) : Prop :=
  ∃ blocks addrs, f' = { f with blocks := blocks, addrs := addrs }

theorem Vinode.OnBlocks.refl (f : Vinode) : f.OnBlocks f := ⟨f.blocks, f.addrs, rfl⟩

theorem Vinode.OnBlocks.trans {f f' f'' : Vinode} (h : f.OnBlocks f') (h' : f'.OnBlocks f'') :
    f.OnBlocks f'' := by
  obtain ⟨blocks, addrs, rfl⟩ := h
  exact h'

section

variable {bad : Halt → Prop} [Halt.Spares bad] {s : Vfs} {d f q n m len : Nat} {v : Vinode}
  {rdev : RfsDevice}

theorem yields_addrAt (d : Dinode) (i : Int) : Yields bad (addrAt d i) (fun _ => True) := by
  unfold addrAt
  split
  · exact .of_ok trivial
  · exact yields_access .undefined

theorem yields_ramdiskRead (rdev : RfsDevice) (b : Int) :
    Yields bad (ramdiskRead rdev b) (fun rdev' => rdev'.blocks = rdev.blocks) := by
  unfold ramdiskRead
  split
  · exact yields_access .read
  · exact .of_ok rfl

theorem yields_ramdiskWrite (rdev : RfsDevice) (b : Int) :
    Yields bad (ramdiskWrite rdev b) (fun _ => True) := by
  unfold ramdiskWrite
  split
  · exact yields_access (.write b)
  · exact .of_ok trivial

theorem yields_rfsAllocBlock (sb : SuperBlock) : Yields bad (rfsAllocBlock sb) (fun _ => True) := by
  unfold rfsAllocBlock
  split
  · exact yields_access .full
  · exact .of_ok trivial

theorem yields_growFile (v : Volume) (f : Vinode) (k : Int) :
    Yields bad (growFile v f k) (fun r => f.OnBlocks r.2) := by
  unfold growFile
  split
  · refine (yields_rfsAllocBlock v.sb).bind fun r _ => ?_
    dsimp only
    split
    · exact .of_ok ⟨_, _, rfl⟩
    · exact yields_access .undefined
  · exact .of_ok (.refl f)

theorem yields_writeChunk (v : Volume) (f : Vinode) (buf : Mem) (o n : Nat) (k : Int) :
    Yields bad (writeChunk v f buf o n k) (fun r => f.OnBlocks r.2) := by
  refine (yields_growFile v f k).bind fun r hr => ?_
  refine (yields_addrAt r.2.toDinode k).bind fun b _ => ?_
  exact (yields_ramdiskWrite _ b).bind fun dev _ => .of_ok hr

theorem yields_writeBlocks (buf : Mem) (n : Nat) (v : Volume) (f : Vinode) (o : Nat) (k : Int) :
    Yields bad (writeBlocks buf n v f o k) (fun r => f.OnBlocks r.2) := by
  induction n generalizing v f o k with
  | zero => exact .of_ok (.refl f)
  | succ n ih =>
    refine (yields_writeChunk v f buf o RFS_BLKSIZE k).bind fun r hr => ?_
    exact (ih r.1 r.2 _ _).mono fun r' hr' => hr.trans hr'

theorem yields_writeRest (v : Volume) (f : Vinode) (buf : Mem) (o : Nat) (k times remain : Int) :
    Yields bad (writeRest v f buf o k times remain) (fun r => f.OnBlocks r.2) := by
  unfold writeRest
  split
  · exact .of_ok (.refl f)
  · refine (yields_writeBlocks buf _ v f o k).bind fun r hr => ?_
    dsimp only
    split
    · exact (yields_writeChunk r.1 r.2 buf _ _ _).mono fun r' hr' => hr.trans hr'
    · exact .of_ok hr

theorem yields_writeFirst (v : Volume) (f : Vinode) (buf : Mem) (align n k : Int) :
    Yields bad (writeFirst v f buf align n k) (fun _ => True) := by
  refine (yields_addrAt f.toDinode k).bind fun b _ => ?_
  refine (yields_ramdiskRead v.dev b).bind fun dev _ => ?_
  split
  · exact yields_access .undefined
  · exact (yields_ramdiskWrite _ b).bind fun dev _ => .of_ok trivial

theorem yields_writeData (v : Volume) (f : Vinode) (buf : Mem) (len : Nat) (offset : Int) :
    Yields bad (writeData v f buf len offset) (fun r => f.OnBlocks r.2) := by
  unfold writeData
  dsimp only
  split
  · exact (yields_writeFirst v f buf _ _ _).bind fun v' _ => yields_writeRest v' f buf _ _ _ _
  · exact yields_writeRest v f buf _ _ _ _

theorem yields_rfsWrite (v : Volume) (f : Vinode) (buf : Mem) (len : Nat) (offset : Int) :
    Yields Halt.Asserts (rfsWrite v f buf len offset) (fun _ => True) := by
  unfold rfsWrite
  split
  · exact .of_error not_false
  · exact (yields_writeData v f buf len offset).bind fun r _ => .of_ok trivial

def Vfs.stored (s : Vfs) (vol : Volume) (q : Nat) (node : Vinode) : Vfs :=
  { s with rfs := { s.rfs.setVinode q node with vol := vol } }

theorem Vfs.Sound.rfsWrite {buf : Mem} {o : Int} {r : Nat × Int × Volume × Vinode} (h : s.Sound)
    (hq : s.rfs.vinodes q = some v) (hm : v.inum = m) (hfile : (s.tree.disk m).type = R_FILE)
    (ho : 0 ≤ o) (hmax : o + len ≤ DIRECT_BLKNUM * RFS_BLKSIZE)
    (hrun : CabbagePKE.rfsWrite s.rfs.vol v buf len o = .ok r) :
    (s.stored r.2.2.1 q r.2.2.2).Sound ∧ 0 ≤ r.2.1 := by
  have hin := Tree.inUse_of_file hfile
  have hok := h.tree.shape.inode m hin
  have hnode := h.node_eq hq hm
  have hfok := h.tree.fileOk s.tree_on h.nblocks hin hnode.symm
  have hnonneg := hok.size_nonneg
  have hle := hok.size_le
  have hnb := hfok.blocks_eq
  rw [hnode] at hnonneg hle
  have hos : ¬ v.size < o := by
    intro hlt
    simp [CabbagePKE.rfsWrite, if_pos hlt] at hrun
  obtain ⟨k, rfl⟩ := Int.eq_ofNat_of_zero_le ho
  obtain ⟨size, hsize⟩ := Int.eq_ofNat_of_zero_le hnonneg
  rw [hsize, hnb] at hle
  have hmax' : k + len ≤ DIRECT_BLKNUM * RFS_BLKSIZE := by exact_mod_cast hmax
  obtain ⟨hall, hnone⟩ := rfsWrite_spec buf hfok hsize (by exact_mod_cast hle) (by omega) hmax'
  by_cases hfree : blocksFor (k + len) - v.blocks.toNat ≤ s.rfs.vol.sb.freeCount
  · obtain ⟨v', f', hres, hw⟩ := hall hfree
    cases hres.symm.trans hrun
    have hfit : max size (k + len) ≤ RFS_BLKSIZE * max v.blocks.toNat (blocksFor (k + len)) :=
      max_le_blocks (by exact_mod_cast hle)
    have hon := s.tree_on.fileWrote (max size (k + len) : Nat) h.tree hfile hnode.symm hw
    have htok := h.tree.fileWrote s.tree_on hfile hnode.symm hw hfit
    obtain ⟨addrs, hrest⟩ := hw.rest
    refine ⟨?_, Int.natCast_nonneg _⟩
    have hdisk : (s.tree.write m (f'.toDinode.withSize (max size (k + len) : Nat))).disk
        = s.tree.disk := update_eq_self ..
    have htree : (s.stored v' q (f'.withSize (max size (k + len) : Nat))).tree
        = s.tree.write m (f'.toDinode.withSize (max size (k + len) : Nat)) := by
      apply Tree.On.tree_eq (s := s.stored v' q (f'.withSize (max size (k + len) : Nat))) hon
      rw [h.cache_set (s.stored v' q (f'.withSize (max size (k + len) : Nat))) hq hm rfl rfl,
        overlay_update]
      show _ = update (overlay s.cache v'.disk) m _
      rw [← hon.disk, hdisk]
      rfl
    apply h.setVinode (s.stored v' q (f'.withSize (max size (k + len) : Nat)))
      (Vfs.SameDentries.of_eq rfl rfl rfl) hw.ok.nblocks (by rw [htree]; exact htok)
      le_rfl rfl
    · intro j
      by_cases hj : j = q
      · subst hj
        simp [Vfs.stored, Rfs.setVinode, Vinode.withSize, hq, hrest]
      · simp [Vfs.stored, Rfs.setVinode, hj]
    · intro j hj
      rw [htree]
      rwa [Tree.InUse, hdisk]
    · intro d e _ up _ i j _ hij
      have hents := h.tree.shape.ents_file hfile
      rwa [htree, Tree.write, ← hents, Tree.target_put]
    · intro d j _ hj
      rwa [htree, hdisk] at hj
    · exact h.offsets
  · simp [hnone hfree] at hrun

theorem Vfs.Sound.vfsWrite {buf : Mem} (h : s.Sound) (hok : s.admits (.write f buf len) = true) :
    Yields Halt.Asserts (CabbagePKE.vfsWrite s f buf len) (fun r => r.2.Sound) := by
  refine (s.yields_file f).bind fun file hfile => ?_
  split
  · exact .of_ok h
  refine (h.yields_inodeType file.dentry).bind fun type ⟨e, he, htype⟩ => ?_
  split
  · exact .of_ok h
  rename_i hnot
  obtain ⟨q, v, m, hi, hv, hm, hdisk⟩ := htype (not_not.mp hnot)
  have hvin : s.rfs.vinode q = .ok v := by rw [Rfs.vinode, hv]
  rw [Vfs.rfsInode_eq he hi, ok_bind, hvin, ok_bind]
  have hnoassert := yields_rfsWrite s.rfs.vol v buf len file.offset
  cases hrun : CabbagePKE.rfsWrite s.rfs.vol v buf len file.offset with
  | error e => exact .of_error (hnoassert.2 e hrun)
  | ok r =>
    have hmax : file.offset + len ≤ DIRECT_BLKNUM * RFS_BLKSIZE := by
      simpa [Vfs.admits, Vfs.canWrite, hfile] using hok
    obtain ⟨hs, hoff⟩ := h.rfsWrite hv hm hdisk (h.offsets f file hfile) hmax hrun
    refine .of_ok (hs.same _ (Vfs.SameDentries.of_eq rfl rfl rfl) rfl rfl le_rfl rfl
      rfl ?_)
    exact offsets_update h.offsets hoff

end

/-! ## Directories -/

section

variable {s : Vfs} {path : Path} {cwd f : Nat}

theorem yields_readDirBlocks (dir : Dinode) (adjacent : Bool) (n : Nat) (rdev : RfsDevice)
    (pages : List Mem) : Yields Halt.Asserts (readDirBlocks dir adjacent n rdev pages)
      (fun r => r.2.blocks = rdev.blocks) := by
  induction n generalizing rdev pages with
  | zero => exact .of_ok rfl
  | succ n ih =>
    unfold readDirBlocks
    split
    · exact .of_error not_false
    · refine (yields_addrAt dir n).bind fun b _ => ?_
      refine (yields_ramdiskRead rdev b).bind fun rdev' hbl => ?_
      exact (ih rdev' _).mono fun r hr => hr.trans hbl

theorem Vfs.Sound.hookOpendir (h : s.Sound) (d : Nat) (adjacent : Bool) :
    Yields Halt.Asserts (CabbagePKE.hookOpendir s d adjacent) (fun s' => s'.Sound) := by
  refine (s.yields_dentry d).bind fun e he => ?_
  cases hi : e.inode with
  | null => exact .of_error not_false
  | host => exact .of_ok h
  | rfs p =>
    obtain ⟨v, hv, -⟩ := h.points_live (Vfs.points_of_inode he hi)
    have hvin : s.rfs.vinode p = .ok v := by rw [Rfs.vinode, hv]
    dsimp only
    rw [rfsHookOpendir, hvin, ok_bind]
    refine (yields_readDirBlocks _ adjacent _ s.rfs.vol.dev []).bind fun r hbl => ?_
    refine .of_ok ((h.skip hbl 0 0).same _ (Vfs.SameDentries.of_eq rfl rfl rfl) rfl rfl
      le_rfl rfl rfl h.offsets)

theorem Vfs.Sound.vfsOpendir {adjacent : Bool} (h : s.Sound)
    (hok : s.admits (.opendir path cwd adjacent) = true) :
    Yields Halt.Asserts (CabbagePKE.vfsOpendir s path cwd adjacent) (fun r => r.2.Sound) := by
  refine (h.lookupFinalDentry hok).bind fun r hr => ?_
  obtain ⟨l, s1⟩ := r
  obtain ⟨hs1, -, -⟩ := hr
  dsimp only at hs1 ⊢
  cases l.found with
  | none => exact .of_ok hs1
  | some d =>
    refine (hs1.yields_inodeType d).bind fun type _ => ?_
    split
    · exact .of_ok hs1
    refine (hs1.allocVfsFile d true false).bind fun r hr => ?_
    exact (hr.hookOpendir d adjacent).bind fun s' hs' => .of_ok hs'

theorem Vfs.Sound.hookClosedir (h : s.Sound) (d : Nat) :
    Yields Halt.Asserts (CabbagePKE.hookClosedir s d) (fun s' => s'.Sound) := by
  refine (s.yields_dentry d).bind fun e _ => ?_
  cases e.inode with
  | null => exact .of_error not_false
  | host => exact .of_ok h
  | rfs p =>
    dsimp only
    unfold rfsHookClosedir
    split
    · exact .of_error not_false
    · split
      · exact .of_error not_false
      · exact .of_ok (h.same _ (Vfs.SameDentries.of_eq rfl rfl rfl) rfl rfl le_rfl
          rfl rfl h.offsets)

theorem Vfs.Sound.vfsClosedir (h : s.Sound) (f : Nat) :
    Yields Halt.Asserts (CabbagePKE.vfsClosedir s f) (fun r => r.2.Sound) := by
  refine (s.yields_file f).bind fun file hfile => ?_
  refine (h.yields_inodeType file.dentry).bind fun type ⟨e, he, _⟩ => ?_
  split
  · exact .of_ok h
  have hden : s.dentry file.dentry = .ok e := by rw [Vfs.dentry, he]
  rw [hden, ok_bind]
  have hs := h.setFiles he (e.dRef - 1) s.dirCaches
    (update s.files f (some { file with opened := false })) s.nextFile
    (offsets_update h.offsets (h.offsets f file hfile))
  exact (hs.hookClosedir file.dentry).bind fun s' hs' => .of_ok hs'

end

/-! ## All operations -/

theorem Vfs.Sound.step {s : Vfs} {op : VfsOp} (h : s.Sound) (hok : s.admits op = true) :
    Yields Halt.Asserts (s.step op) (fun s' => s'.Sound) := by
  cases op with
  | openFile path flags cwd => exact (h.vfsOpen hok).map fun r hr => hr
  | write f buf len => exact (h.vfsWrite hok).map fun r hr => hr
  | close f => exact (h.vfsClose f).map fun r hr => hr
  | mkdir path cwd => exact (h.vfsMkdir hok).map fun r hr => hr
  | link oldpath newpath cwd => exact (h.vfsLink hok).map fun r hr => hr
  | unlink path cwd => exact (h.vfsUnlink hok).map fun r hr => hr
  | opendir path cwd adjacent => exact (h.vfsOpendir hok).map fun r hr => hr
  | closedir f => exact (h.vfsClosedir f).map fun r hr => hr

end CabbagePKE
