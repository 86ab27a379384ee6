import CabbagePKE.Rfs.Image

/-!
# Directories of any size

`rfs_lookup`, `rfs_unlink` and the functions that call `rfs_add_direntry`, on
a directory whose entries lie in its own blocks, however many these are. The
number of blocks is fixed when the directory is made and its name field has 28
bytes: what happens to the 129th entry of a block, and to a longer name.
-/

namespace CabbagePKE

open Lib Function List

/-! ## Lookup -/

/-- `rfs_lookup` of `name` in the directory at `p` gives a new vinode for inode `m`. -/
def Rfs.Finds (fs : Rfs) (p : Nat) (name : Name) (m : Nat) : Prop :=
  ∃ rdev, rfsLookup fs p name = .ok (some fs.nextVinode, fs.loaded rdev m) ∧
    rdev.blocks = fs.vol.dev.blocks

section

variable {fs : Rfs} {p k n m : Nat} {dir : Vinode} {name : Name} {e : Name × Int}

theorem DirOk.search (h : DirOk fs.vol.dev.blocks dir.toDinode k n) (hname : (0 : UInt8) ∉ name) :
    ∃ found rdev, findDirentry dir.toDinode name (totalDirentrys dir.toDinode).toNat 0 fs.vol.dev
        = .ok (found, rdev) ∧ rdev.blocks = fs.vol.dev.blocks ∧
      found = (entriesOf fs.vol.dev.blocks dir.toDinode).findIdx? (fun e => e.1 = name) ∧
      ∀ i, found = some i → i < n ∧ (entriesOf fs.vol.dev.blocks dir.toDinode).find?
        (fun e => e.1 = name) = some (name, direntryInum rdev.iobuffer i) := by
  obtain ⟨rdev, hrun, hb, hio⟩ := h.findDirentry_eq fs.vol.dev (direntrys_eq h.size) h.le hname
    (fun i hi => .inl (h.names i hi))
  rw [h.total]
  refine ⟨_, rdev, hrun, hb, rfl, fun i hi => ?_⟩
  obtain ⟨hlt, heq, -⟩ := findIdx?_eq_some_iff_getElem.mp hi
  rw [entriesOf_length h.size] at hlt
  have hget : (entriesOf fs.vol.dev.blocks dir.toDinode)[i]?
      = some (entryOf fs.vol.dev.blocks dir.toDinode i) := by
    rw [entriesOf_getElem? h.size, if_pos hlt]
  have hent : (entryOf fs.vol.dev.blocks dir.toDinode i).1 = name := by
    rw [getElem?_eq_some_iff] at hget
    obtain ⟨_, hget⟩ := hget
    rw [← hget]
    simpa using heq
  refine ⟨hlt, ?_⟩
  rw [find?_eq_bind_findIdx?_getElem?, hi, Option.bind_some, hget, hio i hi, ← hent]

theorem DirOk.search_found (h : DirOk fs.vol.dev.blocks dir.toDinode k n)
    (hname : (0 : UInt8) ∉ name) (he : (entriesOf fs.vol.dev.blocks dir.toDinode).find?
      (fun e => e.1 = name) = some e) (hm : e.2 = m) :
    ∃ i rdev, findDirentry dir.toDinode name (totalDirentrys dir.toDinode).toNat 0 fs.vol.dev
        = .ok (some i, rdev) ∧ rdev.blocks = fs.vol.dev.blocks ∧
      (entriesOf fs.vol.dev.blocks dir.toDinode).findIdx? (fun e => e.1 = name) = some i ∧ i < n ∧
      direntryInum rdev.iobuffer i = m := by
  obtain ⟨found, rdev, hrun, hb, hfound, hat⟩ := h.search hname
  cases found with
  | none =>
    rw [find?_eq_bind_findIdx?_getElem?, ← hfound] at he
    cases he
  | some i =>
    obtain ⟨hlt, hi⟩ := hat i rfl
    cases he.symm.trans hi
    exact ⟨i, rdev, hrun, hb, hfound.symm, hlt, hm⟩

theorem DirOk.finds (hv : fs.vinodes p = some dir) (h : DirOk fs.vol.dev.blocks dir.toDinode k n)
    (hname : (0 : UInt8) ∉ name) (he : (entriesOf fs.vol.dev.blocks dir.toDinode).find?
      (fun e => e.1 = name) = some e) (hm : e.2 = m) (hlt : m < RFS_NINODES) :
    fs.Finds p name m := by
  obtain ⟨i, rdev, hrun, hb, -, -, hinum⟩ := h.search_found hname he hm
  obtain ⟨rdev', hload, hb'⟩ := loadVinode_eq (fs.setDev rdev) hlt
  have hdisk : (fs.setDev rdev).vol.disk = fs.vol.disk := Volume.disk_congr hb
  have hsame : (fs.setDev rdev).loaded rdev' m = fs.loaded rdev' m := by
    rw [Rfs.loaded, hdisk]
    rfl
  refine ⟨rdev', ?_, hb'.trans hb⟩
  rw [rfsLookup, Rfs.vinode, hv, ok_bind]
  dsimp only
  rw [hrun, ok_bind]
  dsimp only
  rw [hinum, hload, hsame]
  rfl

theorem DirOk.misses (hv : fs.vinodes p = some dir) (h : DirOk fs.vol.dev.blocks dir.toDinode k n)
    (hname : (0 : UInt8) ∉ name) (he : (entriesOf fs.vol.dev.blocks dir.toDinode).find?
      (fun e => e.1 = name) = none) :
    ∃ rdev, rfsLookup fs p name = .ok (none, fs.setDev rdev) ∧ rdev.blocks = fs.vol.dev.blocks := by
  obtain ⟨found, rdev, hrun, hb, -, hat⟩ := h.search hname
  cases found with
  | none => exact ⟨rdev, by simp only [rfsLookup, Rfs.vinode, hv, ok_bind, hrun, pure_eq_ok], hb⟩
  | some i => simp [(hat i rfl).2] at he

end

def zeroDir (k n : Nat) : Vinode where
  size := (DIRENTRY_SIZE * n : Nat)
  type := R_DIR
  nlinks := 1
  blocks := k
  addrs i := (RFS_BLK_OFFSET_FREE + i : Nat)
  inum := 1
  ref := 0

def zeroRfs (k n : Nat) : Rfs where
  vol := { dev := { blocks := fun _ _ => 0, iobuffer := fun _ => 0 },
           sb := { nblocks := RFS_NBLOCKS, freemap := fun _ => 0 } }
  vinodes := update (update (fun _ => none) 0 (some (zeroDir k n))) 1
    (some { toDinode := dinodeAt (fun _ _ => 0) 0, inum := 0, ref := 0 })
  nextVinode := 2

theorem zeroDir_fits {k n : Nat} (hk : k ≤ DIRECT_BLKNUM) (hn : n ≤ ONE_BLOCK_DIRENTRYS * k) :
    (zeroDir k n).Fits := by
  unfold DIRECT_BLKNUM ONE_BLOCK_DIRENTRYS at *
  refine ⟨fits_natCast ?_, fits_natCast (x := 1) (by decide), fits_natCast (x := 1) (by decide),
    fits_natCast (by omega), fun i => fits_natCast ?_⟩
  · unfold DIRENTRY_SIZE
    omega
  · have hi : (i : Nat) < 10 := i.isLt
    unfold RFS_BLK_OFFSET_FREE
    omega

theorem zeroDir_ok {k n : Nat} (hk : k ≤ DIRECT_BLKNUM) (hn : n ≤ ONE_BLOCK_DIRENTRYS * k) :
    DirOk (zeroRfs k n).vol.dev.blocks (zeroDir k n).toDinode k n := by
  have haddr : ∀ i, i < k → (zeroDir k n).addr i = (RFS_BLK_OFFSET_FREE + i : Nat) :=
    fun i hi => dif_pos (hi.trans_le hk)
  have hblock : ∀ i, i < k → (zeroDir k n).block i = RFS_BLK_OFFSET_FREE + i := fun i hi => by
    rw [Dinode.block, haddr i hi, Int.toNat_natCast]
  refine ⟨⟨rfl, hk, fun i hi => ?_, fun i hi => ?_, fun i j hi hj => ?_⟩, rfl, hn, fun _ _ => ?_⟩
  · rw [haddr i hi, hblock i hi]
  · rw [hblock i hi]
    unfold DIRECT_BLKNUM at hk
    exact ⟨Nat.le_add_right _ _, Nat.add_lt_add_left (by unfold RFS_NBLOCKS; omega) _⟩
  · rw [hblock i hi, hblock j hj]
    omega
  · exact Nat.zero_lt_succ _

theorem zeroDir_ents (k n : Nat) : entriesOf (zeroRfs k n).vol.dev.blocks (zeroDir k n).toDinode
    = List.replicate n (([] : Name), (0 : Int)) := by
  refine eq_replicate_iff.mpr ⟨entriesOf_length rfl, fun e he => ?_⟩
  obtain ⟨i, -, rfl⟩ := mem_map.mp he
  have hword : ∀ a, getWord (fun _ => 0) a = 0 := fun a => by
    simp [getWord, readLE, wrap32]
  exact congrArg (([] : Name), ·) (hword _)

/-! ## Unlinking -/

def dirBlocksFor (n : Nat) : Nat := max 1 ((n + ONE_BLOCK_DIRENTRYS - 1) / ONE_BLOCK_DIRENTRYS)

section

variable {fs : Rfs} {p q i m k n : Nat} {dir node : Vinode} {name : Name} {e : Name × Int}

theorem rfsUnlink_eq {i : Nat} {rdev rdev1 rdev2 : RfsDevice} {d d' : Dinode} {dir' dir'' : Vinode}
    {sb : SuperBlock} {vol : Volume} (hp : fs.vinodes p = some dir)
    (hfind : findDirentry dir.toDinode name (totalDirentrys dir.toDinode).toNat 0 fs.vol.dev
      = .ok (some i, rdev)) (hinum : direntryInum rdev.iobuffer i = m)
    (hread : rfsReadDinode rdev m = .ok (d, rdev1)) (hq : fs.vinodes q = some node)
    (hlinks : node.nlinks = d.nlinks)
    (hrel : releaseDinode fs.vol.sb { d with nlinks := wrap32 (node.nlinks - 1) } = .ok (sb, d'))
    (hwrite : rfsWriteDinode rdev1 d' m = .ok rdev2)
    (hdir : (fs.setVinode q { node with nlinks := wrap32 (node.nlinks - 1) }).vinodes p = some dir')
    (hrem : removeDirentry ⟨rdev2, sb⟩ dir' (totalDirentrys dir.toDinode) i = .ok (vol, dir'')) :
    rfsUnlink fs p name q = .ok (0, { (fs.setVinode q { node with
      nlinks := wrap32 (node.nlinks - 1) }).setVinode p dir'' with vol := vol }) := by
  have hq' : (fs.setDev rdev).vinode q = .ok node := by rw [Rfs.vinode, Rfs.setDev, hq]
  have hdir' : ((fs.setDev rdev).setVinode q
      { node with nlinks := wrap32 (node.nlinks - 1) }).vinode p = .ok dir' := by
    rw [Rfs.vinode, Rfs.setVinode, Rfs.setDev]
    rw [Rfs.setVinode] at hdir
    rw [hdir]
  rw [rfsUnlink, Rfs.vinode, hp, ok_bind]
  dsimp only
  rw [hfind, ok_bind]
  dsimp only
  rw [hinum, unlinkEntry]
  show ((rfsReadDinode rdev m >>= _) >>= _) = _
  rw [hread, ok_bind]
  dsimp only
  rw [hq', ok_bind, if_neg (not_not.mpr hlinks)]
  show ((releaseDinode fs.vol.sb _ >>= _) >>= _) = _
  rw [hrel, ok_bind, hwrite, ok_bind, hdir', ok_bind, hrem]
  rfl

theorem DirOk.mono {blocks blocks' : Nat → Mem} {d d' : Dinode} (h : DirOk blocks d k n)
    (hb : ∀ i, i < k → blocks' (d.block i) = blocks (d.block i)) (hsize : d'.size = d.size)
    (hblocks : d'.blocks = d.blocks) (haddrs : d'.addrs = d.addrs) : DirOk blocks' d' k n := by
  have haddr : d'.addr = d.addr := by
    unfold Dinode.addr
    rw [haddrs]
  have hblock : d'.block = d.block := by
    unfold Dinode.block
    rw [haddr]
  refine ⟨⟨hblocks.trans h.count, h.few, ?_, ?_, ?_⟩, hsize.trans h.size, h.le, fun j hj => ?_⟩
  · rw [haddr, hblock]
    exact h.addr
  · rw [hblock]
    exact h.data
  · rw [hblock]
    exact h.inj
  · rw [entryOf, hblock, hb _ (h.block_lt hj)]
    exact h.names j hj

theorem DirOk.freeEmptyBlock {blocks : Nat → Mem} (h : DirOk blocks dir.toDinode k n)
    (sb : SuperBlock) (hn : 0 < n) (hk : k = dirBlocksFor n) :
    ∃ sb', CabbagePKE.freeEmptyBlock sb dir n (dir.block (k - 1))
        = .ok (sb', { dir with blocks := (dirBlocksFor (n - 1) : Nat) }) ∧
      ∀ c, IsData c → (sb'.Used c ↔ sb.Used c ∧
        ¬ (c = dir.block (k - 1) ∧ (n - 1) % ONE_BLOCK_DIRENTRYS = 0 ∧ 1 < k)) := by
  have hcount := h.count
  have hmod : ((n : Int) - 1).tmod ONE_BLOCK_DIRENTRYS
      = (((n - 1) % ONE_BLOCK_DIRENTRYS : Nat) : Int) := by
    rw [show (n : Int) - 1 = ((n - 1 : Nat) : Int) by omega, Int.tmod_eq_emod_of_nonneg (by omega)]
    rfl
  rw [CabbagePKE.freeEmptyBlock, hmod]
  by_cases hfree : (n - 1) % ONE_BLOCK_DIRENTRYS = 0 ∧ 1 < k
  · have hb := h.data (k - 1) (by omega)
    have hnew : dir.blocks - 1 = (dirBlocksFor (n - 1) : Nat) := by
      unfold dirBlocksFor ONE_BLOCK_DIRENTRYS at *
      omega
    rw [if_pos ⟨by omega, by omega⟩, rfsFreeBlock_eq hb.1
      (hb.2.trans_le (Nat.add_le_add_left (by decide) _)), ok_bind, hnew]
    refine ⟨_, rfl, fun c hc => ?_⟩
    rw [used_update hb.1 hc.1 rfl]
    by_cases hcb : c = dir.block (k - 1)
    · simp [hcb, hfree]
    · simp [hcb]
  · have hnew : dir.blocks = (dirBlocksFor (n - 1) : Nat) := by
      unfold dirBlocksFor ONE_BLOCK_DIRENTRYS at *
      omega
    rw [if_neg (by omega), ← hnew]
    exact ⟨sb, rfl, fun c _ => by simp [hfree]⟩

theorem releaseDinode_spec {d : Dinode} (x : Int) (sb : SuperBlock)
    (hd : ∀ j : Nat, (j : Int) < d.blocks → j < DIRECT_BLKNUM ∧ ∃ b : Nat, d.addr j = b ∧ IsData b) :
    ∃ sb' d', releaseDinode sb { d with nlinks := x } = .ok (sb', d') ∧
      ∀ c, IsData c → (∀ j : Nat, (j : Int) < d.blocks → d.addr j ≠ (c : Int)) →
        (sb'.Used c ↔ sb.Used c) := by
  rw [releaseDinode]
  split
  · obtain ⟨sb', hrun, -, hused⟩ := freeDinodeBlocks_spec (d := { d with nlinks := x })
      (k := d.blocks.toNat) (i := 0) sb (fun j _ hj => hd j (by omega))
    rw [hrun, ok_bind]
    refine ⟨sb', _, rfl, fun c hc hne => ?_⟩
    rw [hused c hc]
    refine and_iff_left ?_
    rintro ⟨j, -, hj, hjc⟩
    exact hne j (by omega) hjc
  · exact ⟨sb, _, rfl, fun _ _ _ => Iff.rfl⟩

/-- **`rfs_unlink` removes one entry**, from a directory with any number of blocks. -/
theorem rfsUnlink_removes (hp : fs.vinodes p = some dir)
    (h : DirOk fs.vol.dev.blocks dir.toDinode k n) (hk : k = dirBlocksFor n) (hf : dir.Fits)
    (hi : dir.inum = i) (hilt : i < RFS_NINODES)
    (he : (entriesOf fs.vol.dev.blocks dir.toDinode).find? (fun e => e.1 = name) = some e)
    (hm : e.2 = m) (hmlt : m < RFS_NINODES) (hq : fs.vinodes q = some node)
    (hlinks : node.nlinks = (dinodeAt fs.vol.dev.blocks m).nlinks)
    (hfile : ∀ j : Nat, (j : Int) < (dinodeAt fs.vol.dev.blocks m).blocks → j < DIRECT_BLKNUM ∧
      ∃ b : Nat, (dinodeAt fs.vol.dev.blocks m).addr j = b ∧ IsData b ∧
        ∀ t, t < k → b ≠ dir.block t) :
    ∃ fs' dir', rfsUnlink fs p name q = .ok (0, fs') ∧ fs'.vinodes p = some dir' ∧
      dinodeAt fs'.vol.dev.blocks i = dir'.toDinode ∧
      entriesOf fs'.vol.dev.blocks dir'.toDinode
        = (entriesOf fs.vol.dev.blocks dir.toDinode).eraseP (fun e => e.1 = name) ∧
      dir'.size = dir.size - DIRENTRY_SIZE ∧ dir'.blocks = (dirBlocksFor (n - 1) : Nat) ∧
      dir'.addrs = dir.addrs ∧
      (∀ t, t < k → (fs'.vol.sb.Used (dir.block t) ↔ fs.vol.sb.Used (dir.block t) ∧
        ¬ (t = k - 1 ∧ (n - 1) % ONE_BLOCK_DIRENTRYS = 0 ∧ 1 < k))) ∧
      ∀ c, c ≠ inodeBlock i → c ≠ inodeBlock m → (∀ t, t < k → c ≠ dir.block t) →
        fs'.vol.dev.blocks c = fs.vol.dev.blocks c := by
  have hname : (0 : UInt8) ∉ name := by
    have hmem := mem_of_find?_eq_some he
    have heq := find?_some he
    obtain ⟨j, -, rfl⟩ := mem_map.mp hmem
    rw [← of_decide_eq_true heq]
    exact cstr_noNul _ _ _
  obtain ⟨j, rdev, hrun, hb, hidx, hj, hinum⟩ := h.search_found hname he hm
  -- the inode of the file
  have hread : rfsReadDinode rdev m = _ := rfsReadDinode_eq hmlt
  rw [hb] at hread
  obtain ⟨sb1, d1, hrel, hused⟩ := releaseDinode_spec (wrap32 (node.nlinks - 1)) fs.vol.sb
    (d := dinodeAt fs.vol.dev.blocks m) (fun j hj => by
      obtain ⟨hlt, b, hb, hdata, -⟩ := hfile j hj
      exact ⟨hlt, b, hb, hdata⟩)
  obtain ⟨rdev1, hwrite, -, hblk⟩ := rfsWriteDinode_spec
    { fs.vol.dev with
      iobuffer := fs.vol.dev.blocks (m / INODES_PER_BLK + RFS_BLK_OFFSET_INODE) } d1 hmlt
  -- the directory, which may be the file
  obtain ⟨x, hx, hdir1⟩ : ∃ x, Fits32 x ∧ (fs.setVinode q
      { node with nlinks := wrap32 (node.nlinks - 1) }).vinodes p = some { dir with nlinks := x } := by
    by_cases hpq : p = q
    · subst hpq
      cases hp.symm.trans hq
      exact ⟨_, fits_wrap32 _, update_self ..⟩
    · exact ⟨dir.nlinks, hf.nlinks, (update_of_ne hpq ..).trans hp⟩
  have h1 : DirOk rdev1.blocks ({ dir with nlinks := x } : Vinode).toDinode k n :=
    h.mono (fun t ht => hblk _ ((h.data t ht).ne_inodeBlock hmlt)) rfl rfl rfl
  obtain ⟨sb2, hfree, hused2⟩ := h1.freeEmptyBlock sb1 (by omega) hk
  have hle : dirBlocksFor (n - 1) ≤ k := by
    rw [hk]
    unfold dirBlocksFor ONE_BLOCK_DIRENTRYS
    omega
  obtain ⟨rdev2, hrem, hents, hino, hdat⟩ := removeDirentry_spec (v := ⟨rdev1, sb1⟩) h1 hj hfree hle
    hi hilt { hf with nlinks := hx }
  rw [← h.total] at hrem
  refine ⟨_, _, rfsUnlink_eq hp hrun hinum hread hq hlinks hrel hwrite hdir1 hrem,
    update_self .., (hino i hilt).trans (if_pos rfl), ?_, ?_, rfl, rfl, fun t ht => ?_,
    fun c hci hcm hcd => ?_⟩
  · rw [eraseP_eq_eraseIdx, hidx]
    refine hents.trans (congrArg (eraseIdx · j) ?_)
    exact h.congr fun t ht => hblk _ ((h.data t ht).ne_inodeBlock hmlt)
  · dsimp only
    rw [h.size]
    unfold DIRENTRY_SIZE
    omega
  · rw [hused2 _ (h.data t ht), hused _ (h.data t ht)]
    · have hlast : dir.block t = ({ dir with nlinks := x } : Vinode).block (k - 1) ↔ t = k - 1 :=
        ⟨fun hc => h.inj _ _ ht (by omega) hc, fun hc => by rw [hc]; rfl⟩
      rw [hlast]
    · intro j hj hjc
      obtain ⟨-, b, hb, -, hne⟩ := hfile j hj
      exact hne t ht (Int.natCast_inj.mp (hb.symm.trans hjc))
  · rw [hdat c hci hcd, hblk c hcm]

/-- The last of 129 entries gives its block back. -/
theorem rfsUnlink_removes_two_blocks : ∃ fs' dir', rfsUnlink (zeroRfs 2 129) 0 [] 1 = .ok (0, fs') ∧
    fs'.vinodes 0 = some dir' ∧ dir'.size = 4096 ∧ dir'.blocks = 1 := by
  have hempty : (dinodeAt (fun _ _ => 0) 0).blocks = 0 := by decide +kernel
  have he : (entriesOf (zeroRfs 2 129).vol.dev.blocks (zeroDir 2 129).toDinode).find?
      (fun e => e.1 = []) = some ([], 0) := by
    rw [zeroDir_ents]
    rfl
  obtain ⟨fs', dir', hrun, hv, -, -, hsize, hblocks, -⟩ :=
    rfsUnlink_removes (p := 0) (q := 1) (m := 0) (i := 1)
      (show (zeroRfs 2 129).vinodes 0 = some (zeroDir 2 129) from rfl)
      (zeroDir_ok (by decide) (by decide)) (by decide) (zeroDir_fits (by decide) (by decide)) rfl
      (by decide) he rfl (by decide) rfl rfl
      (fun j hj => absurd (hempty ▸ hj) (Int.not_lt.mpr (Int.natCast_nonneg j)))
  exact ⟨fs', dir', hrun, hv, hsize, hblocks⟩

end

/-! ## Adding entries -/

inductive DirOp where
  | create
  | mkdir
  | link (node : Nat)

def Rfs.add (fs : Rfs) (p : Nat) (name : Name) : DirOp → Outcome Rfs
  | .create => do
      let (_, fs) ← rfsCreate fs p name
      return fs
  | .mkdir => do
      let (_, fs) ← rfsMkdir fs p name
      return fs
  | .link node => do
      let (_, fs) ← rfsLink fs p name node
      return fs

def Rfs.allows (fs : Rfs) : DirOp → Bool
  | .link node => (fs.vinodes node).any fun v =>
      decide (v.type = R_FILE ∧ 0 ≤ v.inum ∧ v.inum < (RFS_NINODES : Int))
  | _ => true

/-- The vinode at `p` is a directory of `k` blocks with the entries `l`. -/
structure Rfs.DirAt (fs : Rfs) (p k : Nat) (dir : Vinode) (l : List (Name × Int)) : Prop where
  vinode : fs.vinodes p = some dir
  old : p < fs.nextVinode
  type : dir.type = R_DIR
  inum : 0 ≤ dir.inum ∧ dir.inum < RFS_NINODES
  fits : dir.Fits
  ok : DirOk fs.vol.dev.blocks dir.toDinode k l.length
  ents : entriesOf fs.vol.dev.blocks dir.toDinode = l
  inums : ∀ e ∈ l, 0 ≤ e.2 ∧ e.2 < RFS_NINODES

/-- Only inode blocks and the directory's own blocks are written. -/
def Rfs.WritesIn (fs fs' : Rfs) (dir : Vinode) (k : Nat) : Prop :=
  ∀ c, (∀ m, m < RFS_NINODES → c ≠ inodeBlock m) → (∀ t, t < k → c ≠ dir.block t) →
    fs'.vol.dev.blocks c = fs.vol.dev.blocks c

section

variable {fs fs' : Rfs} {p k m : Nat} {dir : Vinode} {l : List (Name × Int)} {name : Name}
  {op : DirOp}

theorem Rfs.DirAt.finds (h : fs.DirAt p k dir l) {e : Name × Int} (he : e ∈ l) :
    ∃ e' ∈ l, e'.1 = e.1 ∧ fs.Finds p e.1 e'.2.toNat := by
  cases hf : l.find? (fun e' => e'.1 = e.1) with
  | none => exact absurd (decide_eq_true rfl) (find?_eq_none.mp hf e he)
  | some e' =>
    have hmem := mem_of_find?_eq_some hf
    have hname := find?_some hf
    obtain ⟨h0, hlt⟩ := h.inums e' hmem
    refine ⟨e', hmem, of_decide_eq_true hname, DirOk.finds h.vinode h.ok ?_ (by rw [h.ents]; exact hf)
      (Int.toNat_of_nonneg h0).symm (by omega)⟩
    rw [← h.ents, entriesOf_eq h.ok.size] at he
    obtain ⟨j, -, rfl⟩ := mem_map.mp he
    exact cstr_noNul _ _ _

theorem Rfs.DirAt.mono (h : fs.DirAt p k dir l) (hv : fs'.vinodes p = some dir)
    (hnext : fs.nextVinode ≤ fs'.nextVinode) (hm : m < RFS_NINODES)
    (hb : ∀ c, c ≠ inodeBlock m → fs'.vol.dev.blocks c = fs.vol.dev.blocks c) :
    fs'.DirAt p k dir l := by
  have hsame : ∀ i, i < k → fs'.vol.dev.blocks (dir.block i) = fs.vol.dev.blocks (dir.block i) :=
    fun i hi => hb _ ((h.ok.data i hi).ne_inodeBlock hm)
  exact { vinode := hv, old := h.old.trans_le hnext, type := h.type, inum := h.inum,
          fits := h.fits, ok := h.ok.mono hsame rfl rfl rfl, ents := (h.ok.congr hsame).trans h.ents,
          inums := h.inums }

theorem Rfs.DirAt.addDirentry (h : fs.DirAt p k dir l) (hroom : l.length < ONE_BLOCK_DIRENTRYS * k)
    (hname : NameOk name) (hm : m < RFS_NINODES) :
    ∃ fs' dir', addDirentry fs p name m = .ok (0, fs') ∧ dir'.block = dir.block ∧
      fs'.DirAt p k dir' (l ++ [(name, (m : Int))]) ∧
      (∀ c, c ≠ inodeBlock dir.inum.toNat → c ≠ dir.block (l.length / ONE_BLOCK_DIRENTRYS) →
        fs'.vol.dev.blocks c = fs.vol.dev.blocks c) ∧
      fs'.nextVinode = fs.nextVinode ∧ ∀ q, q ≠ p → fs'.vinodes q = fs.vinodes q := by
  obtain ⟨i, hi⟩ := Int.eq_ofNat_of_zero_le h.inum.1
  have hilt : i < RFS_NINODES := by
    have := h.inum.2
    omega
  have hfit : Fits32 (m : Int) := fits_natCast (hm.trans (by decide))
  obtain ⟨rdev, hrun, hok, hents, -, hframe⟩ := rfsAddDirentry_spec h.ok h.type hroom hname hfit
    hi hilt h.fits
  let dir' : Vinode := { dir with size := (DIRENTRY_SIZE * (l.length + 1) : Nat) }
  refine ⟨(fs.setDev rdev).setVinode p dir', dir', ?_, rfl, ?_, fun c hc => ?_, rfl,
    fun q hq => update_of_ne hq ..⟩
  · rw [CabbagePKE.addDirentry, Rfs.vinode, h.vinode, ok_bind, hrun]
    rfl
  · refine { vinode := update_self .., old := h.old, type := h.type, inum := h.inum, ok := ?_,
             fits := fits_dirSize h.fits ?_, ents := hents.trans (by rw [h.ents]), inums := ?_ }
    · have hle : ONE_BLOCK_DIRENTRYS * k ≤ ONE_BLOCK_DIRENTRYS * DIRECT_BLKNUM :=
        Nat.mul_le_mul_left _ h.ok.few
      omega
    · rwa [length_append]
    · intro e he
      rcases mem_append.mp he with he | he
      · exact h.inums e he
      · rw [mem_singleton.mp he]
        exact ⟨Int.natCast_nonneg m, Int.ofNat_lt.mpr hm⟩
  · rw [hi] at hc
    exact hframe c hc

theorem Rfs.DirAt.writesIn (h : fs.DirAt p k dir l) (hroom : l.length < ONE_BLOCK_DIRENTRYS * k)
    (hw : ∀ c, c ≠ inodeBlock dir.inum.toNat → c ≠ dir.block (l.length / ONE_BLOCK_DIRENTRYS) →
      fs'.vol.dev.blocks c = fs.vol.dev.blocks c) : fs.WritesIn fs' dir k := by
  intro c hc hown
  obtain ⟨h0, hlt⟩ := h.inum
  exact hw c (hc _ (by omega)) (hown _ (Nat.div_lt_of_lt_mul hroom))

theorem allocDinode_frame (vol : Volume) (type : Int) (noMore : String) :
    allocDinode vol type noMore = .error .noFreeBlock ∨
    ∃ (m : Nat) (vol' : Volume), allocDinode vol type noMore = .ok ((m : Int), vol') ∧
      m < RFS_NINODES ∧ ∀ c, c ≠ inodeBlock m → vol'.dev.blocks c = vol.dev.blocks c := by
  obtain ⟨m, d, rdev, hfind, hm, hb, hd, -⟩ := findFreeDinode_spec none vol.dev
    (Nat.zero_add RFS_NINODES)
  obtain ⟨d, rfl⟩ := Option.ne_none_iff_exists'.mp (hd (.inr (by decide)))
  rw [allocDinode, hfind, ok_bind]
  dsimp only
  cases hal : rfsAllocBlock vol.sb with
  | error e =>
    rw [rfsAllocBlock_error hal]
    exact .inl rfl
  | ok r =>
    rw [ok_bind]
    obtain ⟨rdev', hwrite, -, hframe⟩ := rfsWriteDinode_spec rdev
      (({ d with size := 0, type := type, nlinks := 1, blocks := 1 } : Dinode).setAddr 0 r.1) hm
    rw [hwrite]
    exact .inr ⟨m, _, rfl, hm, fun c hc => (hframe c hc).trans (by rw [hb])⟩

theorem Rfs.DirAt.add (h : fs.DirAt p k dir l) (hroom : l.length < ONE_BLOCK_DIRENTRYS * k)
    (hname : NameOk name) (hop : fs.allows op = true) :
    fs.add p name op = .error .noFreeBlock ∨
    ∃ fs' dir', ∃ m : Nat, fs.add p name op = .ok fs' ∧ dir'.block = dir.block ∧
      fs'.DirAt p k dir' (l ++ [(name, (m : Int))]) ∧ fs.WritesIn fs' dir k := by
  cases op with
  | create =>
    rcases allocDinode_frame fs.vol R_FILE
      "rfs_create: no more free disk inode, we cannot create file.\n"
      with herr | ⟨m, vol, hrun, hm, hframe⟩
    · left
      rw [Rfs.add, rfsCreate, Rfs.vinode, h.vinode, ok_bind, herr]
      rfl
    · obtain ⟨rdev, hload, hb⟩ := loadVinode_eq { fs with vol := vol } hm
      have hframe' : ∀ c, c ≠ inodeBlock m → rdev.blocks c = fs.vol.dev.blocks c := by
        intro c hc
        rw [hb]
        exact hframe c hc
      have h1 : (Rfs.loaded { fs with vol := vol } rdev m).DirAt p k dir l :=
        h.mono ((update_of_ne (h.old.ne) ..).trans h.vinode) (Nat.le_succ _) hm hframe'
      obtain ⟨fs', dir', hadd, hblock, h2, hw, -⟩ := h1.addDirentry hroom hname hm
      refine .inr ⟨fs', dir', m, ?_, hblock, h2, fun c hc hown => ?_⟩
      · rw [Rfs.add, rfsCreate, Rfs.vinode, h.vinode, ok_bind, hrun, ok_bind]
        dsimp only
        rw [hload, ok_bind]
        rw [hadd]
        rfl
      · exact (h1.writesIn hroom hw c hc hown).trans (hframe' c (hc m hm))
  | mkdir =>
    rcases allocDinode_frame fs.vol R_DIR
      "rfs_mkdir: no more free disk inode, we cannot create directory.\n"
      with herr | ⟨m, vol, hrun, hm, hframe⟩
    · left
      rw [Rfs.add, rfsMkdir, Rfs.vinode, h.vinode, ok_bind, herr]
      rfl
    · have h1 : Rfs.DirAt { fs with vol := vol } p k dir l :=
        h.mono h.vinode le_rfl hm hframe
      obtain ⟨fs1, dir', hadd, hblock, h2, hw, -⟩ := h1.addDirentry hroom hname hm
      obtain ⟨rdev, hload, hb⟩ := loadVinode_eq fs1 hm
      refine .inr ⟨fs1.loaded rdev m, dir', m, ?_, hblock, ?_, fun c hc hown => ?_⟩
      · rw [Rfs.add, rfsMkdir, Rfs.vinode, h.vinode, ok_bind, hrun, ok_bind]
        dsimp only
        rw [hadd, ok_bind]
        dsimp only
        rw [if_neg (by decide), hload]
        rfl
      · exact h2.mono ((update_of_ne (h2.old.ne) ..).trans h2.vinode) (Nat.le_succ _) hm
          fun c _ => congrFun hb c
      · exact (congrFun hb c).trans ((h1.writesIn hroom hw c hc hown).trans (hframe c (hc m hm)))
  | link q =>
    cases hq : fs.vinodes q with
    | none => simp [Rfs.allows, hq] at hop
    | some node =>
      rw [Rfs.allows, hq] at hop
      obtain ⟨htype, h0, hlt⟩ := of_decide_eq_true hop
      obtain ⟨m, hm⟩ := Int.eq_ofNat_of_zero_le h0
      have hqp : q ≠ p := by
        rintro rfl
        cases h.vinode.symm.trans hq
        rw [h.type] at htype
        cases htype
      have hmlt : m < RFS_NINODES := by omega
      have h1 : (fs.setVinode q { node with nlinks := wrap32 (node.nlinks + 1) }).DirAt p k dir l :=
        h.mono ((update_of_ne hqp.symm ..).trans h.vinode) le_rfl hmlt fun _ _ => rfl
      obtain ⟨fs1, dir', hadd, hblock, h2, hw, -, hothers⟩ := h1.addDirentry hroom hname hmlt
      obtain ⟨rdev, hwrite, -, hframe⟩ := rfsWriteDinode_spec fs1.vol.dev
        ({ node with nlinks := wrap32 (node.nlinks + 1) } : Vinode).toDinode hmlt
      rw [← hm] at hadd hwrite
      have hnode : fs1.vinodes q = some { node with nlinks := wrap32 (node.nlinks + 1) } :=
        (hothers q hqp).trans (update_self ..)
      refine .inr ⟨fs1.setDev rdev, dir', m, ?_, hblock, ?_, fun c hc hown => ?_⟩
      · rw [Rfs.add, rfsLink, Rfs.vinode, hq, ok_bind]
        dsimp only
        rw [hadd, ok_bind]
        rw [Rfs.vinode, hnode, ok_bind, rfsWriteBackVinode]
        rw [hwrite]
        rfl
      · exact h2.mono h2.vinode le_rfl hmlt hframe
      · exact (hframe c (hc m hmlt)).trans (h1.writesIn hroom hw c hc hown)

end

/-! ## Sequences of additions -/

/-- The next entry fits into the blocks of the directory at `p`. -/
def Rfs.hasRoom (fs : Rfs) (p : Nat) : Bool :=
  (fs.vinodes p).any fun v => decide (v.size < (RFS_BLKSIZE : Int) * v.blocks)

theorem zeroDir_at {k n : Nat} (hk : k ≤ DIRECT_BLKNUM) (hn : n ≤ ONE_BLOCK_DIRENTRYS * k) :
    (zeroRfs k n).DirAt 0 k (zeroDir k n) (List.replicate n ([], 0)) where
  vinode := rfl
  old := Nat.zero_lt_two
  type := rfl
  inum := ⟨Int.one_nonneg, Int.ofNat_lt.mpr (by decide)⟩
  fits := zeroDir_fits hk hn
  ok := by
    rw [length_replicate]
    exact zeroDir_ok hk hn
  ents := zeroDir_ents k n
  inums e he := by
    rw [eq_of_mem_replicate he]
    decide

section

variable {fs : Rfs} {p k : Nat} {dir : Vinode} {l : List (Name × Int)}

theorem Rfs.DirAt.room (h : fs.DirAt p k dir l) (hr : fs.hasRoom p = true) :
    l.length < ONE_BLOCK_DIRENTRYS * k := by
  rw [Rfs.hasRoom, h.vinode] at hr
  have hlt := of_decide_eq_true hr
  rw [h.ok.size, h.ok.count] at hlt
  unfold DIRENTRY_SIZE RFS_BLKSIZE at hlt
  unfold ONE_BLOCK_DIRENTRYS
  omega

end

end CabbagePKE
