import CabbagePKE.Rfs.Write

/-!
# Directories on disk

A directory is a file of 32-byte entries, an inode number and a name. The search
loop that `rfs_lookup` and `rfs_unlink` share, `rfs_add_direntry`, and the part of
`rfs_unlink` that removes an entry act on the list of entries (`entriesOf`): find
the first of a name, append one, erase one.
-/

namespace CabbagePKE

open Lib Function List

abbrev Name := List UInt8

def DIRENTRY_SIZE : Nat := 32

def ONE_BLOCK_DIRENTRYS : Nat := 128

def RFS_MAX_FILE_NAME_LEN : Nat := 28

/-! ## The code -/

/-- `total_direntrys`: `sizeof` makes the division unsigned. -/
def totalDirentrys (dir : Dinode) : Int :=
  wrap32 (dir.size % 2 ^ 64 / DIRENTRY_SIZE)

/-- Read in the disk block that starts with entry `i`, at a boundary. -/
def readAtBoundary (dir : Dinode) (i : Nat) (rdev : RfsDevice) : Outcome RfsDevice :=
  if i % ONE_BLOCK_DIRENTRYS = 0 then do
    let b ← addrAt dir (i / ONE_BLOCK_DIRENTRYS : Nat)
    ramdiskRead rdev b
  else .ok rdev

/-- The search loop of `rfs_lookup` and `rfs_unlink`: the index of the
first entry called `name` among the `n` entries from entry `i` on. -/
def findDirentry (dir : Dinode) (name : Name) :
    Nat → Nat → RfsDevice → Outcome (Option Nat × RfsDevice)
  | 0, _, rdev => .ok (none, rdev)
  | n + 1, i, rdev => do
      let rdev ← readAtBoundary dir i rdev
      match strEq? rdev.iobuffer RFS_BLKSIZE (i % ONE_BLOCK_DIRENTRYS * DIRENTRY_SIZE + 4) name with
      | none => .error .undefined
      | some true => .ok (some i, rdev)
      | some false => findDirentry dir name n (i + 1) rdev

def direntryInum (m : Mem) (i : Nat) : Int := getWord m (i % ONE_BLOCK_DIRENTRYS * DIRENTRY_SIZE)

def rfsWriteBackVinode (rdev : RfsDevice) (v : Vinode) : Outcome RfsDevice :=
  rfsWriteDinode rdev v.toDinode v.inum

def rfsAddDirentry (rdev : RfsDevice) (dir : Vinode) (name : Name) (inum : Int) :
    Outcome (Int × RfsDevice × Vinode) :=
  if dir.type ≠ R_DIR then .ok (-1, rdev, dir)
  else do
    let nBlock ← addrAt dir.toDinode (dir.size.tdiv RFS_BLKSIZE)
    let rdev ← ramdiskRead rdev nBlock
    let addr := dir.size.tmod RFS_BLKSIZE
    -- the entry and the terminator of its name lie in the buffer
    if addr < 0 ∨ (RFS_BLKSIZE : Int) < addr + 4 + name.length + 1 then .error .undefined
    else
      let iobuffer := putString (putWords rdev.iobuffer addr.toNat [inum]) (addr.toNat + 4) name
      let rdev ← ramdiskWrite { rdev with iobuffer := iobuffer } nBlock
      let dir := { dir with size := wrap32 (dir.size + DIRENTRY_SIZE) }
      let rdev ← rfsWriteBackVinode rdev dir
      return (0, rdev, dir)

/-- The loop of `rfs_unlink` that moves the entries of the later blocks
forward, `n` blocks from block `i` on. -/
def shiftBlocks (dir : Dinode) : Nat → Nat → RfsDevice → Mem → Outcome (RfsDevice × Mem)
  | 0, _, rdev, previousBlock => .ok (rdev, previousBlock)
  | n + 1, i, rdev, previousBlock => do
      let b ← addrAt dir i
      let rdev ← ramdiskRead rdev b
      let last := (ONE_BLOCK_DIRENTRYS - 1) * DIRENTRY_SIZE
      let previousBlock := copyBytes previousBlock last rdev.iobuffer 0 DIRENTRY_SIZE
      let thisBlock := copyBytes rdev.iobuffer 0 rdev.iobuffer DIRENTRY_SIZE last
      let b ← addrAt dir ((i : Int) - 1)
      let rdev ← ramdiskWrite { rdev with iobuffer := previousBlock } b
      shiftBlocks dir n (i + 1) rdev thisBlock

/-- Free the last block of a directory, `b`, if it has become empty and is
not the only one. -/
def freeEmptyBlock (sb : SuperBlock) (parent : Vinode) (total b : Int) :
    Outcome (SuperBlock × Vinode) :=
  if (total - 1).tmod ONE_BLOCK_DIRENTRYS = 0 ∧ 1 < parent.blocks then do
    let sb ← rfsFreeBlock sb b
    return (sb, { parent with blocks := parent.blocks - 1 })
  else .ok (sb, parent)

/-- The part of `rfs_unlink` that removes entry `deleteIndex` of
`totalDirentrys` from its directory. -/
def removeDirentry (v : Volume) (parent : Vinode) (total : Int) (deleteIndex : Nat) :
    Outcome (Volume × Vinode) := do
  let deleteBlockIndex := deleteIndex / ONE_BLOCK_DIRENTRYS
  let b ← addrAt parent.toDinode deleteBlockIndex
  let rdev ← ramdiskRead v.dev b
  let offset := deleteIndex % ONE_BLOCK_DIRENTRYS
  let previousBlock := copyBytes rdev.iobuffer (offset * DIRENTRY_SIZE) rdev.iobuffer
    ((offset + 1) * DIRENTRY_SIZE) ((ONE_BLOCK_DIRENTRYS - offset - 1) * DIRENTRY_SIZE)
  let later := (parent.blocks - (deleteBlockIndex + 1 : Nat)).toNat
  let (rdev, previousBlock) ←
    shiftBlocks parent.toDinode later (deleteBlockIndex + 1) rdev previousBlock
  let b ← addrAt parent.toDinode (parent.blocks - 1)
  let rdev ← ramdiskWrite { rdev with iobuffer := previousBlock } b
  let (sb, parent) ← freeEmptyBlock v.sb parent total b
  let parent := { parent with size := wrap32 (parent.size - DIRENTRY_SIZE) }
  let rdev ← rfsWriteBackVinode rdev parent
  return ({ dev := rdev, sb := sb }, parent)

/-! ## Directories as lists -/

def entryAt (m : Mem) (j : Nat) : Name × Int :=
  (cstr m (j * DIRENTRY_SIZE + 4) RFS_MAX_FILE_NAME_LEN, getWord m (j * DIRENTRY_SIZE))

def Dinode.block (d : Dinode) (i : Nat) : Nat := (d.addr i).toNat

def entryOf (blocks : Nat → Mem) (d : Dinode) (i : Nat) : Name × Int :=
  entryAt (blocks (d.block (i / ONE_BLOCK_DIRENTRYS))) (i % ONE_BLOCK_DIRENTRYS)

def entriesOf (blocks : Nat → Mem) (d : Dinode) : List (Name × Int) :=
  (List.range (d.size.toNat / DIRENTRY_SIZE)).map (fun i =>
    entryAt (blocks (d.addr (i / ONE_BLOCK_DIRENTRYS)).toNat) (i % ONE_BLOCK_DIRENTRYS))

structure NameOk (name : Name) : Prop where
  short : name.length < RFS_MAX_FILE_NAME_LEN
  noNul : (0 : UInt8) ∉ name

/-- The `k` blocks of a directory are data blocks, each of them once. -/
structure Dinode.Owns (d : Dinode) (k : Nat) : Prop where
  count : d.blocks = k
  few : k ≤ DIRECT_BLKNUM
  addr : ∀ i, i < k → d.addr i = d.block i
  data : ∀ i, i < k → IsData (d.block i)
  inj : ∀ i j, i < k → j < k → d.block i = d.block j → i = j

structure DirOk (blocks : Nat → Mem) (d : Dinode) (k n : Nat) : Prop extends d.Owns k where
  size : d.size = (DIRENTRY_SIZE * n : Nat)
  le : n ≤ ONE_BLOCK_DIRENTRYS * k
  names : ∀ i, i < n → (entryOf blocks d i).1.length < RFS_MAX_FILE_NAME_LEN

section

variable {m m' : Mem} {n k i j b : Nat} {blocks blocks' : Nat → Mem} {d : Dinode} {name : Name}

theorem entryAt_congr (h : ∀ t, t < DIRENTRY_SIZE → m (j * DIRENTRY_SIZE + t)
    = m' (k * DIRENTRY_SIZE + t)) : entryAt m j = entryAt m' k := by
  refine Prod.ext (cstr_congr (fun i hi => ?_)) (getWord_congr (fun i hi => ?_))
  · have h4 := h (4 + i) (by unfold RFS_MAX_FILE_NAME_LEN at hi; unfold DIRENTRY_SIZE; omega)
    rwa [← add_assoc, ← add_assoc] at h4
  · exact h i (by unfold DIRENTRY_SIZE; omega)

theorem direntrys_eq (hsize : d.size = (DIRENTRY_SIZE * n : Nat)) :
    d.size.toNat / DIRENTRY_SIZE = n := by
  rw [hsize, Int.toNat_natCast, Nat.mul_div_cancel_left _ (by decide)]

theorem entriesOf_eq (hsize : d.size = (DIRENTRY_SIZE * n : Nat)) :
    entriesOf blocks d = (List.range n).map (entryOf blocks d) := by
  rw [entriesOf, direntrys_eq hsize]
  rfl

theorem entriesOf_length (hsize : d.size = (DIRENTRY_SIZE * n : Nat)) :
    (entriesOf blocks d).length = n := by
  rw [entriesOf_eq hsize, length_map, length_range]

theorem entriesOf_getElem? (hsize : d.size = (DIRENTRY_SIZE * n : Nat)) :
    (entriesOf blocks d)[j]? = if j < n then some (entryOf blocks d j) else none := by
  rw [entriesOf_eq hsize]
  by_cases hj : j < n
  · simp [hj]
  · simp [hj]

theorem DirOk.block_lt (h : DirOk blocks d k n) (hi : i < n) : i / ONE_BLOCK_DIRENTRYS < k :=
  Nat.div_lt_of_lt_mul (Nat.lt_of_lt_of_le hi h.le)

theorem Dinode.owns_one (hone : d.blocks = 1) (hb : d.addr 0 = b) (hdata : IsData b) :
    d.Owns 1 := by
  have hblk : d.block 0 = b := by rw [Dinode.block, hb, Int.toNat_natCast]
  refine ⟨hone, by decide, fun i hi => ?_, fun i hi => ?_, fun i j _ _ _ => by omega⟩
  · obtain rfl : i = 0 := by omega
    rw [hblk, hb]
  · obtain rfl : i = 0 := by omega
    rwa [hblk]

theorem Dinode.Owns.addrAt_eq (h : d.Owns k) (hi : i < k) : addrAt d i = .ok (d.block i : Int) := by
  rw [CabbagePKE.addrAt_eq (Nat.lt_of_lt_of_le hi h.few), h.addr i hi]

theorem Dinode.Owns.total (h : d.Owns k) (h0 : 0 ≤ d.size)
    (hsize : d.size.toNat / DIRENTRY_SIZE ≤ ONE_BLOCK_DIRENTRYS * k) :
    totalDirentrys d = (d.size.toNat / DIRENTRY_SIZE : Nat) := by
  have hfew := h.few
  have hdiv : d.size % 2 ^ 64 / DIRENTRY_SIZE = (d.size.toNat / DIRENTRY_SIZE : Nat) := by
    unfold ONE_BLOCK_DIRENTRYS DIRECT_BLKNUM DIRENTRY_SIZE at *
    omega
  unfold ONE_BLOCK_DIRENTRYS DIRECT_BLKNUM at *
  rw [totalDirentrys, hdiv, wrap32_of_fits (fits_natCast (by omega))]

theorem DirOk.total (h : DirOk blocks d k n) : totalDirentrys d = n := by
  have hn := direntrys_eq h.size
  rw [h.toOwns.total (by rw [h.size]; omega) (by rw [hn]; exact h.le), hn]

theorem DirOk.congr (h : DirOk blocks d k n)
    (hb : ∀ i, i < k → blocks' (d.block i) = blocks (d.block i)) :
    entriesOf blocks' d = entriesOf blocks d := by
  rw [entriesOf_eq h.size, entriesOf_eq h.size]
  apply map_congr_left
  intro i hi
  rw [entryOf, hb _ (h.block_lt (mem_range.mp hi))]
  rfl

theorem DirOk.stored (h : DirOk blocks d k n) {k' n' : Nat} (hk : k' ≤ k)
    (hle : n' ≤ ONE_BLOCK_DIRENTRYS * k') {d' : Dinode}
    (hd : d' = { d with size := (DIRENTRY_SIZE * n' : Nat), blocks := k' })
    (hnames : ∀ e ∈ entriesOf blocks' d', e.1.length < RFS_MAX_FILE_NAME_LEN) :
    DirOk blocks' d' k' n' := by
  subst hd
  refine ⟨⟨rfl, Nat.le_trans hk h.few, fun i hi => h.addr i (by omega),
    fun i hi => h.data i (by omega), fun i j hi hj => h.inj i j (by omega) (by omega)⟩, rfl, hle,
    fun i hi => hnames _ ?_⟩
  rw [entriesOf_eq rfl]
  exact mem_map_of_mem (mem_range.mpr hi)

theorem DirOk.name_length (h : DirOk blocks d k n) {e : Name × Int}
    (he : e ∈ entriesOf blocks d) : e.1.length < RFS_MAX_FILE_NAME_LEN := by
  rw [entriesOf_eq h.size] at he
  obtain ⟨j, hj, rfl⟩ := mem_map.mp he
  exact h.names j (mem_range.mp hj)

/-! ## Searching -/

theorem Dinode.Owns.findDirentry_from {total : Nat} (h : d.Owns k)
    (hle : total ≤ ONE_BLOCK_DIRENTRYS * k) (hname : (0 : UInt8) ∉ name)
    (hterm : ∀ i, i < total → (entryOf blocks d i).1.length < RFS_MAX_FILE_NAME_LEN ∨
      name.length < RFS_MAX_FILE_NAME_LEN) :
    ∀ {n i : Nat} (rdev : RfsDevice), i + n = total → rdev.blocks = blocks →
    (i % ONE_BLOCK_DIRENTRYS ≠ 0 → rdev.iobuffer = blocks (d.block (i / ONE_BLOCK_DIRENTRYS))) →
    ∃ found rdev', findDirentry d name n i rdev = .ok (found, rdev') ∧
      found = (((List.range' i n).map (entryOf blocks d)).findIdx? (fun e => e.1 = name)).map
        (· + i) ∧ rdev'.blocks = blocks ∧
      ∀ j, found = some j → rdev'.iobuffer = blocks (d.block (j / ONE_BLOCK_DIRENTRYS)) := by
  intro n
  induction n with
  | zero =>
    intro i rdev _ hb _
    exact ⟨none, rdev, rfl, by simp, hb, by simp⟩
  | succ n ih =>
    intro i rdev hn hb hio
    have hk : i / ONE_BLOCK_DIRENTRYS < k := Nat.div_lt_of_lt_mul (by omega)
    -- the buffer holds the block
    obtain ⟨rdev1, hrd, hb1, hio1⟩ : ∃ rdev1, readAtBoundary d i rdev = .ok rdev1 ∧
        rdev1.blocks = blocks ∧ rdev1.iobuffer = blocks (d.block (i / ONE_BLOCK_DIRENTRYS)) := by
      rw [readAtBoundary]
      by_cases hi : i % ONE_BLOCK_DIRENTRYS = 0
      · rw [if_pos hi, h.addrAt_eq hk, ok_bind, ramdiskRead_eq (h.data _ hk).onDisk]
        exact ⟨_, rfl, hb, by simp [hb]⟩
      · rw [if_neg hi]
        exact ⟨rdev, rfl, hb, hio hi⟩
    have hcmp : strEq? rdev1.iobuffer RFS_BLKSIZE (i % ONE_BLOCK_DIRENTRYS * DIRENTRY_SIZE + 4) name
        = some (decide ((entryOf blocks d i).1 = name)) := by
      rw [hio1]
      apply strEq?_eq hname (hterm i (by omega))
      unfold DIRENTRY_SIZE RFS_MAX_FILE_NAME_LEN RFS_BLKSIZE ONE_BLOCK_DIRENTRYS
      omega
    rw [findDirentry, hrd, ok_bind, hcmp, range'_succ]
    by_cases heq : (entryOf blocks d i).1 = name
    · refine ⟨some i, rdev1, by simp [heq], by simp [heq, findIdx?_cons], hb1, ?_⟩
      rintro j hj
      cases hj
      exact hio1
    · obtain ⟨found, rdev2, hrun, hfound, hrest⟩ := ih (i := i + 1) rdev1 (by omega) hb1 (by
        intro hi
        rw [hio1]
        congr 2
        unfold ONE_BLOCK_DIRENTRYS at *
        omega)
      refine ⟨found, rdev2, by simpa [heq] using hrun, ?_, hrest⟩
      rw [hfound]
      simp only [heq, decide_false, map_cons, findIdx?_cons, Bool.false_eq_true, if_false,
        Option.map_map]
      apply Option.map_congr
      intro j _
      simp only [comp_apply]
      omega

theorem Dinode.Owns.findDirentry_eq (rdev : RfsDevice) (h : d.Owns k)
    (hn : d.size.toNat / DIRENTRY_SIZE = n) (hle : n ≤ ONE_BLOCK_DIRENTRYS * k)
    (hname : (0 : UInt8) ∉ name)
    (hterm : ∀ i, i < n → (entryOf rdev.blocks d i).1.length < RFS_MAX_FILE_NAME_LEN ∨
      name.length < RFS_MAX_FILE_NAME_LEN) :
    ∃ rdev', findDirentry d name n 0 rdev
        = .ok ((entriesOf rdev.blocks d).findIdx? (fun e => e.1 = name), rdev') ∧
      rdev'.blocks = rdev.blocks ∧
      ∀ i, (entriesOf rdev.blocks d).findIdx? (fun e => e.1 = name) = some i →
        direntryInum rdev'.iobuffer i = (entryOf rdev.blocks d i).2 := by
  obtain ⟨found, rdev', hrun, hfound, hb, hio⟩ := h.findDirentry_from hle hname hterm rdev
    (Nat.zero_add n) rfl (by simp)
  have hfound' : found = (entriesOf rdev.blocks d).findIdx? (fun e => e.1 = name) := by
    rw [hfound, entriesOf, hn, ← range_eq_range']
    exact Option.map_id'
  subst hfound'
  refine ⟨rdev', hrun, hb, fun i hi => ?_⟩
  rw [direntryInum, hio i hi]
  rfl

/-! ## Appending -/

def putEntry (m : Mem) (n : Nat) (name : Name) (inum : Int) : Mem :=
  putString (putWords m (n * DIRENTRY_SIZE) [inum]) (n * DIRENTRY_SIZE + 4) name

theorem entryAt_putEntry (hname : NameOk name) {inum : Int} (hfit : Fits32 inum) :
    entryAt (putEntry m n name inum) j = if j = n then (name, inum) else entryAt m j := by
  have hshort := hname.short
  unfold putEntry
  split
  · rename_i hj
    subst hj
    simp only [entryAt, cstr_putString _ _ hshort hname.noNul]
    have hsame : getWord (putString (putWords m (j * DIRENTRY_SIZE) [inum])
        (j * DIRENTRY_SIZE + 4) name) (j * DIRENTRY_SIZE)
        = getWord (putWords m (j * DIRENTRY_SIZE) [inum]) (j * DIRENTRY_SIZE + 4 * 0) :=
      getWord_congr (fun i hi => putString_outside (by omega))
    have hback : getWord (putWords m (j * DIRENTRY_SIZE) [inum]) (j * DIRENTRY_SIZE + 4 * 0)
        = wrap32 inum := getWord_putWords m _ (by simp)
    rw [hsame, hback, wrap32_of_fits hfit]
  · apply entryAt_congr
    intro i hi
    unfold RFS_MAX_FILE_NAME_LEN at hshort
    unfold DIRENTRY_SIZE at *
    rw [putString_outside (by omega), putWords_outside (by simp; omega)]

theorem fits_dirSize (hf : d.Fits) (hle : n ≤ ONE_BLOCK_DIRENTRYS * DIRECT_BLKNUM) :
    ({ d with size := (DIRENTRY_SIZE * n : Nat) } : Dinode).Fits := by
  refine { hf with size := fits_natCast ?_ }
  unfold ONE_BLOCK_DIRENTRYS DIRECT_BLKNUM at hle
  unfold DIRENTRY_SIZE
  omega

theorem storeDir_spec (rdev : RfsDevice) {d' : Dinode} {p : Nat} (hd : IsData b)
    (hlt : p < RFS_NINODES) (hf : d'.Fits) (io : Mem) :
    ∃ rdev', (ramdiskWrite { rdev with iobuffer := io } b
        >>= fun r => rfsWriteDinode r d' p) = .ok rdev' ∧
      rdev'.blocks b = io ∧
      (∀ k, k < RFS_NINODES →
        dinodeAt rdev'.blocks k = if k = p then d' else dinodeAt rdev.blocks k) ∧
      ∀ c, c ≠ inodeBlock p → c ≠ b → rdev'.blocks c = rdev.blocks c := by
  have hge := hd.bitmap_le
  obtain ⟨rdev', hrun, hino, hdat⟩ := rfsWriteDinode_spec
    { rdev with blocks := update rdev.blocks b io, iobuffer := io } d' hlt
  have hp := inodeBlock_lt hlt
  refine ⟨rdev', ?_, ?_, fun k hk => ?_, fun c hc hcb => ?_⟩
  · rw [ramdiskWrite_eq hd.onDisk, ok_bind]
    simpa using hrun
  · rw [hdat b (by omega)]
    exact update_self ..
  · rw [hino hf k]
    split
    · rfl
    · exact dinodeAt_congr hk (fun c hc => update_of_ne (by omega) _ _)
  · rw [hdat c hc]
    exact update_of_ne hcb _ _

theorem rfsAddDirentry_spec {rdev : RfsDevice} {dir : Vinode} {p : Nat} {inum : Int}
    (h : DirOk rdev.blocks dir.toDinode k n) (hdir : dir.type = R_DIR)
    (hroom : n < ONE_BLOCK_DIRENTRYS * k) (hname : NameOk name) (hfit : Fits32 inum)
    (hp : dir.inum = p) (hlt : p < RFS_NINODES) (hf : dir.Fits) :
    ∃ rdev', rfsAddDirentry rdev dir name inum
        = .ok (0, rdev', { dir with size := (DIRENTRY_SIZE * (n + 1) : Nat) }) ∧
      DirOk rdev'.blocks { dir.toDinode with size := (DIRENTRY_SIZE * (n + 1) : Nat) } k (n + 1) ∧
      entriesOf rdev'.blocks { dir.toDinode with size := (DIRENTRY_SIZE * (n + 1) : Nat) }
        = entriesOf rdev.blocks dir.toDinode ++ [(name, inum)] ∧
      (∀ k, k < RFS_NINODES → dinodeAt rdev'.blocks k = if k = p
        then { dir.toDinode with size := (DIRENTRY_SIZE * (n + 1) : Nat) }
        else dinodeAt rdev.blocks k) ∧
      ∀ c, c ≠ inodeBlock p → c ≠ dir.block (n / ONE_BLOCK_DIRENTRYS) →
        rdev'.blocks c = rdev.blocks c := by
  have hshort := hname.short
  have hfew := h.few
  have hk : n / ONE_BLOCK_DIRENTRYS < k := Nat.div_lt_of_lt_mul hroom
  have hblk : dir.size.tdiv RFS_BLKSIZE = ((n / ONE_BLOCK_DIRENTRYS : Nat) : Int) := by
    rw [h.size, Int.tdiv_eq_ediv_of_nonneg (by omega), ← Int.natCast_ediv]
    unfold DIRENTRY_SIZE RFS_BLKSIZE ONE_BLOCK_DIRENTRYS
    omega
  have hoff : dir.size.tmod RFS_BLKSIZE
      = ((n % ONE_BLOCK_DIRENTRYS * DIRENTRY_SIZE : Nat) : Int) := by
    rw [h.size, Int.tmod_eq_emod_of_nonneg (by omega), ← Int.natCast_emod]
    unfold DIRENTRY_SIZE RFS_BLKSIZE ONE_BLOCK_DIRENTRYS
    omega
  have hin : ¬ (((n % ONE_BLOCK_DIRENTRYS * DIRENTRY_SIZE : Nat) : Int) < 0 ∨ (RFS_BLKSIZE : Int)
      < ((n % ONE_BLOCK_DIRENTRYS * DIRENTRY_SIZE : Nat) : Int) + 4 + (name.length : Nat) + 1) := by
    unfold RFS_MAX_FILE_NAME_LEN at hshort
    unfold DIRENTRY_SIZE RFS_BLKSIZE ONE_BLOCK_DIRENTRYS
    omega
  have hfits := fits_dirSize (n := n + 1) hf (Nat.le_trans hroom (Nat.mul_le_mul_left _ hfew))
  have hsize : wrap32 (dir.size + (DIRENTRY_SIZE : Nat)) = ((DIRENTRY_SIZE * (n + 1) : Nat) : Int) := by
    rw [h.size, show ((DIRENTRY_SIZE * n : Nat) : Int) + (DIRENTRY_SIZE : Nat)
      = ((DIRENTRY_SIZE * (n + 1) : Nat) : Int) from by rw [Nat.mul_add, Nat.mul_one]; omega]
    exact wrap32_of_fits hfits.size
  have hdata := h.data _ hk
  obtain ⟨rdev', hrun, hb, hino, hdat⟩ := storeDir_spec
    { rdev with iobuffer := rdev.blocks (dir.block (n / ONE_BLOCK_DIRENTRYS)) } hdata
    hlt hfits (putEntry (rdev.blocks (dir.block (n / ONE_BLOCK_DIRENTRYS)))
      (n % ONE_BLOCK_DIRENTRYS) name inum)
  have hents : entriesOf rdev'.blocks { dir.toDinode with size := (DIRENTRY_SIZE * (n + 1) : Nat) }
      = entriesOf rdev.blocks dir.toDinode ++ [(name, inum)] := by
    rw [entriesOf_eq rfl, entriesOf_eq h.size, range_succ, map_append]
    congr 1
    · apply map_congr_left
      intro i hi
      have hi := mem_range.mp hi
      -- entry `i` lies in another slot of the block, or in another block
      show entryAt (rdev'.blocks (dir.block (i / ONE_BLOCK_DIRENTRYS))) _ = _
      by_cases hib : i / ONE_BLOCK_DIRENTRYS = n / ONE_BLOCK_DIRENTRYS
      · rw [hib, hb, entryAt_putEntry hname hfit, if_neg, entryOf, hib]
        unfold ONE_BLOCK_DIRENTRYS at hib ⊢
        omega
      · have hik := h.block_lt hi
        rw [hdat _ ((h.data _ hik).ne_inodeBlock hlt) (fun hc => hib (h.inj _ _ hik hk hc))]
        rfl
    · show [entryAt (rdev'.blocks (dir.block (n / ONE_BLOCK_DIRENTRYS))) _] = _
      rw [hb, entryAt_putEntry hname hfit, if_pos rfl]
  refine ⟨rdev', ?_, h.stored le_rfl hroom (by rw [h.count.symm]) (fun e he => ?_), hents,
    hino, hdat⟩
  · rw [rfsAddDirentry, if_neg (not_not.mpr hdir), hblk, hoff, h.addrAt_eq hk,
      ok_bind, ramdiskRead_eq hdata.onDisk, ok_bind]
    simp only [if_neg hin, Int.toNat_natCast, hsize, rfsWriteBackVinode, hp]
    rw [bind_eq_ok] at hrun
    obtain ⟨r, hr1, hr2⟩ := hrun
    rw [putEntry] at hr1
    rw [hr1, ok_bind, hr2, ok_bind]
    rfl
  · rw [hents] at he
    rcases mem_append.mp he with he | he
    · exact h.name_length he
    · rwa [mem_singleton.mp he]

/-! ## Removing -/

theorem entryAt_copyBytes (m m' : Mem) (j a b c : Nat) :
    entryAt (copyBytes m (a * DIRENTRY_SIZE) m' (b * DIRENTRY_SIZE) (c * DIRENTRY_SIZE)) j
      = if a ≤ j ∧ j < a + c then entryAt m' (j - a + b) else entryAt m j := by
  split
  · apply entryAt_congr
    intro t ht
    unfold DIRENTRY_SIZE at *
    rw [copyBytes, if_pos (by omega)]
    congr 1
    omega
  · apply entryAt_congr
    intro t ht
    unfold DIRENTRY_SIZE at *
    rw [copyBytes, if_neg (by omega)]

theorem entriesOf_erase {d' : Dinode} (hsize : d.size = (DIRENTRY_SIZE * n : Nat))
    (hsize' : d'.size = (DIRENTRY_SIZE * (n - 1) : Nat)) (hi : i < n)
    (h : ∀ a, a < n - 1 → entryOf blocks' d' a = entryOf blocks d (if a < i then a else a + 1)) :
    entriesOf blocks' d' = (entriesOf blocks d).eraseIdx i := by
  apply ext_getElem?
  intro j
  rw [getElem?_eraseIdx, entriesOf_getElem? hsize', entriesOf_getElem? hsize,
    entriesOf_getElem? hsize]
  by_cases hj : j < n - 1
  · rw [if_pos hj, h j hj, if_pos (show j < n by omega), if_pos (show j + 1 < n by omega)]
    split <;> rfl
  · rw [if_neg hj, if_neg (show ¬ j < i by omega), if_neg (show ¬ j + 1 < n by omega)]

theorem Dinode.Owns.entryOf_update (h : d.Owns k) (hi : i < k) {a : Nat}
    (ha : a < ONE_BLOCK_DIRENTRYS * k) :
    entryOf (update blocks (d.block i) m) d a
      = if a / ONE_BLOCK_DIRENTRYS = i then entryAt m (a % ONE_BLOCK_DIRENTRYS)
        else entryOf blocks d a := by
  unfold entryOf
  have hk : a / ONE_BLOCK_DIRENTRYS < k := Nat.div_lt_of_lt_mul ha
  split
  · rename_i hia
    rw [hia, update_self]
  · rename_i hia
    rw [update_of_ne (fun hc => hia (h.inj _ _ hk hi hc))]

theorem entryOf_eq {a t : Nat} (ha : a / ONE_BLOCK_DIRENTRYS = i)
    (ht : a % ONE_BLOCK_DIRENTRYS = t) : entryOf blocks d a = entryAt (blocks (d.block i)) t := by
  rw [entryOf, ha, ht]

/-- The loop over the later blocks. The block before block `i` is still in memory, in
`previousBlock`; from its last entry on, every entry is replaced by the next one. -/
theorem Dinode.Owns.shiftBlocks_spec (h : d.Owns k) :
    ∀ {n i : Nat} (rdev : RfsDevice) (previousBlock : Mem), i + n = k → 0 < i →
    ∃ rdev' previousBlock', shiftBlocks d n i rdev previousBlock = .ok (rdev', previousBlock') ∧
      (∀ c, (∀ j, j < k → c ≠ d.block j) → rdev'.blocks c = rdev.blocks c) ∧
      ∀ a, a + 1 < ONE_BLOCK_DIRENTRYS * k →
        entryOf (update rdev'.blocks (d.block (k - 1)) previousBlock') d a
          = if a + 1 < ONE_BLOCK_DIRENTRYS * i
            then entryOf (update rdev.blocks (d.block (i - 1)) previousBlock) d a
            else entryOf rdev.blocks d (a + 1) := by
  intro n
  induction n with
  | zero =>
    intro i rdev previousBlock hk hi
    obtain rfl : i = k := hk
    exact ⟨rdev, previousBlock, rfl, fun c _ => rfl, fun a ha => (if_pos ha).symm⟩
  | succ n ih =>
    intro i rdev prev hk hi
    have hpred : addrAt d ((i : Int) - 1) = .ok (d.block (i - 1) : Int) := by
      rw [← h.addrAt_eq (by omega), Int.natCast_sub hi]
      rfl
    obtain ⟨rdev', prev', hrun, hother, hents⟩ := ih (i := i + 1) { rdev with
        blocks := update rdev.blocks (d.block (i - 1))
          (copyBytes prev ((ONE_BLOCK_DIRENTRYS - 1) * DIRENTRY_SIZE) (rdev.blocks (d.block i)) 0
            DIRENTRY_SIZE)
        iobuffer := copyBytes prev ((ONE_BLOCK_DIRENTRYS - 1) * DIRENTRY_SIZE)
          (rdev.blocks (d.block i)) 0 DIRENTRY_SIZE }
      (copyBytes (rdev.blocks (d.block i)) 0 (rdev.blocks (d.block i)) DIRENTRY_SIZE
        ((ONE_BLOCK_DIRENTRYS - 1) * DIRENTRY_SIZE)) (by omega) (by omega)
    refine ⟨rdev', prev', ?_, fun c hc => ?_, fun a ha => ?_⟩
    · simp only [shiftBlocks, h.addrAt_eq (show i < k by omega), hpred, ok_bind,
        ramdiskRead_eq (h.data i (by omega)).onDisk, Int.toNat_natCast,
        ramdiskWrite_eq (h.data (i - 1) (by omega)).onDisk]
      exact hrun
    · rw [hother c hc]
      exact update_of_ne (hc (i - 1) (by omega)) _ _
    · have hle : ONE_BLOCK_DIRENTRYS * (i + 1) ≤ ONE_BLOCK_DIRENTRYS * k :=
        Nat.mul_le_mul_left _ (by omega)
      have hthis := entryAt_copyBytes (rdev.blocks (d.block i)) (rdev.blocks (d.block i))
        (a % ONE_BLOCK_DIRENTRYS) 0 1 (ONE_BLOCK_DIRENTRYS - 1)
      have hprev := entryAt_copyBytes prev (rdev.blocks (d.block i))
        (a % ONE_BLOCK_DIRENTRYS) (ONE_BLOCK_DIRENTRYS - 1) 0 1
      rw [Nat.zero_mul, Nat.one_mul] at hthis hprev
      rw [hents a ha, Nat.add_sub_cancel, h.entryOf_update (by omega) (by omega),
        h.entryOf_update (by omega) (by omega), h.entryOf_update (by omega) (by omega),
        h.entryOf_update (by omega) (by omega), hthis, hprev]
      unfold ONE_BLOCK_DIRENTRYS at *
      by_cases hai : a / 128 = i
      · -- in block `i`
        rw [if_pos hai, if_neg (show ¬ a + 1 < 128 * i by omega)]
        split
        · rw [if_pos (by omega)]
          exact (entryOf_eq (by unfold ONE_BLOCK_DIRENTRYS; omega)
            (by unfold ONE_BLOCK_DIRENTRYS; omega)).symm
        · rw [if_neg (by omega)]
      · by_cases hap : a / 128 = i - 1
        · rw [if_neg hai, if_pos hap, if_pos (show a + 1 < 128 * (i + 1) by omega), if_pos hap]
          split
          · -- the last entry of the block before it
            rw [if_neg (by omega)]
            exact (entryOf_eq (by unfold ONE_BLOCK_DIRENTRYS; omega)
              (by unfold ONE_BLOCK_DIRENTRYS; omega)).symm
          · rw [if_pos (by omega)]
        · rw [if_neg hai, if_neg hap, if_neg hap]
          split
          · rw [if_pos (show a + 1 < 128 * i by omega)]
          · rw [if_neg (show ¬ (a + 1) / 128 = i - 1 by omega), if_neg (by omega)]

theorem removeDirentry_spec {v : Volume} {parent : Vinode} {p k' : Nat} {total : Int}
    {sb' : SuperBlock} (h : DirOk v.dev.blocks parent.toDinode k n) (hi : i < n)
    (hfree : freeEmptyBlock v.sb parent total (parent.block (k - 1))
      = .ok (sb', { parent with blocks := (k' : Nat) })) (hk' : k' ≤ k)
    (hp : parent.inum = p) (hlt : p < RFS_NINODES) (hf : parent.Fits) :
    ∃ rdev', removeDirentry v parent total i = .ok ({ dev := rdev', sb := sb' },
        { parent with size := (DIRENTRY_SIZE * (n - 1) : Nat), blocks := (k' : Nat) }) ∧
      entriesOf rdev'.blocks
          { parent.toDinode with size := (DIRENTRY_SIZE * (n - 1) : Nat), blocks := (k' : Nat) }
        = (entriesOf v.dev.blocks parent.toDinode).eraseIdx i ∧
      (∀ j, j < RFS_NINODES → dinodeAt rdev'.blocks j = if j = p
        then { parent.toDinode with size := (DIRENTRY_SIZE * (n - 1) : Nat), blocks := (k' : Nat) }
        else dinodeAt v.dev.blocks j) ∧
      ∀ c, c ≠ inodeBlock p → (∀ j, j < k → c ≠ parent.block j) →
        rdev'.blocks c = v.dev.blocks c := by
  have hle : n ≤ ONE_BLOCK_DIRENTRYS * DIRECT_BLKNUM :=
    Nat.le_trans h.le (Nat.mul_le_mul_left _ h.few)
  have hroom := h.le
  have hik := h.block_lt hi
  have hpos : 0 < k := Nat.lt_of_le_of_lt (Nat.zero_le _) hik
  have hfew := h.few
  unfold DIRECT_BLKNUM at hfew
  have hsize : wrap32 (parent.size - (DIRENTRY_SIZE : Nat))
      = ((DIRENTRY_SIZE * (n - 1) : Nat) : Int) := by
    rw [h.size, show ((DIRENTRY_SIZE * n : Nat) : Int) - (DIRENTRY_SIZE : Nat)
      = ((DIRENTRY_SIZE * (n - 1) : Nat) : Int) from by unfold DIRENTRY_SIZE; omega]
    exact wrap32_of_fits (fits_dirSize hf (n := n - 1) (by omega)).size
  obtain ⟨rdev1, last, hshift, hother, hents⟩ := h.shiftBlocks_spec
    (n := k - (i / ONE_BLOCK_DIRENTRYS + 1)) (i := i / ONE_BLOCK_DIRENTRYS + 1)
    { v.dev with iobuffer := v.dev.blocks (parent.block (i / ONE_BLOCK_DIRENTRYS)) }
    (copyBytes (v.dev.blocks (parent.block (i / ONE_BLOCK_DIRENTRYS)))
      (i % ONE_BLOCK_DIRENTRYS * DIRENTRY_SIZE)
      (v.dev.blocks (parent.block (i / ONE_BLOCK_DIRENTRYS)))
      ((i % ONE_BLOCK_DIRENTRYS + 1) * DIRENTRY_SIZE)
      ((ONE_BLOCK_DIRENTRYS - i % ONE_BLOCK_DIRENTRYS - 1) * DIRENTRY_SIZE))
    (by omega) (Nat.succ_pos _)
  have hlast := h.data (k - 1) (by omega)
  obtain ⟨rdev', hrun, hb, hino, hdat⟩ := storeDir_spec rdev1 hlast hlt
    (show Dinode.Fits { parent.toDinode with
      size := (DIRENTRY_SIZE * (n - 1) : Nat), blocks := (k' : Nat) } from
      { fits_dirSize hf (n := n - 1) (by omega) with blocks := fits_natCast (by omega) }) last
  refine ⟨rdev', ?_, entriesOf_erase h.size rfl hi (fun a ha => ?_), fun j hj => ?_,
    fun c hc hcd => ?_⟩
  · have hlater : (parent.blocks - ((i / ONE_BLOCK_DIRENTRYS + 1 : Nat) : Int)).toNat
        = k - (i / ONE_BLOCK_DIRENTRYS + 1) := by
      rw [h.count]
      omega
    have haddr : addrAt parent.toDinode (parent.blocks - 1) = .ok (parent.block (k - 1) : Int) := by
      rw [← h.addrAt_eq (by omega), h.count, Int.natCast_sub (by omega)]
      rfl
    rw [bind_eq_ok] at hrun
    obtain ⟨r, hr1, hr2⟩ := hrun
    simp only [removeDirentry, hlater, h.addrAt_eq hik, ok_bind, ramdiskRead_eq (h.data _ hik).onDisk,
      Int.toNat_natCast, hshift, haddr, hr1, hfree, hsize, rfsWriteBackVinode, hp, hr2]
    rfl
  · have hblk : entryOf rdev'.blocks parent.toDinode a
        = entryOf (update rdev1.blocks (parent.block (k - 1)) last) parent.toDinode a := by
      have hka := h.block_lt (i := a) (by omega)
      rw [h.entryOf_update (by omega) (by omega)]
      split
      · rename_i hae
        rw [entryOf, hae, hb]
      · rename_i hae
        rw [entryOf, hdat _ ((h.data _ hka).ne_inodeBlock hlt)
          (fun hc => hae (h.inj _ _ hka (by omega) hc))]
        rfl
    refine hblk.trans ((hents a (by omega)).trans ?_)
    rw [Nat.add_sub_cancel, h.entryOf_update hik (by omega), entryAt_copyBytes]
    by_cases hai : a < i
    · rw [if_pos hai, if_pos (by unfold ONE_BLOCK_DIRENTRYS; omega)]
      split
      · rename_i hblock
        rw [if_neg (by unfold ONE_BLOCK_DIRENTRYS at *; omega)]
        exact (entryOf_eq hblock rfl).symm
      · rfl
    · rw [if_neg hai]
      split
      · rw [if_pos (by unfold ONE_BLOCK_DIRENTRYS at *; omega),
          if_pos (by unfold ONE_BLOCK_DIRENTRYS at *; omega)]
        exact (entryOf_eq (by unfold ONE_BLOCK_DIRENTRYS at *; omega)
          (by unfold ONE_BLOCK_DIRENTRYS at *; omega)).symm
      · rfl
  · rw [hino j hj]
    split
    · rfl
    · exact dinodeAt_congr hj (fun c hc => hother c (fun i hi => by
        have hge := (h.data i hi).bitmap_le
        omega))
  · rw [hdat c hc (hcd _ (by omega)), hother c hcd]

end

end CabbagePKE
