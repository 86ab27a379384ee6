import CabbagePKE.Base
import CabbagePKE.Lib.Words
import Mathlib.Data.Finset.Card

/-!
# The RAM disk

`kernel/ramdev.c` and the lower half of `kernel/rfs.c`: blocks that go
through one shared `iobuffer`, disk inodes in slots of the inode blocks,
and the map of free data blocks that is kept in memory. The inode area
behaves as an array of disk inodes (`dinodeAt`).
-/

namespace CabbagePKE

open Lib Function List

/-! ## Layout -/

def RAMDISK_BLOCK_COUNT : Int := 128

def RFS_BLKSIZE : Nat := 4096

def RFS_INODESIZE : Nat := 128

def INODES_PER_BLK : Nat := 32

def RFS_MAX_INODE_BLKNUM : Nat := 10

def RFS_NINODES : Nat := 320

abbrev DIRECT_BLKNUM : Nat := 10

def RFS_BLK_OFFSET_INODE : Nat := 1

def RFS_BLK_OFFSET_BITMAP : Nat := 11

def RFS_BLK_OFFSET_FREE : Nat := 12

/-- The number of data blocks, `RFS_MAX_INODE_BLKNUM * RFS_DIRECT_BLKNUM` -/
def RFS_NBLOCKS : Nat := 100

def R_FILE : Int := 0

def R_DIR : Int := 1

def R_FREE : Int := 2

/-! ## Blocks -/

/-- `struct rfs_device`: the blocks of the disk and the buffer every block
passes through. -/
structure RfsDevice where
  blocks : Nat → Mem
  iobuffer : Mem

/-- `ramdisk_read`, also as `rfs_r1block` and `dop_read` -/
def ramdiskRead (rdev : RfsDevice) (blkno : Int) : Outcome RfsDevice :=
  if blkno < 0 ∨ RAMDISK_BLOCK_COUNT ≤ blkno then
    .error (.panic "ramdisk_read: read block No out of range!\n" [])
  else .ok { rdev with iobuffer := rdev.blocks blkno.toNat }

/-- `ramdisk_write`, also as `rfs_w1block` and `dop_write` -/
def ramdiskWrite (rdev : RfsDevice) (blkno : Int) : Outcome RfsDevice :=
  if blkno < 0 ∨ RAMDISK_BLOCK_COUNT ≤ blkno then
    .error (.panic "ramdisk_write: write block No %d out of range!\n" [blkno])
  else .ok { rdev with blocks := update rdev.blocks blkno.toNat rdev.iobuffer }

def OnDisk (blkno : Int) : Prop := 0 ≤ blkno ∧ blkno < RAMDISK_BLOCK_COUNT

section

variable {rdev : RfsDevice} {blkno : Int}

theorem ramdiskRead_eq (h : OnDisk blkno) :
    ramdiskRead rdev blkno = .ok { rdev with iobuffer := rdev.blocks blkno.toNat } := by
  unfold OnDisk at h
  rw [ramdiskRead, if_neg (by omega)]

theorem ramdiskWrite_eq (h : OnDisk blkno) :
    ramdiskWrite rdev blkno
      = .ok { rdev with blocks := update rdev.blocks blkno.toNat rdev.iobuffer } := by
  unfold OnDisk at h
  rw [ramdiskWrite, if_neg (by omega)]

end

/-! ## Disk inodes -/

structure Dinode where
  size : Int
  type : Int
  nlinks : Int
  blocks : Int
  addrs : Fin DIRECT_BLKNUM → Int

def Dinode.words (d : Dinode) : List Int :=
  [d.size, d.type, d.nlinks, d.blocks] ++ List.ofFn d.addrs

def dinodeOf (m : Mem) (a : Nat) : Dinode where
  size := getWord m a
  type := getWord m (a + 4)
  nlinks := getWord m (a + 8)
  blocks := getWord m (a + 12)
  addrs i := getWord m (a + 16 + 4 * i)

def Dinode.addr (d : Dinode) (i : Nat) : Int :=
  if h : i < DIRECT_BLKNUM then d.addrs ⟨i, h⟩ else 0

def Dinode.setAddr (d : Dinode) (i : Nat) (b : Int) : Dinode :=
  { d with addrs := fun j => if (j : Nat) = i then b else d.addrs j }

def addrAt (d : Dinode) (i : Int) : Outcome Int :=
  if 0 ≤ i ∧ i < (DIRECT_BLKNUM : Int) then .ok (d.addr i.toNat) else .error .undefined

def rfsReadDinode (rdev : RfsDevice) (nInode : Int) : Outcome (Dinode × RfsDevice) := do
  let nBlock := nInode.tdiv INODES_PER_BLK + RFS_BLK_OFFSET_INODE
  let offset := nInode.tmod INODES_PER_BLK
  let rdev ← ramdiskRead rdev nBlock
  if offset < 0 then .error .undefined
  else return (dinodeOf rdev.iobuffer (offset.toNat * RFS_INODESIZE), rdev)

def rfsWriteDinode (rdev : RfsDevice) (dinode : Dinode) (nInode : Int) : Outcome RfsDevice := do
  let nBlock := nInode.tdiv INODES_PER_BLK + RFS_BLK_OFFSET_INODE
  let offset := nInode.tmod INODES_PER_BLK
  let rdev ← ramdiskRead rdev nBlock
  if offset < 0 then .error .undefined
  else
    let iobuffer := putWords rdev.iobuffer (offset.toNat * RFS_INODESIZE) dinode.words
    ramdiskWrite { rdev with iobuffer := iobuffer } nBlock

structure Dinode.Fits (d : Dinode) : Prop where
  size : Fits32 d.size
  type : Fits32 d.type
  nlinks : Fits32 d.nlinks
  blocks : Fits32 d.blocks
  addrs : ∀ i, Fits32 (d.addrs i)

def inodeBlock (n : Nat) : Nat := n / INODES_PER_BLK + RFS_BLK_OFFSET_INODE

def dinodeAt (blocks : Nat → Mem) (n : Nat) : Dinode :=
  dinodeOf (blocks (n / INODES_PER_BLK + RFS_BLK_OFFSET_INODE)) (n % INODES_PER_BLK * RFS_INODESIZE)

section

variable {rdev : RfsDevice} {d : Dinode} {n k : Nat} {m m' : Mem} {a b : Nat}

theorem dinodeOf_fits (m : Mem) (a : Nat) : (dinodeOf m a).Fits :=
  ⟨fits_getWord m a, fits_getWord m (a + 4), fits_getWord m (a + 8), fits_getWord m (a + 12),
    fun i => fits_getWord m (a + 16 + 4 * i)⟩

theorem dinodeAt_fits (blocks : Nat → Mem) (n : Nat) : (dinodeAt blocks n).Fits := dinodeOf_fits ..

theorem Dinode.words_length (d : Dinode) : d.words.length = 14 := by
  simp [Dinode.words, DIRECT_BLKNUM]

theorem Dinode.words_addr (d : Dinode) (i : Fin DIRECT_BLKNUM) (hi : i + 4 < d.words.length) :
    d.words.get ⟨i + 4, hi⟩ = d.addrs i := by exact List.getElem_ofFn ..

theorem dinodeOf_putWords (h : d.Fits) (m : Mem) (a : Nat) :
    dinodeOf (putWords m a d.words) a = d := by
  have hw : ∀ (k : Nat) (hk : k < d.words.length) (x : Int), d.words.get ⟨k, hk⟩ = x →
      Fits32 x → getWord (putWords m a d.words) (a + 4 * k) = x := by
    intro k hk x hx hfit
    rw [getWord_putWords m a hk, hx, wrap32_of_fits hfit]
  have hlen := d.words_length
  have h0 := hw 0 (by omega) d.size rfl h.size
  have h1 := hw 1 (by omega) d.type rfl h.type
  have h2 := hw 2 (by omega) d.nlinks rfl h.nlinks
  have h3 := hw 3 (by omega) d.blocks rfl h.blocks
  have h4 : (fun i : Fin DIRECT_BLKNUM => getWord (putWords m a d.words) (a + 16 + 4 * i))
      = d.addrs := by
    funext i
    have hi : (i : Nat) < 10 := i.isLt
    have hi4 := hw (i + 4) (by omega) (d.addrs i) (d.words_addr i _) (h.addrs i)
    rwa [show a + 4 * ((i : Nat) + 4) = a + 16 + 4 * i from by omega] at hi4
  rw [dinodeOf, h4]
  cases d with
  | mk size type nlinks blocks addrs =>
    simp only [Dinode.mk.injEq]
    exact ⟨h0, h1, h2, h3, trivial⟩

theorem dinodeOf_congr (h : ∀ i, i < 56 → m (a + i) = m' (b + i)) :
    dinodeOf m a = dinodeOf m' b := by
  have hw : ∀ o, o + 4 ≤ 56 → getWord m (a + o) = getWord m' (b + o) := by
    intro o ho
    apply getWord_congr
    intro i hi
    have hoi := h (o + i) (by omega)
    rwa [← add_assoc, ← add_assoc] at hoi
  simp only [dinodeOf, Dinode.mk.injEq]
  refine ⟨hw 0 (by omega), hw 4 (by omega), hw 8 (by omega), hw 12 (by omega), ?_⟩
  funext i
  have hi : (i : Nat) < 10 := i.isLt
  have h4 := hw (16 + 4 * i) (by omega)
  rwa [← add_assoc, ← add_assoc] at h4

theorem inode_slot (hn : n < RFS_NINODES) :
    (n : Int).tdiv INODES_PER_BLK + RFS_BLK_OFFSET_INODE
      = ((n / INODES_PER_BLK + RFS_BLK_OFFSET_INODE : Nat) : Int) ∧
    (n : Int).tmod INODES_PER_BLK = ((n % INODES_PER_BLK : Nat) : Int) ∧
    OnDisk ((n / INODES_PER_BLK + RFS_BLK_OFFSET_INODE : Nat) : Int) := by
  refine ⟨?_, ?_, ?_⟩
  · rw [Int.tdiv_eq_ediv_of_nonneg (by omega)]
    simp
  · rw [Int.tmod_eq_emod_of_nonneg (by omega)]
    simp
  · unfold OnDisk RAMDISK_BLOCK_COUNT INODES_PER_BLK RFS_BLK_OFFSET_INODE
    unfold RFS_NINODES at hn
    omega

theorem rfsReadDinode_eq (hn : n < RFS_NINODES) :
    rfsReadDinode rdev n = .ok (dinodeAt rdev.blocks n,
      { rdev with iobuffer := rdev.blocks (n / INODES_PER_BLK + RFS_BLK_OFFSET_INODE) }) := by
  obtain ⟨hb, ho, hon⟩ := inode_slot hn
  simp only [rfsReadDinode, hb, ho, ramdiskRead_eq hon, ok_bind]
  rw [if_neg (by omega)]
  rfl

theorem inodeBlock_lt (hn : n < RFS_NINODES) : inodeBlock n < RFS_BLK_OFFSET_BITMAP := by
  unfold RFS_NINODES at hn
  unfold inodeBlock INODES_PER_BLK RFS_BLK_OFFSET_INODE RFS_BLK_OFFSET_BITMAP
  omega

theorem rfsWriteDinode_spec (rdev : RfsDevice) (d : Dinode) (hn : n < RFS_NINODES) :
    ∃ rdev', rfsWriteDinode rdev d n = .ok rdev' ∧
      (d.Fits → ∀ k, dinodeAt rdev'.blocks k = if k = n then d else dinodeAt rdev.blocks k) ∧
      ∀ b, b ≠ inodeBlock n → rdev'.blocks b = rdev.blocks b := by
  obtain ⟨hb, ho, hon⟩ := inode_slot hn
  have hneg : ¬ ((n % INODES_PER_BLK : Nat) : Int) < 0 := by omega
  refine ⟨_, by
    simp only [rfsWriteDinode, hb, ho, ramdiskRead_eq hon, ok_bind, if_neg hneg]
    exact ramdiskWrite_eq hon, ?_, ?_⟩
  · intro h k
    simp only [Int.toNat_natCast]
    unfold dinodeAt
    by_cases hk : k / INODES_PER_BLK = n / INODES_PER_BLK
    · rw [hk, update_self]
      by_cases hkn : k = n
      · subst hkn
        rw [if_pos rfl]
        exact dinodeOf_putWords h _ _
      · -- another slot of the same block
        rw [if_neg hkn]
        apply dinodeOf_congr
        intro i hi
        apply putWords_outside
        rw [d.words_length]
        unfold INODES_PER_BLK at hk ⊢
        unfold RFS_INODESIZE
        omega
    · have hne : k / INODES_PER_BLK + RFS_BLK_OFFSET_INODE
          ≠ n / INODES_PER_BLK + RFS_BLK_OFFSET_INODE := by omega
      rw [update_of_ne hne, if_neg (by rintro rfl; exact hk rfl)]
  · exact fun b hb' => update_of_ne hb' _ _

theorem dinodeAt_congr {blocks blocks' : Nat → Mem} (hn : n < RFS_NINODES)
    (h : ∀ b, b < RFS_BLK_OFFSET_BITMAP → blocks' b = blocks b) :
    dinodeAt blocks' n = dinodeAt blocks n := by
  exact congrArg (fun m => dinodeOf m _) (h _ (inodeBlock_lt hn))

theorem addrAt_eq {i : Nat} (h : i < DIRECT_BLKNUM) : addrAt d i = .ok (d.addr i) := by
  rw [addrAt, if_pos ⟨by omega, by exact_mod_cast h⟩]
  simp

theorem Dinode.addr_setAddr {i j : Nat} (h : i < DIRECT_BLKNUM) (v : Int) :
    (d.setAddr i v).addr j = if j = i then v else d.addr j := by
  unfold Dinode.addr Dinode.setAddr
  by_cases hj : j < DIRECT_BLKNUM
  · simp [hj]
  · have hne : j ≠ i := by omega
    simp [hj, hne]

end

/-! ## Free blocks -/

/-- The part of `struct super_block` that is read after mounting: the
number of data blocks and the freemap in `s_fs_info`. -/
structure SuperBlock where
  nblocks : Int
  freemap : Nat → Int

def rfsAllocBlock (sb : SuperBlock) : Outcome (Int × SuperBlock) :=
  match (List.range sb.nblocks.toNat).find? (fun block => sb.freemap block = 0) with
  | none => .error (.panic "rfs_alloc_block: no more free block!\n" [])
  | some block => .ok ((RFS_BLK_OFFSET_FREE + block : Nat),
      { sb with freemap := update sb.freemap block 1 })

/-- `rfs_free_block`; the freemap is a page of ints -/
def rfsFreeBlock (sb : SuperBlock) (blockNum : Int) : Outcome SuperBlock :=
  let index := blockNum - (RFS_BLK_OFFSET_FREE : Int)
  if index < 0 ∨ 1024 ≤ index then .error .undefined
  else .ok { sb with freemap := update sb.freemap index.toNat 0 }

def SuperBlock.Used (sb : SuperBlock) (b : Nat) : Prop :=
  sb.freemap (b - RFS_BLK_OFFSET_FREE) ≠ 0

def IsData (b : Nat) : Prop :=
  RFS_BLK_OFFSET_FREE ≤ b ∧ b < RFS_BLK_OFFSET_FREE + RFS_NBLOCKS

def SuperBlock.freeCount (sb : SuperBlock) : Nat :=
  ((Finset.range RFS_NBLOCKS).filter (fun block => sb.freemap block = 0)).card

section

variable {sb sb' : SuperBlock} {b c : Nat}

theorem IsData.onDisk (h : IsData b) : OnDisk (b : Int) := by
  unfold IsData RFS_BLK_OFFSET_FREE RFS_NBLOCKS at h
  unfold OnDisk RAMDISK_BLOCK_COUNT
  omega

theorem IsData.bitmap_le (h : IsData b) : RFS_BLK_OFFSET_BITMAP ≤ b := by
  have hb := h.1
  unfold RFS_BLK_OFFSET_FREE at hb
  unfold RFS_BLK_OFFSET_BITMAP
  omega

theorem IsData.ne_inodeBlock {n : Nat} (h : IsData b) (hn : n < RFS_NINODES) :
    b ≠ inodeBlock n := by
  have hb := h.bitmap_le
  have hn := inodeBlock_lt hn
  omega

theorem rfsAllocBlock_inv (hnb : sb.nblocks = RFS_NBLOCKS) {r : Int}
    (h : rfsAllocBlock sb = .ok (r, sb')) :
    ∃ b : Nat, r = b ∧ IsData b ∧ ¬ sb.Used b ∧ sb'.nblocks = RFS_NBLOCKS ∧
      sb'.freemap = update sb.freemap (b - RFS_BLK_OFFSET_FREE) 1 := by
  unfold rfsAllocBlock at h
  split at h
  · cases h
  · rename_i block hfind
    cases h
    have hfree : sb.freemap block = 0 := by simpa using find?_some hfind
    have hlt := mem_range.mp (mem_of_find?_eq_some hfind)
    refine ⟨RFS_BLK_OFFSET_FREE + block, rfl, ⟨by omega, by omega⟩, ?_, hnb, ?_⟩
    · rw [SuperBlock.Used, Nat.add_sub_cancel_left]
      exact not_not.mpr hfree
    · rw [Nat.add_sub_cancel_left]

theorem rfsAllocBlock_isOk (hnb : sb.nblocks = RFS_NBLOCKS) :
    (∃ r, rfsAllocBlock sb = .ok r) ↔ 0 < sb.freeCount := by
  unfold rfsAllocBlock SuperBlock.freeCount
  rw [hnb, Int.toNat_natCast, Finset.card_pos]
  split
  · rename_i hnone
    constructor
    · rintro ⟨r, hr⟩
      cases hr
    · rintro ⟨block, hb⟩
      rw [Finset.mem_filter, Finset.mem_range] at hb
      have hall := find?_eq_none.mp hnone block (mem_range.mpr hb.1)
      exact absurd hb.2 (by simpa using hall)
  · rename_i block hfind
    refine ⟨fun _ => ⟨block, ?_⟩, fun _ => ⟨_, rfl⟩⟩
    rw [Finset.mem_filter, Finset.mem_range]
    exact ⟨mem_range.mp (mem_of_find?_eq_some hfind),
      by simpa using find?_some hfind⟩

def Halt.noFreeBlock : Halt := .panic "rfs_alloc_block: no more free block!\n" []

theorem rfsAllocBlock_error {e : Halt} (h : rfsAllocBlock sb = .error e) : e = .noFreeBlock := by
  unfold rfsAllocBlock at h
  split at h
  · cases h
    rfl
  · cases h

theorem rfsAllocBlock_full (hnb : sb.nblocks = RFS_NBLOCKS) (h : sb.freeCount = 0) :
    rfsAllocBlock sb = .error .noFreeBlock := by
  have hno : ¬ ∃ r, rfsAllocBlock sb = .ok r := by
    rw [rfsAllocBlock_isOk hnb]
    omega
  cases hal : rfsAllocBlock sb with
  | error e => rw [rfsAllocBlock_error hal]
  | ok r => exact absurd ⟨r, hal⟩ hno

theorem freeCount_alloc (hb : IsData b) (hfree : ¬ sb.Used b)
    (h : sb'.freemap = update sb.freemap (b - RFS_BLK_OFFSET_FREE) 1) :
    sb'.freeCount = sb.freeCount - 1 := by
  have hlt : b - RFS_BLK_OFFSET_FREE < RFS_NBLOCKS := by
    unfold IsData at hb
    omega
  have hmem : b - RFS_BLK_OFFSET_FREE ∈
      (Finset.range RFS_NBLOCKS).filter (fun block => sb.freemap block = 0) := by
    rw [Finset.mem_filter, Finset.mem_range]
    exact ⟨hlt, not_not.mp hfree⟩
  unfold SuperBlock.freeCount
  rw [← Finset.card_erase_of_mem hmem]
  congr 1
  ext block
  rw [Finset.mem_erase, Finset.mem_filter, Finset.mem_filter, h]
  by_cases hblk : block = b - RFS_BLK_OFFSET_FREE
  · simp [hblk]
  · simp [hblk]

theorem used_update {v : Int} (hb : RFS_BLK_OFFSET_FREE ≤ b) (hc : RFS_BLK_OFFSET_FREE ≤ c)
    (h : sb'.freemap = update sb.freemap (b - RFS_BLK_OFFSET_FREE) v) :
    sb'.Used c ↔ if c = b then v ≠ 0 else sb.Used c := by
  unfold SuperBlock.Used
  rw [h]
  by_cases hcb : c = b
  · rw [hcb, update_self, if_pos rfl]
  · rw [update_of_ne (by omega), if_neg hcb]

theorem rfsFreeBlock_eq (hb : RFS_BLK_OFFSET_FREE ≤ b) (hlt : b < RFS_BLK_OFFSET_FREE + 1024) :
    rfsFreeBlock sb b
      = .ok { sb with freemap := update sb.freemap (b - RFS_BLK_OFFSET_FREE) 0 } := by
  have hidx : ¬ ((b : Int) - (RFS_BLK_OFFSET_FREE : Int) < 0 ∨
      1024 ≤ (b : Int) - (RFS_BLK_OFFSET_FREE : Int)) := by omega
  rw [rfsFreeBlock, if_neg hidx]
  congr 3
  omega

end

end CabbagePKE
