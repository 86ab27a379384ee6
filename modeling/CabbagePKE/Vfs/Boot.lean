import CabbagePKE.Vfs.Operations

/-!
# The file system after boot

`fs_init` formats the RAM disk and mounts it under the root of the host. The
state it leaves is sound: a root directory without entries in one block, and
nothing else in use.
-/

namespace CabbagePKE

open Lib Function

section

variable {rdev : RfsDevice} {m : Mem} {n k b : Nat}

/-- The root inode that `rfs_format_dev` writes. -/
def rootDinode (stack : Fin DIRECT_BLKNUM → Int) : Dinode :=
  ({ size := 0, type := R_DIR, nlinks := 1, blocks := 1, addrs := stack } : Dinode).setAddr 0
    RFS_BLK_OFFSET_FREE

theorem putEmptyDinodes_type (m : Mem) (hk : k < n) :
    getWord (putEmptyDinodes m n) (k * RFS_INODESIZE + 4) = R_FREE := by
  induction n with
  | zero => omega
  | succ n ih =>
    by_cases hkn : k = n
    · subst hkn
      exact getWord_putWords_of_fits (k := 1) _ _ rfl (fits_natCast (x := 2) (by decide))
    · rw [putEmptyDinodes, getWord_putWords_of_disjoint]
      · exact ih (by omega)
      · have hlen : emptyDinodeWords.length = 4 := rfl
        unfold RFS_INODESIZE
        omega

theorem writeSame_eq (h : b + n ≤ RAMDISK_BLOCK_COUNT) : writeSame n b rdev = .ok { rdev with
      blocks := fun c => if b ≤ c ∧ c < b + n then rdev.iobuffer else rdev.blocks c } := by
  induction n generalizing b rdev with
  | zero =>
    have hsame : (fun c => if b ≤ c ∧ c < b + 0 then rdev.iobuffer else rdev.blocks c)
        = rdev.blocks := funext fun c => if_neg (by omega)
    rw [hsame]
    rfl
  | succ n ih =>
    have hon : OnDisk (b : Int) := by
      unfold OnDisk
      omega
    rw [writeSame, ramdiskWrite_eq hon, ok_bind, ih (by omega)]
    congr 2
    funext c
    by_cases hc : c = b
    · subst hc
      have hin : c ≤ c ∧ c < c + (n + 1) := by omega
      simp [hin]
    · have hiff : (b + 1 ≤ c ∧ c < b + 1 + n) ↔ (b ≤ c ∧ c < b + (n + 1)) := by omega
      simp only [hiff, Int.toNat_natCast, update_of_ne hc]

def superWords : List Int :=
  [RFS_MAGIC, 1 + RFS_MAX_INODE_BLKNUM + 1 + RFS_NBLOCKS, RFS_NBLOCKS, RFS_NINODES]

/-- The disk before the root inode is written: the super block and unused
inodes. -/
def emptyDisk (rdev : RfsDevice) : RfsDevice where
  blocks := fun c =>
    if RFS_BLK_OFFSET_INODE ≤ c ∧ c < RFS_BLK_OFFSET_INODE + RFS_MAX_INODE_BLKNUM
    then putEmptyDinodes (putWords rdev.iobuffer 0 superWords) INODES_PER_BLK
    else update rdev.blocks 0 (putWords rdev.iobuffer 0 superWords) c
  iobuffer := putEmptyDinodes (putWords rdev.iobuffer 0 superWords) INODES_PER_BLK

/-- The buffer with the free map: the block of the root is used. -/
def freemapBuffer (m : Mem) : Mem := putWords (fillBytes m 0 0 RFS_BLKSIZE) 0 [1]

theorem rfsFormatDev_eq (rdev : RfsDevice) (stack : Fin DIRECT_BLKNUM → Int) :
    rfsFormatDev rdev stack = (rfsWriteDinode (emptyDisk rdev) (rootDinode stack) 0 >>= fun r =>
      ramdiskWrite { r with iobuffer := freemapBuffer r.iobuffer } RFS_BLK_OFFSET_BITMAP) := by
  have hon : OnDisk (0 : Int) := by
    unfold OnDisk RAMDISK_BLOCK_COUNT
    omega
  have hroom : ((RFS_BLK_OFFSET_INODE : Nat) : Int) + (RFS_MAX_INODE_BLKNUM : Nat)
      ≤ RAMDISK_BLOCK_COUNT := by decide
  rw [rfsFormatDev, ramdiskWrite_eq hon, ok_bind, writeSame_eq hroom, ok_bind]
  rfl

theorem emptyDisk_type (rdev : RfsDevice) (hk : k < RFS_NINODES) :
    (dinodeAt (emptyDisk rdev).blocks k).type = R_FREE := by
  unfold RFS_NINODES at hk
  have hin : RFS_BLK_OFFSET_INODE ≤ k / INODES_PER_BLK + RFS_BLK_OFFSET_INODE ∧
      k / INODES_PER_BLK + RFS_BLK_OFFSET_INODE < RFS_BLK_OFFSET_INODE + RFS_MAX_INODE_BLKNUM := by
    unfold INODES_PER_BLK RFS_MAX_INODE_BLKNUM
    omega
  have hblock : (emptyDisk rdev).blocks (k / INODES_PER_BLK + RFS_BLK_OFFSET_INODE)
      = putEmptyDinodes (putWords rdev.iobuffer 0 superWords) INODES_PER_BLK := if_pos hin
  rw [dinodeAt, hblock]
  exact putEmptyDinodes_type _ (Nat.mod_lt _ (by decide))

theorem getWord_freemapBuffer (m : Mem) (hk : k < 1024) :
    getWord (freemapBuffer m) (4 * k) = if k = 0 then 1 else 0 := by
  unfold freemapBuffer
  by_cases h0 : k = 0
  · subst h0
    rw [if_pos rfl]
    exact getWord_putWords_of_fits (k := 0) _ 0 rfl (fits_natCast (x := 1) (by decide))
  · have hlen : ([1] : List Int).length = 1 := rfl
    rw [if_neg h0, getWord_putWords_of_disjoint (by omega)]
    have hzero : getWord (fillBytes m 0 0 RFS_BLKSIZE) (4 * k) = getWord (fun _ => 0) 0 := by
      apply getWord_congr
      intro i hi
      have hin : 0 ≤ 4 * k + i ∧ 4 * k + i < 0 + RFS_BLKSIZE := by
        unfold RFS_BLKSIZE
        omega
      exact if_pos hin
    rw [hzero]
    decide +kernel

theorem rootDinode_new {stack : Fin DIRECT_BLKNUM → Int} (hstack : ∀ i, Fits32 (stack i)) :
    NewInode (rootDinode stack) RFS_BLK_OFFSET_FREE := by
  have hfit : ∀ x : Nat, x < 2 ^ 31 → Fits32 (x : Int) := fun x hx => fits_natCast hx
  refine ⟨.inr rfl, rfl, rfl, rfl, ?_, ?_, hfit 0 (by decide), hfit 1 (by decide),
    hfit 1 (by decide), hfit 1 (by decide), fun i => ?_⟩
  · rw [rootDinode, Dinode.addr_setAddr (by decide), if_pos rfl]
  · unfold IsData RFS_NBLOCKS
    omega
  · show Fits32 (if (i : Nat) = 0 then (RFS_BLK_OFFSET_FREE : Int) else stack i)
    split
    · exact hfit 12 (by decide)
    · exact hstack i

theorem rfsFormatDev_spec (rdev : RfsDevice) {stack : Fin DIRECT_BLKNUM → Int}
    (hstack : ∀ i, Fits32 (stack i)) :
    ∃ rdev', rfsFormatDev rdev stack = .ok rdev' ∧
      getWord (rdev'.blocks 0) 0 = RFS_MAGIC ∧ getWord (rdev'.blocks 0) 8 = RFS_NBLOCKS ∧
      dinodeAt rdev'.blocks 0 = rootDinode stack ∧
      (∀ k, k < RFS_NINODES → k ≠ 0 → (dinodeAt rdev'.blocks k).type = R_FREE) ∧
      ∀ k, k < 1024 → getWord (rdev'.blocks RFS_BLK_OFFSET_BITMAP) (4 * k)
        = if k = 0 then 1 else 0 := by
  obtain ⟨r, hroot, hino, hframe⟩ := rfsWriteDinode_spec (emptyDisk rdev) (rootDinode stack) (n := 0)
    (by decide)
  have hino := hino (rootDinode_new hstack).fits
  have hsuper := hframe 0 (by decide)
  have hon : OnDisk ((RFS_BLK_OFFSET_BITMAP : Nat) : Int) := by
    unfold OnDisk RAMDISK_BLOCK_COUNT RFS_BLK_OFFSET_BITMAP
    omega
  have hroot' : rfsWriteDinode (emptyDisk rdev) (rootDinode stack) 0 = .ok r := hroot
  have hblock0 : update r.blocks RFS_BLK_OFFSET_BITMAP (freemapBuffer r.iobuffer) 0
      = putWords rdev.iobuffer 0 superWords := by
    rw [update_of_ne (by decide), hsuper]
    rfl
  have hinodes : ∀ k, k < RFS_NINODES → dinodeAt
      (update r.blocks RFS_BLK_OFFSET_BITMAP (freemapBuffer r.iobuffer)) k
      = dinodeAt r.blocks k := by
    intro k hk
    apply dinodeAt_congr hk
    intro c hc
    rw [update_of_ne (by omega)]
  refine ⟨⟨update r.blocks RFS_BLK_OFFSET_BITMAP (freemapBuffer r.iobuffer),
    freemapBuffer r.iobuffer⟩, ?_, ?_, ?_, ?_, ?_, ?_⟩
  · rw [rfsFormatDev_eq, hroot', ok_bind, ramdiskWrite_eq hon]
    rfl
  · dsimp only
    rw [hblock0]
    exact getWord_putWords_of_fits (k := 0) _ 0 rfl (fits_natCast (x := 0xBEAF) (by decide))
  · dsimp only
    rw [hblock0]
    exact getWord_putWords_of_fits (k := 2) _ 0 rfl (fits_natCast (x := 100) (by decide))
  · rw [hinodes 0 (by decide), hino 0, if_pos rfl]
  · intro k hk hk0
    rw [hinodes k hk, hino k, if_neg hk0]
    exact emptyDisk_type rdev hk
  · intro k hk
    dsimp only
    rw [update_self]
    exact getWord_freemapBuffer _ hk

end

/-! ## Mounting -/

section

variable {rdev : RfsDevice} {v : Volume} {root : Dinode}

structure FreshDisk (v : Volume) (root : Dinode) : Prop where
  new : NewInode root RFS_BLK_OFFSET_FREE
  dir : root.type = R_DIR
  root : v.disk 0 = root
  free : ∀ k, k ≠ 0 → (v.disk k).type = R_FREE
  used : ∀ b, v.used b ↔ b = RFS_BLK_OFFSET_FREE

theorem FreshDisk.ok (h : FreshDisk v root) {t : Tree} (hon : t.On v) (hnode : t.node = t.disk) :
    t.Ok := by
  have hdisk0 : t.disk 0 = root := by rw [hon.disk, h.root]
  have hfree : ∀ k, k ≠ 0 → (t.disk k).type = R_FREE := by
    intro k hk
    rw [hon.disk]
    exact h.free k hk
  have hused : ∀ b, t.used b ↔ b = RFS_BLK_OFFSET_FREE := by
    intro b
    rw [hon.used]
    exact h.used b
  have hone : ∀ n, t.InUse n → n = 0 := by
    intro n hn
    by_contra h0
    exact hn (hfree n h0)
  have hents : ∀ n, t.ents n = [] := by
    intro n
    rw [hon.ents]
    rw [Volume.ents, ← hon.disk]
    split
    · rename_i hdir
      have hn := hone n (Tree.inUse_of_dir hdir)
      subst hn
      rw [hdisk0]
      rw [entriesOf, h.new.size]
      rfl
    · rfl
  have hroot0 : (t.disk 0).type = R_DIR := by rw [hdisk0, h.dir]
  refine ⟨⟨fun b hb => ?_, hroot0, fun n hn => ?_, fun n hn => ?_, fun n hn => ?_,
    fun n _ => hents n, fun n m hn hm hne => ?_⟩, ⟨fun n e he => ?_, fun m hm0 hm => ?_,
    fun m hm0 hm => ?_, fun m hm0 hm => ?_⟩⟩
  · rw [(hused b).mp hb]
    exact h.new.data
  · rw [hone n hn]
    decide
  · have hn0 := hone n hn
    subst hn0
    rw [hnode, hdisk0]
    exact h.new.inodeOk ((hused _).mpr rfl)
  · have hn0 := hone n (Tree.inUse_of_dir hn)
    subst hn0
    rw [hnode, hents 0, hdisk0]
    refine ⟨rfl, h.new.blocks, h.new.size, Nat.zero_le _, fun e he => ?_⟩
    cases he
  · exact absurd ((hone n hn).trans (hone m hm).symm) hne
  · simp [hents n] at he
  · exact absurd (hone m hm) hm0
  · exact absurd (hone m hm) hm0
  · exact absurd (hone m (Tree.inUse_of_dir hm)) hm0

def mounted (v : Volume) (root : Dinode) : Vfs where
  rfs :=
    { vol := v
      vinodes := update (fun _ => none) 0 (some { toDinode := root, inum := 0, ref := 1 })
      nextVinode := 1 }
  dirCaches := fun _ => none
  vinodeHash := update (fun _ => none) 0 (some 0)
  dentries := update (update (fun _ => none) vfsRootDentry
      (some { name := [slash], dRef := 0, inode := .host, parent := none })) rfsRootDentry
    (some { name := ramdisk0, dRef := 0, inode := .rfs 0, parent := some vfsRootDentry })
  nextDentry := 2
  dentryHash := update (update (fun _ => none) (none, [slash])
    (some vfsRootDentry)) (some vfsRootDentry, ramdisk0) (some rfsRootDentry)
  files := fun _ => none
  nextFile := 0

theorem mounted_dentries {d : Nat} {e : Dentry} (h : (mounted v root).dentries d = some e) :
    (d = vfsRootDentry ∧ e = { name := [slash], dRef := 0, inode := .host, parent := none }) ∨
      (d = rfsRootDentry ∧
        e = { name := ramdisk0, dRef := 0, inode := .rfs 0, parent := some vfsRootDentry }) := by
  simp only [mounted, update_apply] at h
  split at h
  · rename_i hd
    cases h
    exact .inr ⟨hd, rfl⟩
  · split at h
    · rename_i hd
      cases h
      exact .inl ⟨hd, rfl⟩
    · cases h

theorem mounted_inumOf : (mounted v root).inumOf rfsRootDentry = some 0 := by
  simp [Vfs.inumOf, Vfs.points, mounted, InodePtr.rfs?]

theorem mounted_vinodes {p : Nat} {w : Vinode} (h : (mounted v root).rfs.vinodes p = some w) :
    p = 0 ∧ w = { toDinode := root, inum := 0, ref := 1 } := by
  simp only [mounted, update_apply] at h
  split at h
  · rename_i hp
    cases h
    exact ⟨hp, rfl⟩
  · cases h

theorem FreshDisk.sound (h : FreshDisk v root) (hnb : v.sb.nblocks = RFS_NBLOCKS) :
    (mounted v root).Sound := by
  have hcache : (mounted v root).cache = update (fun _ => none) 0 (some root) := by
    funext k
    by_cases hk : k = 0
    · subst hk
      simp [Vfs.cache, mounted]
    · simp [Vfs.cache, mounted, hk]
  have hnode : (mounted v root).tree.node = (mounted v root).tree.disk := by
    show overlay (mounted v root).cache v.disk = v.disk
    rw [hcache, overlay_update]
    have hnone : overlay (fun _ => none) v.disk = v.disk := by
      funext k
      exact overlay_uncached rfl
    rw [hnone, ← h.root, update_eq_self]
  have hok := h.ok (mounted v root).tree_on hnode
  constructor
  · exact hnb
  · exact hok
  · intro p hp
    by_contra hne
    obtain ⟨w, hw⟩ := Option.ne_none_iff_exists'.mp hne
    have hp1 : 1 ≤ p := hp
    have hp0 := (mounted_vinodes hw).1
    omega
  · intro p w hw
    obtain ⟨rfl, rfl⟩ := mounted_vinodes hw
    exact ⟨0, rfl, by simp [mounted], Tree.inUse_of_dir hok.shape.root⟩
  · intro i p hi
    simp only [mounted, update_apply] at hi
    split at hi
    · rename_i hi0
      cases hi
      exact ⟨{ toDinode := root, inum := 0, ref := 1 }, by simp [mounted], hi0.symm⟩
    · cases hi
  · intro d hd
    by_contra hne
    obtain ⟨e, he⟩ := Option.ne_none_iff_exists'.mp hne
    have hd2 : 2 ≤ d := hd
    rcases mounted_dentries he with ⟨hd0, -⟩ | ⟨hd1, -⟩
    · unfold vfsRootDentry at hd0
      omega
    · unfold rfsRootDentry at hd1
      omega
  · exact ⟨_, rfl, rfl, rfl⟩
  · exact mounted_inumOf
  · intro k d hk
    simp only [mounted, update_apply] at hk
    split at hk
    · rename_i hkey
      cases hk
      exact ⟨_, rfl, hkey.symm⟩
    · split at hk
      · rename_i hkey
        cases hk
        exact ⟨_, rfl, hkey.symm⟩
      · cases hk
  · intro d e he hd0
    rcases mounted_dentries he with ⟨hd, -⟩ | ⟨rfl, rfl⟩
    · exact absurd hd hd0
    · exact ⟨vfsRootDentry, rfl, by simp [mounted], 0, mounted_inumOf, .inl ⟨rfl, rfl, rfl⟩⟩
  · -- only one dentry has an inode
    have hone : ∀ d i, (mounted v root).inumOf d = some i → d = rfsRootDentry := by
      intro d i hi
      obtain ⟨e, q, w, he, hq, -⟩ := Vfs.exists_of_inumOf hi
      rcases mounted_dentries he with ⟨-, rfl⟩ | ⟨hd, -⟩
      · cases hq
      · exact hd
    intro d d' n h1 h2 _
    rw [hone d _ h1, hone d' _ h2]
  · intro p w hw
    obtain ⟨rfl, rfl⟩ := mounted_vinodes hw
    have hpts : (mounted v root).points = update (fun _ => none) 1 (some 0) := by
      funext d
      by_cases hd : d = rfsRootDentry
      · subst hd
        rfl
      · have hd' : d ≠ 1 := hd
        by_cases hd0 : d = vfsRootDentry
        · subst hd0
          rfl
        · simp [Vfs.points, mounted, hd, hd0, hd']
    have hpush := holders_push (n := 1) (p := fun _ => (none : Option Nat)) (k := 0) (some 0)
    have hzero : holders 1 (fun _ => (none : Option Nat)) 0 = 0 :=
      holders_eq_zero (fun _ _ hc => by cases hc)
    show (1 : Int) = ((holders 2 (mounted v root).points 0 : Nat) : Int)
    rw [hpts, hpush]
    rfl
  · intro f x hx
    cases hx

theorem fsInit_mounted (rdev : RfsDevice) {stack : Fin DIRECT_BLKNUM → Int}
    (hstack : ∀ i, Fits32 (stack i)) :
    ∃ vol, fsInit rdev stack = .ok (mounted vol (rootDinode stack)) ∧
      FreshDisk vol (rootDinode stack) ∧ vol.sb.nblocks = RFS_NBLOCKS := by
  obtain ⟨r, hformat, hmagic, hnb, hroot, hfree, hmap⟩ := rfsFormatDev_spec rdev hstack
  have hon : OnDisk (0 : Int) := by
    unfold OnDisk RAMDISK_BLOCK_COUNT
    omega
  have honb : OnDisk ((RFS_BLK_OFFSET_BITMAP : Nat) : Int) := by
    unfold OnDisk RAMDISK_BLOCK_COUNT RFS_BLK_OFFSET_BITMAP
    omega
  obtain ⟨r', hload, hbl⟩ := loadVinode_eq (n := 0)
    { vol := { dev := { r with iobuffer := r.blocks 0 },
               sb := { nblocks := getWord (r.blocks 0) 8, freemap := fun _ => 0 } },
      vinodes := fun _ => none, nextVinode := 0 } (by decide)
  have hbl' := hbl
  let vol : Volume :=
    { dev := { r' with iobuffer := r'.blocks RFS_BLK_OFFSET_BITMAP },
      sb := { nblocks := getWord (r.blocks 0) 8,
              freemap := fun block => getWord (r'.blocks RFS_BLK_OFFSET_BITMAP) (4 * block) } }
  have hfresh : FreshDisk vol (rootDinode stack) := by
    refine ⟨rootDinode_new hstack, rfl, ?_, ?_, ?_⟩
    · rw [Volume.disk_of_lt (by decide)]
      rw [hbl', hroot]
    · intro k hk
      unfold Volume.disk
      split
      · rename_i hlt
        rw [hbl']
        exact hfree k hlt hk
      · rfl
    · intro b
      show IsData b ∧
        getWord (r'.blocks RFS_BLK_OFFSET_BITMAP) (4 * (b - RFS_BLK_OFFSET_FREE)) ≠ 0 ↔ _
      rw [hbl']
      unfold IsData RFS_NBLOCKS
      constructor
      · rintro ⟨hb, hw⟩
        rw [hmap _ (by omega)] at hw
        by_contra hne
        rw [if_neg (by omega)] at hw
        exact hw rfl
      · rintro rfl
        refine ⟨by omega, ?_⟩
        rw [hmap _ (by omega), if_pos (by omega)]
        decide
  refine ⟨vol, ?_, hfresh, hnb⟩
  have hdisk : Volume.disk ⟨{ r with iobuffer := r.blocks 0 },
      ⟨getWord (r.blocks 0) 8, fun _ => 0⟩⟩ 0 = rootDinode stack := by
    rwa [Volume.disk_of_lt (by decide)]
  have hsuper : rfsGetSuperblock r = .ok (0,
      { vol := vol
        vinodes := update (fun _ => none) 0
          (some { toDinode := rootDinode stack, inum := 0, ref := 0 })
        nextVinode := 1 }) := by
    rw [rfsGetSuperblock, ramdiskRead_eq hon, ok_bind]
    rw [Int.natCast_zero] at hload
    rw [Int.toNat_zero, if_neg (not_not_intro hmagic), hload, ok_bind, Rfs.loaded, hdisk]
    dsimp only
    rw [ramdiskRead_eq honb, ok_bind]
    rfl
  -- `ref` is stored over the vinode that was just loaded
  let loaded : Vinode := { toDinode := rootDinode stack, inum := 0, ref := 0 }
  have hidem : update (update (fun _ : Nat => (none : Option Vinode)) 0
      (some loaded)) 0 (some { loaded with ref := 1 })
      = update (fun _ => none) 0 (some { loaded with ref := 1 }) :=
    update_idem _ _ _
  rw [fsInit, hformat, ok_bind, vfsMount, hsuper, ok_bind, mounted, ← hidem]
  rfl

theorem fsInit_sound (rdev : RfsDevice) {stack : Fin DIRECT_BLKNUM → Int}
    (hstack : ∀ i, Fits32 (stack i)) : ∃ s, fsInit rdev stack = .ok s ∧ s.Sound := by
  obtain ⟨vol, hinit, hfresh, hnb⟩ := fsInit_mounted rdev hstack
  exact ⟨mounted vol (rootDinode stack), hinit, hfresh.sound hnb⟩

end

end CabbagePKE
