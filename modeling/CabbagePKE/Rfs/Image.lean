import CabbagePKE.Rfs.Inode
import CabbagePKE.Rfs.Tree
import CabbagePKE.Rfs.Overwrite

/-!
# The disk as a tree

`Volume.disk`, `Volume.ents` and `Volume.used` read the inodes, the entries
and the blocks in use off a mounted disk. The lemmas say what each function
of `kernel/rfs.c` does to them.
-/

namespace CabbagePKE

open Lib Function

def noDinode : Dinode := { size := 0, type := R_FREE, nlinks := 0, blocks := 0, addrs := fun _ => 0 }

def Volume.disk (v : Volume) (n : Nat) : Dinode :=
  if n < RFS_NINODES then dinodeAt v.dev.blocks n else noDinode

def Volume.ents (v : Volume) (n : Nat) : List (Name × Int) :=
  if (v.disk n).type = R_DIR then entriesOf v.dev.blocks (v.disk n) else []

def Volume.used (v : Volume) (b : Nat) : Prop := IsData b ∧ v.sb.Used b

section

variable {v v' : Volume} {n : Nat} {d : Dinode}

theorem Volume.disk_of_lt (h : n < RFS_NINODES) : v.disk n = dinodeAt v.dev.blocks n := if_pos h

theorem Volume.disk_fits (v : Volume) (h : n < RFS_NINODES) : (v.disk n).Fits := by
  rw [Volume.disk_of_lt h]
  exact dinodeAt_fits ..

theorem Volume.disk_congr (h : v'.dev.blocks = v.dev.blocks) : v'.disk = v.disk := by
  funext n
  unfold Volume.disk
  rw [h]

theorem Volume.ents_congr (h : v'.dev.blocks = v.dev.blocks) : v'.ents = v.ents := by
  funext n
  unfold Volume.ents
  rw [Volume.disk_congr h, h]

theorem Volume.disk_eq (h : ∀ k, k < RFS_NINODES → dinodeAt v'.dev.blocks k
    = if k = n then d else dinodeAt v.dev.blocks k) (hn : n < RFS_NINODES) :
    v'.disk = update v.disk n d := by
  funext k
  by_cases hk : k = n
  · subst hk
    rw [update_self, Volume.disk_of_lt hn, h k hn, if_pos rfl]
  · rw [update_of_ne hk]
    unfold Volume.disk
    split
    · rename_i hlt
      rw [h k hlt, if_neg hk]
    · rfl

/-! ## Directories -/

end

structure Tree.On (t : Tree) (v : Volume) : Prop where
  disk : t.disk = v.disk
  ents : t.ents = v.ents
  used : t.used = v.used

section

variable {t : Tree} {v v' : Volume} {n m p b : Nat} {d : Dinode} {rdev rdev' : RfsDevice}
  {name : Name}

theorem Tree.On.dirOk (h : t.On v) (hs : t.Shape) (hp : (t.disk p).type = R_DIR) :
    DirOk v.dev.blocks (t.disk p) 1 (t.ents p).length ∧
      t.ents p = entriesOf v.dev.blocks (t.disk p) := by
  have hd := hs.dir p hp
  obtain ⟨b, hb, hu⟩ := hs.dirBlock hp
  have hents : t.ents p = entriesOf v.dev.blocks (t.disk p) := by
    rw [h.disk] at hp ⊢
    rw [h.ents, Volume.ents, if_pos hp]
  refine ⟨⟨Dinode.owns_one hd.one hb (hs.isData b hu), hd.size, hd.le, fun i hi => ?_⟩, hents⟩
  refine (hd.names (entryOf v.dev.blocks (t.disk p) i) ?_).short
  rw [hents, entriesOf_eq hd.size]
  exact List.mem_map_of_mem (List.mem_range.mpr hi)

theorem Tree.Shape.dirBlock_ne {q : Nat} (hs : t.Shape) (hp : (t.disk p).type = R_DIR)
    (hq : (t.disk q).type = R_DIR) (hne : q ≠ p) :
    (t.disk q).block 0 ≠ (t.disk p).block 0 := by
  intro hc
  have hholds : ∀ k, (t.disk k).type = R_DIR → (t.node k).Holds ((t.disk k).block 0) := by
    intro k hk
    have hd := hs.dir k hk
    obtain ⟨b, hb, -⟩ := hs.dirBlock hk
    rw [hd.same]
    exact ⟨0, by rw [hd.one]; decide, by rw [Dinode.block, hb, Int.toNat_natCast]⟩
  exact hs.apart p q (Tree.inUse_of_dir hp) (Tree.inUse_of_dir hq) (Ne.symm hne) _
    (hholds p hp) (hc ▸ hholds q hq)

theorem Tree.On.setEnts {l : List (Name × Int)} (h : t.On v) (v' : Volume) (hs : t.Shape)
    (hp : (t.disk p).type = R_DIR) (hsb : v'.sb = v.sb)
    (hl : entriesOf v'.dev.blocks ((t.disk p).withSize (DIRENTRY_SIZE * l.length : Nat)) = l)
    (hino : ∀ k, k < RFS_NINODES → dinodeAt v'.dev.blocks k = if k = p
      then (t.disk p).withSize (DIRENTRY_SIZE * l.length : Nat) else dinodeAt v.dev.blocks k)
    (hdat : ∀ c, c ≠ inodeBlock p → c ≠ (t.disk p).block 0 →
      v'.dev.blocks c = v.dev.blocks c) : (t.setEnts p l).On v' := by
  have hin := Tree.inUse_of_dir hp
  have hd := hs.dir p hp
  have hdisk : v'.disk = update v.disk p ((t.disk p).withSize (DIRENTRY_SIZE * l.length : Nat)) :=
    Volume.disk_eq hino (hs.lt p hin)
  have htype : ((t.disk p).withSize (DIRENTRY_SIZE * l.length : Nat)).type = R_DIR := hp
  constructor
  · rw [hdisk, ← h.disk]
    show update t.disk p ((t.node p).withSize _) = _
    rw [hd.same]
  · funext k
    rw [Tree.ents_setEnts]
    rw [Volume.ents, hdisk]
    by_cases hk : k = p
    · subst hk
      rw [if_pos rfl, update_self, if_pos htype, hl]
    · rw [if_neg hk, update_of_ne hk, ← h.disk]
      split
      · -- the block of another directory is not touched
        rename_i hkdir
        obtain ⟨hc, hents⟩ := h.dirOk hs hkdir
        rw [hents]
        refine (hc.congr fun i hi => ?_).symm
        obtain rfl : i = 0 := by omega
        exact hdat _ ((hc.data 0 hi).ne_inodeBlock (hs.lt p hin)) (hs.dirBlock_ne hp hkdir hk)
      · rename_i hkdir
        exact hs.plain k hkdir
  · have hused : v'.used = v.used := by
      funext c
      unfold Volume.used
      rw [hsb]
    rw [hused, ← h.used]
    funext c
    apply propext
    constructor
    · rintro (hc | hc)
      · exact hc
      · exact (hs.inode p hin).holds_used hc
    · exact .inl

theorem Tree.On.putDinode (h : t.On v) (v' : Volume) (hs : t.Shape) (hn : n < RFS_NINODES)
    (hold : (t.disk n).type ≠ R_DIR) (hnew : d.type = R_DIR → d.size = 0)
    (hino : ∀ k, dinodeAt rdev'.blocks k = if k = n then d else dinodeAt v.dev.blocks k)
    (hdat : ∀ c, c ≠ inodeBlock n → rdev'.blocks c = v.dev.blocks c)
    (hdev : v'.dev = rdev') :
    v'.disk = update t.disk n d ∧ v'.ents = t.ents := by
  have hdisk : v'.disk = update v.disk n d := by
    apply Volume.disk_eq _ hn
    intro k _
    rw [hdev]
    exact hino k
  refine ⟨by rw [hdisk, h.disk], ?_⟩
  funext k
  rw [Volume.ents, hdisk]
  by_cases hk : k = n
  · subst hk
    rw [update_self, hs.plain k hold]
    split
    · rename_i hdir
      rw [entriesOf, hnew hdir]
      rfl
    · rfl
  · rw [update_of_ne hk, ← h.disk]
    split
    · rename_i hkdir
      obtain ⟨hc, hents⟩ := h.dirOk hs hkdir
      rw [hents]
      refine hc.congr fun i hi => ?_
      rw [hdev]
      exact hdat _ ((hc.data i hi).ne_inodeBlock hn)
    · rename_i hkdir
      exact (hs.plain k hkdir).symm

theorem Tree.On.read (h : t.On v) (hb : v'.dev.blocks = v.dev.blocks) (hsb : v'.sb = v.sb) :
    t.On v' := by
  refine ⟨by rw [h.disk, Volume.disk_congr hb], by rw [h.ents, Volume.ents_congr hb], ?_⟩
  rw [h.used]
  funext c
  unfold Volume.used
  rw [hsb]

theorem Tree.On.congr {t' : Tree} (h : t.On v) (hd : t'.disk = t.disk) (he : t'.ents = t.ents)
    (hu : ∀ b, t'.used b ↔ t.used b) : t'.On v :=
  ⟨hd.trans h.disk, he.trans h.ents, (funext fun b => propext (hu b)).trans h.used⟩

/-! ## What the functions do -/

theorem Tree.On.rfsWriteDinode (h : t.On v) (hs : t.Shape) (hlt : m < RFS_NINODES)
    (hm : (t.disk m).type ≠ R_DIR) (hd : d.type ≠ R_DIR) (hfits : d.Fits) (rdev : RfsDevice)
    (hbl : rdev.blocks = v.dev.blocks) :
    ∃ rdev', rfsWriteDinode rdev d m = .ok rdev' ∧
      Tree.On { t with disk := update t.disk m d } { dev := rdev', sb := v.sb } := by
  obtain ⟨rdev', hrun, hino, hdat⟩ := rfsWriteDinode_spec rdev d hlt
  obtain ⟨hdisk, hents⟩ := h.putDinode { dev := rdev', sb := v.sb } hs hlt hm
    (fun hdir => absurd hdir hd) (fun k => by rw [hino hfits k, hbl]) (fun c hc => by rw [hdat c hc, hbl])
    rfl
  exact ⟨rdev', hrun, hdisk.symm, hents.symm, h.used⟩

theorem Tree.On.addDirentry {q : Nat} {dir : Vinode} (fs : Rfs) (h : t.On fs.vol) (hs : t.Shape)
    (hq : fs.vinodes q = some dir) (hdisk : dir.toDinode = t.disk p) (hinum : dir.inum = p)
    (hp : (t.disk p).type = R_DIR) (hroom : (t.ents p).length < ONE_BLOCK_DIRENTRYS)
    (hname : NameOk name) (hm : m < RFS_NINODES) :
    ∃ rdev', CabbagePKE.addDirentry fs q name m = .ok (0, (fs.setDev rdev').setVinode q
        { dir with size := (DIRENTRY_SIZE * ((t.ents p).length + 1) : Nat) }) ∧
      (t.addEntry p name m).On { dev := rdev', sb := fs.vol.sb } := by
  obtain ⟨hd, hents⟩ := h.dirOk hs hp
  have hfit : Fits32 (m : Int) := fits_natCast (by unfold RFS_NINODES at hm; omega)
  have hlt := hs.lt p (Tree.inUse_of_dir hp)
  rw [← hdisk] at hd
  have htype : dir.type = R_DIR := by rw [← hp, ← hdisk]
  have hfits : dir.Fits := by
    rw [hdisk, h.disk]
    exact fs.vol.disk_fits hlt
  obtain ⟨rdev', hrun, -, hl, hino, hdat⟩ := rfsAddDirentry_spec hd htype hroom hname hfit
    hinum hlt hfits
  refine ⟨rdev', ?_, ?_⟩
  · simp only [CabbagePKE.addDirentry, Rfs.vinode, hq, ok_bind, hrun, pure_eq_ok]
  · have hlen : (t.ents p ++ [(name, (m : Int))]).length = (t.ents p).length + 1 :=
      List.length_append
    rw [hdisk] at hl hino hdat
    apply h.setEnts { dev := rdev', sb := fs.vol.sb } hs hp rfl
    · rw [hlen]
      exact hl.trans (by rw [← hents])
    · intro k hk
      rw [hlen]
      exact hino k hk
    · intro c hc hcb
      refine hdat c hc ?_
      rwa [Nat.div_eq_of_lt hroom]

theorem Tree.On.removeDirentry {parent : Vinode} {i : Nat} (h : t.On v) (hs : t.Shape)
    (hdisk : parent.toDinode = t.disk p) (hinum : parent.inum = p)
    (hp : (t.disk p).type = R_DIR) (hi : i < (t.ents p).length)
    (herase : (t.ents p).eraseIdx i = (t.ents p).eraseP (fun e => e.1 = name)) (total : Int) :
    ∃ rdev', removeDirentry v parent total i = .ok ({ v with dev := rdev' },
        { parent with size := (DIRENTRY_SIZE * ((t.ents p).length - 1) : Nat) }) ∧
      (t.dropEntry p name).On { v with dev := rdev' } := by
  obtain ⟨hd, hents⟩ := h.dirOk hs hp
  have hlt := hs.lt p (Tree.inUse_of_dir hp)
  rw [← hdisk] at hd
  have hfits : parent.Fits := by
    rw [hdisk, h.disk]
    exact v.disk_fits hlt
  -- the only block stays
  have hone : ({ parent with blocks := (1 : Nat) } : Vinode) = parent := by rw [← hd.count]
  have hfree : freeEmptyBlock v.sb parent total (parent.block (1 - 1))
      = .ok (v.sb, { parent with blocks := (1 : Nat) }) := by
    rw [freeEmptyBlock, if_neg, hone]
    rintro ⟨-, hgt⟩
    rw [hd.count] at hgt
    omega
  obtain ⟨rdev', hrun, hl, hino, hdat⟩ := removeDirentry_spec hd hi hfree le_rfl hinum hlt hfits
  have hlen : ((t.ents p).eraseP (fun e => e.1 = name)).length = (t.ents p).length - 1 := by
    rw [← herase, List.length_eraseIdx_of_lt hi]
  rw [← hd.count] at hrun hl hino
  refine ⟨rdev', hrun, ?_⟩
  rw [hdisk] at hl hino hdat
  apply h.setEnts { v with dev := rdev' } hs hp rfl
  · rw [hlen, ← herase]
    exact hl.trans (by rw [← hents])
  · intro k hk
    rw [hlen]
    exact hino k hk
  · exact fun c hc hcb => hdat c hc fun j hj => by rwa [Nat.lt_one_iff.mp hj]

def Rfs.loaded (fs : Rfs) (rdev : RfsDevice) (m : Nat) : Rfs where
  vol := { dev := rdev, sb := fs.vol.sb }
  vinodes := update fs.vinodes fs.nextVinode
    (some { toDinode := fs.vol.disk m, inum := m, ref := 0 })
  nextVinode := fs.nextVinode + 1

theorem loadVinode_eq (fs : Rfs) (hn : n < RFS_NINODES) :
    ∃ rdev', loadVinode fs n = .ok (fs.nextVinode, fs.loaded rdev' n) ∧
      rdev'.blocks = fs.vol.dev.blocks := by
  refine ⟨{ fs.vol.dev with
    iobuffer := fs.vol.dev.blocks (n / INODES_PER_BLK + RFS_BLK_OFFSET_INODE) }, ?_, rfl⟩
  rw [loadVinode, rfsReadDinode_eq hn, ok_bind, Rfs.loaded, Volume.disk_of_lt hn]
  rfl

theorem findFreeDinode_spec {k i : Nat} (last : Option Dinode) (rdev : RfsDevice)
    (hsum : i + k = RFS_NINODES) :
    ∃ (n : Nat) (d : Option Dinode) (rdev' : RfsDevice), findFreeDinode k i last rdev
        = .ok ((n : Int), d, rdev') ∧ n < RFS_NINODES ∧ rdev'.blocks = rdev.blocks ∧
      (last ≠ none ∨ 0 < k → d ≠ none) ∧
      ((∃ m, i ≤ m ∧ m < RFS_NINODES ∧ (dinodeAt rdev.blocks m).type = R_FREE) →
        d = some (dinodeAt rdev.blocks n) ∧ (dinodeAt rdev.blocks n).type = R_FREE) := by
  induction k generalizing i last rdev with
  | zero =>
    refine ⟨0, last, rdev, rfl, by decide, rfl, fun h => h.resolve_right (lt_irrefl 0), ?_⟩
    rintro ⟨m, h1, h2, -⟩
    omega
  | succ k ih =>
    have hi : i < RFS_NINODES := by omega
    rw [findFreeDinode, rfsReadDinode_eq hi, ok_bind]
    dsimp only
    split
    · rename_i hf
      exact ⟨i, _, _, rfl, hi, rfl, fun _ => Option.some_ne_none _, fun _ => ⟨rfl, hf⟩⟩
    · rename_i hf
      obtain ⟨n, d, rdev', hrun, hn, hb, hd, hfree⟩ := ih (some (dinodeAt rdev.blocks i))
        { rdev with iobuffer := rdev.blocks (i / INODES_PER_BLK + RFS_BLK_OFFSET_INODE) }
        (i := i + 1) (by omega)
      refine ⟨n, d, rdev', hrun, hn, hb, fun _ => hd (.inl (Option.some_ne_none _)), ?_⟩
      rintro ⟨m, h1, h2, h3⟩
      have hne : m ≠ i := by
        rintro rfl
        exact hf h3
      exact hfree ⟨m, by omega, h2, h3⟩

theorem Tree.On.exists_free (h : t.On v) (hs : t.Shape) :
    ∃ n, 0 ≤ n ∧ n < RFS_NINODES ∧ (dinodeAt v.dev.blocks n).type = R_FREE := by
  obtain ⟨n, hn, hnu⟩ := hs.exists_free
  refine ⟨n, Nat.zero_le _, hn, ?_⟩
  unfold Tree.InUse at hnu
  rw [h.disk, Volume.disk_of_lt hn] at hnu
  exact not_not.mp hnu

theorem Tree.On.allocDinode {type : Int} (h : t.On v) (hs : t.Shape)
    (hnb : v.sb.nblocks = RFS_NBLOCKS) (hkind : type = R_FILE ∨ type = R_DIR) (noMore : String) :
    allocDinode v type noMore = .error .noFreeBlock ∨
    ∃ m b : Nat, ∃ d v', allocDinode v type noMore = .ok ((m : Int), v') ∧ ¬ t.InUse m ∧
      m < RFS_NINODES ∧ NewInode d b ∧ d.type = type ∧ ¬ t.used b ∧
      v'.sb.nblocks = RFS_NBLOCKS ∧ (t.put m d d []).On v' := by
  obtain ⟨m, last, rdev, hfind, hm, hbl, -, hfound⟩ := findFreeDinode_spec none v.dev
    (Nat.zero_add RFS_NINODES)
  obtain ⟨rfl, hmf⟩ := hfound (h.exists_free hs)
  have hmu : ¬ t.InUse m := by
    rw [Tree.InUse, h.disk, Volume.disk_of_lt hm]
    exact not_not.mpr hmf
  cases hal : rfsAllocBlock v.sb with
  | error e =>
    left
    simp only [CabbagePKE.allocDinode, hfind, ok_bind, hal, error_bind, rfsAllocBlock_error hal]
  | ok r =>
    obtain ⟨r, sb'⟩ := r
    obtain ⟨b, rfl, hdata, hbfree, hnb', hmap⟩ := rfsAllocBlock_inv hnb hal
    have hold := dinodeAt_fits v.dev.blocks m
    let d : Dinode := ({ dinodeAt v.dev.blocks m with
      size := 0, type := type, nlinks := 1, blocks := 1 } : Dinode).setAddr 0 b
    have hfit0 : ∀ k : Nat, k < 2 ^ 31 → Fits32 (k : Int) := fun k hk => fits_natCast hk
    have hbfit : Fits32 (b : Int) := by
      apply fits_natCast
      have hb2 := hdata.2
      unfold RFS_BLK_OFFSET_FREE RFS_NBLOCKS at hb2
      omega
    have hd : NewInode d b := by
      refine ⟨hkind, rfl, rfl, rfl, ?_, hdata, hfit0 0 (by decide), ?_, hfit0 1 (by decide),
        hfit0 1 (by decide), fun i => ?_⟩
      · rw [Dinode.addr_setAddr (by decide), if_pos rfl]
      · rcases hkind with rfl | rfl
        · exact hfit0 0 (by decide)
        · exact hfit0 1 (by decide)
      · show Fits32 (if (i : Nat) = 0 then (b : Int) else (dinodeAt v.dev.blocks m).addrs i)
        split
        · exact hbfit
        · exact hold.addrs i
    obtain ⟨rdev', hwrite, hino, hdat⟩ := rfsWriteDinode_spec rdev d hm
    refine .inr ⟨m, b, d, { dev := rdev', sb := sb' }, ?_, hmu, hm, hd, rfl, ?_, hnb', ?_⟩
    · simp only [CabbagePKE.allocDinode, hfind, ok_bind, hal]
      rw [hwrite, ok_bind]
      rfl
    · rw [h.used]
      exact fun hu => hbfree hu.2
    · have hplain : (t.disk m).type ≠ R_DIR := fun hdir => hmu (Tree.inUse_of_dir hdir)
      obtain ⟨hdk, hen⟩ := h.putDinode { dev := rdev', sb := sb' } hs hm hplain
        (fun _ => rfl) (fun k => by rw [hino hd.fits k, hbl]) (fun c hc => by rw [hdat c hc, hbl]) rfl
      refine ⟨hdk.symm, ?_, ?_⟩
      · rw [hen, ← hs.plain m hplain]
        exact update_eq_self ..
      · funext c
        apply propext
        show t.used c ∨ d.Holds c ↔ IsData c ∧ SuperBlock.Used sb' c
        rw [h.used, hd.holds]
        constructor
        · rintro (⟨hc, hu⟩ | rfl)
          · refine ⟨hc, (used_update hdata.1 hc.1 hmap).mpr ?_⟩
            split
            · decide
            · exact hu
          · exact ⟨hdata, (used_update hdata.1 hdata.1 hmap).mpr (by simp)⟩
        · rintro ⟨hc, hu⟩
          rw [used_update hdata.1 hc.1 hmap] at hu
          by_cases hcb : c = b
          · exact .inr hcb
          · rw [if_neg hcb] at hu
            exact .inl ⟨hc, hu⟩

theorem freeDinodeBlocks_spec {k i : Nat} (sb : SuperBlock)
    (hdata : ∀ j, i ≤ j → j < i + k → j < DIRECT_BLKNUM ∧ ∃ b : Nat, d.addr j = b ∧ IsData b) :
    ∃ sb', freeDinodeBlocks d k i sb = .ok sb' ∧ sb'.nblocks = sb.nblocks ∧
      ∀ c, IsData c → (sb'.Used c ↔
        sb.Used c ∧ ¬ ∃ j, i ≤ j ∧ j < i + k ∧ d.addr j = (c : Int)) := by
  induction k generalizing i sb with
  | zero =>
    refine ⟨sb, rfl, rfl, fun c _ => ?_⟩
    constructor
    · refine fun hu => ⟨hu, ?_⟩
      rintro ⟨j, h1, h2, -⟩
      omega
    · exact fun h => h.1
  | succ k ih =>
    obtain ⟨hlt, b, hb, hbd⟩ := hdata i le_rfl (by omega)
    have hlt' : b < RFS_BLK_OFFSET_FREE + 1024 := hbd.2.trans_le (Nat.add_le_add_left (by decide) _)
    obtain ⟨sb', hrun, hnb, hused⟩ := ih (i := i + 1)
      { sb with freemap := update sb.freemap (b - RFS_BLK_OFFSET_FREE) 0 }
      (fun j h1 h2 => hdata j (by omega) (by omega))
    refine ⟨sb', ?_, hnb, fun c hc => ?_⟩
    · simp only [freeDinodeBlocks, addrAt_eq hlt, ok_bind, hb, rfsFreeBlock_eq hbd.1 hlt', hrun]
    · rw [hused c hc, used_update hbd.1 hc.1 rfl]
      by_cases hcb : c = b
      · subst hcb
        rw [if_pos rfl]
        constructor
        · rintro ⟨h0, -⟩
          exact absurd rfl h0
        · rintro ⟨-, hno⟩
          exact absurd ⟨i, le_rfl, by omega, hb⟩ hno
      · rw [if_neg hcb]
        apply and_congr_right
        intro _
        apply not_congr
        constructor
        · rintro ⟨j, h1, h2, hj⟩
          exact ⟨j, by omega, by omega, hj⟩
        · rintro ⟨j, h1, h2, hj⟩
          have hji : j ≠ i := by
            rintro rfl
            rw [hb] at hj
            exact hcb (Int.natCast_inj.mp hj).symm
          exact ⟨j, by omega, by omega, hj⟩

theorem Tree.On.releaseDinode (h : t.On v) (hok : t.Ok) (hm : (t.disk m).type = R_FILE) :
    ∃ sb', CabbagePKE.releaseDinode v.sb ((t.disk m).withLinks ((t.node m).nlinks - 1))
        = .ok (sb', (t.unlinkNode m).disk m) ∧ sb'.nblocks = v.sb.nblocks ∧
      ∀ b, (t.unlinkNode m).used b ↔ IsData b ∧ sb'.Used b := by
  have hino := hok.shape.inode m (Tree.inUse_of_file hm)
  have hused : ∀ b, t.used b ↔ IsData b ∧ v.sb.Used b := by
    intro b
    rw [h.used]
    rfl
  by_cases hone : (t.node m).nlinks = 1
  · have hnode : t.unlinkNode m = t.free m := if_pos hone
    have hzero : ((t.disk m).withLinks ((t.node m).nlinks - 1)).nlinks = 0 := by
      show (t.node m).nlinks - 1 = 0
      omega
    have hgrown := hino.grown
    have hle := hino.le
    obtain ⟨sb', hrun, hnb, hset⟩ := freeDinodeBlocks_spec
      (d := (t.disk m).withLinks ((t.node m).nlinks - 1)) (k := (t.disk m).blocks.toNat) (i := 0)
      v.sb (fun j _ hj => by
        obtain ⟨b, hb, hu⟩ := hino.data j (by omega)
        refine ⟨by omega, b, ?_, hok.shape.isData b hu⟩
        rw [← hb, hino.addrs j (by omega)]
        rfl)
    refine ⟨sb', ?_, hnb, ?_⟩
    · rw [CabbagePKE.releaseDinode, if_pos hzero]
      show (freeDinodeBlocks _ (t.disk m).blocks.toNat 0 v.sb >>= _) = _
      rw [hrun, hnode]
      simp only [Tree.free, update_self, Dinode.freed, Dinode.withLinks, hone]
      rfl
    · intro b
      rw [hnode]
      show t.used b ∧ ¬ (t.disk m).Holds b ↔ _
      rw [hused b, and_assoc]
      apply and_congr_right
      intro hb
      rw [hset b hb]
      apply and_congr_right
      intro _
      apply not_congr
      constructor
      · rintro ⟨i, hi, hib⟩
        exact ⟨i, Nat.zero_le _, by omega, hib⟩
      · rintro ⟨i, -, hi, hib⟩
        exact ⟨i, by omega, hib⟩
  · have hnode : t.unlinkNode m = t.put m ((t.disk m).withLinks ((t.node m).nlinks - 1))
        ((t.node m).withLinks ((t.node m).nlinks - 1)) [] := if_neg hone
    have hnz : ((t.disk m).withLinks ((t.node m).nlinks - 1)).nlinks ≠ 0 := by
      show (t.node m).nlinks - 1 ≠ 0
      omega
    refine ⟨v.sb, ?_, rfl, ?_⟩
    · rw [CabbagePKE.releaseDinode, if_neg hnz, hnode, Tree.put_disk_self]
    · intro b
      rw [hnode, ← hused b]
      constructor
      · rintro (hu | hb)
        · exact hu
        · exact hino.holds_used hb
      · exact .inl

/-! ## Writing to a file -/

theorem Tree.Ok.fileOk {f : Vinode} (h : t.Ok) (hon : t.On v) (hnb : v.sb.nblocks = RFS_NBLOCKS)
    (hm : t.InUse m) (hf : f.toDinode = t.node m) : FileOk v f.toDinode f.blocks.toNat := by
  have hok := h.shape.inode m hm
  have hpos := hok.pos
  have hgrown := hok.grown
  have hle := hok.le
  rw [← hf] at hgrown hle
  refine ⟨hnb, by omega, by omega, fun i hi => ?_, fun i j hi hj heq => ?_⟩
  · obtain ⟨b, hb, hu⟩ := hok.data i (by rw [← hf]; omega)
    rw [hon.used] at hu
    exact ⟨b, by rw [hf]; exact hb, hu.1, hu.2⟩
  · rw [hf] at heq
    exact hok.inj i j (by rw [← hf]; omega) (by rw [← hf]; omega) heq

section

variable {f f' : Vinode} {nb' : Nat} {g : Nat → UInt8}

theorem FileWrote.held (hw : FileWrote v f v' f' f.blocks.toNat nb' g) (hb : f'.Holds b) :
    f.Holds b ∨ ¬ v.sb.Used b := by
  obtain ⟨i, hi, hib⟩ := hb
  rw [hw.ok.blocks_eq] at hi
  by_cases hold : i < f.blocks.toNat
  · exact .inl ⟨i, by omega, by rw [← hw.addrs i hold, hib]⟩
  · exact .inr (hw.fresh i (by omega) (by omega) b hib)

theorem FileWrote.holds_data (hw : FileWrote v f v' f' f.blocks.toNat nb' g) (hb : f'.Holds b) :
    IsData b := by
  obtain ⟨i, hi, hib⟩ := hb
  rw [hw.ok.blocks_eq] at hi
  obtain ⟨c, hc, hd, -⟩ := hw.ok.data i (by omega)
  rw [hib] at hc
  exact Int.natCast_inj.mp hc ▸ hd

theorem FileWrote.block_eq (hw : FileWrote v f v' f' f.blocks.toNat nb' g) (hb : ¬ f'.Holds b) :
    v'.dev.blocks b = v.dev.blocks b := by
  apply hw.others
  intro i hi hib
  exact hb ⟨i, by rw [hw.ok.blocks_eq]; omega, hib⟩

theorem Tree.On.fileWrote (hon : t.On v) (size : Int) (h : t.Ok)
    (hm : (t.disk m).type = R_FILE) (hf : f.toDinode = t.node m)
    (hw : FileWrote v f v' f' f.blocks.toNat nb' g) :
    (t.write m (f'.toDinode.withSize size)).On v' := by
  have hin := Tree.inUse_of_file hm
  have hdisk : v'.disk = v.disk := by
    funext k
    unfold Volume.disk
    split
    · rename_i hk
      apply dinodeAt_congr hk
      intro c hc
      apply hw.block_eq
      intro hhold
      have hle := (hw.holds_data hhold).bitmap_le
      omega
    · rfl
  have hents : v'.ents = v.ents := by
    funext k
    unfold Volume.ents
    rw [hdisk]
    split
    · rename_i hk
      rw [← hon.disk] at hk ⊢
      obtain ⟨hc, -⟩ := hon.dirOk h.shape hk
      apply hc.congr
      intro i hi
      apply hw.block_eq
      -- the block of a directory is neither the file's nor free
      intro hhold
      have hkin := Tree.inUse_of_dir hk
      have hd := h.shape.dir k hk
      have hck : (t.node k).Holds ((t.disk k).block i) := by
        rw [hd.same]
        exact ⟨i, by rw [hc.count]; exact_mod_cast hi, hc.addr i hi⟩
      have hkm : k ≠ m := (Tree.file_ne_dir hm hk).symm
      rcases hw.held hhold with hfc | hfree
      · rw [hf] at hfc
        exact h.shape.apart k m hkin hin hkm _ hck hfc
      · have hu := (h.shape.inode k hkin).holds_used hck
        rw [hon.used] at hu
        exact hfree hu.2
    · rfl
  refine ⟨?_, ?_, ?_⟩
  · rw [hdisk, ← hon.disk]
    exact update_eq_self ..
  · rw [hents, ← hon.ents]
    show update t.ents m [] = t.ents
    rw [← h.shape.ents_file hm, update_eq_self]
  · funext c
    apply propext
    show t.used c ∨ f'.Holds c ↔ IsData c ∧ v'.sb.Used c
    rw [hon.used]
    constructor
    · rintro (⟨hc, hu⟩ | hc)
      · exact ⟨hc, (hw.used c hc).mpr (.inl hu)⟩
      · obtain ⟨i, hi, hic⟩ := hc
        rw [hw.ok.blocks_eq] at hi
        have hd := hw.holds_data ⟨i, by rw [hw.ok.blocks_eq]; exact hi, hic⟩
        exact ⟨hd, (hw.used c hd).mpr (.inr ⟨i, by omega, hic⟩)⟩
    · rintro ⟨hc, hu⟩
      rcases (hw.used c hc).mp hu with hu | ⟨i, hi, hic⟩
      · exact .inl ⟨hc, hu⟩
      · exact .inr ⟨i, by rw [hw.ok.blocks_eq]; omega, hic⟩

theorem Tree.Ok.fileWrote {size : Nat} (h : t.Ok) (hon : t.On v) (hm : (t.disk m).type = R_FILE)
    (hf : f.toDinode = t.node m) (hw : FileWrote v f v' f' f.blocks.toNat nb' g)
    (hsize : size ≤ RFS_BLKSIZE * nb') : (t.write m (f'.toDinode.withSize size)).Ok := by
  have hok := h.shape.inode m (Tree.inUse_of_file hm)
  have hblocks := hw.ok.blocks_eq
  have hle := hw.ok.le
  have hgrows := hw.grows
  have hgrown := hok.grown
  rw [← hf] at hgrown
  obtain ⟨addrs, hrest⟩ := hw.rest
  have htype : f'.type = f.type := by rw [hrest]
  have hlinks : f'.nlinks = f.nlinks := by rw [hrest]
  have hsizeLe : size ≤ RFS_BLKSIZE * DIRECT_BLKNUM := hsize.trans (Nat.mul_le_mul_left _ hle)
  apply h.write hm
  · refine ⟨hok.kind, ?_, ?_, hok.pos, ?_, ?_, ?_, ?_, ?_, ?_, ?_, ?_⟩
    · show f'.type = _
      rw [htype, hf, hok.type_eq]
    · show f'.nlinks = _
      rw [hlinks, hf, hok.nlinks_eq]
    · show _ ≤ f'.blocks
      omega
    · show f'.blocks ≤ _
      omega
    · intro i hi
      show f'.addr i = _
      rw [hw.addrs i (by omega), hf, hok.addrs i hi]
    · intro i hi
      obtain ⟨c, hc, -⟩ := hw.ok.data i (by rw [← Int.ofNat_lt, ← hblocks]; exact hi)
      exact ⟨c, hc, .inr ⟨i, hi, hc⟩⟩
    · intro i j hi hj heq
      exact hw.ok.inj i j (by rw [← Int.ofNat_lt, ← hblocks]; exact hi)
        (by rw [← Int.ofNat_lt, ← hblocks]; exact hj) heq
    · exact Int.natCast_nonneg _
    · show (size : Int) ≤ RFS_BLKSIZE * f'.blocks
      rw [hblocks]
      exact_mod_cast hsize
    · have hfits : f.toDinode.Fits := hf ▸ hok.fits
      refine ⟨fits_natCast ?_, ?_, ?_, ?_, hw.fits hfits.addrs⟩
      · exact hsizeLe.trans_lt (by decide)
      · show Fits32 f'.type
        rw [htype]
        exact hfits.type
      · show Fits32 f'.nlinks
        rw [hlinks]
        exact hfits.nlinks
      · show Fits32 f'.blocks
        rw [hblocks]
        exact fits_natCast (hle.trans_lt (by decide))
  · exact fun b hb => hw.holds_data hb
  · intro b hb hu
    rcases hw.held hb with hold | hfree
    · rwa [← hf]
    · rw [hon.used] at hu
      exact absurd hu.2 hfree

end

end

end CabbagePKE
