import CabbagePKE.Vfs.Lookup

/-!
# New names

`vfs_open` with `O_CREAT`, `vfs_mkdir` and `vfs_link` each add an entry to a
directory: the first two for a new inode, the last for one that has names.
Each is the operation of the tree, followed by filling the tables.
-/

namespace CabbagePKE

open Lib Function

section

variable {s s' : Vfs} {d p q n m up b : Nat} {name : Name} {v dir : Vinode} {dk : Dinode}

def Vinode.withSize (v : Vinode) (size : Int) : Vinode := { v with size := size }

/-- The state after the RAM disk changed and the directory at `p` has `k`
entries. -/
def Vfs.resized (s : Vfs) (vol : Volume) (p : Nat) (dir : Vinode) (k : Nat) : Vfs :=
  { s with rfs :=
    { vol := vol
      vinodes := update s.rfs.vinodes p (some (dir.withSize (DIRENTRY_SIZE * k : Nat)))
      nextVinode := s.rfs.nextVinode } }

theorem Vfs.resized_inum (s : Vfs) (hv : s.rfs.vinodes p = some dir) {vol : Volume} {k : Nat}
    (q : Nat) : ((s.resized vol p dir k).rfs.vinodes q).map (fun v => v.inum)
      = (s.rfs.vinodes q).map (fun v => v.inum) := by
  by_cases hq : q = p
  · subst hq
    simp [Vfs.resized, hv, Vinode.withSize]
  · simp [Vfs.resized, hq]

theorem Vfs.Sound.hash_of_free (h : s.Sound) (hm : ¬ s.tree.InUse m) : s.vinodeHash m = none := by
  by_contra hne
  obtain ⟨q, hq⟩ := Option.ne_none_iff_exists'.mp hne
  obtain ⟨v, hv, hvm⟩ := h.hashed m q hq
  exact hm (h.inUse hv hvm)

theorem Vfs.Sound.create {vol : Volume} (h : s.Sound) (hv : s.rfs.vinodes p = some dir)
    (hn : dir.inum = n) (hdir : (s.tree.disk n).type = R_DIR)
    (hroom : (s.tree.ents n).length < ONE_BLOCK_DIRENTRYS) (hname : NameOk name)
    (hmiss : s.tree.target n name = none) (hm : ¬ s.tree.InUse m) (hlt : m < RFS_NINODES)
    (hd : NewInode dk b) (hb : ¬ s.tree.used b) (hnb : vol.sb.nblocks = RFS_NBLOCKS)
    (hon : (s.tree.create n name m dk).On vol) :
    (s.resized vol p dir ((s.tree.ents n).length + 1)).Sound ∧
      (s.resized vol p dir ((s.tree.ents n).length + 1)).tree = s.tree.create n name m dk := by
  have hnm : n ≠ m := by
    rintro rfl
    exact hm (Tree.inUse_of_dir hdir)
  -- the directory as the tree has it after the entry was added
  have hnew : ((s.tree.put m dk dk []).node n).withSize (DIRENTRY_SIZE *
        ((s.tree.put m dk dk []).ents n ++ [(name, (m : Int))]).length : Nat)
      = (dir.withSize (DIRENTRY_SIZE * ((s.tree.ents n).length + 1) : Nat)).toDinode := by
    simp only [Tree.put, update_of_ne hnm, List.length_append, List.length_singleton]
    rw [h.node_eq hv hn]
    rfl
  have htree : (s.resized vol p dir ((s.tree.ents n).length + 1)).tree
      = s.tree.create n name m dk := by
    apply Tree.On.tree_eq (s := s.resized vol p dir ((s.tree.ents n).length + 1)) hon
    have hcache := h.cache_set (s.resized vol p dir ((s.tree.ents n).length + 1)) hv hn rfl rfl
    show _ = overlay _ vol.disk
    rw [hcache, overlay_update, ← hon.disk]
    show update (update s.tree.node m dk) n _
      = update (overlay s.cache (update (update s.tree.disk m dk) n _)) n _
    rw [overlay_store_cached (Vfs.cache_of_hash (h.hash_eq hv hn) hv),
      overlay_store_uncached (Vfs.cache_of_none (h.hash_of_free hm)), hnew]
    rfl
  have hok : (s.tree.create n name m dk).Ok := h.tree.create hdir hroom hname hm hlt hd hb
  have hdisk : ∀ k, k ≠ m → ((s.tree.create n name m dk).disk k).type = (s.tree.disk k).type := by
    intro k hk
    have hshape := h.tree.shape.newInode hm hlt hd hb
    have hp' : ((s.tree.put m dk dk []).disk n).type = R_DIR := by
      rw [Tree.put_disk_of_ne hnm, hdir]
    have hset := (hshape.disk_setEnts hp' (l := (s.tree.put m dk dk []).ents n ++ [(name, (m : Int))]) k).1
    rwa [Tree.put_disk_of_ne hk] at hset
  refine ⟨?_, htree⟩
  apply h.setVinode (s.resized vol p dir _) (Vfs.SameDentries.of_eq rfl rfl rfl) hnb (by rw [htree]; exact hok)
    le_rfl rfl
  · intro q
    by_cases hq : q = p
    · subst hq
      simp [Vfs.resized, hv, Vinode.withSize]
    · simp [Vfs.resized, hq]
  · intro k hk
    rw [htree]
    rwa [Tree.InUse, hdisk k (fun hkm => hm (hkm ▸ hk))]
  · intro d e _ up _ k j _ hj
    have hne : ¬ (k = n ∧ e.name = name) := by
      rintro ⟨rfl, hen⟩
      simp [hen, hmiss] at hj
    have hplain : s.tree.ents m = [] := h.tree.shape.plain m (fun hc => hm (Tree.inUse_of_dir hc))
    rwa [htree, Tree.create, Tree.target_put_addEntry hplain hmiss, if_neg hne]
  · intro d k hk hdir'
    obtain ⟨-, q, w, -, -, -, hw, hwk⟩ := Vfs.exists_of_inumOf hk
    rwa [htree, hdisk k (fun hkm => hm (hkm ▸ h.inUse hw hwk))] at hdir'
  · exact h.offsets

theorem Vfs.Sound.bindDentry (h : s.Sound) (hm : s.vinodeHash m = none) (hu : s.tree.InUse m)
    (hk : s.dentryHash (some up, name) = none) (hup : s.inumOf up = some (n : Int))
    (ht : s.tree.target n name = some (m : Int)) :
    ∃ s', CabbagePKE.bindDentry (s.pending name up (s.addVinode m).rfs) s.nextDentry
        s.rfs.nextVinode = .ok s' ∧ s'.Sound ∧ s'.rfs.vol = s.rfs.vol ∧
      ∃ e, s'.dentries s.nextDentry = some e := by
  have hs := h.addVinode hm hu
  have hv : (s.addVinode m).rfs.vinodes s.rfs.nextVinode
      = some { toDinode := s.rfs.vol.disk m, inum := m, ref := 0 } := update_self ..
  have hg := h.grows_addVinode hm
  refine ⟨(s.addVinode m).addDentry name up s.rfs.nextVinode
      { toDinode := s.rfs.vol.disk m, inum := m, ref := 0 }, ?_,
    hs.addDentry hv hk (hg.inumOf _ _ hup) (by rw [hg.tree, ht]), rfl, _, update_self ..⟩
  have hneg : ¬ ((m : Int) < 0) := by omega
  simp [CabbagePKE.bindDentry, pointDentry, Vfs.dentry, Vfs.pending, Vfs.setDentry, Vfs.addRef,
    Vfs.addVinode, Vfs.addDentry, Vfs.setVinode, Rfs.setVinode, Rfs.vinode, hashPutDentry, hk,
    hashPutVinode, hm, hneg]

/-- What `rfs_create` and `rfs_mkdir` do: they stop for want of a block, or
add an inode `m`, its entry and its vinode. -/
def Vfs.Creates (s : Vfs) (name : Name) (n : Nat) (x : Outcome (Option Nat × Rfs)) : Prop :=
  (∃ fmt args, x = .error (.panic fmt args)) ∨
    ∃ (m : Nat) (fs : Rfs), fs.nextVinode = s.rfs.nextVinode ∧ { s with rfs := fs }.Sound ∧
      { s with rfs := fs }.tree.InUse m ∧ s.vinodeHash m = none ∧
      { s with rfs := fs }.tree.target n name = some (m : Int) ∧
      (∀ d i, s.inumOf d = some i → { s with rfs := fs }.inumOf d = some i) ∧
      x = .ok (some s.rfs.nextVinode, ({ s with rfs := fs }.addVinode m).rfs)

def Vfs.Enters (s : Vfs) (name : Name) (n : Nat) (x : Outcome (Option Nat × Rfs)) : Prop :=
  ∀ r, x = .ok r → ∃ m : Nat,
    r.2.vol.ents = update s.tree.ents n (s.tree.ents n ++ [(name, (m : Int))])

/-- `make` is a function that does this in every directory with room. -/
def Vfs.Makes (s : Vfs) (name : Name) (make : Rfs → Nat → Name → Outcome (Option Nat × Rfs)) :
    Prop :=
  ∀ (p n : Nat) (dir : Vinode), s.rfs.vinodes p = some dir → dir.inum = n →
    (s.tree.disk n).type = R_DIR → (s.tree.ents n).length < ONE_BLOCK_DIRENTRYS → NameOk name →
    s.tree.target n name = none →
    s.Creates name n (make s.rfs p name) ∧ s.Enters name n (make s.rfs p name)

theorem Vfs.Sound.creates {x : Outcome (Option Nat × Rfs)} (h : s.Sound) (vol : Volume)
    (hv : s.rfs.vinodes p = some dir) (hn : dir.inum = n) (hdir : (s.tree.disk n).type = R_DIR)
    (hroom : (s.tree.ents n).length < ONE_BLOCK_DIRENTRYS) (hname : NameOk name)
    (hmiss : s.tree.target n name = none) (hm : ¬ s.tree.InUse m) (hlt : m < RFS_NINODES)
    (hd : NewInode dk b) (hb : ¬ s.tree.used b) (hnb : vol.sb.nblocks = RFS_NBLOCKS)
    (hon : (s.tree.create n name m dk).On vol)
    (hx : x = .ok (some s.rfs.nextVinode,
      ((s.resized vol p dir ((s.tree.ents n).length + 1)).addVinode m).rfs)) :
    s.Creates name n x ∧ s.Enters name n x := by
  obtain ⟨hs, htree⟩ := h.create hv hn hdir hroom hname hmiss hm hlt hd hb hnb hon
  have hplain : s.tree.ents m = [] := h.tree.shape.plain m (fun hc => hm (Tree.inUse_of_dir hc))
  refine ⟨.inr ⟨m, (s.resized vol p dir _).rfs, rfl, hs, ?_, h.hash_of_free hm, ?_, ?_, hx⟩, ?_⟩
  · show (s.resized vol p dir ((s.tree.ents n).length + 1)).tree.InUse m
    rw [htree]
    rw [Tree.InUse, Tree.create_disk hdir hm]
    rcases hd.kind with hk | hk
    · rw [hk]
      exact R_FILE_ne_R_FREE
    · rw [hk]
      exact R_DIR_ne_R_FREE
  · show (s.resized vol p dir ((s.tree.ents n).length + 1)).tree.target n name = _
    rw [htree, Tree.create, Tree.target_put_addEntry hplain hmiss, if_pos ⟨rfl, rfl⟩]
  · intro d i hi
    exact (congrFun (Vfs.inumOf_congr s (s.resized vol p dir ((s.tree.ents n).length + 1)) rfl
      (s.resized_inum hv)) d).trans hi
  · rintro r hr
    cases hx.symm.trans hr
    exact ⟨m, (congrArg Tree.ents htree).trans (Tree.ents_put_addEntry hplain)⟩

theorem Vfs.Sound.addDirentry_new {v' : Volume} (h : s.Sound) (fs : Rfs)
    (hv : s.rfs.vinodes p = some dir) (hn : dir.inum = n) (hdir : (s.tree.disk n).type = R_DIR)
    (hroom : (s.tree.ents n).length < ONE_BLOCK_DIRENTRYS) (hname : NameOk name)
    (hm : ¬ s.tree.InUse m) (hlt : m < RFS_NINODES) (hd : NewInode dk b) (hb : ¬ s.tree.used b)
    (hon : (s.tree.put m dk dk []).On v') (hbl : fs.vol.dev.blocks = v'.dev.blocks)
    (hsb : fs.vol.sb = v'.sb) (hp : fs.vinodes p = some dir) :
    ∃ rdev', addDirentry fs p name m = .ok (0, (fs.setDev rdev').setVinode p
        (dir.withSize (DIRENTRY_SIZE * ((s.tree.ents n).length + 1) : Nat))) ∧
      (s.tree.create n name m dk).On { dev := rdev', sb := v'.sb } := by
  have hnm : n ≠ m := by
    rintro rfl
    exact hm (Tree.inUse_of_dir hdir)
  have hdn : dir.toDinode = (s.tree.put m dk dk []).disk n := by
    rw [Tree.put_disk_of_ne hnm, ← h.node_eq hv hn]
    exact (h.tree.shape.dir n hdir).same
  have hents : (s.tree.put m dk dk []).ents n = s.tree.ents n := by simp [Tree.put, hnm]
  have hon' : (s.tree.put m dk dk []).On fs.vol := hon.read hbl hsb
  have hadd := Tree.On.addDirentry fs hon' (h.tree.shape.newInode hm hlt hd hb) hp hdn hn
    (by rw [Tree.put_disk_of_ne hnm, hdir]) (by rw [hents]; exact hroom) hname hlt
  rwa [hents, hsb] at hadd

theorem Vfs.Sound.rfsCreate (h : s.Sound) : s.Makes name CabbagePKE.rfsCreate := by
  intro p n dir hv hn hdir hroom hname hmiss
  have hvin : s.rfs.vinode p = .ok dir := by rw [Rfs.vinode, hv]
  have hpne : p ≠ s.rfs.nextVinode := by
    rintro rfl
    simp [h.freshVinode _ le_rfl] at hv
  rw [CabbagePKE.rfsCreate, hvin, ok_bind]
  rcases s.tree_on.allocDinode h.tree.shape h.nblocks (.inl rfl)
    "rfs_create: no more free disk inode, we cannot create file.\n"
    with herr | ⟨m, b, dk, v', hrun, hm, hlt, hd, -, hb, hnb, hon⟩
  · rw [herr]
    exact ⟨.inl ⟨_, _, rfl⟩, fun r hr => by cases hr⟩
  · obtain ⟨rdev, hload, hbl⟩ := loadVinode_eq { s.rfs with vol := v' } hlt
    obtain ⟨rdev', hadd, hon'⟩ := h.addDirentry_new (Rfs.loaded { s.rfs with vol := v' } rdev m)
      hv hn hdir hroom hname hm hlt hd hb hon hbl rfl (by
        simp only [Rfs.loaded, update_of_ne hpne]
        exact hv)
    apply h.creates { dev := rdev', sb := v'.sb } hv hn hdir hroom hname hmiss hm hlt hd hb hnb hon'
    rw [hrun, ok_bind]
    dsimp only
    rw [hload, ok_bind]
    rw [hadd, ok_bind]
    -- the vinode holds the same inode, read before or after the entry is added
    have hdk : v'.disk m = Volume.disk { dev := rdev', sb := v'.sb } m := by
      rw [← hon.disk, ← hon'.disk, Tree.put_disk_self, Tree.create_disk hdir hm]
    simp only [Rfs.loaded, Rfs.setDev, Rfs.setVinode, Vfs.resized, Vfs.addVinode, hdk,
      update_comm hpne]
    rfl

theorem Vfs.Sound.rfsMkdir (h : s.Sound) : s.Makes name CabbagePKE.rfsMkdir := by
  intro p n dir hv hn hdir hroom hname hmiss
  have hvin : s.rfs.vinode p = .ok dir := by rw [Rfs.vinode, hv]
  rw [CabbagePKE.rfsMkdir, hvin, ok_bind]
  rcases s.tree_on.allocDinode h.tree.shape h.nblocks (.inr rfl)
    "rfs_mkdir: no more free disk inode, we cannot create directory.\n"
    with herr | ⟨m, b, dk, v', hrun, hm, hlt, hd, -, hb, hnb, hon⟩
  · rw [herr]
    exact ⟨.inl ⟨_, _, rfl⟩, fun r hr => by cases hr⟩
  · obtain ⟨rdev', hadd, hon'⟩ := h.addDirentry_new { s.rfs with vol := v' } hv hn hdir hroom hname
      hm hlt hd hb hon rfl rfl hv
    obtain ⟨rdev, hload, hbl⟩ := loadVinode_eq ((Rfs.setDev { s.rfs with vol := v' } rdev').setVinode p
      (dir.withSize (DIRENTRY_SIZE * ((s.tree.ents n).length + 1) : Nat))) hlt
    apply h.creates { dev := rdev, sb := v'.sb } hv hn hdir hroom hname hmiss hm hlt hd hb hnb
      (hon'.read hbl rfl)
    have hdk : Volume.disk { dev := rdev, sb := v'.sb } = Volume.disk { dev := rdev', sb := v'.sb } :=
      Volume.disk_congr hbl
    rw [hrun, ok_bind]
    dsimp only
    rw [hadd, ok_bind]
    dsimp only
    rw [if_neg (by decide), hload, ok_bind]
    simp only [Rfs.loaded, Rfs.setDev, Rfs.setVinode, Vfs.resized, Vfs.addVinode, hdk]
    rfl

end

/-! ## Links -/

section

variable {s : Vfs} {d p q n m up : Nat} {name : Name} {v dir node : Vinode}

def Vinode.withLinks (v : Vinode) (nlinks : Int) : Vinode := { v with nlinks := nlinks }

theorem Vinode.ne_of_inum {vinodes : Nat → Option Vinode} (hp : vinodes p = some dir)
    (hq : vinodes q = some node) (hn : dir.inum = n) (hm : node.inum = m) (hmn : m ≠ n) :
    p ≠ q := by
  rintro rfl
  cases hp.symm.trans hq
  exact hmn (Int.natCast_inj.mp (hm.symm.trans hn))

theorem Vfs.Sound.rfsLink (h : s.Sound) (fs : Rfs) (hvol : fs.vol = s.rfs.vol)
    (hp : fs.vinodes p = some dir) (hn : dir.inum = n) (hdn : dir.toDinode = s.tree.disk n)
    (hdir : (s.tree.disk n).type = R_DIR)
    (hroom : (s.tree.ents n).length < ONE_BLOCK_DIRENTRYS) (hname : NameOk name)
    (hq : fs.vinodes q = some node) (hm : node.inum = m) (hmn : node.toDinode = s.tree.node m)
    (hfile : (s.tree.disk m).type = R_FILE) :
    ∃ rdev', CabbagePKE.rfsLink fs p name q = .ok (0,
        { vol := { dev := rdev', sb := s.rfs.vol.sb }
          vinodes := update (update fs.vinodes q (some (node.withLinks (node.nlinks + 1)))) p
            (some (dir.withSize (DIRENTRY_SIZE * ((s.tree.ents n).length + 1) : Nat)))
          nextVinode := fs.nextVinode }) ∧
      (s.tree.link n name m).On { dev := rdev', sb := s.rfs.vol.sb } := by
  have hin := Tree.inUse_of_file hfile
  have hok := h.tree.shape.inode m hin
  have hlt := h.tree.shape.lt m hin
  have hnm : m ≠ n := Tree.file_ne_dir hfile hdir
  have hpq : p ≠ q := Vinode.ne_of_inum hp hq hn hm hnm
  have hfits := h.tree.fits_nlinks_succ hfile
  have hwrap : wrap32 (node.nlinks + 1) = node.nlinks + 1 := by
    apply wrap32_of_fits
    rwa [hmn]
  -- the entry
  have hp1 : (fs.setVinode q (node.withLinks (node.nlinks + 1))).vinodes p = some dir := by
    simp only [Rfs.setVinode, update_of_ne hpq]
    exact hp
  obtain ⟨rdev1, hadd, hon1⟩ := Tree.On.addDirentry
    (fs.setVinode q (node.withLinks (node.nlinks + 1))) (hvol ▸ s.tree_on) h.tree.shape hp1 hdn hn
    hdir hroom hname hlt
  -- the inode is written back
  have hlist := h.tree.shape.dir n hdir
  have hshape : (s.tree.addEntry n name m).Shape := by
    apply h.tree.shape.setEnts hdir
    · rwa [List.length_append]
    · exact hlist.names_append hname
  have hdm : (s.tree.addEntry n name m).disk m = s.tree.disk m := by
    simp [Tree.addEntry, Tree.setEnts, Tree.put, hnm]
  have hne := R_FILE_ne_R_DIR
  have htype : (node.withLinks (node.nlinks + 1)).type = R_FILE := by
    show node.type = R_FILE
    rw [hmn, hok.type_eq, hfile]
  have hnfits : (node.withLinks (node.nlinks + 1)).toDinode.Fits := by
    show (node.toDinode.withLinks (node.toDinode.nlinks + 1)).Fits
    rw [hmn]
    exact { hok.fits with nlinks := hfits }
  obtain ⟨rdev2, hback, hon2⟩ := hon1.rfsWriteDinode hshape hlt (by rw [hdm, hfile]; exact hne)
    (by rw [htype]; exact hne) hnfits rdev1 rfl
  refine ⟨rdev2, ?_, ?_⟩
  · have hvin : fs.vinode q = .ok node := by rw [Rfs.vinode, hq]
    have hq2 : (((fs.setVinode q (node.withLinks (node.nlinks + 1))).setDev rdev1).setVinode p
        (dir.withSize (DIRENTRY_SIZE * ((s.tree.ents n).length + 1) : Nat))).vinode q
        = .ok (node.withLinks (node.nlinks + 1)) := by
      simp [Rfs.vinode, Rfs.setVinode, Rfs.setDev, Ne.symm hpq]
    rw [CabbagePKE.rfsLink, hvin, ok_bind, hwrap]
    show (addDirentry (fs.setVinode q (node.withLinks (node.nlinks + 1))) p name node.inum >>= _)
      = _
    rw [hm, hadd, ok_bind]
    show (Rfs.vinode (((fs.setVinode q (node.withLinks (node.nlinks + 1))).setDev rdev1).setVinode p
      (dir.withSize (DIRENTRY_SIZE * ((s.tree.ents n).length + 1) : Nat))) q >>= _) = _
    rw [hq2, ok_bind, rfsWriteBackVinode]
    show (CabbagePKE.rfsWriteDinode rdev1 _ node.inum >>= _) = _
    rw [hm, hback, ok_bind, ← hvol]
    rfl
  · have hents := h.tree.shape.ents_file hfile
    have hnode : (node.withLinks (node.nlinks + 1)).toDinode
        = (s.tree.node m).withLinks ((s.tree.node m).nlinks + 1) := by
      rw [← hmn]
      rfl
    rw [← hvol]
    refine hon2.congr ?_ ?_ ?_
    · rw [hnode]
      simp only [Tree.link, Tree.addEntry, Tree.setEnts, Tree.put, update_of_ne (Ne.symm hnm)]
      rw [update_comm hnm]
    · simp only [Tree.link, Tree.addEntry, Tree.setEnts, Tree.put, ← hents, update_eq_self]
    · intro c
      simp only [Tree.link, Tree.addEntry, Tree.setEnts, Tree.put, update_of_ne (Ne.symm hnm)]
      constructor
      · rintro ((hu | hc) | hc)
        · exact .inl hu
        · exact .inl (hok.holds_used hc)
        · exact .inr hc
      · rintro (hu | hc)
        · exact .inl (.inl hu)
        · exact .inr hc

/-- The state after the RAM disk changed, the vinode at `q` is `node`, and the
directory at `p` has `k` entries. -/
def Vfs.relinked (s : Vfs) (vol : Volume) (q : Nat) (node : Vinode) (p : Nat) (dir : Vinode)
    (k : Nat) : Vfs :=
  Vfs.resized { s with rfs := s.rfs.setVinode q node } vol p dir k

theorem Vfs.relinked_inum (s : Vfs) (node : Vinode) (hp : s.rfs.vinodes p = some dir)
    (hq : s.rfs.vinodes q = some v) (hpq : p ≠ q) (hnode : node.inum = v.inum) {vol : Volume}
    {k : Nat} (j : Nat) : ((s.relinked vol q node p dir k).rfs.vinodes j).map (fun v => v.inum)
      = (s.rfs.vinodes j).map (fun v => v.inum) := by
  have hp' : (s.rfs.setVinode q node).vinodes p = some dir := by
    simp only [Rfs.setVinode, update_of_ne hpq]
    exact hp
  refine (Vfs.resized_inum { s with rfs := s.rfs.setVinode q node } hp' j).trans ?_
  by_cases hj : j = q
  · subst hj
    simp [Rfs.setVinode, hq, hnode]
  · simp [Rfs.setVinode, hj]

theorem Vfs.Sound.cache_relinked (h : s.Sound) (vol : Volume) (hp : s.rfs.vinodes p = some dir)
    (hn : dir.inum = n) (hq : s.rfs.vinodes q = some v) (hm : v.inum = m)
    (hnode : node.inum = m) (k : Nat) :
    (s.relinked vol q node p dir k).cache = update (update s.cache m (some node.toDinode)) n
      (some (dir.toDinode.withSize (DIRENTRY_SIZE * k : Nat))) := by
  have hset := h.cache_set { s with rfs := s.rfs.setVinode q node } hq hm rfl rfl
  rw [← hset]
  apply Vfs.cache_set { s with rfs := s.rfs.setVinode q node } (s.relinked vol q node p dir k)
    _ (h.hash_eq hp hn) rfl rfl
  intro i j hij
  obtain ⟨w, hw, hwi⟩ := h.hashed i j hij
  by_cases hj : j = q
  · subst hj
    cases hq.symm.trans hw
    exact ⟨node, by simp [Rfs.setVinode], by rw [hnode, ← hwi, hm]⟩
  · exact ⟨w, by simp only [Rfs.setVinode, update_of_ne hj]; exact hw, hwi⟩

theorem Vfs.Sound.relinked (h : s.Sound) (vol : Volume) (t : Tree) (node : Vinode) {k : Nat}
    {dk dn : Dinode}
    (hp : s.rfs.vinodes p = some dir) (hn : dir.inum = n) (hq : s.rfs.vinodes q = some v)
    (hm : v.inum = m) (hmn : m ≠ n) (hnode : node.inum = m) (href : node.ref = v.ref)
    (hon : t.On vol) (hok : t.Ok) (hnb : vol.sb.nblocks = RFS_NBLOCKS)
    (hdisk : t.disk = update (update s.tree.disk m dk) n dn)
    (hnodes : t.node = update (update s.tree.node m node.toDinode) n
      (dir.toDinode.withSize (DIRENTRY_SIZE * k : Nat)))
    (hdk : dk.type = (s.tree.disk m).type) (hdn : dn.type = (s.tree.disk n).type)
    (htarget : ∀ d e, s.dentries d = some e → ∀ up, e.parent = some up →
      ∀ n m : Nat, s.inumOf up = some (n : Int) → s.tree.target n e.name = some (m : Int) →
        t.target n e.name = some (m : Int)) :
    (s.relinked vol q node p dir k).Sound ∧ (s.relinked vol q node p dir k).tree = t := by
  have hcm := Vfs.cache_of_hash (h.hash_eq hq hm) hq
  have hcn := Vfs.cache_of_hash (h.hash_eq hp hn) hp
  have htree : (s.relinked vol q node p dir k).tree = t := by
    apply Tree.On.tree_eq (s := s.relinked vol q node p dir k) hon
    rw [h.cache_relinked vol hp hn hq hm hnode, overlay_update, overlay_update]
    show _ = update (update (overlay s.cache vol.disk) m _) n _
    rw [← hon.disk, hdisk, overlay_store_cached hcn, overlay_store_cached hcm, hnodes]
    rfl
  have htype : ∀ j, (t.disk j).type = (s.tree.disk j).type := by
    intro j
    rw [hdisk]
    by_cases hjn : j = n
    · subst hjn
      rw [update_self, hdn]
    · rw [update_of_ne hjn]
      by_cases hjm : j = m
      · subst hjm
        rw [update_self, hdk]
      · rw [update_of_ne hjm]
  refine ⟨?_, htree⟩
  apply h.setVinode (s.relinked vol q node p dir k) (Vfs.SameDentries.of_eq rfl rfl rfl) hnb
    (by rw [htree]; exact hok) le_rfl rfl
  · intro j
    by_cases hjp : j = p
    · subst hjp
      simp [Vfs.relinked, Vfs.resized, hp, Vinode.withSize]
    · by_cases hjq : j = q
      · subst hjq
        simp [Vfs.relinked, Vfs.resized, Rfs.setVinode, hjp, hq, hnode, hm, href]
      · simp [Vfs.relinked, Vfs.resized, Rfs.setVinode, hjp, hjq]
  · intro j hj
    rw [htree]
    rwa [Tree.InUse, htype]
  · rwa [htree]
  · intro d j _ hj
    rwa [htree, htype] at hj
  · exact h.offsets

theorem Vfs.Sound.link (h : s.Sound) (vol : Volume) (hp : s.rfs.vinodes p = some dir)
    (hn : dir.inum = n) (hdir : (s.tree.disk n).type = R_DIR)
    (hroom : (s.tree.ents n).length < ONE_BLOCK_DIRENTRYS) (hname : NameOk name)
    (hmiss : s.tree.target n name = none) (hq : s.rfs.vinodes q = some node)
    (hm : node.inum = m) (hfile : (s.tree.disk m).type = R_FILE)
    (hnb : vol.sb.nblocks = RFS_NBLOCKS) (hon : (s.tree.link n name m).On vol) :
    (s.relinked vol q (node.withLinks (node.nlinks + 1)) p dir ((s.tree.ents n).length + 1)).Sound ∧
      (s.relinked vol q (node.withLinks (node.nlinks + 1)) p dir
        ((s.tree.ents n).length + 1)).tree = s.tree.link n name m := by
  have hmn : m ≠ n := Tree.file_ne_dir hfile hdir
  have hnn := h.node_eq hp hn
  have hnm := h.node_eq hq hm
  have hents := h.tree.shape.ents_file hfile
  apply h.relinked vol (s.tree.link n name m) (node.withLinks (node.nlinks + 1)) hp hn hq hm hmn hm
    rfl hon (h.tree.link hdir hroom hname hfile) hnb rfl
  · simp only [Tree.link, Tree.addEntry, Tree.setEnts, Tree.put,
      update_of_ne (Ne.symm hmn), List.length_append, List.length_singleton]
    rw [hnn, hnm]
    rfl
  · exact (h.tree.shape.inode m (Tree.inUse_of_file hfile)).type_eq
  · simp only [Tree.put, update_of_ne (Ne.symm hmn)]
    exact (h.tree.shape.inode n (Tree.inUse_of_dir hdir)).type_eq
  · intro d e _ up _ k j _ hj
    have hne : ¬ (k = n ∧ e.name = name) := by
      rintro ⟨rfl, hen⟩
      simp [hen, hmiss] at hj
    rwa [Tree.link, Tree.target_put_addEntry hents hmiss, if_neg hne]

end

/-! ## The operations -/

def Vfs.hasRoom (s : Vfs) (d : Nat) : Bool :=
  match (s.points d).bind s.rfs.vinodes with
  | some v => v.size < RFS_BLKSIZE * v.blocks
  | none => true

/-- The name that was missed fits into an entry, and its directory has room
for it. -/
def Vfs.adds (s : Vfs) (l : Lookup) : Bool :=
  match l.missName with
  | some name => decide (name.length < RFS_MAX_FILE_NAME_LEN) && s.hasRoom l.parent
  | none => true

section

variable {s : Vfs} {l : Lookup} {path : Path} {d n flags old cwd : Nat} {name : Name}

theorem yields_missesBaseName {bad : Halt → Prop} [Halt.Spares bad] (l : Lookup) (path : Path) :
    Yields bad (missesBaseName l path)
      (fun r => ∀ name, r = some name →
        l.missName = some name ∧ (tokens path.bytes).getLast? = some name) := by
  unfold missesBaseName getBaseName
  cases (tokens path.bytes).getLast? with
  | none => exact yields_access .undefined
  | some base =>
    rw [ok_bind]
    cases hmiss : l.missName with
    | none => exact yields_access .undefined
    | some miss =>
      refine .of_ok fun name hname => ?_
      split at hname
      · rename_i heq
        rw [heq]
        exact ⟨hname, hname⟩
      · cases hname

theorem Vfs.Sound.room (h : s.Sound) (hn : s.inumOf d = some (n : Int))
    (hdir : (s.tree.disk n).type = R_DIR) (hr : s.hasRoom d = true) :
    (s.tree.ents n).length < ONE_BLOCK_DIRENTRYS := by
  obtain ⟨e, q, v, -, -, hq, hv, hvn⟩ := Vfs.exists_of_inumOf hn
  have hshape := h.tree.shape.dir n hdir
  have hvd : v.toDinode = s.tree.disk n := (h.node_eq hv hvn).symm.trans hshape.same
  have hlt : v.size < RFS_BLKSIZE * v.blocks := by simpa [Vfs.hasRoom, hq, hv] using hr
  rw [hvd, hshape.size, hshape.one] at hlt
  unfold DIRENTRY_SIZE RFS_BLKSIZE at hlt
  unfold ONE_BLOCK_DIRENTRYS
  omega

theorem Vfs.Sound.of_adds (h : s.Sound) (hl : s.Found l) (hnone : l.found = none)
    (hadd : s.adds l = true) (hmiss : l.missName = some name) :
    ∃ n e p dir, s.Misses l.parent name n ∧ NameOk name ∧ s.dentries l.parent = some e ∧
      e.inode = .rfs p ∧ s.rfs.vinodes p = some dir ∧ dir.inum = n ∧
      dir.toDinode = s.tree.disk n ∧ (s.tree.ents n).length < ONE_BLOCK_DIRENTRYS := by
  rw [Vfs.Found, hnone] at hl
  obtain ⟨h0, n, hn⟩ := hl name hmiss
  rw [Vfs.adds, hmiss, Bool.and_eq_true, decide_eq_true_eq] at hadd
  obtain ⟨e, p, dir, hd, he, hp, hpn, hpd⟩ := h.dirVinode hn.1 hn.2.1
  exact ⟨n, e, p, dir, hn, ⟨hadd.1, h0⟩, hd, he, hp, hpn, hpd, h.room hn.1 hn.2.1 hadd.2⟩

/-- The directory at dentry `d` has one more entry, called `name`. -/
def Vfs.AddsEntry (s s' : Vfs) (d : Nat) (name : Name) : Prop :=
  ∃ n m : Nat, s.inumOf d = some (n : Int) ∧ (s.tree.disk n).type = R_DIR ∧
    s'.tree.ents = update s.tree.ents n (s.tree.ents n ++ [(name, (m : Int))])

theorem Vfs.Sound.makes {make : Rfs → Nat → Name → Outcome (Option Nat × Rfs)} (h : s.Sound)
    (hl : s.Found l) (hnone : l.found = none) (hadd : s.adds l = true)
    (hmiss : l.missName = some name) (hmake : s.Makes name make) :
    ∃ p, (allocVfsDentry s name (some l.parent)).2.rfsInode l.parent = .ok p ∧
      ((∃ fmt args, make s.rfs p name = .error (.panic fmt args)) ∨
        ∃ q fs s', make s.rfs p name = .ok (some q, fs) ∧
          CabbagePKE.bindDentry (s.pending name l.parent fs) s.nextDentry q = .ok s' ∧ s'.Sound ∧
          (∃ e, s'.dentries s.nextDentry = some e) ∧ s.AddsEntry s' l.parent name) := by
  obtain ⟨n, e, p, dir, hn, hname, hd, he, hp, hpn, -, hroom⟩ := h.of_adds hl hnone hadd hmiss
  obtain ⟨hcr, hent⟩ := hmake p n dir hp hpn hn.2.1 hroom hname hn.2.2.2
  refine ⟨p, h.pending_rfsInode hd he s.rfs, ?_⟩
  rcases hcr with herr | ⟨m, fs, hnext, hs, hu, hh, ht, hin, hx⟩
  · exact .inl herr
  · obtain ⟨s', hbind, hs', hvol, hsome⟩ := hs.bindDentry hh hu hn.2.2.1 (hin _ _ hn.1) ht
    obtain ⟨m', hm'⟩ := hent _ hx
    refine .inr ⟨s.rfs.nextVinode, _, s', hx, ?_, hs', hsome, n, m', hn.1, hn.2.1,
      (congrArg Volume.ents hvol).trans hm'⟩
    rwa [← hnext]

theorem Vfs.Sound.openMissing (h : s.Sound) (hl : s.Found l) (hnone : l.found = none)
    (hadd : flags &&& O_CREAT = 0 ∨ s.adds l = true) :
    Yields Halt.Asserts (CabbagePKE.openMissing s path flags l)
      (fun r => r.2.Sound ∧ (∀ d, r.1 = some d → ∃ e, r.2.dentries d = some e) ∧
        (r.2 = s ∨ ∃ name, l.missName = some name ∧ (tokens path.bytes).getLast? = some name ∧
          s.AddsEntry r.2 l.parent name)) := by
  unfold CabbagePKE.openMissing
  split
  · exact .of_ok ⟨h, fun d hd => (by cases hd), .inl rfl⟩
  rename_i hflag
  refine (yields_missesBaseName l path).bind fun r hr => ?_
  cases r with
  | none => exact .of_ok ⟨h, fun d hd => (by cases hd), .inl rfl⟩
  | some basename =>
    obtain ⟨hmiss, hlast⟩ := hr basename rfl
    obtain ⟨p, hin, hmade⟩ := h.makes hl hnone (hadd.resolve_left hflag) hmiss h.rfsCreate
    dsimp only
    rw [hin, ok_bind]
    show Yields _ (CabbagePKE.rfsCreate s.rfs p basename >>= _) _
    rcases hmade with ⟨fmt, args, herr⟩ | ⟨q, fs, s', hrun, hbind, hs', hsome, hadds⟩
    · rw [herr]
      exact .of_error not_false
    · rw [hrun, ok_bind]
      show Yields _ (CabbagePKE.bindDentry (s.pending basename l.parent fs) s.nextDentry q >>= _) _
      rw [hbind, ok_bind]
      refine .of_ok ⟨hs', ?_, .inr ⟨basename, hmiss, hlast, hadds⟩⟩
      rintro d ⟨⟩
      exact hsome

theorem Vfs.Sound.mkdirMissing (h : s.Sound) (hl : s.Found l) (hnone : l.found = none)
    (hadd : s.adds l = true) :
    Yields Halt.Asserts (CabbagePKE.mkdirMissing s path l) (fun r => r.2.Sound ∧
      (r = (-1, s) ∨ r.1 = 0 ∧ ∃ name, l.missName = some name ∧
        (tokens path.bytes).getLast? = some name ∧ s.AddsEntry r.2 l.parent name)) := by
  refine (yields_missesBaseName l path).bind fun r hr => ?_
  cases r with
  | none => exact .of_ok ⟨h, .inl rfl⟩
  | some basename =>
    obtain ⟨hmiss, hlast⟩ := hr basename rfl
    obtain ⟨p, hin, hmade⟩ := h.makes hl hnone hadd hmiss h.rfsMkdir
    dsimp only
    rw [hin, ok_bind]
    show Yields _ (CabbagePKE.rfsMkdir s.rfs p basename >>= _) _
    rcases hmade with ⟨fmt, args, herr⟩ | ⟨q, fs, s', hrun, hbind, hs', -, hadds⟩
    · rw [herr]
      exact .of_error not_false
    · rw [hrun, ok_bind]
      show Yields _ (CabbagePKE.bindDentry (s.pending basename l.parent fs) s.nextDentry q >>= _) _
      rw [hbind, ok_bind]
      exact .of_ok ⟨hs', .inr ⟨rfl, basename, hmiss, hlast, hadds⟩⟩

/-- `s'` is `s` with a link `name` to inode `m` in directory `n`, at dentry `up`. -/
structure Vfs.Linked (s s' : Vfs) (up : Nat) (name : Name) (n m : Nat) : Prop where
  sound : s'.Sound
  dentries : ∀ d e, s.dentries d = some e → s'.dentries d = some e
  hash : s'.dentryHash (some up, name) = some s.nextDentry
  inum : s'.inumOf s.nextDentry = some (m : Int)
  ents : s'.tree.ents = update s.tree.ents n (s.tree.ents n ++ [(name, (m : Int))])

theorem Vfs.Sound.linkDentry {e : Dentry} {p q n m : Nat} {dir node : Vinode} (h : s.Sound)
    (hn : s.Misses cwd name n) (hname : NameOk name) (hd : s.dentries cwd = some e)
    (he : e.inode = .rfs p) (hp : s.rfs.vinodes p = some dir) (hpn : dir.inum = n)
    (hroom : (s.tree.ents n).length < ONE_BLOCK_DIRENTRYS) (hq : s.rfs.vinodes q = some node)
    (hm : node.inum = m) (hfile : (s.tree.disk m).type = R_FILE) :
    ∃ s1 fs s', pointDentry (s.pending name cwd s.rfs) s.nextDentry q = .ok s1 ∧
      s1.rfsInode cwd = .ok p ∧ CabbagePKE.rfsLink s1.rfs p name q = .ok (0, fs) ∧
      hashPutDentry { s1 with rfs := fs } s.nextDentry = .ok s' ∧ s.Linked s' cwd name n m := by
  obtain ⟨hup, hdir, hk, hmiss⟩ := hn
  have hmn : m ≠ n := Tree.file_ne_dir hfile hdir
  have hpq : p ≠ q := Vinode.ne_of_inum hp hq hpn hm hmn
  have hne : cwd ≠ s.nextDentry := Nat.ne_of_lt (h.lt_of_live hd)
  -- the dentry points to the vinode before the link is made
  have hpoint : pointDentry (s.pending name cwd s.rfs) s.nextDentry q = .ok { s with
          rfs := s.rfs.setVinode q { node with ref := node.ref + 1 }
          dentries := update s.dentries s.nextDentry
            (some { name := name, dRef := 0, inode := .rfs q, parent := some cwd })
          nextDentry := s.nextDentry + 1 } := by
    simp [pointDentry, Vfs.dentry, Vfs.pending, Vfs.setDentry, Vfs.addRef, Rfs.vinode, hq,
      Vfs.setVinode]
  have hp' : (s.rfs.setVinode q { node with ref := node.ref + 1 }).vinodes p = some dir := by
    simp only [Rfs.setVinode, update_of_ne hpq]
    exact hp
  have hq' : (s.rfs.setVinode q { node with ref := node.ref + 1 }).vinodes q
      = some { node with ref := node.ref + 1 } := update_self ..
  have hpd : dir.toDinode = s.tree.disk n :=
    (h.node_eq hp hpn).symm.trans (h.tree.shape.dir n hdir).same
  obtain ⟨rdev', hlink, hon⟩ := h.rfsLink (s.rfs.setVinode q { node with ref := node.ref + 1 }) rfl
    hp' hpn hpd hdir hroom hname hq' hm (h.node_eq hq hm).symm hfile
  obtain ⟨hs1, htree⟩ := h.link { dev := rdev', sb := s.rfs.vol.sb } hp hpn hdir hroom hname hmiss
    hq hm hfile h.nblocks hon
  have hq1 : (s.relinked { dev := rdev', sb := s.rfs.vol.sb } q (node.withLinks (node.nlinks + 1))
      p dir ((s.tree.ents n).length + 1)).rfs.vinodes q
      = some (node.withLinks (node.nlinks + 1)) := by
    simp [Vfs.relinked, Vfs.resized, Rfs.setVinode, Ne.symm hpq]
  have hup1 : (s.relinked { dev := rdev', sb := s.rfs.vol.sb } q (node.withLinks (node.nlinks + 1))
      p dir ((s.tree.ents n).length + 1)).inumOf cwd = some (n : Int) :=
    (congrFun (Vfs.inumOf_congr s (s.relinked { dev := rdev', sb := s.rfs.vol.sb } q
      (node.withLinks (node.nlinks + 1)) p dir ((s.tree.ents n).length + 1)) rfl
      (s.relinked_inum (node.withLinks (node.nlinks + 1)) hp hq hpq rfl)) cwd).trans hup
  have hents := h.tree.shape.ents_file hfile
  have ht1 : (s.relinked { dev := rdev', sb := s.rfs.vol.sb } q (node.withLinks (node.nlinks + 1))
      p dir ((s.tree.ents n).length + 1)).tree.target n name
      = some (node.withLinks (node.nlinks + 1)).inum := by
    rw [htree, Tree.link, Tree.target_put_addEntry hents hmiss, if_pos ⟨rfl, rfl⟩]
    exact congrArg some hm.symm
  have hin : Vfs.rfsInode { s with
      rfs := s.rfs.setVinode q { node with ref := node.ref + 1 }
      dentries := update s.dentries s.nextDentry
        (some { name := name, dRef := 0, inode := .rfs q, parent := some cwd })
      nextDentry := s.nextDentry + 1 } cwd = .ok p := by
    apply Vfs.rfsInode_eq _ he
    simp only [update_of_ne hne]
    exact hd
  refine ⟨_, _, (s.relinked { dev := rdev', sb := s.rfs.vol.sb } q
    (node.withLinks (node.nlinks + 1)) p dir ((s.tree.ents n).length + 1)).addDentry name cwd q
      (node.withLinks (node.nlinks + 1)), hpoint, hin, hlink, ?_, hs1.addDentry hq1 hk hup1 ht1,
    fun d e' hd' => ?_, update_self .., ?_, ?_⟩
  · rw [hashPutDentry_eq (update_self ..) hk]
    simp only [Vfs.addDentry, Vfs.relinked, Vfs.resized, Rfs.setVinode, update_idem,
      update_comm hpq]
    rfl
  · exact (update_of_ne (Nat.ne_of_lt (h.lt_of_live hd')) ..).trans hd'
  · refine (Vfs.inumOf_of_vinode (Vfs.points_of_inode (update_self ..) rfl)
      (update_self ..)).trans ?_
    exact congrArg some hm
  · exact (congrArg Tree.ents htree).trans (Tree.ents_put_addEntry hents)

theorem Vfs.Sound.linkMissing_eq {e : Dentry} {q m : Nat} {node : Vinode} (h : s.Sound)
    (hl : s.Found l) (hnone : l.found = none) (hadd : s.adds l = true) (hcwd : l.parent = cwd)
    (ho : s.dentries old = some e) (hoe : e.inode = .rfs q) (hq : s.rfs.vinodes q = some node)
    (hm : node.inum = m) (hfile : (s.tree.disk m).type = R_FILE)
    (hmiss : l.missName = some name) (hbase : missesBaseName l path = .ok (some name)) :
    ∃ (n : Nat) (s' : Vfs), CabbagePKE.linkMissing s path l old cwd = .ok (0, s') ∧
      s.inumOf cwd = some (n : Int) ∧ s.Linked s' cwd name n m := by
  obtain ⟨n, e', p, dir, hn, hname, hd, he, hp, hpn, -, hroom⟩ := h.of_adds hl hnone hadd hmiss
  rw [hcwd] at hn hd
  obtain ⟨s1, fs, s', hpoint, hin, hlink, hput, hs'⟩ :=
    h.linkDentry hn hname hd he hp hpn hroom hq hm hfile
  refine ⟨n, s', ?_, hn.1, hs'⟩
  rw [CabbagePKE.linkMissing, hbase, ok_bind]
  dsimp only
  rw [Vfs.rfsInode_eq ho hoe, ok_bind]
  show (pointDentry (s.pending name cwd s.rfs) s.nextDentry q >>= _) = _
  rw [hpoint, ok_bind, hin, ok_bind, hlink, ok_bind]
  show (hashPutDentry { s1 with rfs := fs } s.nextDentry >>= _) = _
  rw [hput, ok_bind]
  rfl

theorem Vfs.Sound.linkMissing {e : Dentry} {q m : Nat} {node : Vinode} (h : s.Sound)
    (hl : s.Found l) (hnone : l.found = none) (hadd : s.adds l = true) (hcwd : l.parent = cwd)
    (ho : s.dentries old = some e) (hoe : e.inode = .rfs q) (hq : s.rfs.vinodes q = some node)
    (hm : node.inum = m) (hfile : (s.tree.disk m).type = R_FILE) :
    Yields Halt.Asserts (CabbagePKE.linkMissing s path l old cwd) (fun r => r.2.Sound) := by
  have hmiss : Yields Halt.Asserts _ _ := yields_missesBaseName l path
  cases hbase : missesBaseName l path with
  | error e =>
    rw [CabbagePKE.linkMissing, hbase]
    exact .of_error (hmiss.2 e hbase)
  | ok r =>
    cases r with
    | none =>
      rw [CabbagePKE.linkMissing, hbase]
      exact .of_ok h
    | some name =>
      obtain ⟨n, s', hrun, -, hs'⟩ := h.linkMissing_eq hl hnone hadd hcwd ho hoe hq hm hfile
        (hmiss.1 _ hbase name rfl).1 hbase
      exact .of_eq hrun hs'.sound

end

end CabbagePKE
