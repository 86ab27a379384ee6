import CabbagePKE.Vfs.Naming

/-!
# Names and vinodes that go

`vfs_unlink` removes an entry and, with the last one, the inode and its
vinode. `vfs_close` drops the dentry of a file nobody has open, and writes
its vinode back and forgets it when no dentry points to it.
-/

namespace CabbagePKE

open Lib Function Option

section

variable {s : Vfs} {p q n m : Nat} {name : Name} {dir node : Vinode} {e : Dentry}

theorem Vfs.Sound.rfsUnlink (h : s.Sound) (hp : s.rfs.vinodes p = some dir) (hn : dir.inum = n)
    (hq : s.rfs.vinodes q = some node) (hm : node.inum = m)
    (hfile : (s.tree.disk m).type = R_FILE) (h0 : (0 : UInt8) ∉ name)
    (ht : s.tree.target n name = some (m : Int)) :
    ∃ vol, CabbagePKE.rfsUnlink s.rfs p name q = .ok (0,
        (s.relinked vol q (node.withLinks (node.nlinks - 1)) p dir
          ((s.tree.ents n).length - 1)).rfs) ∧
      vol.sb.nblocks = RFS_NBLOCKS ∧ (s.tree.unlink n name m).On vol := by
  have hdir := h.tree.shape.dir_of_target ht
  have hmn : m ≠ n := Tree.file_ne_dir hfile hdir
  have hpq : p ≠ q := Vinode.ne_of_inum hp hq hn hm hmn
  have hin := Tree.inUse_of_file hfile
  have hino := h.tree.shape.inode m hin
  have hlt := h.tree.shape.lt m hin
  have hnm := h.node_eq hq hm
  have hpd : dir.toDinode = s.tree.disk n :=
    (h.node_eq hp hn).symm.trans (h.tree.shape.dir n hdir).same
  have hents := h.tree.shape.ents_file hfile
  -- the entry is found
  obtain ⟨hd, hl⟩ := s.tree_on.dirOk h.tree.shape hdir
  rw [← hpd] at hd hl
  obtain ⟨ent, hent, hentm⟩ := map_eq_some_iff.mp ht
  obtain ⟨i, rdev0, hfind, hbl0, hidx, hi, hinum⟩ := hd.search_found h0 (hl ▸ hent) hentm
  have herase : (s.tree.ents n).eraseIdx i = (s.tree.ents n).eraseP (fun e => e.1 = name) := by
    rw [List.eraseP_eq_eraseIdx, hl, hidx]
  -- the inode is read
  have hread : rfsReadDinode rdev0 m = .ok (s.tree.disk m,
      { rdev0 with iobuffer := rdev0.blocks (m / INODES_PER_BLK + RFS_BLK_OFFSET_INODE) }) := by
    rw [rfsReadDinode_eq hlt, hbl0]
    show _ = Except.ok (s.rfs.vol.disk m, _)
    rw [Volume.disk_of_lt hlt]
  have hlinks : node.nlinks = (s.tree.disk m).nlinks := by rw [← hino.nlinks_eq, hnm]
  have hwrap : wrap32 (node.nlinks - 1) = node.nlinks - 1 := by
    apply wrap32_of_fits
    have hf := h.tree.fits_nlinks_pred hfile
    rwa [hnm] at hf
  -- it is released and written
  obtain ⟨sb', hrel, hnb, hused⟩ := s.tree_on.releaseDinode h.tree hfile
  rw [hnm] at hrel
  have hshape := h.tree.shape_unlinkNode hfile
  obtain ⟨hkind, hfits⟩ := h.tree.unlinkNode_file hfile (s.rfs.vol.disk_fits hlt)
  obtain ⟨rdev2, hwrite, hon2⟩ := s.tree_on.rfsWriteDinode h.tree.shape hlt
    (by rw [hfile]; exact R_FILE_ne_R_DIR) hkind hfits
    { rdev0 with iobuffer := rdev0.blocks (m / INODES_PER_BLK + RFS_BLK_OFFSET_INODE) } hbl0
  have hon3 : (s.tree.unlinkNode m).On { dev := rdev2, sb := sb' } := by
    refine ⟨?_, ?_, ?_⟩
    · rw [Tree.unlinkNode_disk]
      exact hon2.disk
    · rw [Tree.unlinkNode_ents hents]
      exact hon2.ents
    · funext b
      exact propext (hused b)
  -- the entry goes
  have hpd' : dir.toDinode = (s.tree.unlinkNode m).disk n := by
    rw [Tree.unlinkNode_disk_of_ne (Ne.symm hmn), hpd]
  have herase' : ((s.tree.unlinkNode m).ents n).eraseIdx i
      = ((s.tree.unlinkNode m).ents n).eraseP (fun e => e.1 = name) := by
    rwa [Tree.unlinkNode_ents hents]
  obtain ⟨rdev3, hremove, hon4⟩ := hon3.removeDirentry hshape hpd' hn
    (by rw [Tree.unlinkNode_disk_of_ne (Ne.symm hmn), hdir])
    (by rw [Tree.unlinkNode_ents hents]; exact hi) herase' (totalDirentrys dir.toDinode)
  rw [Tree.unlinkNode_ents hents] at hremove
  refine ⟨{ dev := rdev3, sb := sb' }, ?_, hnb.trans h.nblocks, hon4⟩
  have hrun := rfsUnlink_eq hp hfind hinum hread hq hlinks (by rw [hwrap]; exact hrel)
    hwrite ((update_of_ne hpq ..).trans hp) hremove
  rwa [hwrap] at hrun

end

/-! ## Vinodes without references -/

def Vfs.forget (s : Vfs) (q m : Nat) : Vfs :=
  { s with rfs := s.rfs.freeVinode q, vinodeHash := update s.vinodeHash m none }

section

variable {s : Vfs} {vol : Volume} {d p q n m up : Nat} {name : Name}
  {dir node v : Vinode} {e : Dentry}

theorem Vfs.cache_forget (s : Vfs)
    (hhash : ∀ i p, s.vinodeHash i = some p → ∃ v, s.rfs.vinodes p = some v ∧ v.inum = i)
    (hq : s.rfs.vinodes q = some v) (hm : v.inum = m) :
    (s.forget q m).cache = update s.cache m none := by
  funext k
  unfold Vfs.cache
  by_cases hk : k = m
  · subst hk
    simp [Vfs.forget]
  · have hkm : (k : Int) ≠ m := fun hc => hk (Int.natCast_inj.mp hc)
    simp only [Vfs.forget, update_of_ne hk, update_of_ne hkm]
    cases hkh : s.vinodeHash (k : Int) with
    | none => rfl
    | some j =>
      have hjq : j ≠ q := by
        rintro rfl
        obtain ⟨w, hw, hwk⟩ := hhash _ _ hkh
        cases hq.symm.trans hw
        exact hkm (hwk.symm.trans hm)
      simp [Rfs.freeVinode, hjq]

theorem Vfs.Sound.forget (h : s.Sound) (s' : Vfs) (hd : s.SameDentries s')
    (hnb : s'.rfs.vol.sb.nblocks = RFS_NBLOCKS) (hnext : s'.rfs.nextVinode = s.rfs.nextVinode)
    (hq : s.rfs.vinodes q = some v) (hm : v.inum = m) (href : v.ref = 0)
    (hgone : s'.rfs.vinodes q = none)
    (hsame : ∀ j, j ≠ q → (s'.rfs.vinodes j).map (fun v => (v.inum, v.ref))
      = (s.rfs.vinodes j).map (fun v => (v.inum, v.ref)))
    (hhash : s'.vinodeHash = update s.vinodeHash m none)
    (hok : s'.tree.Ok) (htype : ∀ j, j ≠ m → (s'.tree.disk j).type = (s.tree.disk j).type)
    (htarget : ∀ d e, s.dentries d = some e → ∀ up, e.parent = some up →
      ∀ n m : Nat, s.inumOf up = some (n : Int) → s.tree.target n e.name = some (m : Int) →
        s'.tree.target n e.name = some (m : Int))
    (hoff : ∀ f x, s'.files f = some x → 0 ≤ x.offset) : s'.Sound := by
  have hunheld : ∀ d, s.points d ≠ some q := by
    intro d hd
    obtain ⟨e, he, -⟩ := Vfs.exists_of_points hd
    have hpos := holders_pos (h.lt_of_live he) hd
    have hr := h.refs q v hq
    omega
  have hback : ∀ j w, s'.rfs.vinodes j = some w →
      j ≠ q ∧ ∃ w0, s.rfs.vinodes j = some w0 ∧ w.inum = w0.inum ∧ w.ref = w0.ref := by
    intro j w hw
    have hjq : j ≠ q := by
      rintro rfl
      simp [hgone] at hw
    have hj := hsame j hjq
    rw [hw, map_some] at hj
    obtain ⟨w0, hw0, heq⟩ := map_eq_some_iff.mp hj.symm
    simp only [Prod.mk.injEq] at heq
    exact ⟨hjq, w0, hw0, heq.1.symm, heq.2.symm⟩
  have hforth : ∀ j w, j ≠ q → s.rfs.vinodes j = some w → ∃ w', s'.rfs.vinodes j = some w' := by
    intro j w hjq hw
    have hj := hsame j hjq
    rw [hw, map_some] at hj
    obtain ⟨w', hw', -⟩ := map_eq_some_iff.mp hj
    exact ⟨w', hw'⟩
  -- another vinode has another number
  have hother : ∀ j w, j ≠ q → s.rfs.vinodes j = some w → w.inum ≠ m := by
    intro j w hjq hw hwm
    have hj := h.hash_eq hw hwm
    rw [h.hash_eq hq hm] at hj
    exact hjq (some.inj hj).symm
  apply h.retree s' hd hnb hok (Nat.le_of_eq hnext.symm)
  · intro j w hw
    obtain ⟨hjq, w0, hw0, hi, hr⟩ := hback j w hw
    exact ⟨w0, hw0, hi, hr, by rw [hhash, update_of_ne (hother j w0 hjq hw0)]⟩
  · intro d j hj
    obtain ⟨w, hw, -⟩ := h.points_live hj
    exact hforth j w (fun hjq => hunheld d (hjq ▸ hj)) hw
  · intro i j hij
    rw [hhash] at hij
    have him : i ≠ m := by
      rintro rfl
      simp [update_self] at hij
    rw [update_of_ne him] at hij
    obtain ⟨w, hw, hwi⟩ := h.hashed i j hij
    have hjq : j ≠ q := by
      rintro rfl
      cases hq.symm.trans hw
      exact him (hwi.symm.trans hm)
    exact ⟨hij, hforth j w hjq hw⟩
  · intro j w hw k hwk
    obtain ⟨hjq, w0, hw0, hi, -⟩ := hback j w hw
    unfold Tree.InUse
    rw [htype k (fun hkm => hother j w0 hjq hw0 (hi.symm.trans (hwk.trans (congrArg _ hkm))))]
    exact h.inUse hw0 (hi.symm.trans hwk)
  · exact htarget
  · intro d k hk hdir
    obtain ⟨e, j, w, -, -, hj, hw, hwk⟩ := Vfs.exists_of_inumOf hk
    have hkm : k ≠ m := fun hkm =>
      hother j w (fun hjq => hunheld d (hjq ▸ hj)) hw (hwk.trans (congrArg _ hkm))
    rwa [htype k hkm] at hdir
  · exact hoff

theorem Vfs.Sound.evict (h : s.Sound) (hq : s.rfs.vinodes q = some v) (hm : v.inum = m)
    (hfile : (s.tree.disk m).type = R_FILE) (href : v.ref = 0) :
    ∃ rdev', rfsWriteBackVinode s.rfs.vol.dev v = .ok rdev' ∧
      (Vfs.forget { s with rfs := s.rfs.setDev rdev' } q m).Sound := by
  have hin := Tree.inUse_of_file hfile
  have hino := h.tree.shape.inode m hin
  have hnm := h.node_eq hq hm
  have htype : v.type = R_FILE := (h.type_eq hq hm).trans hfile
  have hfits : v.toDinode.Fits := hnm ▸ hino.fits
  obtain ⟨rdev', hrun, hon⟩ := s.tree_on.rfsWriteDinode h.tree.shape (h.tree.shape.lt m hin)
    (by rw [hfile]; exact R_FILE_ne_R_DIR) (by rw [htype]; exact R_FILE_ne_R_DIR) hfits
    s.rfs.vol.dev rfl
  have hsync : (s.tree.sync m).On { dev := rdev', sb := s.rfs.vol.sb } := by
    refine hon.congr ?_ ?_ ?_
    · rw [← hnm]
      rfl
    · exact update_eq_self ..
    · intro b
      constructor
      · rintro (hu | hb)
        · exact hu
        · exact hino.holds_used hb
      · exact .inl
  refine ⟨rdev', by rw [rfsWriteBackVinode, hm]; exact hrun, ?_⟩
  have htree : (Vfs.forget { s with rfs := s.rfs.setDev rdev' } q m).tree = s.tree.sync m := by
    apply Tree.On.tree_eq (s := Vfs.forget { s with rfs := s.rfs.setDev rdev' } q m) hsync
    rw [Vfs.cache_forget { s with rfs := s.rfs.setDev rdev' } h.hashed hq hm, overlay_evict]
    show update s.tree.node m (s.tree.node m)
      = update (overlay s.cache (Volume.disk { dev := rdev', sb := s.rfs.vol.sb })) m
        (Volume.disk { dev := rdev', sb := s.rfs.vol.sb } m)
    rw [← hsync.disk]
    show _ = update (overlay s.cache (update s.tree.disk m (s.tree.node m))) m
        (update s.tree.disk m (s.tree.node m) m)
    rw [overlay_store_cached (Vfs.cache_of_hash (h.hash_eq hq hm) hq), update_self]
    rfl
  apply h.forget (Vfs.forget { s with rfs := s.rfs.setDev rdev' } q m)
    (Vfs.SameDentries.of_eq rfl rfl rfl) h.nblocks rfl hq hm href
  · simp [Vfs.forget, Rfs.freeVinode]
  · intro j hj
    simp [Vfs.forget, Rfs.freeVinode, Rfs.setDev, hj]
  · rfl
  · rw [htree]
    exact h.tree.sync hfile
  · intro j hj
    rw [htree]
    simp [Tree.sync, Tree.put, hj]
  · intro d e _ up _ k j _ hkj
    rwa [htree, Tree.sync, Tree.target_put]
  · exact h.offsets

theorem Vfs.Sound.target_unlink (h : s.Sound) (hents : s.tree.ents m = [])
    (hdir : (s.tree.disk n).type = R_DIR) (hup : s.inumOf up = some (n : Int))
    (hk : s.dentryHash (some up, name) = none) (hd : s.dentries d = some e) {up' k j : Nat}
    (hpar : e.parent = some up') (hk' : s.inumOf up' = some (k : Int))
    (ht : s.tree.target k e.name = some (j : Int)) :
    (s.tree.unlink n name m).target k e.name = some (j : Int) := by
  rw [Tree.target_unlink hents, ht]
  by_contra hsame
  push Not at hsame
  obtain ⟨rfl, rfl⟩ := hsame
  have hup' := h.dirs up up' k hup hk' hdir
  subst hup'
  have hd0 : d ≠ vfsRootDentry := by
    rintro rfl
    obtain ⟨e0, he0, -, hnone⟩ := h.hostRoot
    cases hd.symm.trans he0
    simp [hnone] at hpar
  obtain ⟨up'', hpar', hhash, -⟩ := h.dentry d e hd hd0
  cases hpar.symm.trans hpar'
  simp [hk] at hhash

theorem Vfs.Sound.unlinkLast (h : s.Sound) (vol : Volume) (hp : s.rfs.vinodes p = some dir)
    (hn : dir.inum = n) (hq : s.rfs.vinodes q = some node) (hm : node.inum = m)
    (hfile : (s.tree.disk m).type = R_FILE) (ht : s.tree.target n name = some (m : Int))
    (hone : (s.tree.node m).nlinks = 1) (href : node.ref = 0)
    (hup : s.inumOf up = some (n : Int)) (hk : s.dentryHash (some up, name) = none)
    (hnb : vol.sb.nblocks = RFS_NBLOCKS) (hon : (s.tree.unlink n name m).On vol) :
    ((s.resized vol p dir ((s.tree.ents n).length - 1)).forget q m).Sound := by
  have hdir := h.tree.shape.dir_of_target ht
  have hmn : m ≠ n := Tree.file_ne_dir hfile hdir
  have hpq : p ≠ q := Vinode.ne_of_inum hp hq hn hm hmn
  have hents := h.tree.shape.ents_file hfile
  have hcm := Vfs.cache_of_hash (h.hash_eq hq hm) hq
  have hcn := Vfs.cache_of_hash (h.hash_eq hp hn) hp
  have hnode : s.tree.unlinkNode m = s.tree.free m := if_pos hone
  have hlen := s.tree.length_drop ht
  have hres : ∀ i j, (s.resized vol p dir ((s.tree.ents n).length - 1)).vinodeHash i = some j →
      ∃ v, (s.resized vol p dir ((s.tree.ents n).length - 1)).rfs.vinodes j = some v ∧
        v.inum = i := by
    intro i j hij
    obtain ⟨w, hw, hwi⟩ := h.hashed i j hij
    have hmap : ((s.resized vol p dir ((s.tree.ents n).length - 1)).rfs.vinodes j).map
        (fun v => v.inum) = some w.inum := by
      rw [s.resized_inum hp j, hw]
      rfl
    obtain ⟨v, hv, hvi⟩ := map_eq_some_iff.mp hmap
    exact ⟨v, hv, hvi.trans hwi⟩
  have hq' : (s.resized vol p dir ((s.tree.ents n).length - 1)).rfs.vinodes q = some node := by
    simp only [Vfs.resized, update_of_ne (Ne.symm hpq)]
    exact hq
  have htree : ((s.resized vol p dir ((s.tree.ents n).length - 1)).forget q m).tree
      = s.tree.unlink n name m := by
    apply Tree.On.tree_eq (s := (s.resized vol p dir ((s.tree.ents n).length - 1)).forget q m) hon
    rw [Vfs.cache_forget (s.resized vol p dir ((s.tree.ents n).length - 1)) hres hq' hm,
      overlay_evict, h.cache_set (s.resized vol p dir ((s.tree.ents n).length - 1)) hp hn rfl rfl,
      overlay_update]
    show _ = update (update (overlay s.cache vol.disk) n _) m (vol.disk m)
    rw [← hon.disk, Tree.unlink, hnode]
    show update (update s.tree.node m (s.tree.disk m).freed) n _
      = update (update (overlay s.cache
          (update (update s.tree.disk m (s.tree.disk m).freed) n _)) n _) m
        (update (update s.tree.disk m (s.tree.disk m).freed) n _ m)
    rw [overlay_store_cached hcn, overlay_store_cached hcm, update_of_ne hmn,
      update_self, update_comm (Ne.symm hmn)]
    show update (update s.tree.node m _) n
        ((update s.tree.node m (s.tree.disk m).freed n).withSize
          (DIRENTRY_SIZE * ((s.tree.ents n).eraseP (fun e => e.1 = name)).length : Nat)) = _
    rw [update_of_ne (Ne.symm hmn), hlen, h.node_eq hp hn]
    rfl
  apply h.forget ((s.resized vol p dir ((s.tree.ents n).length - 1)).forget q m)
    (Vfs.SameDentries.of_eq rfl rfl rfl) hnb rfl hq hm href
  · simp [Vfs.forget, Rfs.freeVinode]
  · intro j hj
    by_cases hjp : j = p
    · subst hjp
      simp [Vfs.forget, Rfs.freeVinode, Vfs.resized, hj, hp, Vinode.withSize]
    · simp [Vfs.forget, Rfs.freeVinode, Vfs.resized, hj, hjp]
  · rfl
  · rw [htree]
    exact h.tree.unlink hfile ht
  · intro j hj
    have hdir' : ((s.tree.unlinkNode m).disk n).type = R_DIR := by
      rw [Tree.unlinkNode_disk_of_ne (Ne.symm hmn), hdir]
    rw [htree, Tree.unlink, Tree.dropEntry,
      ((h.tree.shape_unlinkNode hfile).disk_setEnts hdir' j).1, Tree.unlinkNode_disk_of_ne hj]
  · intro d e hd up' hpar k j hk' hkj
    rw [htree]
    exact h.target_unlink hents hdir hup hk hd hpar hk' hkj
  · exact h.offsets

theorem Vfs.Sound.unlinkMore (h : s.Sound) (vol : Volume) (hp : s.rfs.vinodes p = some dir)
    (hn : dir.inum = n) (hq : s.rfs.vinodes q = some node) (hm : node.inum = m)
    (hfile : (s.tree.disk m).type = R_FILE) (ht : s.tree.target n name = some (m : Int))
    (hmore : (s.tree.node m).nlinks ≠ 1)
    (hup : s.inumOf up = some (n : Int)) (hk : s.dentryHash (some up, name) = none)
    (hnb : vol.sb.nblocks = RFS_NBLOCKS) (hon : (s.tree.unlink n name m).On vol) :
    (s.relinked vol q (node.withLinks (node.nlinks - 1)) p dir
      ((s.tree.ents n).length - 1)).Sound := by
  have hdir := h.tree.shape.dir_of_target ht
  have hmn : m ≠ n := Tree.file_ne_dir hfile hdir
  have hents := h.tree.shape.ents_file hfile
  have hnode : s.tree.unlinkNode m = s.tree.put m ((s.tree.disk m).withLinks
      ((s.tree.node m).nlinks - 1)) ((s.tree.node m).withLinks ((s.tree.node m).nlinks - 1)) [] :=
    if_neg hmore
  have hlen := s.tree.length_drop ht
  have hdk : ((s.tree.disk m).withLinks ((s.tree.node m).nlinks - 1)).type
      = (s.tree.disk m).type := rfl
  refine (h.relinked vol (s.tree.unlink n name m) (node.withLinks (node.nlinks - 1)) hp hn hq hm hmn
    hm rfl hon (h.tree.unlink hfile ht) hnb
    (by rw [Tree.unlink, hnode]; rfl) ?_ hdk ?_ ?_).1
  · rw [Tree.unlink, hnode]
    show update (update s.tree.node m _) n
        ((update s.tree.node m _ n).withSize
          (DIRENTRY_SIZE * ((update s.tree.ents m [] n).eraseP
            (fun e => e.1 = name)).length : Nat)) = _
    rw [update_of_ne (Ne.symm hmn), update_of_ne (Ne.symm hmn), hlen,
      h.node_eq hp hn, h.node_eq hq hm]
    rfl
  · show ((update s.tree.node m _ n).withSize _).type = _
    rw [update_of_ne (Ne.symm hmn)]
    exact (h.tree.shape.inode n (Tree.inUse_of_dir hdir)).type_eq
  · intro d e hd up' hpar k j hk' hkj
    exact h.target_unlink hents hdir hup hk hd hpar hk' hkj

theorem Vfs.Sound.ref_eq_zero (h : s.Sound) (hq : s.rfs.vinodes q = some v) (hm : v.inum = m)
    (hfile : (s.tree.disk m).type = R_FILE) (ht : s.tree.target n name = some (m : Int))
    (hone : (s.tree.node m).nlinks = 1) (hup : s.inumOf up = some (n : Int))
    (hk : s.dentryHash (some up, name) = none) : v.ref = 0 := by
  have hdir := h.tree.shape.dir_of_target ht
  have hcount : s.tree.linkCount m = 1 := by
    have hl := h.tree.nlinks_file hfile
    omega
  rw [h.refs q v hq]
  refine congrArg _ (holders_eq_zero fun d _ hd => ?_)
  obtain ⟨e, he, hi⟩ := Vfs.exists_of_points hd
  obtain ⟨up', hpar, hhash, j, hj, hcase⟩ := h.dentry d e he (h.ne_vfsRoot hd)
  rw [Vfs.inumOf_of_vinode hd hq, hm] at hj
  obtain rfl : m = j := Int.natCast_inj.mp (some.inj hj)
  rcases hcase with ⟨-, -, hm0⟩ | ⟨k, hk', hkt⟩
  · exact h.tree.shape.ne_zero_of_file hfile hm0
  · by_cases hsame : n = k ∧ name = e.name
    · obtain ⟨rfl, rfl⟩ := hsame
      have hup' := h.dirs up up' n hup hk' hdir
      subst hup'
      simp [hk] at hhash
    · have htwo := h.tree.shape.two_le_linkCount ht hkt (by
        by_cases hnk : n = k
        · exact .inr (fun hc => hsame ⟨hnk, hc⟩)
        · exact .inl hnk)
      omega

end

/-! ## The operations -/

section

variable {s : Vfs} {d p q n m up : Nat} {dir node v : Vinode} {e : Dentry} {vol : Volume}

theorem dropDentry_eq (hd : s.dentries d = some e) (href : ¬ 0 < e.dRef)
    (hq : s.rfs.vinodes q = some v) : dropDentry s d q = .ok (s.removeDentry d e q v) := by
  simp [dropDentry, hashEraseDentry, freeVfsDentry, Vfs.dentry, hd, href, Vfs.addRef, Vfs.freeDentry,
    Rfs.vinode, hq, Vfs.removeDentry, Vfs.setVinode]

theorem hashEraseVinode_eq (hq : s.rfs.vinodes q = some v) (hm : v.inum = m) :
    hashEraseVinode s q = .ok { s with vinodeHash := update s.vinodeHash m none } := by
  have hneg : ¬ ((m : Int) < 0) := by omega
  simp [hashEraseVinode, Rfs.vinode, hq, hm, hneg]

theorem Vfs.removeDentry_relinked (s : Vfs) (hpq : p ≠ q) (k : Nat) (l : Int) :
    (s.relinked vol q (node.withLinks l) p dir k).removeDentry d e q (node.withLinks l)
      = (s.removeDentry d e q node).relinked vol q
          (Vinode.withLinks { node with ref := node.ref + -1 } l) p dir k := by
  simp only [Vfs.relinked, Vfs.resized, Vfs.removeDentry, Rfs.setVinode, update_idem,
    update_comm hpq]
  rfl

theorem Vfs.Sound.forgetDead_relinked (h : s.Sound) (hp : s.rfs.vinodes p = some dir)
    (hn : dir.inum = n) (hq : s.rfs.vinodes q = some node) (hm : node.inum = m)
    (hfile : (s.tree.disk m).type = R_FILE) {name : Name}
    (ht : s.tree.target n name = some (m : Int))
    (hup : s.inumOf up = some (n : Int)) (hk : s.dentryHash (some up, name) = none)
    (hnb : vol.sb.nblocks = RFS_NBLOCKS) (hon : (s.tree.unlink n name m).On vol) :
    ∃ s', forgetDead (s.relinked vol q (node.withLinks (node.nlinks - 1)) p dir
        ((s.tree.ents n).length - 1)) q = .ok s' ∧ s'.Sound ∧ s'.rfs.vol = vol := by
  have hdir := h.tree.shape.dir_of_target ht
  have hpq : p ≠ q := by
    rintro rfl
    cases hp.symm.trans hq
    obtain rfl : m = n := Int.natCast_inj.mp (hm.symm.trans hn)
    exact R_FILE_ne_R_DIR (hfile.symm.trans hdir)
  have hnode := h.node_eq hq hm
  have hrel : (s.relinked vol q (node.withLinks (node.nlinks - 1)) p dir
      ((s.tree.ents n).length - 1)).rfs.vinodes q = some (node.withLinks (node.nlinks - 1)) := by
    simp [Vfs.relinked, Vfs.resized, Rfs.setVinode, Ne.symm hpq]
  have hvin : (s.relinked vol q (node.withLinks (node.nlinks - 1)) p dir
      ((s.tree.ents n).length - 1)).rfs.vinode q = .ok (node.withLinks (node.nlinks - 1)) := by
    rw [Rfs.vinode, hrel]
  by_cases hone : (s.tree.node m).nlinks = 1
  · have href := h.ref_eq_zero hq hm hfile ht hone hup hk
    refine ⟨_, ?_, h.unlinkLast vol hp hn hq hm hfile ht hone href hup hk hnb hon, rfl⟩
    have hzero : (node.withLinks (node.nlinks - 1)).nlinks = 0 := by
      show node.nlinks - 1 = 0
      rw [hnode] at hone
      omega
    have href' : (node.withLinks (node.nlinks - 1)).ref = 0 := href
    rw [forgetDead, hvin, ok_bind, if_pos hzero, if_neg (not_not.mpr href'),
      hashEraseVinode_eq hrel hm, ok_bind]
    simp only [Vfs.freeVinode, Rfs.freeVinode, Vfs.forget, Vfs.relinked, Vfs.resized, Rfs.setVinode,
      update_comm hpq, update_idem]
    rfl
  · refine ⟨_, ?_, h.unlinkMore vol hp hn hq hm hfile ht hone hup hk hnb hon, rfl⟩
    have hnz : (node.withLinks (node.nlinks - 1)).nlinks ≠ 0 := by
      show node.nlinks - 1 ≠ 0
      rw [hnode] at hone
      omega
    rw [forgetDead, hvin, ok_bind, if_neg hnz]
    rfl

theorem Vfs.Sound.unlinkDentry (h : s.Sound) (hd : s.dentries d = some e)
    (hpar : e.parent = some up) (hi : e.inode = .rfs q) (hq : s.rfs.vinodes q = some node)
    (hm : node.inum = m) (hfile : (s.tree.disk m).type = R_FILE) (href : ¬ 0 < e.dRef) :
    Yields Halt.Asserts (CabbagePKE.unlinkDentry s d up) (fun r => r.2.Sound ∧
      ∃ n, s.tree.target n e.name = some (m : Int) ∧
        (s.tree.unlink n e.name m).On r.2.rfs.vol) := by
  have hd0 := h.ne_vfsRoot (Vfs.points_of_inode hd hi)
  have hdm : s.inumOf d = some (m : Int) := by
    rw [Vfs.inumOf_of_vinode (Vfs.points_of_inode hd hi) hq, hm]
  obtain ⟨up', hup', -, j, hj, hcase⟩ := h.dentry d e hd hd0
  cases hpar.symm.trans hup'
  rw [hdm] at hj
  obtain rfl : m = j := Int.natCast_inj.mp (some.inj hj)
  obtain ⟨n, hn, ht⟩ := hcase.resolve_left
    (fun hroot => h.tree.shape.ne_zero_of_file hfile hroot.2.2)
  have hdir := h.tree.shape.dir_of_target ht
  obtain ⟨eup, p, dir, hdup, hip, hp, hpn, -⟩ := h.dirVinode hn hdir
  have hpq : p ≠ q := by
    rintro rfl
    cases hp.symm.trans hq
    obtain rfl : m = n := Int.natCast_inj.mp (hm.symm.trans hpn)
    exact R_FILE_ne_R_DIR (hfile.symm.trans hdir)
  have h0 := (h.tree.shape.nameOk_of_target ht).noNul
  have ht0 := ht
  obtain ⟨vol, hrun, hnb, hon⟩ := h.rfsUnlink hp hpn hq hm hfile h0 ht
  have hon0 := hon
  -- the same with the dentry dropped first
  have hs := h.removeDentry hq hd hi hm hfile
  have htree : (s.removeDentry d e q node).tree = s.tree := h.tree_setRef hq rfl rfl rfl
  have hp' : (s.removeDentry d e q node).rfs.vinodes p = some dir := by
    simp only [Vfs.removeDentry, Rfs.setVinode, update_of_ne hpq]
    exact hp
  have hq' : (s.removeDentry d e q node).rfs.vinodes q
      = some { node with ref := node.ref + -1 } := update_self ..
  have hup : (s.removeDentry d e q node).inumOf up = some (n : Int) := by
    have hne : up ≠ d := by
      rintro rfl
      rw [hdm] at hn
      obtain rfl : m = n := Int.natCast_inj.mp (some.inj hn)
      exact R_FILE_ne_R_DIR (hfile.symm.trans hdir)
    have hdup' : (s.removeDentry d e q node).dentries up = some eup := by
      simp only [Vfs.removeDentry, update_of_ne hne]
      exact hdup
    rw [Vfs.inumOf_of_vinode (Vfs.points_of_inode hdup' hip) hp', hpn]
  have hk : (s.removeDentry d e q node).dentryHash (some up, e.name) = none := by
    rw [← hpar]
    exact update_self ..
  rw [← htree] at ht hfile hon
  obtain ⟨s', hforget, hs', hvol⟩ := hs.forgetDead_relinked hp' hpn hq' hm hfile ht hup hk hnb hon
  have hrel : (s.relinked vol q (node.withLinks (node.nlinks - 1)) p dir
      ((s.tree.ents n).length - 1)).rfs.vinodes q = some (node.withLinks (node.nlinks - 1)) := by
    simp [Vfs.relinked, Vfs.resized, Rfs.setVinode, Ne.symm hpq]
  have hdrop := dropDentry_eq (s := s.relinked vol q (node.withLinks (node.nlinks - 1)) p dir
    ((s.tree.ents n).length - 1)) (d := d) hd href hrel
  rw [s.removeDentry_relinked hpq] at hdrop
  rw [htree] at hforget
  have hden : s.dentry d = .ok e := by rw [Vfs.dentry, hd]
  rw [CabbagePKE.unlinkDentry, hden, ok_bind, Vfs.rfsInode_eq hd hi, ok_bind,
    Vfs.rfsInode_eq hdup hip, ok_bind, hrun, ok_bind]
  dsimp only
  rw [if_neg (by decide)]
  show Yields _ (dropDentry (s.relinked vol q (node.withLinks (node.nlinks - 1)) p dir
    ((s.tree.ents n).length - 1)) d q >>= _) _
  rw [hdrop, ok_bind]
  rw [hforget]
  refine .of_ok ⟨hs', n, ht0, ?_⟩
  rwa [← hvol] at hon0

theorem Vfs.Sound.evictVinode (h : s.Sound) (hq : s.rfs.vinodes q = some v) (hm : v.inum = m)
    (hfile : (s.tree.disk m).type = R_FILE) :
    Yields Halt.Asserts (CabbagePKE.evictVinode s q) (fun s' => s'.Sound ∧ s'.files = s.files) := by
  have hvin : s.rfs.vinode q = .ok v := by rw [Rfs.vinode, hq]
  rw [CabbagePKE.evictVinode, hvin, ok_bind]
  split
  · rename_i href
    obtain ⟨rdev', hback, hs⟩ := h.evict hq hm hfile href
    rw [hback, ok_bind, hashEraseVinode_eq (s := { s with rfs := s.rfs.setDev rdev' }) hq hm]
    exact .of_ok ⟨hs, rfl⟩
  · exact .of_ok ⟨h, rfl⟩

theorem Vfs.Sound.closeDentry (h : s.Sound) (hd : s.dentries d = some e) (hi : e.inode = .rfs q)
    (hq : s.rfs.vinodes q = some v) (hm : v.inum = m) (hfile : (s.tree.disk m).type = R_FILE) :
    Yields Halt.Asserts (CabbagePKE.closeDentry s d q e.dRef)
      (fun s' => s'.Sound ∧ s'.files = s.files) := by
  rw [CabbagePKE.closeDentry]
  split
  · rename_i href
    rw [dropDentry_eq hd (by omega) hq, ok_bind]
    have htree : (s.removeDentry d e q v).tree = s.tree := h.tree_setRef hq rfl rfl rfl
    exact (h.removeDentry hq hd hi hm hfile).evictVinode (update_self ..) hm
      (by rw [htree]; exact hfile)
  · exact .of_ok ⟨h, rfl⟩

end

end CabbagePKE
