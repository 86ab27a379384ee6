import CabbagePKE.Vfs.Model
import CabbagePKE.Rfs.Image
import CabbagePKE.Lib.Overlay

/-!
# The tables of the virtual file system

What ties the dentries and vinodes in memory to the disk: every vinode is the
cached inode of its number, every dentry is in the hash table under its parent
and name and stands for the first entry of that name, a directory has one dentry,
and the `ref` of a vinode is the number of dentries that point to it.
-/

namespace CabbagePKE

open Lib Function Option

/-! ## The tree that a state stands for -/

def InodePtr.rfs? : InodePtr → Option Nat
  | .rfs p => some p
  | _ => none

def Vfs.cache (s : Vfs) (n : Nat) : Option Dinode :=
  ((s.vinodeHash n).bind s.rfs.vinodes).map (fun v => v.toDinode)

/-- The files as the file system sees them: through the vinodes in memory. -/
def Vfs.tree (s : Vfs) : Tree where
  disk := s.rfs.vol.disk
  node := overlay s.cache s.rfs.vol.disk
  ents := s.rfs.vol.ents
  used := s.rfs.vol.used

def Vfs.points (s : Vfs) (d : Nat) : Option Nat := (s.dentries d).bind (fun e => e.inode.rfs?)

def Vfs.inumOf (s : Vfs) (d : Nat) : Option Int :=
  (s.points d).bind (fun p => (s.rfs.vinodes p).map (fun v => v.inum))

/-- Dentry `d` is in the hash table and stands for an entry of its parent
directory, or is the root of the RAM disk. -/
def Vfs.Named (s : Vfs) (d : Nat) (name : Name) (parent : Option Nat) : Prop :=
  ∃ up, parent = some up ∧ s.dentryHash (some up, name) = some d ∧
    ∃ m : Nat, s.inumOf d = some (m : Int) ∧
      ((d = rfsRootDentry ∧ up = vfsRootDentry ∧ m = 0) ∨
        ∃ n : Nat, s.inumOf up = some (n : Int) ∧ s.tree.target n name = some (m : Int))

structure Vfs.Sound (s : Vfs) : Prop where
  nblocks : s.rfs.vol.sb.nblocks = RFS_NBLOCKS
  tree : s.tree.Ok
  freshVinode : ∀ p, s.rfs.nextVinode ≤ p → s.rfs.vinodes p = none
  vinode : ∀ p v, s.rfs.vinodes p = some v →
    ∃ n : Nat, v.inum = n ∧ s.vinodeHash n = some p ∧ s.tree.InUse n
  hashed : ∀ i p, s.vinodeHash i = some p → ∃ v, s.rfs.vinodes p = some v ∧ v.inum = i
  freshDentry : ∀ d, s.nextDentry ≤ d → s.dentries d = none
  hostRoot : ∃ e, s.dentries vfsRootDentry = some e ∧ e.inode = .host ∧ e.parent = none
  rfsRoot : s.inumOf rfsRootDentry = some 0
  key : ∀ k d, s.dentryHash k = some d → ∃ e, s.dentries d = some e ∧ (e.parent, e.name) = k
  dentry : ∀ d e, s.dentries d = some e → d ≠ vfsRootDentry → s.Named d e.name e.parent
  dirs : ∀ d d' n, s.inumOf d = some ((n : Nat) : Int) → s.inumOf d' = some (n : Int) →
    (s.tree.disk n).type = R_DIR → d = d'
  refs : ∀ p v, s.rfs.vinodes p = some v → v.ref = holders s.nextDentry s.points p
  offsets : ∀ f x, s.files f = some x → 0 ≤ x.offset

section

variable {s s' : Vfs} {p n d : Nat} {v : Vinode} {e : Dentry}

theorem Vfs.tree_on (s : Vfs) : s.tree.On s.rfs.vol := ⟨rfl, rfl, rfl⟩

theorem Tree.On.tree_eq {t : Tree} (h : t.On s.rfs.vol)
    (hn : t.node = overlay s.cache s.rfs.vol.disk) : s.tree = t := by
  apply Tree.ext
  · exact h.disk.symm
  · exact hn.symm
  · exact h.ents.symm
  · exact h.used.symm

@[simp] theorem InodePtr.rfs?_eq_some {i : InodePtr} : i.rfs? = some p ↔ i = .rfs p := by
  cases i with
  | null => simp [InodePtr.rfs?]
  | host => simp [InodePtr.rfs?]
  | rfs q => simp [InodePtr.rfs?]

theorem Vfs.points_of_inode (hd : s.dentries d = some e) (he : e.inode = .rfs p) :
    s.points d = some p := by simp [Vfs.points, hd, he, InodePtr.rfs?]

theorem Vfs.exists_of_points (h : s.points d = some p) :
    ∃ e, s.dentries d = some e ∧ e.inode = .rfs p := by
  simpa [Vfs.points, bind_eq_some_iff] using h

theorem Vfs.inumOf_of_vinode (hd : s.points d = some p) (hv : s.rfs.vinodes p = some v) :
    s.inumOf d = some v.inum := by simp [Vfs.inumOf, hd, hv]

theorem Vfs.exists_of_inumOf {i : Int} (h : s.inumOf d = some i) :
    ∃ e p v, s.dentries d = some e ∧ e.inode = .rfs p ∧ s.points d = some p ∧
      s.rfs.vinodes p = some v ∧ v.inum = i := by
  simp only [Vfs.inumOf, bind_eq_some_iff, map_eq_some_iff] at h
  obtain ⟨p, hp, v, hv, hi⟩ := h
  obtain ⟨e, hd, he⟩ := Vfs.exists_of_points hp
  exact ⟨e, p, v, hd, he, hp, hv, hi⟩

theorem Vfs.inumOf_eq (hd : s'.points d = s.points d)
    (hv : ∀ p, (s'.rfs.vinodes p).map (fun v => v.inum) = (s.rfs.vinodes p).map (fun v => v.inum)) :
    s'.inumOf d = s.inumOf d := by
  unfold Vfs.inumOf
  rw [hd]
  cases s.points d with
  | none => rfl
  | some p => exact hv p

theorem Vfs.inumOf_congr (s s' : Vfs) (hd : s'.dentries = s.dentries)
    (hv : ∀ p, (s'.rfs.vinodes p).map (fun v => v.inum) = (s.rfs.vinodes p).map (fun v => v.inum)) :
    s'.inumOf = s.inumOf := by
  funext d
  apply Vfs.inumOf_eq _ hv
  unfold Vfs.points
  rw [hd]

theorem Vfs.cache_of_hash (hh : s.vinodeHash n = some p) (hv : s.rfs.vinodes p = some v) :
    s.cache n = some v.toDinode := by simp [Vfs.cache, hh, hv]

theorem Vfs.cache_of_none (hh : s.vinodeHash n = none) : s.cache n = none := by simp [Vfs.cache, hh]

theorem Vfs.Sound.node_eq (h : s.Sound) (hv : s.rfs.vinodes p = some v) (hn : v.inum = n) :
    s.tree.node n = v.toDinode := by
  obtain ⟨k, hk, hh, -⟩ := h.vinode p v hv
  obtain rfl : k = n := Int.natCast_inj.mp (hk.symm.trans hn)
  exact overlay_cached (Vfs.cache_of_hash hh hv)

theorem Vfs.Sound.hash_eq (h : s.Sound) (hv : s.rfs.vinodes p = some v) (hn : v.inum = n) :
    s.vinodeHash n = some p := by
  obtain ⟨k, hk, hh, -⟩ := h.vinode p v hv
  rwa [← hn, hk]

theorem Vfs.Sound.inUse (h : s.Sound) (hv : s.rfs.vinodes p = some v) (hn : v.inum = n) :
    s.tree.InUse n := by
  obtain ⟨k, hk, -, hu⟩ := h.vinode p v hv
  exact Int.natCast_inj.mp (hk.symm.trans hn) ▸ hu

theorem Vfs.Sound.type_eq (h : s.Sound) (hv : s.rfs.vinodes p = some v) (hn : v.inum = n) :
    v.type = (s.tree.disk n).type := by
  have hok := h.tree.shape.inode n (h.inUse hv hn)
  rw [← hok.type_eq, h.node_eq hv hn]

theorem Vfs.cache_set (s s' : Vfs)
    (hhash : ∀ i p, s.vinodeHash i = some p → ∃ v, s.rfs.vinodes p = some v ∧ v.inum = i)
    (hpn : s.vinodeHash n = some p) (hh : s'.vinodeHash = s.vinodeHash) {v' : Option Vinode}
    (hs : s'.rfs.vinodes = update s.rfs.vinodes p v') :
    s'.cache = update s.cache n (v'.map (fun v => v.toDinode)) := by
  funext k
  unfold Vfs.cache
  rw [hh, hs]
  by_cases hk : k = n
  · subst hk
    simp [hpn]
  · rw [update_of_ne hk]
    cases hkh : s.vinodeHash (k : Int) with
    | none => rfl
    | some q =>
      have hqp : q ≠ p := by
        rintro rfl
        obtain ⟨v, hv, hvk⟩ := hhash _ _ hkh
        obtain ⟨w, hw, hwn⟩ := hhash _ _ hpn
        cases hv.symm.trans hw
        exact hk (Int.natCast_inj.mp (hvk.symm.trans hwn))
      simp [update_of_ne hqp]

theorem Vfs.Sound.cache_set (h : s.Sound) (s' : Vfs) (hv : s.rfs.vinodes p = some v)
    (hn : v.inum = n) (hh : s'.vinodeHash = s.vinodeHash) {v' : Vinode}
    (hs : s'.rfs.vinodes = update s.rfs.vinodes p (some v')) :
    s'.cache = update s.cache n (some v'.toDinode) :=
  Vfs.cache_set s s' h.hashed (h.hash_eq hv hn) hh hs

theorem Vfs.Sound.ne_vfsRoot (h : s.Sound) (hp : s.points d = some p) : d ≠ vfsRootDentry := by
  rintro rfl
  obtain ⟨e, hd, he⟩ := Vfs.exists_of_points hp
  obtain ⟨e0, h0, hhost, -⟩ := h.hostRoot
  simp_all

theorem Vfs.Sound.points_live (h : s.Sound) (hp : s.points d = some p) :
    ∃ v, s.rfs.vinodes p = some v ∧ ∃ n : Nat, v.inum = n := by
  obtain ⟨e, hd, he⟩ := Vfs.exists_of_points hp
  obtain ⟨up, -, -, m, hm, -⟩ := h.dentry d e hd (h.ne_vfsRoot hp)
  obtain ⟨-, q, v, -, -, hq, hv, hi⟩ := Vfs.exists_of_inumOf hm
  cases hp.symm.trans hq
  exact ⟨v, hv, m, hi⟩

theorem Vfs.Sound.lt_of_live (h : s.Sound) (hd : s.dentries d = some e) : d < s.nextDentry := by
  by_contra hlt
  simp [h.freshDentry d (by omega)] at hd

end

/-! ## Changes that keep the tables -/

/-- What the tables see of a dentry: everything but `d_ref`. -/
def Dentry.entry (e : Dentry) : Name × InodePtr × Option Nat := (e.name, e.inode, e.parent)

structure Vfs.SameDentries (s s' : Vfs) : Prop where
  entry : ∀ d, (s'.dentries d).map Dentry.entry = (s.dentries d).map Dentry.entry
  next : s'.nextDentry = s.nextDentry
  hash : s'.dentryHash = s.dentryHash

section

variable {s s' : Vfs} {p n d : Nat} {v : Vinode} {e : Dentry}

theorem Vfs.SameDentries.exists_entry (h : s.SameDentries s') (hd : s'.dentries d = some e) :
    ∃ e0, s.dentries d = some e0 ∧ e0.entry = e.entry := by
  have hent := h.entry d
  rw [hd, map_some] at hent
  exact map_eq_some_iff.mp hent.symm

theorem Vfs.SameDentries.points_eq (h : s.SameDentries s') : s'.points = s.points := by
  funext d
  have hpts : ∀ x : Vfs, x.points d
      = ((x.dentries d).map Dentry.entry).bind (fun t => t.2.1.rfs?) := by
    intro x
    simp [Vfs.points, bind_map, Dentry.entry, comp_def]
  rw [hpts s', hpts s, h.entry d]

theorem Vfs.SameDentries.symm (h : s.SameDentries s') : s'.SameDentries s :=
  ⟨fun d => (h.entry d).symm, h.next.symm, h.hash.symm⟩

theorem Vfs.SameDentries.of_eq (hd : s'.dentries = s.dentries) (hn : s'.nextDentry = s.nextDentry)
    (hh : s'.dentryHash = s.dentryHash) : s.SameDentries s' :=
  ⟨fun d => by rw [hd], hn, hh⟩

/-- Vinodes changed, or went that no dentry points to, and the disk with
them: the tables stay sound if the new tree is and no cached name lost its
entry. -/
theorem Vfs.Sound.retree (h : s.Sound) (s' : Vfs) (hd : s.SameDentries s')
    (hnb : s'.rfs.vol.sb.nblocks = RFS_NBLOCKS) (htree : s'.tree.Ok)
    (hnext : s.rfs.nextVinode ≤ s'.rfs.nextVinode)
    (hlive : ∀ p v', s'.rfs.vinodes p = some v' → ∃ v, s.rfs.vinodes p = some v ∧
      v'.inum = v.inum ∧ v'.ref = v.ref ∧ s'.vinodeHash v.inum = s.vinodeHash v.inum)
    (hkeep : ∀ d p, s.points d = some p → ∃ v', s'.rfs.vinodes p = some v')
    (hhash : ∀ i p, s'.vinodeHash i = some p →
      s.vinodeHash i = some p ∧ ∃ v', s'.rfs.vinodes p = some v')
    (hin : ∀ p v', s'.rfs.vinodes p = some v' → ∀ n : Nat, v'.inum = n → s'.tree.InUse n)
    (htarget : ∀ d e, s.dentries d = some e → ∀ up, e.parent = some up →
      ∀ n m : Nat, s.inumOf up = some (n : Int) → s.tree.target n e.name = some (m : Int) →
        s'.tree.target n e.name = some (m : Int))
    (hdir : ∀ d (n : Nat), s.inumOf d = some (n : Int) → (s'.tree.disk n).type = R_DIR →
      (s.tree.disk n).type = R_DIR)
    (hoff : ∀ f x, s'.files f = some x → 0 ≤ x.offset) : s'.Sound := by
  have hpts := hd.points_eq
  have hinum : ∀ d, s'.inumOf d = s.inumOf d := by
    intro d
    unfold Vfs.inumOf
    rw [hpts]
    cases hp : s.points d with
    | none => rfl
    | some p =>
      obtain ⟨v', hv'⟩ := hkeep d p hp
      obtain ⟨v, hv, hi, -⟩ := hlive p v' hv'
      simp [hv, hv', hi]
  constructor
  · exact hnb
  · exact htree
  · intro p hp
    by_contra hne
    obtain ⟨v', hv'⟩ := ne_none_iff_exists'.mp hne
    obtain ⟨v, hv, -⟩ := hlive p v' hv'
    simp [h.freshVinode p (by omega)] at hv
  · intro p v' hv'
    obtain ⟨v, hv, hi, -, hhv⟩ := hlive p v' hv'
    obtain ⟨n, hn, hh, -⟩ := h.vinode p v hv
    refine ⟨n, hi.trans hn, ?_, hin p v' hv' n (hi.trans hn)⟩
    rw [hn] at hhv
    rw [hhv, hh]
  · intro i p hi
    obtain ⟨hi', v', hv'⟩ := hhash i p hi
    obtain ⟨w, hw, hwi⟩ := h.hashed i p hi'
    obtain ⟨v, hv, hvi, -⟩ := hlive p v' hv'
    cases hw.symm.trans hv
    exact ⟨v', hv', hvi.trans hwi⟩
  · intro d hlt
    rw [hd.next] at hlt
    have hent := hd.entry d
    rw [h.freshDentry d hlt] at hent
    exact map_eq_none_iff.mp hent
  · obtain ⟨e, he, hhost, hpar⟩ := h.hostRoot
    obtain ⟨e', he', hee⟩ := hd.symm.exists_entry he
    simp only [Dentry.entry, Prod.mk.injEq] at hee
    exact ⟨e', he', hee.2.1.trans hhost, hee.2.2.trans hpar⟩
  · rw [hinum]
    exact h.rfsRoot
  · intro k d hk
    rw [hd.hash] at hk
    obtain ⟨e, he, hek⟩ := h.key k d hk
    obtain ⟨e', he', hee⟩ := hd.symm.exists_entry he
    simp only [Dentry.entry, Prod.mk.injEq] at hee
    exact ⟨e', he', by rw [hee.2.2, hee.1, hek]⟩
  · intro d e' he' hd0
    obtain ⟨e, he, hee⟩ := hd.exists_entry he'
    simp only [Dentry.entry, Prod.mk.injEq] at hee
    obtain ⟨up, hup, hhk, m, hm, hcase⟩ := h.dentry d e he hd0
    refine ⟨up, by rw [← hee.2.2, hup], by rw [hd.hash, ← hee.1, hhk], m, by rw [hinum, hm], ?_⟩
    rcases hcase with hroot | ⟨n, hn, ht⟩
    · exact .inl hroot
    · exact .inr ⟨n, by rw [hinum, hn], by rw [← hee.1]; exact htarget d e he up hup n m hn ht⟩
  · intro d d' n h1 h2 hdir'
    rw [hinum] at h1 h2
    exact h.dirs d d' n h1 h2 (hdir d n h1 hdir')
  · intro p v' hv'
    obtain ⟨v, hv, -, hr, -⟩ := hlive p v' hv'
    rw [hr, h.refs p v hv, hd.next, hpts]
  · exact hoff

theorem Vfs.Sound.same (h : s.Sound) (s' : Vfs) (hd : s.SameDentries s')
    (htree : s'.tree = s.tree) (hnb : s'.rfs.vol.sb = s.rfs.vol.sb) (hnext : s.rfs.nextVinode ≤ s'.rfs.nextVinode)
    (hv : s'.rfs.vinodes = s.rfs.vinodes) (hh : s'.vinodeHash = s.vinodeHash)
    (hoff : ∀ f x, s'.files f = some x → 0 ≤ x.offset) : s'.Sound := by
  apply h.retree s' hd (by rw [hnb]; exact h.nblocks) (by rw [htree]; exact h.tree) hnext
  · intro p v' hv'
    rw [hv] at hv'
    exact ⟨v', hv', rfl, rfl, by rw [hh]⟩
  · intro d p hp
    obtain ⟨v, hv', -⟩ := h.points_live hp
    exact ⟨v, by rw [hv]; exact hv'⟩
  · intro i p hi
    rw [hh] at hi
    obtain ⟨v, hv', -⟩ := h.hashed i p hi
    exact ⟨hi, v, by rw [hv]; exact hv'⟩
  · intro p v' hv' n hn
    rw [hv] at hv'
    rw [htree]
    exact h.inUse hv' hn
  · intro d e _ up _ n m _ ht
    rwa [htree]
  · intro d n _ hdir
    rwa [htree] at hdir
  · exact hoff

theorem Vfs.Sound.setVinode (h : s.Sound) (s' : Vfs) (hd : s.SameDentries s')
    (hnb : s'.rfs.vol.sb.nblocks = RFS_NBLOCKS) (htree : s'.tree.Ok)
    (hnext : s.rfs.nextVinode ≤ s'.rfs.nextVinode) (hh : s'.vinodeHash = s.vinodeHash)
    (hv : ∀ p, (s'.rfs.vinodes p).map (fun v => (v.inum, v.ref))
      = (s.rfs.vinodes p).map (fun v => (v.inum, v.ref)))
    (hin : ∀ n, s.tree.InUse n → s'.tree.InUse n)
    (htarget : ∀ d e, s.dentries d = some e → ∀ up, e.parent = some up →
      ∀ n m : Nat, s.inumOf up = some (n : Int) → s.tree.target n e.name = some (m : Int) →
        s'.tree.target n e.name = some (m : Int))
    (hdir : ∀ d (n : Nat), s.inumOf d = some (n : Int) → (s'.tree.disk n).type = R_DIR →
      (s.tree.disk n).type = R_DIR)
    (hoff : ∀ f x, s'.files f = some x → 0 ≤ x.offset) : s'.Sound := by
  have hback : ∀ p v', s'.rfs.vinodes p = some v' →
      ∃ v, s.rfs.vinodes p = some v ∧ v'.inum = v.inum ∧ v'.ref = v.ref := by
    intro p v' hv'
    have hp := hv p
    rw [hv', map_some] at hp
    obtain ⟨v, hvp, heq⟩ := map_eq_some_iff.mp hp.symm
    simp only [Prod.mk.injEq] at heq
    exact ⟨v, hvp, heq.1.symm, heq.2.symm⟩
  have hforth : ∀ p v, s.rfs.vinodes p = some v → ∃ v', s'.rfs.vinodes p = some v' := by
    intro p v hvp
    have hp := hv p
    rw [hvp, map_some] at hp
    obtain ⟨v', hv', -⟩ := map_eq_some_iff.mp hp
    exact ⟨v', hv'⟩
  apply h.retree s' hd hnb htree hnext
  · intro p v' hv'
    obtain ⟨v, hvp, hi, hr⟩ := hback p v' hv'
    exact ⟨v, hvp, hi, hr, by rw [hh]⟩
  · intro d p hp
    obtain ⟨v, hvp, -⟩ := h.points_live hp
    exact hforth p v hvp
  · intro i p hi
    rw [hh] at hi
    obtain ⟨v, hvp, -⟩ := h.hashed i p hi
    exact ⟨hi, hforth p v hvp⟩
  · intro p v' hv' n hn
    obtain ⟨v, hvp, hi, -⟩ := hback p v' hv'
    exact hin n (h.inUse hvp (hi.symm.trans hn))
  · exact htarget
  · exact hdir
  · exact hoff

end

/-! ## New and dropped objects -/

def Vfs.addVinode (s : Vfs) (n : Nat) : Vfs :=
  { s with
    rfs := { s.rfs with
      vinodes := update s.rfs.vinodes s.rfs.nextVinode
        (some { toDinode := s.rfs.vol.disk n, inum := n, ref := 0 })
      nextVinode := s.rfs.nextVinode + 1 }
    vinodeHash := update s.vinodeHash n (some s.rfs.nextVinode) }

/-- A dentry for entry `name` of directory dentry `up`, which points to the
vinode `v` at `p`. -/
def Vfs.addDentry (s : Vfs) (name : Name) (up p : Nat) (v : Vinode) : Vfs :=
  { s with
    rfs := s.rfs.setVinode p { v with ref := v.ref + 1 }
    dentries := update s.dentries s.nextDentry
      (some { name := name, dRef := 0, inode := .rfs p, parent := some up })
    nextDentry := s.nextDentry + 1
    dentryHash := update s.dentryHash (some up, name) (some s.nextDentry) }

/-- Dentry `d`, which points to the vinode `v` at `p`, is forgotten. -/
def Vfs.removeDentry (s : Vfs) (d : Nat) (e : Dentry) (p : Nat) (v : Vinode) : Vfs :=
  { s with
    rfs := s.rfs.setVinode p { v with ref := v.ref + -1 }
    dentries := update s.dentries d none
    dentryHash := update s.dentryHash (e.parent, e.name) none }

section

variable {s : Vfs} {p n d up : Nat} {v : Vinode} {e : Dentry} {name : Name}

theorem Vfs.Sound.ne_fresh (h : s.Sound) (hv : s.rfs.vinodes p = some v) :
    p ≠ s.rfs.nextVinode := by
  rintro rfl
  simp [h.freshVinode _ le_rfl] at hv

theorem Vfs.Sound.tree_addVinode (h : s.Sound) (hn : s.vinodeHash n = none) :
    (s.addVinode n).tree = s.tree := by
  apply Tree.On.tree_eq (s := s.addVinode n) s.tree_on
  have hcache : (s.addVinode n).cache = update s.cache n (some (s.rfs.vol.disk n)) := by
    funext k
    unfold Vfs.cache
    by_cases hk : k = n
    · subst hk
      simp [Vfs.addVinode]
    · have hkn : (k : Int) ≠ n := fun hc => hk (Int.natCast_inj.mp hc)
      simp only [Vfs.addVinode, update_of_ne hk, update_of_ne hkn]
      cases hkh : s.vinodeHash (k : Int) with
      | none => rfl
      | some q =>
        obtain ⟨v, hv, -⟩ := h.hashed k q hkh
        simp [update_of_ne (h.ne_fresh hv)]
  have hself : overlay s.cache s.rfs.vol.disk n = s.rfs.vol.disk n :=
    overlay_uncached (Vfs.cache_of_none hn)
  rw [hcache, overlay_update]
  show overlay s.cache s.rfs.vol.disk = update (overlay s.cache s.rfs.vol.disk) n (s.rfs.vol.disk n)
  rw [← hself, update_eq_self]

theorem Vfs.Sound.addVinode (h : s.Sound) (hn : s.vinodeHash n = none) (hu : s.tree.InUse n) :
    (s.addVinode n).Sound := by
  have htree := h.tree_addVinode hn
  have hold : ∀ q, q ≠ s.rfs.nextVinode → (s.addVinode n).rfs.vinodes q = s.rfs.vinodes q := by
    intro q hq
    simp [Vfs.addVinode, hq]
  have hinum : (s.addVinode n).inumOf = s.inumOf := by
    funext d
    unfold Vfs.inumOf
    show (s.points d).bind _ = _
    cases hp : s.points d with
    | none => rfl
    | some q =>
      obtain ⟨w, hw, -⟩ := h.points_live hp
      simp [hold q (h.ne_fresh hw)]
  constructor
  · exact h.nblocks
  · rw [htree]
    exact h.tree
  · intro q hq
    have hlt : s.rfs.nextVinode + 1 ≤ q := hq
    rw [hold q (by omega)]
    exact h.freshVinode q (by omega)
  · intro q w hw
    rw [htree]
    obtain ⟨rfl, hnew⟩ | ⟨hq, hw⟩ := update_eq_some_iff.mp hw
    · cases hnew
      exact ⟨n, rfl, by simp [Vfs.addVinode], hu⟩
    · obtain ⟨k, hk, hh, hku⟩ := h.vinode q w hw
      have hkn : (k : Int) ≠ n := by
        intro hc
        simp [hc, hn] at hh
      exact ⟨k, hk, by simpa [Vfs.addVinode, hkn] using hh, hku⟩
  · intro i q hi
    obtain ⟨rfl, hnew⟩ | ⟨hin, hi⟩ := update_eq_some_iff.mp hi
    · cases hnew
      exact ⟨_, update_self .., rfl⟩
    · obtain ⟨w, hw, hwi⟩ := h.hashed i q hi
      exact ⟨w, by rw [hold q (h.ne_fresh hw)]; exact hw, hwi⟩
  · exact h.freshDentry
  · exact h.hostRoot
  · rw [hinum]
    exact h.rfsRoot
  · exact h.key
  · unfold Vfs.Named
    rw [hinum, htree]
    exact h.dentry
  · rw [hinum, htree]
    exact h.dirs
  · intro q w hw
    obtain ⟨rfl, hnew⟩ | ⟨hq, hw⟩ := update_eq_some_iff.mp hw
    · cases hnew
      have hz : holders s.nextDentry s.points s.rfs.nextVinode = 0 := by
        refine holders_eq_zero fun d _ hp => ?_
        obtain ⟨v, hv, -⟩ := h.points_live hp
        simp [h.freshVinode _ le_rfl] at hv
      exact (congrArg (fun k : Nat => (k : Int)) hz).symm
    · exact h.refs q w hw
  · exact h.offsets

theorem Vfs.Sound.tree_setRef (h : s.Sound) {s' : Vfs} (hv : s.rfs.vinodes p = some v)
    (hvol : s'.rfs.vol = s.rfs.vol) (hh : s'.vinodeHash = s.vinodeHash) {r : Int}
    (hs : s'.rfs.vinodes = update s.rfs.vinodes p (some { v with ref := r })) :
    s'.tree = s.tree := by
  obtain ⟨n, hn, hpn, -⟩ := h.vinode p v hv
  have hcache := h.cache_set s' hv hn hh hs
  apply Tree.On.tree_eq (hvol ▸ s.tree_on)
  have hcn := Vfs.cache_of_hash hpn hv
  rw [hcache, hvol]
  show overlay s.cache s.rfs.vol.disk = _
  rw [← hcn, update_eq_self]

theorem Vfs.Sound.fields_setRef (h : s.Sound) (s' : Vfs) (hv : s.rfs.vinodes p = some v)
    (hvol : s'.rfs.vol = s.rfs.vol) (hh : s'.vinodeHash = s.vinodeHash)
    (hnext : s'.rfs.nextVinode = s.rfs.nextVinode) {r : Int}
    (hs : s'.rfs.vinodes = update s.rfs.vinodes p (some { v with ref := r })) :
    s'.tree = s.tree ∧
      (∀ q, (s'.rfs.vinodes q).map (fun w => w.inum) = (s.rfs.vinodes q).map (fun w => w.inum)) ∧
      (∀ q, s'.rfs.nextVinode ≤ q → s'.rfs.vinodes q = none) ∧
      (∀ q w, s'.rfs.vinodes q = some w →
        ∃ n : Nat, w.inum = n ∧ s'.vinodeHash n = some q ∧ s'.tree.InUse n) ∧
      ∀ i q, s'.vinodeHash i = some q → ∃ w, s'.rfs.vinodes q = some w ∧ w.inum = i := by
  have htree := h.tree_setRef hv hvol hh hs
  have hvi : ∀ q, (s'.rfs.vinodes q).map (fun w => w.inum)
      = (s.rfs.vinodes q).map (fun w => w.inum) := by
    intro q
    rw [hs]
    by_cases hq : q = p
    · subst hq
      simp [hv]
    · rw [update_of_ne hq]
  rw [htree, hh, hnext]
  refine ⟨rfl, hvi, ?_, ?_, ?_⟩
  · intro q hq
    simpa [h.freshVinode q hq] using hvi q
  · intro q w hw
    have hq := hvi q
    rw [hw, map_some] at hq
    obtain ⟨w0, hw0, hwi⟩ := map_eq_some_iff.mp hq.symm
    obtain ⟨k, hk, hh, hku⟩ := h.vinode q w0 hw0
    exact ⟨k, by rw [← hwi, hk], hh, hku⟩
  · intro i q hi
    obtain ⟨w0, hw0, hwi⟩ := h.hashed i q hi
    have hq := hvi q
    rw [hw0, map_some, hwi] at hq
    exact map_eq_some_iff.mp hq

-- a second dentry of a directory would be a second entry for it
theorem Vfs.Sound.named_once {m : Nat} (h : s.Sound) (hk : s.dentryHash (some up, name) = none)
    (hup : s.inumOf up = some (n : Int)) (ht : s.tree.target n name = some (m : Int))
    (hd : s.inumOf d = some (m : Int)) : (s.tree.disk m).type ≠ R_DIR := by
  intro hdir
  obtain ⟨e, q, -, he, -, hq, -⟩ := Vfs.exists_of_inumOf hd
  have hm0 : m ≠ 0 := by
    obtain ⟨e, hfind, he2⟩ := map_eq_some_iff.mp ht
    obtain ⟨j, hj, hj0, -⟩ := h.tree.counted.target n e (List.mem_of_find?_eq_some hfind)
    rw [he2] at hj
    rwa [Int.natCast_inj.mp hj]
  obtain ⟨up', hpar, hkd, k, hk', hcase⟩ := h.dentry d e he (h.ne_vfsRoot hq)
  obtain rfl : k = m := Int.natCast_inj.mp (some.inj (hk'.symm.trans hd))
  rcases hcase with ⟨-, -, h0⟩ | ⟨j, hj, hjt⟩
  · exact hm0 h0
  · have hcnt := h.tree.counted.dirs k hm0 hdir
    by_cases hsame : n = j ∧ name = e.name
    · obtain ⟨rfl, rfl⟩ := hsame
      obtain rfl := h.dirs up up' n hup hj (h.tree.shape.dir_of_target ht)
      simp [hk] at hkd
    · have htwo := h.tree.shape.two_le_linkCount ht hjt (by
        by_cases hnj : n = j
        · exact .inr (fun hc => hsame ⟨hnj, hc⟩)
        · exact .inl hnj)
      omega

theorem Vfs.Sound.addDentry (h : s.Sound) (hv : s.rfs.vinodes p = some v)
    (hk : s.dentryHash (some up, name) = none) (hup : s.inumOf up = some (n : Int))
    (ht : s.tree.target n name = some v.inum) : (s.addDentry name up p v).Sound := by
  obtain ⟨htree, hvi, hfresh, hvinode, hhashed⟩ :=
    h.fields_setRef (s.addDentry name up p v) hv rfl rfl rfl rfl
  obtain ⟨m, hm, hpm, hmu⟩ := h.vinode p v hv
  rw [hm] at ht
  have hden : ∀ d, d ≠ s.nextDentry → (s.addDentry name up p v).dentries d = s.dentries d := by
    intro d hd
    simp [Vfs.addDentry, hd]
  have hpts : (s.addDentry name up p v).points = update s.points s.nextDentry (some p) := by
    funext d
    unfold Vfs.points
    by_cases hd : d = s.nextDentry
    · subst hd
      simp [Vfs.addDentry, InodePtr.rfs?]
    · rw [hden d hd, update_of_ne hd]
  have hinum : ∀ d, d ≠ s.nextDentry → (s.addDentry name up p v).inumOf d = s.inumOf d := by
    intro d hd
    apply Vfs.inumOf_eq _ hvi
    rw [hpts, update_of_ne hd]
  have hinumNew : (s.addDentry name up p v).inumOf s.nextDentry = some (m : Int) := by
    rw [Vfs.inumOf, hpts, update_self]
    show ((s.addDentry name up p v).rfs.vinodes p).map (fun w => w.inum) = _
    rw [hvi p, hv]
    simp [hm]
  have hlive : ∀ d i, s.inumOf d = some i → d ≠ s.nextDentry := by
    intro d i hi
    obtain ⟨e, -, -, hd, -⟩ := Vfs.exists_of_inumOf hi
    have hlt := h.lt_of_live hd
    omega
  have hup' := hlive up _ hup
  constructor
  · exact h.nblocks
  · rw [htree]
    exact h.tree
  · exact hfresh
  · exact hvinode
  · exact hhashed
  · intro d hd
    have hlt : s.nextDentry + 1 ≤ d := hd
    rw [hden d (by omega)]
    exact h.freshDentry d (by omega)
  · obtain ⟨e, he, hhost, hpar⟩ := h.hostRoot
    have hlt := h.lt_of_live he
    exact ⟨e, by rw [hden _ (by omega)]; exact he, hhost, hpar⟩
  · rw [hinum _ (hlive _ _ h.rfsRoot)]
    exact h.rfsRoot
  · intro k d hkd
    obtain ⟨rfl, hnew⟩ | ⟨-, hkd⟩ := update_eq_some_iff.mp hkd
    · cases hnew
      exact ⟨_, update_self .., rfl⟩
    · obtain ⟨e, he, hek⟩ := h.key k d hkd
      exact ⟨e, by rw [hden d (h.lt_of_live he).ne]; exact he, hek⟩
  · intro d e he hd0
    obtain ⟨rfl, hnew⟩ | ⟨hd, he⟩ := update_eq_some_iff.mp he
    · cases hnew
      exact ⟨up, rfl, update_self .., m, hinumNew,
        .inr ⟨n, by rw [hinum up hup', hup], by rw [htree, ht]⟩⟩
    · obtain ⟨up', hpar, hkd, k, hk', hcase⟩ := h.dentry d e he hd0
      have hkk : (some up', e.name) ≠ (some up, name) := by
        intro hc
        simp [hc, hk] at hkd
      refine ⟨up', hpar, (update_of_ne hkk ..).trans hkd, k, by rw [hinum d hd, hk'], ?_⟩
      rcases hcase with hroot | ⟨j, hj, hjt⟩
      · exact .inl hroot
      · exact .inr ⟨j, by rw [hinum up' (hlive _ _ hj), hj], by rw [htree, hjt]⟩
  · intro d d' k h1 h2 hdir
    -- two old dentries, or the new one with an old one
    by_cases hd : d = s.nextDentry
    · by_cases hd' : d' = s.nextDentry
      · rw [hd, hd']
      · rw [hd, hinumNew] at h1
        obtain rfl : m = k := Int.natCast_inj.mp (some.inj h1)
        rw [hinum d' hd'] at h2
        exact absurd hdir (h.named_once hk hup ht h2)
    · rw [hinum d hd] at h1
      by_cases hd' : d' = s.nextDentry
      · rw [hd', hinumNew] at h2
        obtain rfl : m = k := Int.natCast_inj.mp (some.inj h2)
        exact absurd hdir (h.named_once hk hup ht h1)
      · rw [hinum d' hd'] at h2
        exact h.dirs d d' k h1 h2 hdir
  · intro q w hw
    have hpush := holders_push (n := s.nextDentry) (p := s.points) (k := q) (some p)
    show w.ref = ((holders (s.nextDentry + 1) (s.addDentry name up p v).points q : Nat) : Int)
    rw [hpts, hpush]
    obtain ⟨rfl, hnew⟩ | ⟨hq, hw⟩ := update_eq_some_iff.mp hw
    · cases hnew
      rw [if_pos rfl, h.refs q v hv]
      rfl
    · have hne : ¬ some p = some q := fun hc => hq (some.inj hc).symm
      rw [if_neg hne, Nat.add_zero, h.refs q w hw]
  · exact h.offsets

theorem Vfs.Sound.removeDentry (h : s.Sound) (hv : s.rfs.vinodes p = some v)
    (hd : s.dentries d = some e) (he : e.inode = .rfs p) (hm : v.inum = n)
    (hfile : (s.tree.disk n).type = R_FILE) : (s.removeDentry d e p v).Sound := by
  obtain ⟨htree, hvi, hfresh, hvinode, hhashed⟩ :=
    h.fields_setRef (s.removeDentry d e p v) hv rfl rfl rfl rfl
  have hpd := Vfs.points_of_inode hd he
  have hdn : s.inumOf d = some (n : Int) := by rw [Vfs.inumOf_of_vinode hpd hv, hm]
  have hden : ∀ d', d' ≠ d → (s.removeDentry d e p v).dentries d' = s.dentries d' := by
    intro d' hd'
    simp [Vfs.removeDentry, hd']
  have hnone : (s.removeDentry d e p v).dentries d = none := by simp [Vfs.removeDentry]
  have hpts : (s.removeDentry d e p v).points = update s.points d none := by
    funext d'
    unfold Vfs.points
    by_cases hd' : d' = d
    · subst hd'
      rw [hnone, update_self]
      rfl
    · rw [hden d' hd', update_of_ne hd']
  have hinum : ∀ d', d' ≠ d → (s.removeDentry d e p v).inumOf d' = s.inumOf d' := by
    intro d' hd'
    apply Vfs.inumOf_eq _ hvi
    rw [hpts, update_of_ne hd']
  have hinumSub : ∀ d' i, (s.removeDentry d e p v).inumOf d' = some i → s.inumOf d' = some i := by
    intro d' i hi
    by_cases hd' : d' = d
    · subst hd'
      unfold Vfs.inumOf at hi
      simp [hpts, update_self] at hi
    · rwa [← hinum d' hd']
  -- a directory is not the dentry that goes
  have hdirNe : ∀ d' (k : Nat), s.inumOf d' = some (k : Int) →
      (s.tree.disk k).type = R_DIR → d' ≠ d := by
    rintro d' k hk hdir rfl
    rw [hdn] at hk
    obtain rfl : n = k := Int.natCast_inj.mp (some.inj hk)
    exact R_FILE_ne_R_DIR (hfile.symm.trans hdir)
  have hroot1 : rfsRootDentry ≠ d := hdirNe rfsRootDentry 0 h.rfsRoot h.tree.shape.root
  have hroot0 := Ne.symm (h.ne_vfsRoot hpd)
  obtain ⟨upd, hupd, hkd, -⟩ := h.dentry d e hd (Ne.symm hroot0)
  constructor
  · exact h.nblocks
  · rw [htree]
    exact h.tree
  · exact hfresh
  · exact hvinode
  · exact hhashed
  · intro d' hlt
    by_cases hd' : d' = d
    · rw [hd', hnone]
    · rw [hden d' hd']
      exact h.freshDentry d' hlt
  · obtain ⟨e0, he0, hhost, hpar⟩ := h.hostRoot
    exact ⟨e0, by rw [hden _ hroot0]; exact he0, hhost, hpar⟩
  · rw [hinum _ hroot1]
    exact h.rfsRoot
  · intro k d' hk
    obtain ⟨-, hnew⟩ | ⟨hkk, hk⟩ := update_eq_some_iff.mp hk
    · cases hnew
    · obtain ⟨e', he', hek⟩ := h.key k d' hk
      have hd' : d' ≠ d := by
        rintro rfl
        cases hd.symm.trans he'
        exact hkk hek.symm
      exact ⟨e', by rw [hden d' hd']; exact he', hek⟩
  · intro d' e' he' hd0
    obtain ⟨-, hnew⟩ | ⟨hd', he'⟩ := update_eq_some_iff.mp he'
    · cases hnew
    obtain ⟨up, hpar, hk, m, hm', hcase⟩ := h.dentry d' e' he' hd0
    have hkk : (some up, e'.name) ≠ (e.parent, e.name) := by
      intro hc
      rw [hc, hupd, hkd] at hk
      exact hd' (some.inj hk).symm
    refine ⟨up, hpar, (update_of_ne hkk ..).trans hk, m, by rw [hinum d' hd', hm'], ?_⟩
    rcases hcase with hroot | ⟨k, hk', ht⟩
    · exact .inl hroot
    · have hup := hdirNe up k hk' (h.tree.shape.dir_of_target ht)
      exact .inr ⟨k, by rw [hinum up hup, hk'], by rw [htree, ht]⟩
  · intro d1 d2 k h1 h2 hdir
    exact h.dirs d1 d2 k (hinumSub _ _ h1) (hinumSub _ _ h2) hdir
  · intro q w hw
    have hset := holders_set (n := s.nextDentry) (p := s.points) (k := q) (h.lt_of_live hd) none
    show w.ref = ((holders s.nextDentry (s.removeDentry d e p v).points q : Nat) : Int)
    rw [hpts]
    simp only [hpd, reduceCtorEq, if_false] at hset
    obtain ⟨rfl, hnew⟩ | ⟨hq, hw⟩ := update_eq_some_iff.mp hw
    · cases hnew
      have hr := h.refs q v hv
      rw [if_pos rfl] at hset
      dsimp only
      omega
    · have hne : ¬ some p = some q := fun hc => hq (some.inj hc).symm
      have hr := h.refs q w hw
      rw [if_neg hne] at hset
      omega
  · exact h.offsets

end

end CabbagePKE
