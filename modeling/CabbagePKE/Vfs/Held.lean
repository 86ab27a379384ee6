import CabbagePKE.Vfs.Streams
import CabbagePKE.Vfs.Operations

/-!
# What an open file holds

An open file counts in the `d_ref` of its dentry, and a dentry in the `ref` of
its vinode, so neither is freed while the file is open, also where the hash
tables or the disk are in disorder. The size of a regular file in memory only
grows, except that `rfs_unlink` takes an entry out of whatever the path calls its
directory.
-/

namespace CabbagePKE

open Lib Function

/-! ## The invariant -/

/-- The dentry that `f` is open on. The file `closing` is about to be closed and does not count. -/
def Vfs.user (s : Vfs) (closing : Option Nat) (f : Nat) : Option Nat :=
  if closing = some f then none
  else (s.files f).bind (fun x => if x.opened then some x.dentry else none)

/-- The file is a regular file of the RAM disk, and its offset lies in it. -/
def Vfs.InFile (s : Vfs) (x : File) : Prop :=
  ∃ p v, s.points x.dentry = some p ∧ s.rfs.vinodes p = some v ∧ v.type = R_FILE ∧
    0 ≤ x.offset ∧ x.offset ≤ v.size

/-- The counts cover what they count, and every open file is at an offset in its file. -/
structure Vfs.Held (s : Vfs) (closing : Option Nat) : Prop where
  freshVinode : ∀ p, s.rfs.nextVinode ≤ p → s.rfs.vinodes p = none
  freshDentry : ∀ d, s.nextDentry ≤ d → s.dentries d = none
  freshFile : ∀ f, s.nextFile ≤ f → s.files f = none
  hashed : ∀ i p, s.vinodeHash i = some p → p < s.rfs.nextVinode
  pointed : ∀ d p, s.points d = some p → ∃ v, s.rfs.vinodes p = some v
  refs : ∀ p v, s.rfs.vinodes p = some v → (holders s.nextDentry s.points p : Int) ≤ v.ref
  users : ∀ d e, s.dentries d = some e → (holders s.nextFile (s.user closing) d : Int) ≤ e.dRef
  fits : ∀ p v, s.rfs.vinodes p = some v → Fits32 v.size
  inFile : ∀ f x, s.files f = some x → s.user closing f = some x.dentry → s.InFile x

/-- `v'` is a later state of the vinode `v`, with the same number of references. -/
structure Vinode.Kept (v v' : Vinode) : Prop where
  ref : v'.ref = v.ref
  type : v'.type = v.type
  fits : Fits32 v.size → Fits32 v'.size
  grows : v.type = R_FILE → v.size ≤ v'.size

structure Rfs.Kept (fs fs' : Rfs) : Prop where
  next : fs'.nextVinode = fs.nextVinode
  live : ∀ p v, fs.vinodes p = some v → ∃ v', fs'.vinodes p = some v'
  back : ∀ p v', fs'.vinodes p = some v' → ∃ v, fs.vinodes p = some v ∧ v.Kept v'

def Rfs.fetched (fs : Rfs) (vol : Volume) (v : Vinode) : Rfs where
  vol := vol
  vinodes := update fs.vinodes fs.nextVinode (some v)
  nextVinode := fs.nextVinode + 1

section

variable {v v' v'' : Vinode} {fs fs' fs'' : Rfs} {p : Nat}

theorem Vinode.Kept.refl (v : Vinode) : v.Kept v := ⟨rfl, rfl, id, fun _ => Int.le_refl _⟩

theorem Vinode.Kept.trans (h : v.Kept v') (h' : v'.Kept v'') : v.Kept v'' where
  ref := h'.ref.trans h.ref
  type := h'.type.trans h.type
  fits hv := h'.fits (h.fits hv)
  grows hv := Int.le_trans (h.grows hv) (h'.grows (h.type.trans hv))

theorem Rfs.Kept.of_eq (hn : fs'.nextVinode = fs.nextVinode) (hv : fs'.vinodes = fs.vinodes) :
    fs.Kept fs' where
  next := hn
  live p v hp := ⟨v, by rw [hv, hp]⟩
  back p v hp := ⟨v, by rw [← hv, hp], .refl v⟩

theorem Rfs.Kept.trans (h : fs.Kept fs') (h' : fs'.Kept fs'') : fs.Kept fs'' where
  next := h'.next.trans h.next
  live p v hv := by
    obtain ⟨v', hv'⟩ := h.live p v hv
    exact h'.live p v' hv'
  back p v'' hv'' := by
    obtain ⟨v', hv', hk'⟩ := h'.back p v'' hv''
    obtain ⟨v, hv, hk⟩ := h.back p v' hv'
    exact ⟨v, hv, hk.trans hk'⟩

theorem Rfs.Kept.setVinode (hv : fs.vinodes p = some v) (hk : v.Kept v') (vol : Volume) :
    fs.Kept { fs.setVinode p v' with vol := vol } where
  next := rfl
  live q w hw := by
    by_cases hq : q = p
    · exact ⟨v', by rw [hq]; exact update_self ..⟩
    · exact ⟨w, by rw [← hw]; exact update_of_ne hq ..⟩
  back q w hw := by
    rcases update_eq_some_iff.mp hw with ⟨rfl, hnew⟩ | ⟨-, hw⟩
    · cases hnew
      exact ⟨v, hv, hk⟩
    · exact ⟨w, hw, .refl w⟩

end

/-! ## Changes that keep it -/

section

variable {s : Vfs} {c : Option Nat} {d p f : Nat} {e : Dentry} {v : Vinode} {x : File}

theorem Vfs.exists_of_user (h : s.user c f = some d) :
    ∃ x, s.files f = some x ∧ x.opened = true ∧ x.dentry = d := by
  unfold Vfs.user at h
  split at h
  · cases h
  · obtain ⟨x, hx, hd⟩ := Option.bind_eq_some_iff.mp h
    split at hd
    · rename_i hopen
      cases hd
      exact ⟨x, hx, hopen, rfl⟩
    · cases hd

theorem Vfs.user_of_opened (hx : s.files f = some x) (hopen : x.opened = true) :
    s.user none f = some x.dentry := by simp [Vfs.user, hx, hopen]

theorem Vfs.points_setDentry (s : Vfs) (d : Nat) (e : Dentry) :
    (s.setDentry d e).points = update s.points d e.inode.rfs? := by
  funext k
  by_cases hk : k = d
  · subst hk
    simp [Vfs.points, Vfs.setDentry]
  · simp [Vfs.points, Vfs.setDentry, hk]

theorem Vfs.points_setDentry_same {e' : Dentry} (hd : s.dentries d = some e)
    (hi : e'.inode = e.inode) : (s.setDentry d e').points = s.points := by
  have hp : s.points d = e'.inode.rfs? := by rw [Vfs.points, hd, Option.bind_some, hi]
  rw [Vfs.points_setDentry, ← hp, update_eq_self]

theorem Vfs.points_freeDentry (s : Vfs) (d : Nat) :
    (s.freeDentry d).points = update s.points d none := by
  funext k
  by_cases hk : k = d
  · subst hk
    simp [Vfs.points, Vfs.freeDentry]
  · simp [Vfs.points, Vfs.freeDentry, hk]

theorem Vfs.Held.dentry_lt (h : s.Held c) (hd : s.dentries d = some e) : d < s.nextDentry := by
  by_contra hle
  simp [h.freshDentry d (by omega)] at hd

theorem Vfs.Held.freshDentry_update (h : s.Held c) (hd : s.dentries d = some e)
    (x : Option Dentry) : ∀ k, s.nextDentry ≤ k → update s.dentries d x k = none := by
  intro k hk
  have hlt := h.dentry_lt hd
  rw [update_of_ne (by omega)]
  exact h.freshDentry k hk

theorem Vfs.Held.file_lt (h : s.Held c) (hf : s.files f = some x) : f < s.nextFile := by
  by_contra hle
  simp [h.freshFile f (by omega)] at hf

theorem Vfs.Held.points_lt (h : s.Held c) (hp : s.points d = some p) : p < s.rfs.nextVinode := by
  obtain ⟨v, hv⟩ := h.pointed d p hp
  by_contra hle
  simp [h.freshVinode p (by omega)] at hv

theorem Vfs.Held.user_live (h : s.Held c) (hu : s.user c f = some d) :
    ∃ e, s.dentries d = some e := by
  obtain ⟨x, hx, -, rfl⟩ := Vfs.exists_of_user hu
  obtain ⟨p, -, hp, -⟩ := h.inFile f x hx hu
  obtain ⟨e, he, -⟩ := Vfs.exists_of_points hp
  exact ⟨e, he⟩

theorem Vfs.Held.unused (h : s.Held c) (hd : s.dentries d = some e) (href : ¬ 0 < e.dRef) (f : Nat) :
    s.user c f ≠ some d := by
  intro hu
  obtain ⟨x, hx, -⟩ := Vfs.exists_of_user hu
  have hpos := holders_pos (h.file_lt hx) hu
  have hle := h.users d e hd
  omega

theorem Vfs.Held.unpointed (h : s.Held c) (hv : s.rfs.vinodes p = some v) (href : ¬ 0 < v.ref)
    (d : Nat) : s.points d ≠ some p := by
  intro hp
  obtain ⟨e, he, -⟩ := Vfs.exists_of_points hp
  have hpos := holders_pos (h.dentry_lt he) hp
  have hle := h.refs p v hv
  omega

theorem Vfs.Held.withRfs {fs : Rfs} (h : s.Held c) (hnext : s.rfs.nextVinode ≤ fs.nextVinode)
    (hfresh : ∀ p, fs.nextVinode ≤ p → fs.vinodes p = none)
    (hlive : ∀ d p v, s.points d = some p → s.rfs.vinodes p = some v → ∃ v',
      fs.vinodes p = some v' ∧ v'.type = v.type ∧ (v.type = R_FILE → v.size ≤ v'.size))
    (hback : ∀ p v', fs.vinodes p = some v' →
      (holders s.nextDentry s.points p : Int) ≤ v'.ref ∧ Fits32 v'.size) :
    Vfs.Held { s with rfs := fs } c := by
  refine { h with
    freshVinode := hfresh, refs := fun p v hv => (hback p v hv).1,
    fits := fun p v hv => (hback p v hv).2,
    hashed := fun i p hi => (h.hashed i p hi).trans_le hnext,
    pointed := fun d p hp => ?_, inFile := fun f x hx hu => ?_ }
  · obtain ⟨v, hv⟩ := h.pointed d p hp
    obtain ⟨v', hv', -⟩ := hlive d p v hp hv
    exact ⟨v', hv'⟩
  · obtain ⟨p, v, hp, hv, htype, hlo, hhi⟩ := h.inFile f x hx hu
    obtain ⟨v', hv', htype', hsize⟩ := hlive _ p v hp hv
    exact ⟨p, v', hp, hv', htype'.trans htype, hlo, Int.le_trans hhi (hsize htype)⟩

theorem Vfs.Held.kept {fs : Rfs} (h : s.Held c) (hk : s.rfs.Kept fs) :
    Vfs.Held { s with rfs := fs } c := by
  refine h.withRfs hk.next.ge (fun p hp => ?_) (fun d p v _ hv => ?_) (fun p v' hv' => ?_)
  · by_contra hne
    obtain ⟨v', hv'⟩ := Option.ne_none_iff_exists'.mp hne
    obtain ⟨v, hv, -⟩ := hk.back p v' hv'
    rw [h.freshVinode p (by rw [← hk.next]; exact hp)] at hv
    cases hv
  · obtain ⟨v', hv'⟩ := hk.live p v hv
    obtain ⟨w, hw, hwk⟩ := hk.back p v' hv'
    cases hv.symm.trans hw
    exact ⟨v', hv', hwk.type, hwk.grows⟩
  · obtain ⟨v, hv, hvk⟩ := hk.back p v' hv'
    rw [hvk.ref]
    exact ⟨h.refs p v hv, hvk.fits (h.fits p v hv)⟩

theorem Vfs.Held.setDev (h : s.Held c) (rdev : RfsDevice) :
    Vfs.Held { s with rfs := s.rfs.setDev rdev } c :=
  h.kept (.of_eq rfl rfl)

theorem Vfs.Held.fetched (h : s.Held c) (vol : Volume) (href : v.ref = 0) (hfits : Fits32 v.size) :
    Vfs.Held { s with rfs := s.rfs.fetched vol v } c := by
  refine h.withRfs (Nat.le_succ _) (fun p hp => ?_) (fun d p w hp hw => ?_) (fun p w hw => ?_)
  · have hlt : s.rfs.nextVinode + 1 ≤ p := hp
    exact (update_of_ne (by omega) ..).trans (h.freshVinode p (by omega))
  · have hlt : p < s.rfs.nextVinode := h.points_lt hp
    exact ⟨w, (update_of_ne (hlt.ne) ..).trans hw, rfl, fun _ => Int.le_refl _⟩
  · rcases update_eq_some_iff.mp hw with ⟨rfl, hnew⟩ | ⟨-, hw⟩
    · cases hnew
      have hzero : holders s.nextDentry s.points s.rfs.nextVinode = 0 := by
        refine holders_eq_zero fun d _ hd => ?_
        have hlt := h.points_lt hd
        omega
      exact ⟨by omega, hfits⟩
    · exact ⟨h.refs p w hw, h.fits p w hw⟩

theorem Vfs.Held.setRef {r : Int} (h : s.Held c) (hv : s.rfs.vinodes p = some v)
    (hr : (holders s.nextDentry s.points p : Int) ≤ r) :
    (s.setVinode p { v with ref := r }).Held c := by
  refine h.withRfs le_rfl (fun q hq => ?_) (fun d q w _ hw => ?_) (fun q w hw => ?_)
  · have hne : q ≠ p := by
      rintro rfl
      simp [h.freshVinode q hq] at hv
    exact (update_of_ne hne ..).trans (h.freshVinode q hq)
  · by_cases hq : q = p
    · subst hq
      cases hv.symm.trans hw
      exact ⟨_, update_self .., rfl, fun _ => Int.le_refl _⟩
    · exact ⟨w, (update_of_ne hq ..).trans hw, rfl, fun _ => Int.le_refl _⟩
  · rcases update_eq_some_iff.mp hw with ⟨rfl, hnew⟩ | ⟨-, hw⟩
    · cases hnew
      exact ⟨hr, h.fits q v hv⟩
    · exact ⟨h.refs q w hw, h.fits q w hw⟩

theorem Vfs.Held.freeVinode (h : s.Held c) (hno : ∀ d, s.points d ≠ some p) :
    (s.freeVinode p).Held c := by
  refine h.withRfs le_rfl (fun q hq => ?_) (fun d q w hd hw => ?_) (fun q w hw => ?_)
  · by_cases hqp : q = p
    · rw [hqp]
      exact update_self ..
    · exact (update_of_ne hqp ..).trans (h.freshVinode q hq)
  · have hne : q ≠ p := fun hq => hno d (hq ▸ hd)
    exact ⟨w, (update_of_ne hne ..).trans hw, rfl, fun _ => Int.le_refl _⟩
  · rcases update_eq_some_iff.mp hw with ⟨-, hw⟩ | ⟨-, hw⟩
    · cases hw
    · exact ⟨h.refs q w hw, h.fits q w hw⟩

theorem Vfs.Held.allocVfsDentry (h : s.Held c) (name : Name) (parent : Option Nat) :
    (CabbagePKE.allocVfsDentry s name parent).2.Held c := by
  have hnone : s.points s.nextDentry = none := by
    rw [Vfs.points, h.freshDentry _ le_rfl, Option.bind_none]
  have hpts : (CabbagePKE.allocVfsDentry s name parent).2.points = s.points := by
    show (s.setDentry s.nextDentry _).points = s.points
    rw [Vfs.points_setDentry]
    show update s.points s.nextDentry none = s.points
    rw [← hnone, update_eq_self]
  refine { h with
    freshDentry := ?_, pointed := ?_, refs := ?_, users := ?_, inFile := ?_ }
  · intro d hd
    have hlt : s.nextDentry + 1 ≤ d := hd
    refine (update_of_ne (by omega) ..).trans (h.freshDentry d (by omega))
  · intro d p hp
    rw [hpts] at hp
    exact h.pointed d p hp
  · intro p v hv
    have hpush := holders_push (n := s.nextDentry) (p := s.points) (k := p) none
    rw [← hnone, update_eq_self, hnone, if_neg (by simp), Nat.add_zero] at hpush
    rw [hpts]
    show ((holders (s.nextDentry + 1) s.points p : Nat) : Int) ≤ v.ref
    rw [hpush]
    exact h.refs p v hv
  · intro d e he
    rcases update_eq_some_iff.mp he with ⟨rfl, hnew⟩ | ⟨-, he⟩
    · cases hnew
      -- a file would be open on a dentry that is not there
      have hzero : holders s.nextFile (s.user c) s.nextDentry = 0 := by
        refine holders_eq_zero fun f _ hu => ?_
        obtain ⟨e, he⟩ := h.user_live hu
        exact absurd (h.dentry_lt he) (lt_irrefl _)
      show ((holders s.nextFile (s.user c) s.nextDentry : Nat) : Int) ≤ 0
      omega
    · exact h.users d e he
  · intro f x hx hu
    obtain ⟨p, v, hp, hrest⟩ := h.inFile f x hx hu
    exact ⟨p, v, by rw [hpts]; exact hp, hrest⟩

theorem Vfs.Held.freeDentry (h : s.Held c) (hd : s.dentries d = some e)
    (hno : ∀ f, s.user c f ≠ some d) : (s.freeDentry d).Held c := by
  have hpts := s.points_freeDentry d
  refine { h with
    freshDentry := h.freshDentry_update hd _, pointed := ?_, refs := ?_, users := ?_
    inFile := ?_ }
  · intro k p hp
    rw [hpts] at hp
    rcases update_eq_some_iff.mp hp with ⟨-, hp⟩ | ⟨-, hp⟩
    · cases hp
    · exact h.pointed k p hp
  · intro p v hv
    have hset := holders_set (n := s.nextDentry) (p := s.points) (k := p) (h.dentry_lt hd) none
    have hle := h.refs p v hv
    have hnone : ¬ (none : Option Nat) = some p := by simp
    rw [if_neg hnone] at hset
    rw [hpts]
    show ((holders s.nextDentry (update s.points d none) p : Nat) : Int) ≤ v.ref
    omega
  · intro k e' hk
    rcases update_eq_some_iff.mp hk with ⟨-, hk⟩ | ⟨-, hk⟩
    · cases hk
    · exact h.users k e' hk
  · intro f x hx hu
    obtain ⟨p, v, hp, hrest⟩ := h.inFile f x hx hu
    have hne : x.dentry ≠ d := fun hxd => hno f (by rw [← hxd]; exact hu)
    refine ⟨p, v, ?_, hrest⟩
    rwa [hpts, update_of_ne hne]

theorem Vfs.Held.point (h : s.Held c) (hd : s.dentries d = some e) (hnull : e.inode = .null)
    (hv : s.rfs.vinodes p = some v) (hr : (holders s.nextDentry s.points p : Int) + 1 ≤ v.ref) :
    (s.setDentry d { e with inode := .rfs p }).Held c := by
  have hnone : s.points d = none := by rw [Vfs.points, hd, Option.bind_some, hnull]; rfl
  have hpts : (s.setDentry d { e with inode := .rfs p }).points
      = update s.points d (some p) := s.points_setDentry d _
  refine { h with
    freshDentry := h.freshDentry_update hd _, pointed := ?_, refs := ?_, users := ?_
    inFile := ?_ }
  · intro k q hq
    rw [hpts] at hq
    rcases update_eq_some_iff.mp hq with ⟨-, hq⟩ | ⟨-, hq⟩
    · cases hq
      exact ⟨v, hv⟩
    · exact h.pointed k q hq
  · intro q w hw
    have hset := holders_set (n := s.nextDentry) (p := s.points) (k := q) (h.dentry_lt hd) (some p)
    rw [hnone, if_neg (by simp)] at hset
    have hle := h.refs q w hw
    rw [hpts]
    show ((holders s.nextDentry (update s.points d (some p)) q : Nat) : Int) ≤ w.ref
    by_cases hq : q = p
    · subst hq
      have hw' : s.rfs.vinodes q = some w := hw
      cases hv.symm.trans hw'
      rw [if_pos rfl] at hset
      omega
    · rw [if_neg (by simpa using Ne.symm hq)] at hset
      omega
  · intro k e' hk
    rcases update_eq_some_iff.mp hk with ⟨rfl, hnew⟩ | ⟨-, hk⟩
    · cases hnew
      exact h.users k e hd
    · exact h.users k e' hk
  · intro f x hx hu
    obtain ⟨q, w, hq, hrest⟩ := h.inFile f x hx hu
    have hne : x.dentry ≠ d := by
      intro hxd
      simp [hxd, hnone] at hq
    refine ⟨q, w, ?_, hrest⟩
    rwa [hpts, update_of_ne hne]

theorem Vfs.Held.rehash {vinodeHash : Int → Option Nat}
    {dentryHash : Option Nat × Name → Option Nat} (h : s.Held c)
    (hh : ∀ i p, vinodeHash i = some p → p < s.rfs.nextVinode) :
    Vfs.Held { s with vinodeHash := vinodeHash, dentryHash := dentryHash } c :=
  { h with hashed := hh }

end

/-! ## Opening, moving and closing a file -/

section

variable {s : Vfs} {d f k : Nat} {e : Dentry} {x : File}

theorem Vfs.user_setFile (s : Vfs) (f : Nat) (x : File) :
    Vfs.user { s with files := update s.files f (some x) } none
      = update (s.user none) f (if x.opened then some x.dentry else none) := by
  funext k
  by_cases hk : k = f
  · subst hk
    simp [Vfs.user]
  · simp [Vfs.user, hk]

theorem Vfs.user_closing (s : Vfs) (f : Nat) : s.user (some f) = update (s.user none) f none := by
  funext k
  by_cases hk : k = f
  · subst hk
    simp [Vfs.user]
  · simp [Vfs.user, hk, Ne.symm hk]

theorem Vfs.Held.freshFile_update {c : Option Nat} (h : s.Held c) (hf : f < k)
    (hk : s.nextFile ≤ k) (x : Option File) : ∀ g, k ≤ g → update s.files f x g = none := by
  intro g hg
  rw [update_of_ne (by omega)]
  exact h.freshFile g (by omega)

theorem Vfs.Held.openFile (h : s.Held none) (hd : s.dentries d = some e)
    (hx : x.opened = true ∧ x.dentry = d) (hin : s.InFile x) :
    Vfs.Held { s.setDentry d { e with dRef := e.dRef + 1 } with
      files := update s.files s.nextFile (some x)
      nextFile := s.nextFile + 1 } none := by
  have hpts : (s.setDentry d { e with dRef := e.dRef + 1 }).points = s.points :=
    Vfs.points_setDentry_same hd rfl
  have huser := s.user_setFile s.nextFile x
  rw [if_pos hx.1, hx.2] at huser
  refine { h with
    freshDentry := h.freshDentry_update hd _
    freshFile := h.freshFile_update (Nat.lt_succ_self _) (Nat.le_succ _) _
    pointed := ?_, refs := ?_, users := ?_, inFile := ?_ }
  · intro k q hq
    have hq' : (s.setDentry d { e with dRef := e.dRef + 1 }).points k = some q := hq
    rw [hpts] at hq'
    exact h.pointed k q hq'
  · intro q w hw
    show ((holders s.nextDentry (s.setDentry d { e with dRef := e.dRef + 1 }).points q : Nat) : Int)
      ≤ w.ref
    rw [hpts]
    exact h.refs q w hw
  · intro k e' hk
    have hpush := holders_push (n := s.nextFile) (p := s.user none) (k := k) (some d)
    rw [← huser] at hpush
    show ((holders (s.nextFile + 1) (Vfs.user { s with
      files := update s.files s.nextFile (some x) } none) k : Nat) : Int) ≤ e'.dRef
    rw [hpush]
    rcases update_eq_some_iff.mp hk with ⟨rfl, hnew⟩ | ⟨hkd, hk⟩
    · cases hnew
      have hle := h.users k e hd
      rw [if_pos rfl]
      dsimp only
      omega
    · have hle := h.users k e' hk
      rw [if_neg (by simpa using Ne.symm hkd)]
      omega
  · intro g y hy hu
    have hin' : s.InFile y := by
      rcases update_eq_some_iff.mp hy with ⟨-, hy⟩ | ⟨hg, hy⟩
      · cases hy
        exact hin
      · have hu' : Vfs.user { s with files := update s.files s.nextFile (some x) } none g
          = some y.dentry := hu
        rw [huser, update_of_ne hg] at hu'
        exact h.inFile g y hy hu'
    obtain ⟨q, w, hq, hrest⟩ := hin'
    refine ⟨q, w, ?_, hrest⟩
    show (s.setDentry d { e with dRef := e.dRef + 1 }).points y.dentry = some q
    rwa [hpts]

theorem Vfs.Held.setOffset {offset : Int} (h : s.Held none) (hx : s.files f = some x)
    (hopen : x.opened = true) (hin : s.InFile { x with offset := offset }) :
    (s.setOffset f x offset).Held none := by
  have huser : (s.setOffset f x offset).user none = s.user none := by
    show Vfs.user { s with files := update s.files f _ } none = _
    rw [Vfs.user_setFile]
    rw [if_pos hopen, ← Vfs.user_of_opened hx hopen, update_eq_self]
  refine { h with
    freshFile := h.freshFile_update (h.file_lt hx) le_rfl _
    users := ?_, inFile := ?_ }
  · intro d e he
    rw [huser]
    exact h.users d e he
  · intro g y hy hu
    rcases update_eq_some_iff.mp hy with ⟨-, hy⟩ | ⟨-, hy⟩
    · cases hy
      exact hin
    · rw [huser] at hu
      exact h.inFile g y hy hu

theorem Vfs.Held.closing (h : s.Held none) (hx : s.files f = some x) (hopen : x.opened = true)
    (hd : s.dentries x.dentry = some e) :
    (s.setDentry x.dentry { e with dRef := e.dRef - 1 }).Held (some f) := by
  have hpts : (s.setDentry x.dentry { e with dRef := e.dRef - 1 }).points = s.points :=
    Vfs.points_setDentry_same hd rfl
  have hu0 := Vfs.user_of_opened hx hopen
  have huser : (s.setDentry x.dentry { e with dRef := e.dRef - 1 }).user (some f)
      = update (s.user none) f none := s.user_closing f
  refine { h with
    freshDentry := h.freshDentry_update hd _, pointed := ?_, refs := ?_, users := ?_
    inFile := ?_ }
  · intro k q hq
    rw [hpts] at hq
    exact h.pointed k q hq
  · intro q w hw
    rw [hpts]
    exact h.refs q w hw
  · intro k e' hk
    have hset := holders_set (n := s.nextFile) (p := s.user none) (k := k) (h.file_lt hx) none
    have hnone : ¬ (none : Option Nat) = some k := by simp
    rw [if_neg hnone, hu0] at hset
    rw [huser]
    show ((holders s.nextFile (update (s.user none) f none) k : Nat) : Int) ≤ e'.dRef
    rcases update_eq_some_iff.mp hk with ⟨rfl, hnew⟩ | ⟨hkd, hk⟩
    · cases hnew
      have hle := h.users x.dentry e hd
      rw [if_pos rfl] at hset
      dsimp only
      omega
    · have hle := h.users k e' hk
      omega
  · intro g y hy hu
    rw [huser] at hu
    have hg : g ≠ f := by
      rintro rfl
      simp [update_self] at hu
    rw [update_of_ne hg] at hu
    obtain ⟨q, w, hq, hrest⟩ := h.inFile g y hy hu
    exact ⟨q, w, by rw [hpts]; exact hq, hrest⟩

theorem Vfs.Held.closed (h : s.Held (some f)) (hx : s.files f = some x) : Vfs.Held { s with
      files := update s.files f (some { x with opened := false }) } none := by
  have huser : Vfs.user { s with
      files := update s.files f (some { x with opened := false }) } none
      = s.user (some f) := by
    rw [Vfs.user_setFile, Vfs.user_closing]
    rfl
  refine { h with
    freshFile := h.freshFile_update (h.file_lt hx) le_rfl _
    users := ?_, inFile := ?_ }
  · intro d e he
    rw [huser]
    exact h.users d e he
  · intro g y hy hu
    rw [huser] at hu
    have hg : g ≠ f := by
      rintro rfl
      simp [Vfs.user_closing, update_self] at hu
    have hy' : update s.files f (some { x with opened := false }) g = some y := hy
    rw [update_of_ne hg] at hy'
    exact h.inFile g y hy' hu

end

end CabbagePKE
