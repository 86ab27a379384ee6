import CabbagePKE.Vfs.Calls
import CabbagePKE.Vfs.Placed

/-!
# What opening a file leaves on pages

`lookup_final_dentry` makes a dentry and a vinode for every name that is not in
memory, and a node and a key for each. `Vfs.Backed` says which pages they have,
`Placed.Since` that the allocator has given out exactly these. After `vfs_close`
the page of the file and the two keys remain (`Placed.vfsClose_retains`).
-/

namespace CabbagePKE

open Lib Function Finset

open GuardedTable (Good)

def Halt.Never (_ : Halt) : Prop := False

instance : Halt.Spares Halt.Never where
  access _ _ h := h

theorem Yields.of_forall {α : Type} {x : Outcome α} {P : α → Prop} (h : ∀ a, x = .ok a → P a) :
    Yields Halt.Never x P := ⟨h, fun _ _ hnever => hnever⟩

/-! ## New objects and their pages -/

def Vfs.nexts (v : Vfs) : Nat × Nat × Nat := (v.nextDentry, v.rfs.nextVinode, v.nextFile)

def Obj.Known (nexts : Nat × Nat × Nat) : Obj → Prop
  | .dentry d | .dentryKey d | .dentryNode d => d < nexts.1
  | .vinode p | .vinodeKey p | .vinodeNode p => p < nexts.2.1
  | .file f => f < nexts.2.2
  | .dinode => False

theorem Obj.Known.mono {nexts nexts' : Nat × Nat × Nat} {x : Obj} (h : x.Known nexts)
    (hle : nexts ≤ nexts') : x.Known nexts' := by
  obtain ⟨hd, hp, hf⟩ := hle
  cases x with
  | dentry d | dentryKey d | dentryNode d => exact h.trans_le hd
  | vinode p | vinodeKey p | vinodeNode p => exact h.trans_le hp
  | file f => exact h.trans_le hf
  | dinode => exact h

/-- The dentry `e` at `d` is in the table, no file uses it, and its pages are among `own`. -/
structure Vfs.BacksDentry (v : Vfs) (own : Finset Obj) (d : Nat) (e : Dentry) : Prop where
  unused : e.dRef = 0
  hashed : v.dentryHash (e.parent, e.name) = some d
  page : .dentry d ∈ own
  key : .dentryKey d ∈ own
  node : .dentryNode d ∈ own

/-- The vinode `w` at `p` is in the table, if its number has a place there, and its pages are
among `own`. -/
structure Vfs.BacksVinode (v : Vfs) (own : Finset Obj) (p : Nat) (w : Vinode) : Prop where
  page : .vinode p ∈ own
  hashed : 0 ≤ w.inum → v.vinodeHash w.inum = some p
  key : 0 ≤ w.inum → .vinodeKey p ∈ own
  node : 0 ≤ w.inum → .vinodeNode p ∈ own

/-- The dentries and vinodes that have been made since `v₀` are complete, except a dentry `pd` and
a vinode `pv` that are being made. -/
structure Vfs.Backed (v₀ v : Vfs) (own : Finset Obj) (pd pv : Option Nat) : Prop where
  dentry : ∀ d e, pd ≠ some d → v₀.dentries d = none → v.dentries d = some e →
    v.BacksDentry own d e
  vinode : ∀ p w, pv ≠ some p → v₀.rfs.vinodes p = none → v.rfs.vinodes p = some w →
    v.BacksVinode own p w

section

variable {v₀ v v' : Vfs} {own own' : Finset Obj} {pd pv : Option Nat} {d p : Nat} {e : Dentry}
  {w : Vinode}

theorem Vfs.Backed.refl (v : Vfs) : v.Backed v ∅ none none where
  dentry d e _ hnone hsome := by simp [hnone] at hsome
  vinode p w _ hnone hsome := by simp [hnone] at hsome

theorem Vfs.Backed.mono (h : v₀.Backed v own pd pv) (hsub : own ⊆ own') :
    v₀.Backed v own' pd pv where
  dentry d e hne hnone hsome := by
    obtain ⟨hunused, hhash, hpage, hkey, hnode⟩ := h.dentry d e hne hnone hsome
    exact ⟨hunused, hhash, hsub hpage, hsub hkey, hsub hnode⟩
  vinode p w hne hnone hsome := by
    obtain ⟨hpage, hhash, hkey, hnode⟩ := h.vinode p w hne hnone hsome
    exact ⟨hsub hpage, hhash, fun h0 => hsub (hkey h0), fun h0 => hsub (hnode h0)⟩

theorem Vfs.Backed.erase (h : v₀.Backed v own pd (some p)) :
    v₀.Backed v (own.erase (.vinode p)) pd (some p) where
  dentry d e hne hnone hsome := by
    obtain ⟨hunused, hhash, hpage, hkey, hnode⟩ := h.dentry d e hne hnone hsome
    exact ⟨hunused, hhash, by simpa using hpage, by simpa using hkey, by simpa using hnode⟩
  vinode q w hne hnone hsome := by
    obtain ⟨hpage, hhash, hkey, hnode⟩ := h.vinode q w hne hnone hsome
    have hq : q ≠ p := fun heq => hne (heq ▸ rfl)
    exact ⟨by simpa [hq] using hpage, hhash, fun h0 => by simpa using hkey h0,
      fun h0 => by simpa using hnode h0⟩

theorem Vfs.Backed.frame (h : v₀.Backed v own pd pv) {pd' pv' : Option Nat}
    (hden : ∀ d e, pd' ≠ some d → v'.dentries d = some e → pd ≠ some d ∧ v.dentries d = some e)
    (hvin : ∀ p w, pv' ≠ some p → v'.rfs.vinodes p = some w →
      pv ≠ some p ∧ ∃ w0, v.rfs.vinodes p = some w0 ∧ w0.inum = w.inum)
    (hdhash : ∀ k d, v.dentryHash k = some d → v'.dentryHash k = some d)
    (hvhash : ∀ i p, v.vinodeHash i = some p → v'.vinodeHash i = some p) :
    v₀.Backed v' own pd' pv' where
  dentry d e hne hnone hsome := by
    obtain ⟨hne', hsome'⟩ := hden d e hne hsome
    obtain ⟨hunused, hhash, hpage, hkey, hnode⟩ := h.dentry d e hne' hnone hsome'
    exact ⟨hunused, hdhash _ _ hhash, hpage, hkey, hnode⟩
  vinode p w hne hnone hsome := by
    obtain ⟨hne', w0, hsome', hinum⟩ := hvin p w hne hsome
    obtain ⟨hpage, hhash, hkey, hnode⟩ := h.vinode p w0 hne' hnone hsome'
    rw [hinum] at hhash hkey hnode
    exact ⟨hpage, fun h0 => hvhash _ _ (hhash h0), hkey, hnode⟩

theorem Vfs.Backed.finishDentry (h : v₀.Backed v own (some d) pv)
    (hd : ∀ e, v.dentries d = some e → v.BacksDentry own d e) : v₀.Backed v own none pv where
  dentry d' e' _ hnone hsome := by
    by_cases hdd : d' = d
    · subst hdd
      exact hd e' hsome
    · exact h.dentry d' e' (fun heq => hdd (Option.some.inj heq).symm) hnone hsome
  vinode := h.vinode

theorem Vfs.Backed.finishVinode (h : v₀.Backed v own pd (some p))
    (hp : ∀ w, v.rfs.vinodes p = some w → v.BacksVinode own p w) : v₀.Backed v own pd none where
  dentry := h.dentry
  vinode q w _ hnone hsome := by
    by_cases hqp : q = p
    · subst hqp
      exact hp w hsome
    · exact h.vinode q w (fun heq => hqp (Option.some.inj heq).symm) hnone hsome

theorem Vfs.Backed.allocVfsDentry (h : v₀.Backed v own none pv) (name : Name)
    (parent : Option Nat) :
    v₀.Backed (CabbagePKE.allocVfsDentry v name parent).2 own (some v.nextDentry) pv := by
  refine h.frame (fun d e hne hsome => ?_) (fun p w hne hsome => ⟨hne, w, hsome, rfl⟩)
    (fun _ _ hk => hk) (fun _ _ hi => hi)
  rcases update_eq_some_iff.mp hsome with ⟨rfl, -⟩ | ⟨-, hsome⟩
  · exact absurd rfl hne
  · exact ⟨by simp, hsome⟩

theorem Vfs.Backed.fetched (h : v₀.Backed v own pd none) (vol : Volume) (w : Vinode) :
    v₀.Backed { v with rfs := v.rfs.fetched vol w } own pd (some v.rfs.nextVinode) := by
  refine h.frame (fun d e hne hsome => ⟨hne, hsome⟩) (fun q w' hne hsome => ?_)
    (fun _ _ hk => hk) (fun _ _ hi => hi)
  rcases update_eq_some_iff.mp hsome with ⟨rfl, -⟩ | ⟨-, hsome⟩
  · exact absurd rfl hne
  · exact ⟨by simp, w', hsome, rfl⟩

theorem pointDentry_eq {d q : Nat} (h : pointDentry v d q = .ok v') :
    ∃ e w, v.dentries d = some e ∧ v.rfs.vinodes q = some w ∧
      v' = (v.setDentry d { e with inode := .rfs q }).setVinode q { w with ref := w.ref + 1 } := by
  rw [pointDentry, bind_eq_ok] at h
  obtain ⟨e, he, h⟩ := h
  rw [Vfs.addRef, bind_eq_ok] at h
  obtain ⟨w, hw, h⟩ := h
  cases h
  refine ⟨e, w, ?_, ?_, rfl⟩
  · exact (v.yields_dentry d : Yields Halt.Never _ _).1 e he
  · exact (v.rfs.yields_vinode q : Yields Halt.Never _ _).1 w hw

theorem Vfs.Backed.pointDentry {q : Nat} (h : v₀.Backed v own (some d) pv)
    (hpoint : CabbagePKE.pointDentry v d q = .ok v') : v₀.Backed v' own (some d) pv := by
  obtain ⟨e, w, -, hw, rfl⟩ := pointDentry_eq hpoint
  refine h.frame (fun d' e' hne hsome => ⟨hne, ?_⟩) (fun q' w' hne hsome => ⟨hne, ?_⟩)
    (fun _ _ hk => hk) (fun _ _ hi => hi)
  · rcases update_eq_some_iff.mp hsome with ⟨rfl, -⟩ | ⟨-, hsome⟩
    · exact absurd rfl hne
    · exact hsome
  · rcases update_eq_some_iff.mp hsome with ⟨rfl, hnew⟩ | ⟨-, hsome⟩
    · cases hnew
      exact ⟨w, hw, rfl⟩
    · exact ⟨w', hsome, rfl⟩

theorem Vfs.Backed.freeVinode (h : v₀.Backed v own pd (some p)) :
    v₀.Backed (v.freeVinode p) (own.erase (.vinode p)) pd none := by
  have hgone : (v.freeVinode p).rfs.vinodes p = none := update_self ..
  have hframe : v₀.Backed (v.freeVinode p) (own.erase (.vinode p)) pd (some p) := by
    refine h.erase.frame (fun d e hne hsome => ⟨hne, hsome⟩) (fun q w hne hsome => ⟨hne, w, ?_, rfl⟩)
      (fun _ _ hk => hk) (fun _ _ hi => hi)
    rcases update_eq_some_iff.mp hsome with ⟨-, hnew⟩ | ⟨-, hsome⟩
    · cases hnew
    · exact hsome
  exact hframe.finishVinode (fun w hw => by simp [hgone] at hw)

theorem Vfs.Backed.hashVinode (h : v₀.Backed v own pd (some p)) (hw : v.rfs.vinodes p = some w)
    (hfree : v.vinodeHash w.inum = none) (hpage : .vinode p ∈ own) (hkey : .vinodeKey p ∈ own)
    (hnode : .vinodeNode p ∈ own) :
    v₀.Backed { v with vinodeHash := update v.vinodeHash w.inum (some p) } own pd none := by
  have hframe : v₀.Backed { v with vinodeHash := update v.vinodeHash w.inum (some p) }
      own pd (some p) := by
    refine h.frame (fun d e hne hsome => ⟨hne, hsome⟩) (fun q w' hne hsome => ⟨hne, w', hsome, rfl⟩)
      (fun _ _ hk => hk) (fun i q hi => ?_)
    have hne : i ≠ w.inum := fun heq => by simp [heq, hfree] at hi
    exact (update_of_ne hne _ _).trans hi
  refine hframe.finishVinode (fun w' hw' => ?_)
  cases hw.symm.trans hw'
  exact ⟨hpage, fun _ => update_self .., fun _ => hkey, fun _ => hnode⟩

theorem Vfs.Backed.hashDentry (h : v₀.Backed v own (some d) pv) (he : v.dentries d = some e)
    (hunused : e.dRef = 0) (hfree : v.dentryHash (e.parent, e.name) = none)
    (hpage : .dentry d ∈ own) (hkey : .dentryKey d ∈ own) (hnode : .dentryNode d ∈ own) :
    v₀.Backed { v with dentryHash := update v.dentryHash (e.parent, e.name) (some d) }
      own none pv := by
  have hframe : v₀.Backed { v with dentryHash := update v.dentryHash (e.parent, e.name) (some d) }
      own (some d) pv := by
    refine h.frame (fun d' e' hne hsome => ⟨hne, hsome⟩) (fun q w' hne hsome => ⟨hne, w', hsome, rfl⟩)
      (fun k d' hk => ?_) (fun _ _ hi => hi)
    have hne : k ≠ (e.parent, e.name) := fun heq => by simp [heq, hfree] at hk
    exact (update_of_ne hne _ _).trans hk
  refine hframe.finishDentry (fun e' he' => ?_)
  cases he.symm.trans he'
  exact ⟨hunused, update_self .., hpage, hkey, hnode⟩

end

/-! ## Path lookup -/

section

variable {T : Type} [GuardedTable T] {v₀ : Vfs} {s s' : Placed T} {own : Finset Obj} {n d p : Nat}
  {pd : Option Nat} {x : Obj} {w : Vinode} {e : Dentry}

/-- The objects in `own` hold all pages that have been taken, of `n` in all. -/
def Placed.Holds (s : Placed T) (own : Finset Obj) (n : Nat) : Prop := s.pmm.Holds s.page own n

theorem Placed.Holds.take (h : s.Holds own n) (hx : x ∉ own) :
    Yields Halt.Never (s.take x) (fun s' => s'.vfs = s.vfs ∧ s'.Holds (insert x own) n) := by
  refine Yields.of_forall (fun s' htake => ⟨Placed.take_vfs htake, ?_⟩)
  rw [Placed.take, bind_eq_ok] at htake
  obtain ⟨⟨a, pmm⟩, halloc, htake⟩ := htake
  dsimp only at htake
  split at htake
  · cases htake
  · rename_i ha
    cases htake
    exact Pmm.Holds.alloc h hx halloc ha

theorem Placed.Holds.free (h : s.Holds own n) (hx : x ∈ own) :
    Yields Halt.Never (s.free x) (fun s' => s'.vfs = s.vfs ∧ s'.Holds (own.erase x) n) := by
  refine Yields.of_forall (fun s' hfree => ⟨Placed.free_vfs hfree, ?_⟩)
  rw [Placed.free, bind_eq_ok] at hfree
  obtain ⟨pmm, hpage, hfree⟩ := hfree
  cases hfree
  exact Pmm.Holds.free h hx hpage

theorem Placed.Holds.borrow (h : s.Holds own n) (hx : .dinode ∉ own) :
    Yields Halt.Never s.borrow (fun s' => s'.vfs = s.vfs ∧ s'.Holds own n) := by
  refine (h.take hx).bind (fun s1 h1 => ?_)
  refine (h1.2.free (mem_insert_self ..)).mono (fun s2 h2 => ?_)
  rw [erase_insert hx] at h2
  exact ⟨h2.1.trans h1.1, h2.2⟩

theorem Placed.Holds.hashPutVinode (h : s.Holds own n) (hb : v₀.Backed s.vfs own pd (some p))
    (hw : s.vfs.rfs.vinodes p = some w) (hfree : hashGetVinode s.vfs w.inum = none)
    (hpage : .vinode p ∈ own) (hkey : .vinodeKey p ∉ own) (hnode : .vinodeNode p ∉ own) :
    Yields Halt.Never (s.hashPutVinode p) (fun s' => ∃ own' hash, own ⊆ own' ∧
      own' ⊆ {.vinodeNode p, .vinodeKey p} ∪ own ∧ s'.vfs = { s.vfs with vinodeHash := hash } ∧
      s'.Holds own' n ∧ v₀.Backed s'.vfs own' pd none) := by
  have hvin : s.vfs.rfs.vinode p = .ok w := by rw [Rfs.vinode, hw]
  rw [Placed.hashPutVinode, hvin, ok_bind]
  by_cases hneg : w.inum < 0
  · rw [if_pos hneg]
    refine .of_ok ⟨own, s.vfs.vinodeHash, subset_rfl, subset_union_right, rfl, h, ?_⟩
    refine hb.finishVinode (fun w' hw' => ?_)
    cases hw.symm.trans hw'
    have habs : ¬ 0 ≤ w.inum := by omega
    exact ⟨hpage, fun h0 => absurd h0 habs, fun h0 => absurd h0 habs, fun h0 => absurd h0 habs⟩
  · rw [if_neg hneg]
    have hfree' : s.vfs.vinodeHash w.inum = none := by rwa [hashGetVinode, if_neg hneg] at hfree
    refine (h.take hkey).bind (fun s1 h1 => ?_)
    have hnode1 : Obj.vinodeNode p ∉ insert (Obj.vinodeKey p) own := by simp [hnode]
    refine (h1.2.take hnode1).bind (fun s2 h2 => ?_)
    have hvfs : s2.vfs = s.vfs := h2.1.trans h1.1
    rw [hvfs, hfree', if_neg (by simp)]
    have hsub : own ⊆ insert (Obj.vinodeNode p) (insert (Obj.vinodeKey p) own) :=
      (subset_insert ..).trans (subset_insert ..)
    refine .of_ok ⟨insert (Obj.vinodeNode p) (insert (Obj.vinodeKey p) own), _, hsub, ?_,
      rfl, h2.2, ?_⟩
    · intro y hy
      simpa [or_assoc] using hy
    · exact (hb.mono hsub).hashVinode hw hfree' (hsub hpage) (by simp) (by simp)

/-- The new dentry `d` gets the vinode that was found, or the one that is in the table; then the
page of the other is given back. -/
theorem Placed.Holds.shareVinode (h : s.Holds own n) (hb : v₀.Backed s.vfs own (some d) (some p))
    (he : s.vfs.dentries d = some e) (hpage : .vinode p ∈ own) (hkey : .vinodeKey p ∉ own)
    (hnode : .vinodeNode p ∉ own) :
    Yields Halt.Never (s.shareVinode d p) (fun s' => ∃ own' q, own.erase (.vinode p) ⊆ own' ∧
      own' ⊆ {.vinodeNode p, .vinodeKey p} ∪ own ∧
      s'.vfs.dentries = update s.vfs.dentries d (some { e with inode := .rfs q }) ∧
      s'.vfs.dentryHash = s.vfs.dentryHash ∧ s'.vfs.nexts = s.vfs.nexts ∧
      s'.Holds own' n ∧ v₀.Backed s'.vfs own' (some d) none) := by
  refine (s.vfs.rfs.yields_vinode p).bind (fun w hw => ?_)
  cases hget : hashGetVinode s.vfs w.inum with
  | some same =>
    refine (Yields.of_forall (P := fun v => pointDentry s.vfs d same = .ok v)
      (fun v hv => hv)).bind (fun v hpoint => ?_)
    have hb1 := hb.pointDentry hpoint
    have h1 : (s.setVfs v).Holds own n := h
    obtain ⟨e', w', he', -, rfl⟩ := pointDentry_eq hpoint
    cases he.symm.trans he'
    refine (h1.free hpage).bind (fun s2 h2 => .of_ok ?_)
    rw [h2.1]
    exact ⟨own.erase (.vinode p), same, subset_rfl,
      (erase_subset ..).trans subset_union_right, rfl, rfl, rfl, h2.2,
      hb1.freeVinode⟩
  | none =>
    refine (Yields.of_forall (P := fun v => pointDentry s.vfs d p = .ok v)
      (fun v hv => hv)).bind (fun v hpoint => ?_)
    have hb1 := hb.pointDentry hpoint
    have h1 : (s.setVfs v).Holds own n := h
    obtain ⟨e', w', he', hw', rfl⟩ := pointDentry_eq hpoint
    cases he.symm.trans he'
    cases hw.symm.trans hw'
    refine (h1.hashPutVinode hb1 (update_self ..) hget hpage hkey hnode).mono (fun s2 h2 => ?_)
    obtain ⟨own', hash, hsub, hsup, hvfs, hhold, hback⟩ := h2
    refine ⟨own', p, (erase_subset ..).trans hsub, hsup, ?_, ?_, ?_, hhold, hback⟩
    all_goals
      rw [hvfs]
      rfl

theorem Placed.Holds.hashPutDentry (h : s.Holds own n) (hb : v₀.Backed s.vfs own (some d) none)
    (he : s.vfs.dentries d = some e) (hunused : e.dRef = 0)
    (hfree : s.vfs.dentryHash (e.parent, e.name) = none) (hpage : .dentry d ∈ own)
    (hkey : .dentryKey d ∉ own) (hnode : .dentryNode d ∉ own) :
    Yields Halt.Never (s.hashPutDentry d) (fun s' =>
      s'.vfs.nexts = s.vfs.nexts ∧ s'.Holds ({.dentryNode d, .dentryKey d} ∪ own) n ∧
      v₀.Backed s'.vfs ({.dentryNode d, .dentryKey d} ∪ own) none none) := by
  have hden : s.vfs.dentry d = .ok e := by rw [Vfs.dentry, he]
  have hunion : insert (Obj.dentryNode d) (insert (Obj.dentryKey d) own)
      = {.dentryNode d, .dentryKey d} ∪ own := by rw [insert_union, singleton_union]
  rw [Placed.hashPutDentry, hden, ok_bind]
  refine (h.take hkey).bind (fun s1 h1 => ?_)
  have hnode1 : Obj.dentryNode d ∉ insert (Obj.dentryKey d) own := by simp [hnode]
  refine (h1.2.take hnode1).bind (fun s2 h2 => ?_)
  have hvfs : s2.vfs = s.vfs := h2.1.trans h1.1
  have hhold := h2.2
  rw [hunion] at hhold
  rw [hvfs, hfree, if_neg (by simp)]
  refine .of_ok ⟨rfl, hhold, ?_⟩
  exact (hb.mono subset_union_right).hashDentry he hunused hfree
    (mem_union_right _ hpage) (by simp) (by simp)

/-- Since `v₀` the objects in `own` have been made, all of them complete, and nothing else has
taken a page. -/
structure Placed.Since (v₀ : Vfs) (n : Nat) (own : Finset Obj) (s : Placed T) : Prop where
  holds : s.Holds own n
  known : ∀ x ∈ own, x.Known s.vfs.nexts
  backed : v₀.Backed s.vfs own none none

theorem Placed.Since.fresh (h : s.Since v₀ n own) (hx : ¬ x.Known s.vfs.nexts) : x ∉ own :=
  fun hmem => hx (h.known x hmem)

theorem Placed.Since.allocVfsDentry (h : s.Since v₀ n own) (name : Name) (parent : Option Nat) :
    Yields Halt.Never (s.allocVfsDentry name parent) (fun r => r.1 = s.vfs.nextDentry ∧
      r.2.vfs = (CabbagePKE.allocVfsDentry s.vfs name parent).2 ∧
      r.2.Holds (insert (.dentry s.vfs.nextDentry) own) n ∧
      v₀.Backed r.2.vfs (insert (.dentry s.vfs.nextDentry) own) (some s.vfs.nextDentry) none) := by
  have hnew := h.fresh (x := .dentry s.vfs.nextDentry) (lt_irrefl _)
  refine (h.holds.take hnew).bind (fun s1 h1 => ?_)
  refine .of_ok ⟨rfl, rfl, h1.2, ?_⟩
  exact (h.backed.mono (subset_insert ..)).allocVfsDentry name parent

theorem Placed.Holds.viopLookup (h : s.Holds own n) (hb : v₀.Backed s.vfs own pd none)
    (hpage : .vinode s.vfs.rfs.nextVinode ∉ own) (hdinode : .dinode ∉ own) (parent : Nat)
    (name : Name) :
    Yields Halt.Never (s.viopLookup parent name) (fun r => ∀ p, r.1 = some p →
      p = s.vfs.rfs.nextVinode ∧
      (∃ vol w, r.2.vfs = { s.vfs with rfs := s.vfs.rfs.fetched vol w }) ∧
      r.2.Holds (insert (.vinode p) own) n ∧
      v₀.Backed r.2.vfs (insert (.vinode p) own) pd (some p)) := by
  refine (yields_viopLookup s.vfs parent name).bind (fun r hr => ?_)
  rcases hr with ⟨rdev, rfl⟩ | ⟨vol, w, rfl, -, -⟩
  · refine .of_ok (fun p hp => ?_)
    cases hp
  · refine (h.take hpage).bind (fun s1 h1 => ?_)
    have hdinode1 : Obj.dinode ∉ insert (Obj.vinode s.vfs.rfs.nextVinode) own := by simp [hdinode]
    refine (h1.2.borrow hdinode1).bind (fun s2 h2 => .of_ok (fun p hp => ?_))
    cases hp
    exact ⟨rfl, ⟨vol, w, rfl⟩, h2.2, (hb.mono (subset_insert ..)).fetched vol w⟩

def newObjs (d p : Nat) : Finset Obj :=
  {.dentry d, .dentryKey d, .dentryNode d, .vinode p, .vinodeKey p, .vinodeNode p}

theorem Obj.known_of_new {nexts : Nat × Nat × Nat} (hx : x ∈ newObjs d p) (hd : d < nexts.1)
    (hp : p < nexts.2.1) : x.Known nexts := by
  simp only [newObjs, mem_insert, mem_singleton] at hx
  rcases hx with rfl | rfl | rfl | rfl | rfl | rfl
  all_goals first
    | exact hd
    | exact hp

theorem Placed.Since.fresh_new (h : s.Since v₀ n own) :
    ∀ x ∈ newObjs s.vfs.nextDentry s.vfs.rfs.nextVinode, x ∉ own := by
  intro x hx
  refine h.fresh ?_
  simp only [newObjs, mem_insert, mem_singleton] at hx
  rcases hx with rfl | rfl | rfl | rfl | rfl | rfl
  all_goals exact lt_irrefl _

theorem Placed.Holds.complete (h : s.Holds own n) (hb : v₀.Backed s.vfs own (some d) (some p))
    (he : s.vfs.dentries d = some e) (hunused : e.dRef = 0)
    (hfree : s.vfs.dentryHash (e.parent, e.name) = none) (hdpage : .dentry d ∈ own)
    (hvpage : .vinode p ∈ own) (hdkey : .dentryKey d ∉ own) (hdnode : .dentryNode d ∉ own)
    (hvkey : .vinodeKey p ∉ own) (hvnode : .vinodeNode p ∉ own) :
    Yields Halt.Never (s.shareVinode d p >>= fun s => s.hashPutDentry d) (fun s' =>
      s'.vfs.nexts = s.vfs.nexts ∧ ∃ own', own' ⊆ newObjs d p ∪ own ∧ s'.Holds own' n ∧
        v₀.Backed s'.vfs own' none none) := by
  refine (h.shareVinode hb he hvpage hvkey hvnode).bind (fun s1 h1 => ?_)
  obtain ⟨own1, q, hsub, hsup, hden, hhash, hnexts, hhold1, hback1⟩ := h1
  have he1 : s1.vfs.dentries d = some { e with inode := .rfs q } := by rw [hden, update_self]
  have hfree1 : s1.vfs.dentryHash (e.parent, e.name) = none := by rw [hhash, hfree]
  have hdpage1 : Obj.dentry d ∈ own1 := hsub (by simp [hdpage])
  have hdkey1 : Obj.dentryKey d ∉ own1 := fun hmem => by simpa [hdkey] using hsup hmem
  have hdnode1 : Obj.dentryNode d ∉ own1 := fun hmem => by simpa [hdnode] using hsup hmem
  refine (hhold1.hashPutDentry hback1 he1 hunused hfree1 hdpage1 hdkey1 hdnode1).mono
    (fun s2 h2 => ⟨h2.1.trans hnexts, _, ?_, h2.2⟩)
  have hd : {.dentryNode d, .dentryKey d} ⊆ newObjs d p := by simp [newObjs, insert_subset_iff]
  have hp : {.vinodeNode p, .vinodeKey p} ⊆ newObjs d p := by simp [newObjs, insert_subset_iff]
  exact union_subset (hd.trans subset_union_left) (hsup.trans (union_subset_union_left hp))

theorem Placed.Since.lookupToken (h : s.Since v₀ n own) (parent : Nat) (token : Name) :
    Yields Halt.Never (s.lookupToken parent token) (fun r =>
      r.1 ≠ none → ∃ own', r.2.Since v₀ n own') := by
  unfold Placed.lookupToken
  cases hget : hashGetDentry s.vfs parent token with
  | some d => exact .of_ok (fun _ => ⟨own, h⟩)
  | none =>
    have hnew := h.fresh_new
    have hdinode := h.fresh (x := .dinode) not_false
    refine (h.allocVfsDentry token (some parent)).bind (fun r hr => ?_)
    obtain ⟨d, s1⟩ := r
    obtain ⟨hd, hvfs1, hhold1, hback1⟩ := hr
    dsimp only at hd hvfs1 hhold1 hback1 ⊢
    have hnext : s1.vfs.rfs.nextVinode = s.vfs.rfs.nextVinode := by
      rw [hvfs1]
      rfl
    rw [← hd, ← hnext] at hnew
    rw [← hd] at hhold1 hback1
    have hvpage := hnew (.vinode s1.vfs.rfs.nextVinode) (by simp [newObjs])
    refine (hhold1.viopLookup hback1 (by simpa using hvpage) (by simpa using hdinode)
      parent token).bind (fun r hr => ?_)
    obtain ⟨found, s2⟩ := r
    cases found with
    | none =>
      refine Yields.of_forall (fun r hr hne => ?_)
      rw [bind_eq_ok] at hr
      obtain ⟨s3, -, hr⟩ := hr
      cases hr
      exact absurd rfl hne
    | some p =>
      obtain ⟨hp, ⟨vol, w, hvfs2⟩, hhold2, hback2⟩ := hr p rfl
      dsimp only at hvfs2 hhold2 hback2 ⊢
      rw [← hp] at hnew
      have hden : s2.vfs.dentries d
          = some { name := token, dRef := 0, inode := .null, parent := some parent } := by
        rw [hvfs2, hvfs1, hd]
        exact update_self ..
      have hhash : s2.vfs.dentryHash (some parent, token) = none := by rwa [hvfs2, hvfs1]
      have hdkey := hnew (.dentryKey d) (by simp [newObjs])
      have hdnode := hnew (.dentryNode d) (by simp [newObjs])
      have hvkey := hnew (.vinodeKey p) (by simp [newObjs])
      have hvnode := hnew (.vinodeNode p) (by simp [newObjs])
      have hcomplete := hhold2.complete hback2 hden rfl hhash (by simp) (by simp)
        (by simpa using hdkey) (by simpa using hdnode) (by simpa using hvkey)
        (by simpa using hvnode)
      rw [← bind_assoc]
      refine hcomplete.bind (fun s3 h3 => .of_ok (fun _ => ?_))
      obtain ⟨hnexts, own', hsup, hhold', hback'⟩ := h3
      refine ⟨own', hhold', fun x hx => ?_, hback'⟩
      have hnexts' : s3.vfs.nexts = (d + 1, p + 1, s.vfs.nextFile) := by
        rw [hnexts, hvfs2, hp, hd, hnext, hvfs1]
        rfl
      rw [hnexts']
      have hcases : x ∈ newObjs d p ∨ x ∈ own := by
        have hmem := hsup hx
        simp only [newObjs, mem_union, mem_insert] at hmem ⊢
        tauto
      rcases hcases with hx | hx
      · exact Obj.known_of_new hx (Nat.lt_succ_self d) (Nat.lt_succ_self p)
      · rw [hd, hp, hnext]
        exact (h.known x hx).mono ⟨Nat.le_succ _, Nat.le_succ _, le_rfl⟩

theorem Placed.Since.walk (names : List Name) (h : s.Since v₀ n own) (this parent : Nat) :
    Yields Halt.Never (Placed.walk names s this parent) (fun r =>
      r.1.found ≠ none → ∃ own', r.2.Since v₀ n own') := by
  induction names generalizing s own this parent with
  | nil => exact .of_ok (fun _ => ⟨own, h⟩)
  | cons token rest ih =>
    rw [Placed.walk]
    split
    · exact ih h this parent
    split
    · refine (s.vfs.yields_dentry this).bind (fun e _ => ?_)
      cases e.parent with
      | none => exact .of_ok (fun hne => absurd rfl hne)
      | some up => exact ih h up parent
    · refine (h.lookupToken this token).bind (fun r hr => ?_)
      obtain ⟨found, s1⟩ := r
      cases found with
      | none => exact .of_ok (fun hne => absurd rfl hne)
      | some d =>
        obtain ⟨own1, h1⟩ := hr (by simp)
        exact ih h1 d this

theorem Placed.Since.lookupFinalDentry (h : s.Since v₀ n own) (path : Path) (parent : Nat) :
    Yields Halt.Never (s.lookupFinalDentry path parent) (fun r =>
      r.1.found ≠ none → ∃ own', r.2.Since v₀ n own') := by
  unfold Placed.lookupFinalDentry
  split
  · exact .of_error not_false
  · exact h.walk _ _ _

end

/-! ## Opening and closing -/

section

variable {T : Type} [GuardedTable T] {s s' : Placed T} {own : Finset Obj} {n d p f : Nat}
  {e : Dentry} {w : Vinode} {file : File}

/-- The file at dentry `d` with the vinode `w` at `p`: both are in the tables, and `own` has their
pages. -/
structure Vfs.BacksFile (v : Vfs) (own : Finset Obj) (d : Nat) (e : Dentry) (p : Nat)
    (w : Vinode) : Prop where
  dentry : v.dentries d = some e
  inode : e.inode = .rfs p
  vinode : v.rfs.vinodes p = some w
  hashed : v.dentryHash (e.parent, e.name) = some d
  dentryPage : .dentry d ∈ own
  dentryNode : .dentryNode d ∈ own
  backs : v.BacksVinode own p w

theorem Placed.Holds.dropDentry (h : s.Holds own n) (hf : s.vfs.BacksFile own d e p w)
    (hunused : e.dRef = 0) :
    Yields Halt.Never (s.dropDentry d p) (fun s' =>
      s'.Holds ((own.erase (.dentryNode d)).erase (.dentry d)) n ∧
      s'.vfs.rfs.vinodes p = some { w with ref := w.ref - 1 } ∧
      s'.vfs.vinodeHash = s.vfs.vinodeHash) := by
  have hden : s.vfs.dentry d = .ok e := by rw [Vfs.dentry, hf.dentry]
  have herase : Yields Halt.Never (s.hashEraseDentry d) (fun s' =>
      s'.Holds (own.erase (.dentryNode d)) n ∧ s'.vfs.dentries = s.vfs.dentries ∧
      s'.vfs.rfs = s.vfs.rfs ∧ s'.vfs.vinodeHash = s.vfs.vinodeHash) := by
    rw [Placed.hashEraseDentry, hden, ok_bind, hf.hashed]
    refine (h.free hf.dentryNode).bind (fun s1 h1 => .of_ok ⟨h1.2, ?_, ?_, ?_⟩)
    all_goals
      rw [← h1.1]
  refine herase.bind (fun s1 h1 => ?_)
  obtain ⟨hhold1, hden1, hrfs1, hhash1⟩ := h1
  have hfree : Yields Halt.Never (s1.freeVfsDentry d) (fun s' =>
      s'.Holds ((own.erase (.dentryNode d)).erase (.dentry d)) n ∧ s'.vfs.rfs = s.vfs.rfs ∧
      s'.vfs.vinodeHash = s.vfs.vinodeHash) := by
    have hden' : s1.vfs.dentry d = .ok e := by rw [Vfs.dentry, hden1, hf.dentry]
    have hlt : ¬ 0 < e.dRef := by omega
    have hpage : Obj.dentry d ∈ own.erase (.dentryNode d) :=
      mem_erase_of_ne_of_mem (by simp) hf.dentryPage
    rw [Placed.freeVfsDentry, hden', ok_bind, if_neg hlt]
    refine (hhold1.free hpage).bind (fun s2 h2 => .of_ok ⟨h2.2, ?_, ?_⟩)
    · rw [← hrfs1, ← h2.1]
      rfl
    · rw [← hhash1, ← h2.1]
      rfl
  refine hfree.bind (fun s2 h2 => ?_)
  obtain ⟨hhold2, hrfs2, hhash2⟩ := h2
  have hvin : s2.vfs.rfs.vinode p = .ok w := by rw [Rfs.vinode, hrfs2, hf.vinode]
  rw [Vfs.addRef, hvin, ok_bind]
  exact .of_ok ⟨hhold2, update_self .., hhash2⟩

theorem Placed.Holds.evictVinode (h : s.Holds own n) (hw : s.vfs.rfs.vinodes p = some w)
    (hb : s.vfs.BacksVinode own p w) :
    Yields Halt.Never (s.evictVinode p) (fun s' => ∃ own', s'.Holds own' n ∧
      (own.erase (.vinodeNode p)).erase (.vinode p) ⊆ own') := by
  have hvin : s.vfs.rfs.vinode p = .ok w := by rw [Rfs.vinode, hw]
  rw [Placed.evictVinode, hvin, ok_bind]
  by_cases href : w.ref = 0
  · rw [if_pos href]
    refine (Yields.of_forall (P := fun _ => True) (fun _ _ => trivial)).bind (fun rdev _ => ?_)
    have hnode : Yields Halt.Never
        ((s.setVfs { s.vfs with rfs := s.vfs.rfs.setDev rdev }).hashEraseVinode p) (fun s' =>
          ∃ own', s'.Holds own' n ∧ own.erase (.vinodeNode p) ⊆ own' ∧ .vinode p ∈ own') := by
      have hvin' : (s.vfs.rfs.setDev rdev).vinode p = .ok w := hvin
      unfold Placed.hashEraseVinode
      dsimp only [Placed.setVfs]
      rw [hvin', ok_bind]
      by_cases hneg : w.inum < 0
      · rw [if_pos hneg]
        exact .of_ok ⟨own, h, erase_subset .., hb.page⟩
      · have h0 : 0 ≤ w.inum := by omega
        rw [if_neg hneg, hb.hashed h0]
        have h1 : (s.setVfs { s.vfs with rfs := s.vfs.rfs.setDev rdev }).Holds own n := h
        refine (h1.free (hb.node h0)).bind (fun s1 h1 => ?_)
        refine .of_ok ⟨own.erase (.vinodeNode p), h1.2, subset_rfl, ?_⟩
        exact mem_erase_of_ne_of_mem (by simp) hb.page
    refine hnode.bind (fun s1 h1 => ?_)
    obtain ⟨own1, hhold1, hsub, hpage⟩ := h1
    refine (hhold1.free hpage).bind (fun s2 h2 => ?_)
    exact .of_ok ⟨own1.erase (.vinode p), h2.2, erase_subset_erase _ hsub⟩
  · rw [if_neg href]
    exact .of_ok ⟨own, h, (erase_subset ..).trans (erase_subset ..)⟩

theorem Placed.Holds.vfsClose (h : s.Holds own n) (hf : s.vfs.BacksFile own d e p w)
    (hone : e.dRef = 1) (htype : w.type = R_FILE) (hfile : s.vfs.files f = some file)
    (hd : file.dentry = d) :
    Yields Halt.Never (s.vfsClose f) (fun r => ∃ own', r.2.Holds own' n ∧
      (((own.erase (.dentryNode d)).erase (.dentry d)).erase (.vinodeNode p)).erase (.vinode p)
        ⊆ own') := by
  subst hd
  have hread : s.vfs.file f = .ok file := by rw [Vfs.file, hfile]
  have hden : s.vfs.dentry file.dentry = .ok e := by rw [Vfs.dentry, hf.dentry]
  have hkind : s.vfs.inodeType file.dentry = .ok R_FILE := by
    rw [Vfs.inodeType_eq hf.dentry hf.inode hf.vinode, htype]
  have hnode : s.vfs.rfsInode file.dentry = .ok p := Vfs.rfsInode_eq hf.dentry hf.inode
  have hzero : e.dRef - 1 = 0 := by omega
  unfold Placed.vfsClose Placed.closeDentry
  rw [hread, ok_bind, hkind, ok_bind, if_neg (not_not.mpr rfl), hnode, ok_bind, hden, ok_bind]
  dsimp only
  rw [if_pos hzero]
  have h1 : (s.setVfs (s.vfs.setDentry file.dentry { e with dRef := e.dRef - 1 })).Holds own n := h
  have hf1 : (s.vfs.setDentry file.dentry { e with dRef := e.dRef - 1 }).BacksFile own file.dentry
      { e with dRef := e.dRef - 1 } p w :=
    { hf with dentry := update_self .., backs := { hf.backs with } }
  have hclose : Yields Halt.Never
      ((s.setVfs (s.vfs.setDentry file.dentry { e with dRef := e.dRef - 1 })).dropDentry
        file.dentry p >>= fun s => s.evictVinode p) (fun s' => ∃ own', s'.Holds own' n ∧
          (((own.erase (.dentryNode file.dentry)).erase (.dentry file.dentry)).erase
            (.vinodeNode p)).erase (.vinode p) ⊆ own') := by
    refine (h1.dropDentry hf1 hzero).bind (fun s1 hs1 => ?_)
    obtain ⟨hhold1, hvin1, hhash1⟩ := hs1
    refine hhold1.evictVinode hvin1 ⟨?_, ?_, ?_, ?_⟩
    · simpa using hf.backs.page
    · intro h0
      rw [hhash1]
      exact hf.backs.hashed h0
    · intro h0
      simpa using hf.backs.key h0
    · intro h0
      simpa using hf.backs.node h0
  exact hclose.bind (fun s1 hs1 => .of_ok hs1)

theorem Placed.Since.openDentry {v₀ : Vfs} {flags : Nat} (h : s.Since v₀ n own)
    (he : s.vfs.dentries d = some e) (hi : e.inode = .rfs p) (hw : s.vfs.rfs.vinodes p = some w)
    (hd0 : v₀.dentries d = none) (hp0 : v₀.rfs.vinodes p = none) (htype : w.type = R_FILE) :
    Yields Halt.Never (s.openDentry d flags) (fun r => ∃ f file, r.1 = some f ∧
      r.2.vfs.files f = some file ∧ file.dentry = d ∧
      r.2.Holds (insert (.file s.vfs.nextFile) own) n ∧
      r.2.vfs.BacksFile (insert (.file s.vfs.nextFile) own) d { e with dRef := 1 } p w) := by
  have hden : s.vfs.dentry d = .ok e := by rw [Vfs.dentry, he]
  have hkind : s.vfs.inodeType d = .ok R_FILE := by rw [Vfs.inodeType_eq he hi hw, htype]
  have hnew := h.fresh (x := .file s.vfs.nextFile) (lt_irrefl _)
  have hback := h.backed.mono (subset_insert (.file s.vfs.nextFile) own)
  obtain ⟨hunused, hhash, hpage, -, hnode⟩ := hback.dentry d e (by simp) hd0 he
  have hbv := hback.vinode p w (by simp) hp0 hw
  rw [Placed.openDentry, hkind, ok_bind, if_neg (not_not.mpr rfl)]
  refine (Yields.of_forall (P := fun _ => True) (fun _ _ => trivial)).bind (fun mode _ => ?_)
  obtain ⟨readable, writable⟩ := mode
  have halloc : Yields Halt.Never (s.allocVfsFile d readable writable) (fun r =>
      ∃ file, r.2.vfs.files r.1 = some file ∧ file.dentry = d ∧
        r.2.Holds (insert (.file s.vfs.nextFile) own) n ∧
        r.2.vfs.BacksFile (insert (.file s.vfs.nextFile) own) d { e with dRef := 1 } p w) := by
    refine (h.holds.take hnew).bind (fun s1 h1 => ?_)
    have hden1 : s1.vfs.dentry d = .ok e := by rw [h1.1, hden]
    rw [CabbagePKE.allocVfsFile, hden1, ok_bind]
    refine .of_ok ⟨_, update_self .., rfl, h1.2, ?_⟩
    rw [h1.1, hunused]
    exact ⟨update_self .., hi, hw, hhash, hpage, hnode, { hbv with }⟩
  refine halloc.bind (fun r hr => ?_)
  obtain ⟨file, hfile, hd, hhold, hbf⟩ := hr
  exact .of_ok ⟨r.1, file, rfl, hfile, hd, hhold, hbf⟩

end

end CabbagePKE
