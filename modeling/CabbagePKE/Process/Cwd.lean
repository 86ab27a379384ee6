import CabbagePKE.Vfs.Paths

/-!
# The current directory

`do_read_cwd` and `do_change_cwd` (`kernel/proc_file.c`). The loop that
writes the name of the current directory puts the name of each parent in turn
before that of the directory itself, and only the last of them stays.
-/

namespace CabbagePKE

open Function Lib List

def pathCopy (name path : Name) : Outcome Name :=
  if MAX_PATH_LEN ≤ (name ++ path).length then .error .undefined else .ok (name ++ path)

/-- The loop of `do_read_cwd`, from `parent` on. -/
def readParents (s : Vfs) (path : Name) : Nat → Option Nat → Name → Outcome Name
  | _, none, copy => .ok copy
  | 0, some _, _ => .error .diverges
  | n + 1, some parent, _ => do
      let e ← s.dentry parent
      let copy ← pathCopy e.name path
      readParents s path n e.parent copy

/-- `do_read_cwd`: what it leaves in `path` after at most `n` turns -/
def doReadCwd (n : Nat) (s : Vfs) (cwd : Nat) : Outcome Name := do
  let e ← s.dentry cwd
  readParents s e.name n e.parent e.name

/-- `do_change_cwd`, with the new current directory -/
def doChangeCwd (s : Vfs) (path : Path) (cwd : Nat) : Outcome (Int × Vfs × Nat) := do
  let (l, s) ← lookupFinalDentry s path cwd
  match l.found with
  | none => return (-1, s, cwd)
  | some d => do
      let type ← s.inodeType d
      if type ≠ R_DIR then return (-1, s, cwd) else return (0, s, d)

def cdStep (st : Vfs × Nat) (path : Path) : Outcome (Vfs × Nat) :=
  (doChangeCwd st.1 path st.2).map Prod.snd

inductive Vfs.FullPath (s : Vfs) : Nat → List Name → Prop
  | root {e : Dentry} : s.dentries vfsRootDentry = some e → e.parent = none → e.name = [slash] →
      Vfs.FullPath s vfsRootDentry []
  | child {d up : Nat} {e : Dentry} {names : List Name} : s.dentries d = some e →
      e.parent = some up → Vfs.FullPath s up names → Vfs.FullPath s d (names ++ [e.name])

structure Component (name : Name) : Prop where
  ne_nil : name ≠ []
  noSlash : slash ∉ name
  noNul : (0 : UInt8) ∉ name
  ne_dot : name ≠ [dot]
  ne_up : name ≠ [dot, dot]

section

variable {s s' s₁ s₀ : Vfs} {this par d par' up n cwd : Nat} {name path copy : Name}
  {pre names : List Name} {p : Path}

theorem component_of_mem_tokens (h : name ∈ tokens p.bytes) (hdot : name ≠ [dot])
    (hup : name ≠ [dot, dot]) : Component name where
  ne_nil := by simpa using (mem_filter.mp h).2
  noSlash := fun hs => by
    simpa using (mem_of_mem_splitOnP _ (mem_of_mem_filter h) hs).2
  noNul := zero_notMem_of_mem_tokens h
  ne_dot := hdot
  ne_up := hup

theorem Vfs.FullPath.mono (h : s.FullPath d names)
    (hkeep : ∀ d e, s.dentries d = some e → s'.dentries d = some e) : s'.FullPath d names := by
  induction h with
  | root he hpar hname => exact .root (hkeep _ _ he) hpar hname
  | child hd hup _ ih => exact .child (hkeep _ _ hd) hup ih

theorem Resolves.fullPath (hres : Resolves s this par pre s₁ d par') (h : s.Sound)
    (hpre : ∀ name ∈ pre, name ∈ tokens p.bytes) (hw : walksDirs pre s this = true)
    (hthis : ∃ names, s.FullPath this names ∧ ∀ name ∈ names, Component name) :
    ∃ names, s₁.FullPath d names ∧ ∀ name ∈ names, Component name := by
  induction hres with
  | nil => exact hthis
  | cons hstep hres ih =>
    have hmem := hpre _ (.head ..)
    obtain ⟨hs1, hg, hw1, hp⟩ := hstep.sound h (zero_notMem_of_mem_tokens hmem) hw
    refine ih hs1 (fun name hm => hpre name (.tail _ hm)) hw1 ?_
    obtain ⟨names, hpath, hcomp⟩ := hthis
    replace hpath := hpath.mono hg.dentries
    rcases hp with ⟨-, rfl, -⟩ | ⟨-, -, e, he, hup⟩ | ⟨h1, h2, -, hk⟩
    · exact ⟨names, hpath, hcomp⟩
    · cases hpath with
      | root he' hpar =>
        obtain rfl := Option.some.inj (he.symm.trans he')
        simp [hpar] at hup
      | child he' hup' hpath =>
        obtain rfl := Option.some.inj (he.symm.trans he')
        obtain rfl := Option.some.inj (hup.symm.trans hup')
        exact ⟨_, hpath, fun name hm => hcomp name (mem_append_left _ hm)⟩
    · obtain ⟨e, he, hkey⟩ := hs1.key _ _ hk
      obtain ⟨hpar, rfl⟩ := Prod.mk.inj hkey
      refine ⟨_, .child he hpar hpath, fun name hm => ?_⟩
      rcases mem_append.mp hm with hm | hm
      · exact hcomp name hm
      · rw [mem_singleton.mp hm]
        exact component_of_mem_tokens hmem h1 h2

def Vfs.Rooted (s : Vfs) (cwd : Nat) : Prop :=
  s.Sound ∧ s.FullPath vfsRootDentry [] ∧
    ∃ names, s.FullPath cwd names ∧ ∀ name ∈ names, Component name

theorem Vfs.Rooted.cdStep {st st' : Vfs × Nat} (h : st.1.Rooted st.2)
    (hw : st.1.throughDirs p st.2 = true) (hrun : cdStep st p = .ok st') : st'.1.Rooted st'.2 := by
  obtain ⟨hs, hroot, names, hpath, hcomp⟩ := h
  obtain ⟨r, hcd⟩ := map_snd_eq_ok hrun
  obtain ⟨⟨l, s1⟩, hlook, hcd⟩ := bind_eq_ok.mp hcd
  obtain ⟨hs1, hg, -⟩ := (hs.lookupFinalDentry hw).1 _ hlook
  have hroot1 := hroot.mono hg.dentries
  have hstay : s1.Rooted st.2 := ⟨hs1, hroot1, names, hpath.mono hg.dentries, hcomp⟩
  dsimp only at hcd
  cases hl : l.found with
  | none =>
    rw [hl] at hcd
    cases hcd
    exact hstay
  | some d =>
    rw [hl] at hcd
    obtain ⟨type, -, hcd⟩ := bind_eq_ok.mp hcd
    split at hcd
    · cases hcd
      exact hstay
    · cases hcd
      refine ⟨hs1, hroot1, ?_⟩
      rw [lookupFinalDentry] at hlook
      split at hlook
      · cases hlook
      rcases walk_eq_ok_iff.mp hlook with ⟨d', par, rfl, hres⟩ | ⟨_, _, _, _, _, _, -, -, hb⟩
      · cases hl
        refine hres.fullPath hs (fun _ hm => hm) (Bool.and_eq_true_iff.mp hw).2 ?_
        rw [startDentry]
        split
        · exact ⟨[], hroot, fun _ hm => by cases hm⟩
        · exact ⟨names, hpath, hcomp⟩
      · simp [hb.found] at hl

theorem pathCopy_eq (h : name.length + path.length < MAX_PATH_LEN) :
    pathCopy name path = .ok (name ++ path) := by
  rw [pathCopy, length_append, if_neg (by omega)]

theorem readParents_eq (h : s.FullPath up names) (hn : names.length < n)
    (hlen : (names.map fun name => name.length + 1).sum + path.length + 1 < MAX_PATH_LEN) :
    readParents s path n (some up) copy = .ok (slash :: path) := by
  induction h generalizing n copy with
  | root he hpar hname =>
    cases n with
    | zero => cases hn
    | succ n =>
      have hcopy : pathCopy [slash] path = .ok (slash :: path) := pathCopy_eq (by
        simp only [length_singleton]
        omega)
      rw [readParents, Vfs.dentry, he, ok_bind, hname, hcopy, ok_bind, hpar]
      cases n with
      | zero => rfl
      | succ n => rfl
  | @child d up e names he hup _ ih =>
    simp only [map_append, map_cons, map_nil, sum_append, sum_cons, sum_nil] at hlen
    rw [length_append, length_singleton] at hn
    cases n with
    | zero => omega
    | succ n =>
      rw [readParents, Vfs.dentry, he, ok_bind, pathCopy_eq (by omega), ok_bind, hup]
      exact ih (by omega) (by omega)

theorem Vfs.Sound.eq_root_iff (h : s.Sound) (hpath : s.FullPath d names) :
    d = vfsRootDentry ↔ names = [] := by
  cases hpath with
  | root => exact iff_of_true rfl rfl
  | child he hup _ =>
    refine iff_of_false ?_ (append_ne_nil_of_right_ne_nil _ (cons_ne_nil _ _))
    rintro rfl
    obtain ⟨e0, he0, -, hpar⟩ := h.hostRoot
    obtain rfl := Option.some.inj (he.symm.trans he0)
    simp [hpar] at hup

theorem Vfs.Sound.doReadCwd (h : s.Sound) (hpath : s.FullPath d names)
    (hcomp : ∀ name ∈ names, Component name) (hn : names.length ≤ n)
    (hlen : (names.map fun name => name.length + 1).sum < MAX_PATH_LEN) :
    ∃ p : Path, CabbagePKE.doReadCwd n s d = .ok p.bytes ∧ ∀ cwd,
      (∃ par s', CabbagePKE.lookupFinalDentry s p cwd = .ok (⟨some d, par, none⟩, s')) ↔
        names.length ≤ 1 := by
  cases hpath with
  | root he hpar hname =>
    refine ⟨⟨[slash], by decide⟩, ?_, fun cwd => iff_of_true ⟨cwd, s, rfl⟩ (by decide)⟩
    rw [CabbagePKE.doReadCwd, Vfs.dentry, he, ok_bind, hpar, hname]
    cases n with
    | zero => rfl
    | succ n => rfl
  | @child _ up e names he hup hnames =>
    obtain ⟨hne, hslash, hnul, hdot, hdots⟩ := hcomp e.name (by simp)
    rw [length_append, length_singleton] at hn
    simp only [map_append, map_cons, map_nil, sum_append, sum_cons, sum_nil] at hlen
    have hnul' : (0 : UInt8) ∉ slash :: e.name := fun hm =>
      hnul ((mem_cons.mp hm).resolve_left (by decide))
    refine ⟨⟨slash :: e.name, hnul'⟩, ?_, fun cwd => ?_⟩
    · rw [CabbagePKE.doReadCwd, Vfs.dentry, he, ok_bind, hup]
      exact readParents_eq hnames (by omega) (by omega)
    have htok : tokens (slash :: e.name) = [e.name] :=
      (tokens_append_slash [] e.name).trans (tokens_single hne hslash)
    have hwalk : CabbagePKE.lookupFinalDentry s ⟨slash :: e.name, hnul'⟩ cwd
        = CabbagePKE.walk [e.name] s vfsRootDentry cwd := by
      rw [CabbagePKE.lookupFinalDentry, if_neg (by rw [length_cons]; omega)]
      show CabbagePKE.walk (tokens (slash :: e.name)) s vfsRootDentry cwd = _
      rw [htok]
    rw [hwalk, CabbagePKE.walk, if_neg hdot, if_neg hdots, length_append, length_singleton]
    constructor
    · rintro ⟨par, s', hrun⟩
      obtain ⟨⟨found, s1⟩, hlook, hrun⟩ := bind_eq_ok.mp hrun
      cases found with
      | none => cases hrun
      | some c =>
        cases hrun
        obtain ⟨hs1, hg, -, hk⟩ := (h.lookupToken (.inl rfl) hnul).1 _ hlook
        obtain ⟨e', he', hkey⟩ := hs1.key _ _ (hk d rfl)
        obtain rfl := Option.some.inj ((hg.dentries _ _ he).symm.trans he')
        have hroot : up = vfsRootDentry := Option.some.inj (hup.symm.trans (congrArg Prod.fst hkey))
        rw [(h.eq_root_iff hnames).mp hroot]
        exact le_rfl
    · intro hshort
      obtain rfl : names = [] := eq_nil_of_length_eq_zero (by omega)
      obtain rfl := (h.eq_root_iff hnames).mpr rfl
      have hne0 : d ≠ vfsRootDentry := fun hd =>
        cons_ne_nil _ _ ((h.eq_root_iff (.child he hup hnames)).mp hd)
      obtain ⟨up', hup', hk, -⟩ := h.dentry d e he hne0
      obtain rfl := Option.some.inj (hup.symm.trans hup')
      refine ⟨vfsRootDentry, s, ?_⟩
      rw [CabbagePKE.lookupToken, hashGetDentry, hk, ok_bind]
      rfl

/-- **`pwd` and `cd` agree** exactly for the root and the directories in it. -/
theorem cwd_resolves_iff (h₀ : s₀.Sound) (hroot : s₀.FullPath vfsRootDentry [])
    (hreach : Reaches cdStep (fun st p => st.1.throughDirs p st.2 = true) (s₀, vfsRootDentry)
      (s, d)) :
    ∃ names, s.FullPath d names ∧
      ((names.map fun name => name.length + 1).sum < MAX_PATH_LEN → ∀ n, names.length ≤ n →
        ∃ p : Path, doReadCwd n s d = .ok p.bytes ∧ ∀ cwd,
          (∃ par s', lookupFinalDentry s p cwd = .ok (⟨some d, par, none⟩, s')) ↔
            names.length ≤ 1) := by
  have hinv : s.Rooted d := hreach.invariant (fun st => st.1.Rooted st.2)
    ⟨h₀, hroot, [], hroot, fun _ hm => by cases hm⟩ fun st p st' h hok hrun => h.cdStep hok hrun
  obtain ⟨h, -, names, hpath, hcomp⟩ := hinv
  exact ⟨names, hpath, fun hlen n hn => h.doReadCwd hpath hcomp hn hlen⟩

/-- A process that went to the RAM disk. -/
theorem cwd_resolves_iff_ramdisk : ∃ (s₀ s : Vfs) (names : List Name), s₀.Admitted ∧
    cdStep (s₀, 0) ⟨slash :: ramdisk0, by decide⟩ = .ok (s, 1) ∧ s.FullPath 1 names := by
  have hrun : BootRun Vfs.admits [] (fun s =>
      (∃ e, s.dentries 0 = some e ∧ e.parent = none ∧ e.name = [slash]) ∧
      s.throughDirs ⟨slash :: ramdisk0, by decide⟩ 0 = true ∧
      ∃ st, cdStep (s, 0) ⟨slash :: ramdisk0, by decide⟩ = .ok st ∧ st.2 = 1) := by decide +kernel
  obtain ⟨s, hreach, ⟨e, he, hpar, hname⟩, hw, ⟨s', d⟩, hcd, rfl⟩ := hrun.reached
  obtain ⟨names, hpath, -⟩ := cwd_resolves_iff (Vfs.Admitted.sound hreach) (.root he hpar hname)
    (Reaches.start.next hw hcd)
  exact ⟨s, s', names, hreach, hcd, hpath⟩

/-- In a directory `RAMDISK0` of the RAM disk, `pwd` gives the path of the RAM disk. -/
theorem cwd_misread : ∃ (s s' s'' : Vfs) (d par : Nat), s.Admitted ∧
    doChangeCwd s ⟨slash :: (ramdisk0 ++ slash :: ramdisk0), by decide⟩ 0 = .ok (0, s', d) ∧
    doReadCwd 2 s' d = .ok (slash :: ramdisk0) ∧ d ≠ 1 ∧
    lookupFinalDentry s' ⟨slash :: ramdisk0, by decide⟩ d = .ok (⟨some 1, par, none⟩, s'') := by
  have hrun : BootRun Vfs.admits [.mkdir ⟨ramdisk0, by decide⟩ 1] (fun s =>
      ∃ r, doChangeCwd s ⟨slash :: (ramdisk0 ++ slash :: ramdisk0), by decide⟩ 0 = .ok r ∧
        r.1 = 0 ∧ r.2.2 ≠ 1 ∧ doReadCwd 2 r.2.1 r.2.2 = .ok (slash :: ramdisk0) ∧
        ∃ l, lookupFinalDentry r.2.1 ⟨slash :: ramdisk0, by decide⟩ r.2.2 = .ok l ∧
          l.1.found = some 1 ∧ l.1.missName = none) := by decide +kernel
  obtain ⟨s, hreach, ⟨r, s', d⟩, hcd, rfl, hd, hread, ⟨⟨_, par, _⟩, s''⟩, hlook, rfl, rfl⟩ :=
    hrun.reached
  exact ⟨s, s', s'', d, par, hreach, hcd, hread, hd, hlook⟩

end

end CabbagePKE
