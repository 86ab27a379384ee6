import CabbagePKE.Vfs.Ownership

/-!
# Paths

`lookup_final_dentry` cuts its copy of the path into components with `strtok` and
goes from dentry to dentry. What `vfs_open`, `vfs_mkdir` and `vfs_link` create
depends on the name it stopped at, which they compare with the last component,
and on the directory it was in; neither is always the one the path asks for.
-/

namespace CabbagePKE

open Lib Function List

set_option synthInstance.maxSize 4096

/-! ## Components -/

def skipWhile (buf : Mem) (test : UInt8 → Bool) : Nat → Nat → Nat
  | 0, i => i
  | n + 1, i => if test (buf i) then skipWhile buf test n (i + 1) else i

/-- `strtok(str, "/")`: the token, the buffer and `current` after the call -/
def strtok (buf : Mem) (str current : Option Nat) : Option Nat × Mem × Option Nat :=
  match str.or current with
  | none => (none, buf, none)
  | some first =>
    let start := skipWhile buf (fun c => c != 0 && c == slash) MAX_PATH_LEN first
    if buf start = 0 then (none, buf, none)
    else
      let stop := skipWhile buf (fun c => c != 0 && c != slash) MAX_PATH_LEN start
      if buf stop ≠ 0 then (some start, update buf stop 0, some (stop + 1))
      else (some start, buf, none)

/-- The tokens that the loop of `lookup_final_dentry` sees, `n` at most. -/
def strtokAll : Nat → Mem → Option Nat → Option Nat → List Name
  | 0, _, _, _ => []
  | n + 1, buf, str, current =>
    match strtok buf str current with
    | (none, _, _) => []
    | (some start, buf, current) => cstr buf start MAX_PATH_LEN :: strtokAll n buf none current

/-- `lookup_final_dentry` on its buffer `path_copy`, which held `stack` before -/
def lookupPathCopy (stack : Mem) (s : Vfs) (path : Path) (parent : Nat) : Outcome (Lookup × Vfs) :=
  if MAX_PATH_LEN ≤ path.bytes.length then .error .undefined
  else
    let pathCopy := putString stack 0 path.bytes
    -- the first token is cut off before the first byte is looked at
    let this := if (strtok pathCopy (some 0) none).2.1 0 ≠ slash then parent else vfsRootDentry
    walk (strtokAll MAX_PATH_LEN pathCopy (some 0) none) s this parent

section

variable {buf : Mem} {test : UInt8 → Bool} {l : List UInt8} {n c : Nat}

def StrAt (buf : Mem) (c : Nat) (l : List UInt8) : Prop :=
  ∀ i, i ≤ l.length → buf (c + i) = l.getD i 0

theorem StrAt.head (h : StrAt buf c l) : buf c = l.headD 0 := by
  cases l <;> exact h 0 (Nat.zero_le _)

theorem StrAt.drop {a : List UInt8} (h : StrAt buf c (a ++ l)) : StrAt buf (c + a.length) l := by
  intro i hi
  rw [add_assoc, h (a.length + i) (by rw [length_append]; omega),
    getD_append_right _ _ _ _ (by omega), Nat.add_sub_cancel_left]

theorem skipWhile_eq {a : List UInt8} (ha : ∀ b ∈ a, test b = true) (hl : test (l.headD 0) = false)
    (hn : a.length ≤ n) (h : StrAt buf c (a ++ l)) :
    skipWhile buf test n c = c + a.length := by
  induction a generalizing n c with
  | nil =>
    cases n with
    | zero => rfl
    | succ n =>
      rw [skipWhile, h.head, if_neg (by simpa using hl)]
      rfl
  | cons b a ih =>
    obtain ⟨n, rfl⟩ : ∃ k, n = k + 1 := ⟨n - 1, by rw [length_cons] at hn; omega⟩
    rw [skipWhile, show buf c = b from h.head, if_pos (ha b (.head ..)),
      ih (c := c + 1) (fun x hx => ha x (.tail _ hx)) (Nat.le_of_succ_le_succ hn)
        (StrAt.drop (a := [b]) h), length_cons]
    omega

theorem exists_token (l : List UInt8) : (∀ b ∈ l, b = slash) ∨
    ∃ a t r, l = a ++ (t ++ r) ∧ (∀ b ∈ a, b = slash) ∧ t ≠ [] ∧ slash ∉ t ∧
      (r = [] ∨ ∃ r', r = slash :: r') := by
  induction l with
  | nil => exact .inl (fun _ h => absurd h not_mem_nil)
  | cons b l ih =>
    by_cases hb : b = slash
    · rcases ih with hall | ⟨a, t, r, rfl, ha, htoken⟩
      · exact .inl (forall_mem_cons.mpr ⟨hb, hall⟩)
      · exact .inr ⟨b :: a, t, r, rfl, forall_mem_cons.mpr ⟨hb, ha⟩, htoken⟩
    · right
      refine ⟨[], b :: l.takeWhile (· != slash), l.dropWhile (· != slash), ?_, by simp, by simp,
        ?_, ?_⟩
      · rw [cons_append, takeWhile_append_dropWhile]
        rfl
      · rw [mem_cons, not_or]
        refine ⟨Ne.symm hb, fun hm => ?_⟩
        exact Bool.false_ne_true (all_eq_true.mp all_takeWhile slash hm)
      · cases hr : l.dropWhile (· != slash) with
        | nil => exact .inl rfl
        | cons x r =>
          have hhead := head_dropWhile_not (· != slash) (l := l) (by rw [hr]; simp)
          simp only [hr, head_cons, bne_eq_false_iff_eq] at hhead
          exact .inr ⟨r, by rw [hhead]⟩

theorem tokens_append_slash (l l' : List UInt8) :
    tokens (l ++ slash :: l') = tokens l ++ tokens l' := by
  rw [tokens, splitOnP_append_cons l l' (by rfl), filter_append]
  rfl

theorem tokens_slashes {a : List UInt8} (ha : ∀ b ∈ a, b = slash) (l : List UInt8) :
    tokens (a ++ l) = tokens l := by
  induction a with
  | nil => rfl
  | cons b a ih =>
    rw [ha b (.head ..)]
    exact (tokens_append_slash [] _).trans (ih fun b hb => ha b (.tail _ hb))

theorem tokens_single {token : List UInt8} (hne : token ≠ []) (hs : slash ∉ token) :
    tokens token = [token] := by
  have hno : ∀ b ∈ token, (b == slash) = false := fun b hb =>
    beq_eq_false_iff_ne.mpr fun heq => hs (heq ▸ hb)
  rw [tokens, splitOnP_eq_singleton hno, filter_cons_of_pos (by simpa using hne)]
  rfl

theorem strtok_eq {str current : Option Nat} (hcur : str.or current = some c)
    (hl : l.length < MAX_PATH_LEN) (h0 : (0 : UInt8) ∉ l) (h : StrAt buf c l) :
    (tokens l = [] ∧ strtok buf str current = (none, buf, none)) ∨
    ∃ token rest start buf' current', tokens l = token :: tokens rest ∧
      rest.length < l.length ∧ (0 : UInt8) ∉ rest ∧
      strtok buf str current = (some start, buf', current') ∧
      cstr buf' start MAX_PATH_LEN = token ∧ buf' 0 = buf 0 ∧
      ((rest = [] ∧ current' = none) ∨ ∃ c', current' = some c' ∧ StrAt buf' c' rest) := by
  rw [strtok, hcur]
  dsimp only
  rcases exists_token l with hall | ⟨a, t, r, rfl, ha, htne, hts, hr⟩
  · left
    rw [← append_nil l, tokens_slashes hall]
    rw [← append_nil l] at h
    rw [skipWhile_eq (fun b hb => by rw [hall b hb]; rfl) rfl (by omega) h,
      show buf (c + l.length) = 0 from h.drop.head]
    exact ⟨rfl, rfl⟩
  · right
    have hlen : (a ++ (t ++ r)).length = a.length + (t.length + r.length) := by simp
    have htpos := length_pos_iff.mpr htne
    obtain ⟨ht0, hr0⟩ : (0 : UInt8) ∉ t ∧ (0 : UInt8) ∉ r := by
      simp only [mem_append, not_or] at h0
      exact h0.2
    obtain ⟨b, t', rfl⟩ := exists_cons_of_ne_nil htne
    have hb : b ≠ 0 ∧ b ≠ slash := ⟨by rintro rfl; simp at ht0, by rintro rfl; simp at hts⟩
    have hin : ∀ x ∈ b :: t', (x != 0 && x != slash) = true := fun x hx => by
      rw [Bool.and_eq_true, bne_iff_ne, bne_iff_ne]
      exact ⟨fun heq => ht0 (heq ▸ hx), fun heq => hts (heq ▸ hx)⟩
    rw [skipWhile_eq (fun b hb => by rw [ha b hb]; rfl) (by simp [hb.2]) (by omega) h]
    have hat := h.drop
    rw [hat.head, if_neg (by simpa using hb.1),
      skipWhile_eq hin (by rcases hr with rfl | ⟨r, rfl⟩ <;> rfl) (by omega) hat, hat.drop.head]
    -- the terminator behind the token, from the path or from the call, cuts it off
    have hcut : ∀ buf' : Mem, buf' (c + a.length + (b :: t').length) = 0 →
        (∀ i, i < (b :: t').length → buf' (c + a.length + i) = buf (c + a.length + i)) →
        cstr buf' (c + a.length) MAX_PATH_LEN = b :: t' := fun buf' hz hsame =>
      cstr_of_bytes (by omega) ht0 fun i hi => by
        rcases Nat.lt_or_eq_of_le hi with hlt | rfl
        · rw [hsame i hlt, hat i (by rw [length_append]; omega), getD_append _ _ _ _ hlt]
        · rw [hz, getD_eq_default _ _ le_rfl]
    rw [tokens_slashes ha]
    rcases hr with rfl | ⟨r, rfl⟩
    · refine ⟨b :: t', [], _, buf, none, ?_, by omega, not_mem_nil, if_neg (by simp),
        hcut buf hat.drop.head fun _ _ => rfl, rfl, .inl ⟨rfl, rfl⟩⟩
      rw [append_nil, tokens_single htne hts]
      rfl
    · refine ⟨b :: t', r, _, _, _, ?_, by rw [hlen, length_cons (a := slash)]; omega,
        fun hm => hr0 (.tail _ hm), if_pos (by simp [slash]),
        hcut _ (update_self ..) fun i hi => update_of_ne (by omega) .., update_of_ne (by omega) ..,
        .inr ⟨_, rfl, fun i hi => ?_⟩⟩
      · rw [tokens_append_slash, tokens_single htne hts]
        rfl
      · rw [update_of_ne (by omega)]
        exact StrAt.drop (a := [slash]) hat.drop i hi

theorem strtokAll_eq {str current : Option Nat} (hcur : str.or current = some c)
    (hl : l.length < MAX_PATH_LEN) (h0 : (0 : UInt8) ∉ l)
    (h : StrAt buf c l) (hn : l.length < n) :
    strtokAll n buf str current = tokens l := by
  induction n generalizing l c buf str current with
  | zero => omega
  | succ n ih =>
    rw [strtokAll]
    rcases strtok_eq hcur hl h0 h with ⟨hnil, hrun⟩ |
      ⟨token, rest, start, buf', current', htokens, hlen, hrest0, hrun, htoken, -, hrest⟩
    · rw [hrun, hnil]
    · rw [hrun, htokens]
      dsimp only
      rw [htoken]
      congr 1
      rcases hrest with ⟨rfl, rfl⟩ | ⟨c', rfl, hbytes⟩
      · -- no `current`: the next call gives nothing
        cases n with
        | zero => rfl
        | succ n => rfl
      · exact ih rfl (by omega) hrest0 hbytes (by omega)

theorem lookupPathCopy_eq (stack : Mem) (s : Vfs) (path : Path) (parent : Nat) :
    lookupPathCopy stack s path parent = lookupFinalDentry s path parent := by
  rw [lookupPathCopy, lookupFinalDentry]
  split
  · rfl
  · rename_i hlen
    have hbytes : StrAt (putString stack 0 path.bytes) 0 path.bytes := fun i hi => by
      rw [Nat.zero_add, putString, if_pos ⟨Nat.zero_le _, by omega⟩]
      rfl
    have hfirst : (strtok (putString stack 0 path.bytes) (some 0) none).2.1 0
        = putString stack 0 path.bytes 0 := by
      rcases strtok_eq (show (some 0).or none = some 0 from rfl) (by omega) path.noNul hbytes with
        ⟨-, hrun⟩ | ⟨token, rest, start, buf', current', -, -, -, hrun, -, hsame, -⟩
      · rw [hrun]
      · rwa [hrun]
    dsimp only
    rw [strtokAll_eq rfl (by omega) path.noNul hbytes (by omega), hfirst, startDentry,
      show putString stack 0 path.bytes 0 = _ from hbytes 0 (Nat.zero_le _)]
    congr 1
    cases path.bytes with
    | nil => rfl
    | cons b l =>
      by_cases hb : b = slash
      · subst hb
        rfl
      · simp [hb]

end

/-! ## Going through a path -/

/-- One component leads from `this` to `d`; `par` is where the last name was looked up. -/
inductive Steps (s : Vfs) (this par : Nat) : Name → Vfs → Nat → Nat → Prop
  | stay : Steps s this par [dot] s this par
  | up {e : Dentry} {up : Nat} : s.dentries this = some e → e.parent = some up →
      Steps s this par [dot, dot] s up par
  | child {name : Name} {s' : Vfs} {d : Nat} : name ≠ [dot] → name ≠ [dot, dot] →
      lookupToken s this name = .ok (some d, s') → Steps s this par name s' d this

inductive Resolves : Vfs → Nat → Nat → List Name → Vfs → Nat → Nat → Prop
  | nil {s : Vfs} {this par : Nat} : Resolves s this par [] s this par
  | cons {s s₁ s' : Vfs} {this par d₁ par₁ d par' : Nat} {name : Name} {names : List Name} :
      Steps s this par name s₁ d₁ par₁ → Resolves s₁ d₁ par₁ names s' d par' →
      Resolves s this par (name :: names) s' d par'

/-- The component `name` leads nowhere: there is no parent, or no child of this name. -/
def Blocked (s : Vfs) (this par : Nat) (name : Name) (l : Lookup) (s' : Vfs) : Prop :=
  (name = [dot, dot] ∧ (∃ e, s.dentries this = some e ∧ e.parent = none) ∧
    l = ⟨none, par, none⟩ ∧ s' = s) ∨
  (name ≠ [dot] ∧ name ≠ [dot, dot] ∧ lookupToken s this name = .ok (none, s') ∧
    l = ⟨none, this, some name⟩)

section

variable {s s' s₁ : Vfs} {this par d par' : Nat} {name : Name} {pre names rest : List Name}
  {l : Lookup}

theorem Steps.walk_cons (h : Steps s this par name s' d par') (rest : List Name) :
    walk (name :: rest) s this par = walk rest s' d par' := by
  cases h with
  | stay => rw [walk, if_pos rfl]
  | up he hup => rw [walk, if_neg (by decide), if_pos rfl, Vfs.dentry, he, ok_bind, hup]
  | child h1 h2 hrun => rw [walk, if_neg h1, if_neg h2, hrun, ok_bind]

theorem Resolves.walk_append (h : Resolves s this par pre s' d par') (rest : List Name) :
    walk (pre ++ rest) s this par = walk rest s' d par' := by
  induction h with
  | nil => rfl
  | cons hstep _ ih => exact (hstep.walk_cons _).trans ih

theorem Blocked.walk_cons (h : Blocked s this par name l s') (rest : List Name) :
    walk (name :: rest) s this par = .ok (l, s') := by
  rcases h with ⟨rfl, ⟨e, he, hup⟩, rfl, rfl⟩ | ⟨h1, h2, hrun, rfl⟩
  · rw [walk, if_neg (by decide), if_pos rfl, Vfs.dentry, he, ok_bind, hup]
  · rw [walk, if_neg h1, if_neg h2, hrun, ok_bind]

theorem Blocked.found (h : Blocked s this par name l s') : l.found = none := by
  rcases h with ⟨-, -, rfl, -⟩ | ⟨-, -, -, rfl⟩
  · rfl
  · rfl

theorem walk_cons_cases (h : walk (name :: rest) s this par = .ok (l, s')) :
    (∃ s₁ d par₁, Steps s this par name s₁ d par₁) ∨ Blocked s this par name l s' := by
  rw [walk] at h
  split at h
  · rename_i hdot
    rw [hdot]
    exact .inl ⟨_, _, _, .stay⟩
  · rename_i hdot
    split at h
    · rename_i hup
      obtain ⟨e, he, h⟩ := bind_eq_ok.mp h
      have hd : s.dentries this = some e := by
        unfold Vfs.dentry at he
        split at he
        · rename_i hd
          cases he
          exact hd
        · cases he
      rw [hup]
      cases hpar : e.parent with
      | none =>
        rw [hpar] at h
        cases h
        exact .inr (.inl ⟨rfl, ⟨e, hd, hpar⟩, rfl, rfl⟩)
      | some up => exact .inl ⟨_, _, _, .up hd hpar⟩
    · rename_i hup
      obtain ⟨⟨found, s1⟩, hrun, h⟩ := bind_eq_ok.mp h
      cases found with
      | none =>
        cases h
        exact .inr (.inr ⟨hdot, hup, hrun, rfl⟩)
      | some d => exact .inl ⟨_, _, _, .child hdot hup hrun⟩

theorem walk_eq_ok_iff : walk names s this par = .ok (l, s') ↔
    (∃ d par', l = ⟨some d, par', none⟩ ∧ Resolves s this par names s' d par') ∨
    ∃ pre name rest s₁ d par₁, names = pre ++ name :: rest ∧ Resolves s this par pre s₁ d par₁ ∧
      Blocked s₁ d par₁ name l s' := by
  constructor
  · intro h
    induction names generalizing s this par with
    | nil =>
      cases h
      exact .inl ⟨_, _, rfl, .nil⟩
    | cons name names ih =>
      rcases walk_cons_cases h with ⟨s1, d, par1, hstep⟩ | hblock
      · rw [hstep.walk_cons] at h
        rcases ih h with ⟨d', par', rfl, hres⟩ | ⟨pre, name', rest, s2, d', par2, rfl, hres, hblock⟩
        · exact .inl ⟨d', par', rfl, .cons hstep hres⟩
        · exact .inr ⟨name :: pre, name', rest, s2, d', par2, rfl, .cons hstep hres, hblock⟩
      · exact .inr ⟨[], name, names, s, this, par, rfl, .nil, hblock⟩
  · rintro (⟨d, par', rfl, hres⟩ | ⟨pre, name, rest, s1, d, par1, rfl, hres, hblock⟩)
    · rw [← append_nil names, hres.walk_append]
      rfl
    · rw [hres.walk_append, hblock.walk_cons]

/-- **A lookup follows the components of its path** from the root or from `parent`. -/
theorem lookup_follows_components (stack : Mem) (s s' : Vfs) (path : Path) (parent : Nat)
    (l : Lookup) (hlen : path.bytes.length < MAX_PATH_LEN) :
    lookupPathCopy stack s path parent = .ok (l, s') ↔
      (∃ d par, l = ⟨some d, par, none⟩ ∧
        Resolves s (startDentry path parent) parent (tokens path.bytes) s' d par) ∨
      ∃ pre name rest s₁ d par, tokens path.bytes = pre ++ name :: rest ∧
        Resolves s (startDentry path parent) parent pre s₁ d par ∧ Blocked s₁ d par name l s' := by
  rw [lookupPathCopy_eq, lookupFinalDentry, if_neg (not_le.mpr hlen)]
  exact walk_eq_ok_iff

end

/-- The path `/RAMDISK0//.` from the root of the RAM disk. -/
theorem lookup_follows_components_root : ∃ s s' : Vfs, s.Admitted ∧
    Resolves s 0 1 [ramdisk0, [dot]] s' 1 0 := by
  have hrun : BootRun Vfs.admits [] (fun s => ∃ r, lookupPathCopy (fun _ => 0) s
      ⟨slash :: (ramdisk0 ++ [slash, slash, dot]), by decide⟩ 1 = .ok r ∧
      r.1.found = some 1 ∧ r.1.parent = 0) := by decide +kernel
  obtain ⟨s, hreach, ⟨l, s'⟩, hlook, hfound, hpar⟩ := hrun.reached
  refine ⟨s, s', hreach, ?_⟩
  rcases (lookup_follows_components _ _ _ _ _ _ (by decide)).mp hlook with
    ⟨d, par, rfl, hres⟩ | ⟨_, _, _, _, _, _, -, -, hb⟩
  · cases hfound
    cases hpar
    exact hres
  · simp [hb.found] at hfound

/-! ## Paths through a file -/

section

variable {s s₁ : Vfs} {path : Path} {cwd d par p k : Nat} {name : Name} {pre : List Name}
  {e : Dentry} {f : Vinode}

end

/-! ## Creation -/

section

variable {s s' s₁ : Vfs} {path : Path} {cwd d par : Nat} {name : Name} {pre rest : List Name}
  {l : Lookup}

end

/-! ## Links -/

section

variable {s s' s₁ s₂ s₃ : Vfs} {oldpath newpath : Path} {this cwd d par par' old : Nat}
  {name : Name} {pre rest : List Name} {l lOld : Lookup}

theorem Vfs.Sound.hash_kept (h : s.Sound) (h' : s'.Sound)
    (hkeep : ∀ d e, s.dentries d = some e → s'.dentries d = some e)
    (hd : s.dentryHash (some this, name) = some d) : s'.dentryHash (some this, name) = some d := by
  obtain ⟨e, he, hkey⟩ := h.key _ _ hd
  obtain ⟨hpar, rfl⟩ := Prod.mk.inj hkey
  have hne : d ≠ vfsRootDentry := by
    rintro rfl
    obtain ⟨e0, he0, -, hpar0⟩ := h.hostRoot
    cases he.symm.trans he0
    simp [hpar0] at hpar
  obtain ⟨up, hup, hhash, -⟩ := h'.dentry d e (hkeep d e he) hne
  cases hpar.symm.trans hup
  exact hhash

/-- What a component that leads from `this` to `d` leaves behind: a directory it was looked up in
has the dentry in the table. -/
def Vfs.Passes (s : Vfs) (this par : Nat) (name : Name) (d par' : Nat) : Prop :=
  (name = [dot] ∧ d = this ∧ par' = par) ∨
  (name = [dot, dot] ∧ par' = par ∧ ∃ e, s.dentries this = some e ∧ e.parent = some d) ∨
  (name ≠ [dot] ∧ name ≠ [dot, dot] ∧ par' = this ∧ s.dentryHash (some this, name) = some d)

theorem Vfs.Passes.kept (hp : s.Passes this par name d par') (h : s.Sound) (h' : s'.Sound)
    (hkeep : ∀ d e, s.dentries d = some e → s'.dentries d = some e) :
    s'.Passes this par name d par' := by
  rcases hp with hstay | ⟨hname, hpar, e, he, hup⟩ | ⟨h1, h2, hpar, hk⟩
  · exact .inl hstay
  · exact .inr (.inl ⟨hname, hpar, e, hkeep _ _ he, hup⟩)
  · exact .inr (.inr ⟨h1, h2, hpar, h.hash_kept h' hkeep hk⟩)

theorem Steps.sound (hstep : Steps s this par name s₁ d par') (h : s.Sound)
    (h0 : (0 : UInt8) ∉ name) (hw : walksDirs (name :: rest) s this = true) :
    s₁.Sound ∧ s.Grows s₁ ∧ walksDirs rest s₁ d = true ∧ s₁.Passes this par name d par' := by
  cases hstep with
  | stay => exact ⟨h, Vfs.Grows.refl s, hw, .inl ⟨rfl, rfl, rfl⟩⟩
  | up he hup =>
    rw [walksDirs, if_neg (by decide), if_pos rfl, he, Option.bind_some, hup] at hw
    exact ⟨h, Vfs.Grows.refl s, hw, .inr (.inl ⟨rfl, rfl, _, he, hup⟩)⟩
  | child h1 h2 hrun =>
    rw [walksDirs, if_neg h1, if_neg h2, hrun, Bool.and_eq_true] at hw
    obtain ⟨hs1, hg, -, hk⟩ := (h.lookupToken (h.dirAt_of_isDir hw.1).1 h0).1 _ hrun
    exact ⟨hs1, hg, hw.2, .inr (.inr ⟨h1, h2, rfl, hk _ rfl⟩)⟩

end

end CabbagePKE
