import CabbagePKE.Rfs.Directory
import CabbagePKE.Lib.Tally

/-!
# The file tree

What a mounted RAM disk is for, without addresses, buffers and hash tables:
inodes, on disk and as seen through the cache, the entries of the directories,
and the blocks in use. The operations keep every block with one owner
(`Tree.Shape`) and the link counts equal to the number of entries
(`Tree.Counted`).
-/

namespace CabbagePKE

open Lib Finset Function

/-! ## Trees -/

def Dinode.Holds (d : Dinode) (b : Nat) : Prop := ∃ i : Nat, (i : Int) < d.blocks ∧ d.addr i = b

def Dinode.withSize (d : Dinode) (size : Int) : Dinode := { d with size := size }

def Dinode.withLinks (d : Dinode) (nlinks : Int) : Dinode := { d with nlinks := nlinks }

def Dinode.freed (d : Dinode) : Dinode := { d with nlinks := 0, type := R_FREE }

/-- The inodes of a file system: `disk` on the disk, `node` as seen through
the cache; the entries of the directories; the blocks marked used. -/
@[ext]
structure Tree where
  disk : Nat → Dinode
  node : Nat → Dinode
  ents : Nat → List (Name × Int)
  used : Nat → Prop

def Tree.InUse (t : Tree) (n : Nat) : Prop := (t.disk n).type ≠ R_FREE

instance (t : Tree) (n : Nat) : Decidable (t.InUse n) :=
  inferInstanceAs (Decidable ((t.disk n).type ≠ R_FREE))

/-- The inode number of the first entry called `name` of directory `p`. -/
def Tree.target (t : Tree) (p : Nat) (name : Name) : Option Int :=
  ((t.ents p).find? (fun e => e.1 = name)).map Prod.snd

def Tree.linkCount (t : Tree) (m : Nat) : Nat :=
  ∑ n ∈ range RFS_NINODES, (t.ents n).countP (fun e => e.2 = (m : Int))

/-- A disk inode and its cached form agree, and its blocks are its own. -/
structure InodeOk (used : Nat → Prop) (disk node : Dinode) : Prop where
  kind : disk.type = R_FILE ∨ disk.type = R_DIR
  type_eq : node.type = disk.type
  nlinks_eq : node.nlinks = disk.nlinks
  pos : 1 ≤ disk.blocks
  grown : disk.blocks ≤ node.blocks
  le : node.blocks ≤ (DIRECT_BLKNUM : Int)
  addrs : ∀ i : Nat, (i : Int) < disk.blocks → node.addr i = disk.addr i
  data : ∀ i : Nat, (i : Int) < node.blocks → ∃ b : Nat, node.addr i = b ∧ used b
  inj : ∀ i j : Nat, (i : Int) < node.blocks → (j : Int) < node.blocks →
    node.addr i = node.addr j → i = j
  size_nonneg : 0 ≤ node.size
  size_le : node.size ≤ RFS_BLKSIZE * node.blocks
  fits : node.Fits

/-- A directory has one block, is never ahead of its disk inode, and its
size counts its entries. -/
structure DirShape (ents : List (Name × Int)) (disk node : Dinode) : Prop where
  same : node = disk
  one : disk.blocks = 1
  size : disk.size = (DIRENTRY_SIZE * ents.length : Nat)
  le : ents.length ≤ ONE_BLOCK_DIRENTRYS
  names : ∀ e ∈ ents, NameOk e.1

/-- Every block in use by an inode is marked used and has one owner. -/
structure Tree.Shape (t : Tree) : Prop where
  isData : ∀ b, t.used b → IsData b
  root : (t.disk 0).type = R_DIR
  lt : ∀ n, t.InUse n → n < RFS_NINODES
  inode : ∀ n, t.InUse n → InodeOk t.used (t.disk n) (t.node n)
  dir : ∀ n, (t.disk n).type = R_DIR → DirShape (t.ents n) (t.disk n) (t.node n)
  plain : ∀ n, (t.disk n).type ≠ R_DIR → t.ents n = []
  apart : ∀ n m, t.InUse n → t.InUse m → n ≠ m → ∀ b, (t.node n).Holds b → ¬ (t.node m).Holds b

structure Tree.Counted (t : Tree) : Prop where
  target : ∀ n e, e ∈ t.ents n → ∃ m : Nat, e.2 = m ∧ m ≠ 0 ∧ t.InUse m
  links : ∀ m, m ≠ 0 → t.InUse m → (t.disk m).nlinks = t.linkCount m
  pos : ∀ m, m ≠ 0 → t.InUse m → 0 < t.linkCount m
  dirs : ∀ m, m ≠ 0 → (t.disk m).type = R_DIR → t.linkCount m = 1

structure Tree.Ok (t : Tree) : Prop where
  shape : t.Shape
  counted : t.Counted

/-! ## Operations -/

/-- Inode `n` becomes `dk` on disk and `d` in the cache, with entries `l`. -/
def Tree.put (t : Tree) (n : Nat) (dk d : Dinode) (l : List (Name × Int)) : Tree where
  disk := update t.disk n dk
  node := update t.node n d
  ents := update t.ents n l
  used b := t.used b ∨ d.Holds b

def Tree.setEnts (t : Tree) (p : Nat) (l : List (Name × Int)) : Tree :=
  let d := (t.node p).withSize (DIRENTRY_SIZE * l.length : Nat)
  t.put p d d l

def Tree.free (t : Tree) (m : Nat) : Tree :=
  { disk := update t.disk m (t.disk m).freed
    node := update t.node m (t.disk m).freed
    ents := t.ents
    used := fun b => t.used b ∧ ¬ (t.disk m).Holds b }

def Tree.addEntry (t : Tree) (p : Nat) (name : Name) (m : Nat) : Tree :=
  t.setEnts p (t.ents p ++ [(name, (m : Int))])

def Tree.dropEntry (t : Tree) (p : Nat) (name : Name) : Tree :=
  t.setEnts p ((t.ents p).eraseP (fun e => e.1 = name))

def Tree.create (t : Tree) (p : Nat) (name : Name) (m : Nat) (d : Dinode) : Tree :=
  (t.put m d d []).addEntry p name m

def Tree.link (t : Tree) (p : Nat) (name : Name) (m : Nat) : Tree :=
  let d := (t.node m).withLinks ((t.node m).nlinks + 1)
  (t.put m d d []).addEntry p name m

/-- Inode `m` has one link less; the disk inode keeps its other fields. -/
def Tree.unlinkNode (t : Tree) (m : Nat) : Tree :=
  if (t.node m).nlinks = 1 then t.free m
  else t.put m ((t.disk m).withLinks ((t.node m).nlinks - 1))
    ((t.node m).withLinks ((t.node m).nlinks - 1)) []

def Tree.unlink (t : Tree) (p : Nat) (name : Name) (m : Nat) : Tree :=
  (t.unlinkNode m).dropEntry p name

def Tree.write (t : Tree) (n : Nat) (d : Dinode) : Tree := t.put n (t.disk n) d []

def Tree.sync (t : Tree) (n : Nat) : Tree := t.put n (t.node n) (t.node n) (t.ents n)

section

variable {t : Tree} {n m p : Nat} {dk d : Dinode} {l : List (Name × Int)} {name : Name}
  {used : Nat → Prop} {b k q : Nat}

theorem R_FILE_ne_R_DIR : R_FILE ≠ R_DIR := by decide

theorem Tree.file_ne_dir (hm : (t.disk m).type = R_FILE) (hn : (t.disk n).type = R_DIR) :
    m ≠ n := by
  rintro rfl
  exact R_FILE_ne_R_DIR (hm.symm.trans hn)

theorem R_FILE_ne_R_FREE : R_FILE ≠ R_FREE := by decide

theorem R_DIR_ne_R_FREE : R_DIR ≠ R_FREE := by decide

theorem Tree.inUse_of_dir (h : (t.disk n).type = R_DIR) : t.InUse n := by
  rw [Tree.InUse, h]
  exact R_DIR_ne_R_FREE

theorem Tree.inUse_of_file (h : (t.disk n).type = R_FILE) : t.InUse n := by
  rw [Tree.InUse, h]
  exact R_FILE_ne_R_FREE

theorem InodeOk.holds_used (h : InodeOk used dk d) (hb : d.Holds b) : used b := by
  obtain ⟨i, hi, hib⟩ := hb
  obtain ⟨c, hc, hu⟩ := h.data i hi
  rw [hib] at hc
  rwa [Int.natCast_inj.mp hc]

theorem InodeOk.mono {used' : Nat → Prop} (h : InodeOk used dk d)
    (hsub : ∀ b, d.Holds b → used' b) : InodeOk used' dk d :=
  { h with
    data := fun i hi => by
      obtain ⟨b, hb, -⟩ := h.data i hi
      exact ⟨b, hb, hsub b ⟨i, hi, hb⟩⟩ }

theorem InodeOk.holds_disk (h : InodeOk used dk d) (hb : dk.Holds b) : d.Holds b := by
  obtain ⟨i, hi, hib⟩ := hb
  exact ⟨i, Int.lt_of_lt_of_le hi h.grown, by rw [h.addrs i hi, hib]⟩

theorem Tree.Shape.dir_of_mem (h : t.Shape) {e : Name × Int} (he : e ∈ t.ents n) :
    (t.disk n).type = R_DIR := by
  by_contra hne
  simp [h.plain n hne] at he

theorem Tree.Shape.dir_of_target (h : t.Shape) {i : Int} (he : t.target n name = some i) :
    (t.disk n).type = R_DIR := by
  unfold Tree.target at he
  rw [Option.map_eq_some_iff] at he
  obtain ⟨e, hfind, -⟩ := he
  exact h.dir_of_mem (List.mem_of_find?_eq_some hfind)

theorem Tree.Shape.nameOk_of_target (h : t.Shape) {i : Int} (he : t.target n name = some i) :
    NameOk name := by
  have hd := h.dir n (h.dir_of_target he)
  obtain ⟨e, hfind, -⟩ := Option.map_eq_some_iff.mp he
  have hname : decide (e.1 = name) = true :=
    List.find?_some (p := fun e : Name × Int => decide (e.1 = name)) hfind
  exact of_decide_eq_true hname ▸ hd.names e (List.mem_of_find?_eq_some hfind)

theorem Tree.Shape.dirBlock (h : t.Shape) (hd : (t.disk n).type = R_DIR) :
    ∃ b : Nat, (t.disk n).addr 0 = b ∧ t.used b := by
  have hin := h.inode n (Tree.inUse_of_dir hd)
  have hone := (h.dir n hd).one
  have hgrown := hin.grown
  obtain ⟨b, hb, hu⟩ := hin.data 0 (by omega)
  exact ⟨b, by rw [← hin.addrs 0 (by omega), hb], hu⟩

/-! ## Blocks keep one owner -/

theorem Tree.Shape.put (h : t.Shape) (hn : n < RFS_NINODES)
    (hok : InodeOk (fun b => t.used b ∨ d.Holds b) dk d)
    (hdir : dk.type = R_DIR → DirShape l dk d) (hplain : dk.type ≠ R_DIR → l = [])
    (hroot : n = 0 → dk.type = R_DIR) (hdata : ∀ b, d.Holds b → IsData b)
    (hfresh : ∀ b, d.Holds b → t.used b → t.InUse n ∧ (t.node n).Holds b) :
    (t.put n dk d l).Shape := by
  have hself : ∀ k, (t.put n dk d l).InUse k → k ≠ n → t.InUse k := by
    intro k hk hne
    simpa [Tree.InUse, Tree.put, hne] using hk
  -- a block of another inode is not one of `d`
  have hother : ∀ k, k ≠ n → t.InUse k → ∀ b, (t.node k).Holds b → ¬ d.Holds b := by
    intro k hne hk b hb hdb
    obtain ⟨hin, hnb⟩ := hfresh b hdb ((h.inode k hk).holds_used hb)
    exact h.apart k n hk hin hne b hb hnb
  constructor
  · rintro b (hb | hb)
    · exact h.isData b hb
    · exact hdata b hb
  · by_cases h0 : n = 0
    · simp [Tree.put, h0, hroot h0]
    · simp [Tree.put, Ne.symm h0, h.root]
  · intro k hk
    by_cases hkn : k = n
    · omega
    · exact h.lt k (hself k hk hkn)
  · intro k hk
    by_cases hkn : k = n
    · subst hkn
      simpa [Tree.put] using hok
    · simp only [Tree.put, update_of_ne hkn]
      have hkok := h.inode k (hself k hk hkn)
      exact hkok.mono (fun b hb => .inl (hkok.holds_used hb))
  · intro k hk
    by_cases hkn : k = n
    · subst hkn
      simp only [Tree.put, update_self] at hk ⊢
      exact hdir hk
    · simp only [Tree.put, update_of_ne hkn] at hk ⊢
      exact h.dir k hk
  · intro k hk
    by_cases hkn : k = n
    · subst hkn
      simp only [Tree.put, update_self] at hk ⊢
      exact hplain hk
    · simp only [Tree.put, update_of_ne hkn] at hk ⊢
      exact h.plain k hk
  · intro k j hk hj hne b
    by_cases hkn : k = n
    · subst hkn
      have hjk : j ≠ k := Ne.symm hne
      simp only [Tree.put, update_self, update_of_ne hjk]
      exact fun hb hjb => hother j hjk (hself j hj hjk) b hjb hb
    · by_cases hjn : j = n
      · subst hjn
        simp only [Tree.put, update_self, update_of_ne hkn]
        exact hother k hkn (hself k hk hkn) b
      · simp only [Tree.put, update_of_ne hkn, update_of_ne hjn]
        exact h.apart k j (hself k hk hkn) (hself j hj hjn) hne b

theorem Tree.Shape.setEnts (h : t.Shape) (hp : (t.disk p).type = R_DIR)
    (hle : l.length ≤ ONE_BLOCK_DIRENTRYS) (hnames : ∀ e ∈ l, NameOk e.1) :
    (t.setEnts p l).Shape := by
  have hin := Tree.inUse_of_dir hp
  have hok := h.inode p hin
  have hd := h.dir p hp
  have hone : (t.node p).blocks = 1 := by rw [hd.same, hd.one]
  have htype := hok.type_eq.symm
  apply h.put (h.lt p hin)
  · have hdata : ∀ i : Nat, (i : Int) < (t.node p).blocks →
        ∃ b : Nat, (t.node p).addr i = b ∧ (t.used b ∨ (t.node p).Holds b) := by
      intro i hi
      obtain ⟨b, hb, hu⟩ := hok.data i hi
      exact ⟨b, hb, .inl hu⟩
    have hsize : ((DIRENTRY_SIZE * l.length : Nat) : Int) ≤ RFS_BLKSIZE * (t.node p).blocks := by
      rw [hone]
      unfold ONE_BLOCK_DIRENTRYS at hle
      unfold DIRENTRY_SIZE RFS_BLKSIZE
      omega
    exact ⟨htype ▸ hok.kind, rfl, rfl, hone.ge, Int.le_refl _, hok.le, fun _ _ => rfl, hdata,
      hok.inj, Int.natCast_nonneg _, hsize, fits_dirSize hok.fits (hle.trans (by decide))⟩
  · exact fun _ => ⟨rfl, hone, rfl, hle, hnames⟩
  · exact fun hne => absurd (htype.symm.trans hp) hne
  · exact fun _ => htype.symm.trans hp
  · exact fun b hb => h.isData b (hok.holds_used hb)
  · exact fun b hb _ => ⟨hin, hb⟩

theorem Tree.Shape.free (h : t.Shape) (hm : (t.disk m).type = R_FILE) : (t.free m).Shape := by
  have hin := Tree.inUse_of_file hm
  have hmok := h.inode m hin
  have hself : ∀ k, (t.free m).InUse k → k ≠ m ∧ t.InUse k := by
    intro k hk
    have hkm : k ≠ m := by
      rintro rfl
      simp [Tree.InUse, Tree.free, Dinode.freed] at hk
    exact ⟨hkm, by simpa [Tree.InUse, Tree.free, hkm] using hk⟩
  have hm0 : (0 : Nat) ≠ m := by
    rintro rfl
    rw [h.root] at hm
    exact R_FILE_ne_R_DIR hm.symm
  constructor
  · exact fun b hb => h.isData b hb.1
  · simp only [Tree.free, update_of_ne hm0]
    exact h.root
  · exact fun k hk => h.lt k (hself k hk).2
  · intro k hk
    obtain ⟨hkm, hku⟩ := hself k hk
    have hkok := h.inode k hku
    simp only [Tree.free, update_of_ne hkm]
    refine hkok.mono (fun b hb => ⟨hkok.holds_used hb, fun hmb => ?_⟩)
    exact h.apart k m hku hin hkm b hb (hmok.holds_disk hmb)
  · intro k hk
    have hkm := (hself k (Tree.inUse_of_dir hk)).1
    simp only [Tree.free, update_of_ne hkm] at hk ⊢
    exact h.dir k hk
  · intro k hk
    by_cases hkm : k = m
    · subst hkm
      exact h.plain k (by rw [hm]; exact R_FILE_ne_R_DIR)
    · simp only [Tree.free, update_of_ne hkm] at hk ⊢
      exact h.plain k hk
  · intro k j hk hj hne b
    obtain ⟨hkm, hku⟩ := hself k hk
    obtain ⟨hjm, hju⟩ := hself j hj
    simp only [Tree.free, update_of_ne hkm, update_of_ne hjm]
    exact h.apart k j hku hju hne b

theorem DirShape.names_append (h : DirShape l dk d) (hname : NameOk name) {i : Int} :
    ∀ e ∈ l ++ [(name, i)], NameOk e.1 := by
  intro e he
  rcases List.mem_append.mp he with he | he
  · exact h.names e he
  · rwa [List.mem_singleton.mp he]

/-! ## Entries and link counts -/

theorem Tree.target_setEnts (name' : Name) :
    (t.setEnts p l).target q name'
      = if q = p then (l.find? (fun e => e.1 = name')).map Prod.snd else t.target q name' := by
  by_cases hq : q = p
  · subst hq
    simp [Tree.target, Tree.setEnts, Tree.put]
  · simp [Tree.target, Tree.setEnts, Tree.put, hq]

theorem Tree.target_put (name' : Name) :
    (t.put n dk d (t.ents n)).target q name' = t.target q name' := by simp [Tree.target, Tree.put]

theorem Tree.target_addEntry (h : t.target p name = none) (name' : Name) :
    (t.addEntry p name m).target q name'
      = if q = p ∧ name' = name then some (m : Int) else t.target q name' := by
  rw [Tree.addEntry, Tree.target_setEnts]
  by_cases hq : q = p
  · subst hq
    unfold Tree.target at h ⊢
    rw [Option.map_eq_none_iff] at h
    rw [List.find?_append]
    by_cases hn : name' = name
    · subst hn
      simp [h]
    · have hne : ¬ name = name' := fun hc => hn hc.symm
      simp [hn, hne]
  · simp [hq]

theorem Tree.target_put_addEntry (hm : t.ents m = []) (h : t.target p name = none)
    (name' : Name) : ((t.put m dk d []).addEntry p name m).target q name'
      = if q = p ∧ name' = name then some (m : Int) else t.target q name' := by
  have hput : ∀ k x, (t.put m dk d []).target k x = t.target k x := by
    intro k x
    rw [← hm, Tree.target_put]
  rw [Tree.target_addEntry (by rw [hput, h]), hput]

theorem Tree.target_dropEntry {name' : Name} (h : q ≠ p ∨ name' ≠ name) :
    (t.dropEntry p name).target q name' = t.target q name' := by
  rw [Tree.dropEntry, Tree.target_setEnts]
  by_cases hq : q = p
  · subst hq
    have hne : name' ≠ name := by
      rcases h with h | h
      · exact absurd rfl h
      · exact h
    rw [if_pos rfl, Tree.target, find?_eraseP]
    intro e he
    simp only [decide_eq_true_eq] at he
    simp [he, hne]
  · rw [if_neg hq]

theorem Tree.linkCount_put (hn : n < RFS_NINODES) :
    (t.put n dk d l).linkCount m + (t.ents n).countP (fun e => e.2 = (m : Int))
      = t.linkCount m + l.countP (fun e => e.2 = (m : Int)) := by
  have hsum := sum_change (f := fun k => (t.ents k).countP (fun e => e.2 = (m : Int)))
    (g := fun k => (update t.ents n l k).countP (fun e => e.2 = (m : Int))) hn
    (fun k hk => by simp only [update_of_ne hk])
  simp only [update_self] at hsum
  exact hsum

theorem Tree.linkCount_put_self : (t.put n dk d (t.ents n)).linkCount m = t.linkCount m := by
  simp [Tree.linkCount, Tree.put]

theorem Tree.linkCount_setEnts (hp : p < RFS_NINODES) :
    (t.setEnts p l).linkCount m + (t.ents p).countP (fun e => e.2 = (m : Int))
      = t.linkCount m + l.countP (fun e => e.2 = (m : Int)) := Tree.linkCount_put hp

theorem Tree.linkCount_addEntry (hp : p < RFS_NINODES) (k : Nat) :
    (t.addEntry p name m).linkCount k = t.linkCount k + if k = m then 1 else 0 := by
  have hset := Tree.linkCount_setEnts (t := t) (m := k) (l := t.ents p ++ [(name, (m : Int))]) hp
  have hone : List.countP (fun e : Name × Int => decide (e.2 = (k : Int))) [(name, (m : Int))]
      = if k = m then 1 else 0 := by
    by_cases hk : k = m
    · simp [hk]
    · have hne : ¬ (m : Int) = (k : Int) := by omega
      simp [hk, hne]
  rw [List.countP_append, hone] at hset
  unfold Tree.addEntry
  omega

theorem Tree.linkCount_dropEntry (hp : p < RFS_NINODES) (h : t.target p name = some (m : Int))
    (k : Nat) : (t.dropEntry p name).linkCount k + (if k = m then 1 else 0) = t.linkCount k := by
  unfold Tree.target at h
  rw [Option.map_eq_some_iff] at h
  obtain ⟨e, hfind, he⟩ := h
  have herase := countP_eraseP (u := fun e : Name × Int => decide (e.2 = (k : Int))) hfind
  have hset := Tree.linkCount_setEnts (t := t) (m := k)
    (l := (t.ents p).eraseP (fun e => e.1 = name)) hp
  have hone : (if decide (e.2 = (k : Int)) = true then 1 else 0) = if k = m then 1 else 0 := by
    rw [he]
    by_cases hk : k = m
    · simp [hk]
    · have hne : ¬ (m : Int) = (k : Int) := by omega
      simp [hk, hne]
  unfold Tree.dropEntry
  omega

theorem Tree.one_le_countP (h : t.target p name = some (m : Int)) :
    1 ≤ (t.ents p).countP (fun e => e.2 = (m : Int)) := by
  unfold Tree.target at h
  rw [Option.map_eq_some_iff] at h
  obtain ⟨e, hfind, he⟩ := h
  exact List.countP_pos_iff.mpr ⟨e, List.mem_of_find?_eq_some hfind, by simpa using he⟩

theorem Tree.Shape.two_le_linkCount (h : t.Shape) {name' : Name}
    (h1 : t.target p name = some (m : Int)) (h2 : t.target q name' = some (m : Int))
    (hne : p ≠ q ∨ name ≠ name') : 2 ≤ t.linkCount m := by
  have hp := h.lt p (Tree.inUse_of_dir (h.dir_of_target h1))
  have hq := h.lt q (Tree.inUse_of_dir (h.dir_of_target h2))
  by_cases hpq : p = q
  · subst hpq
    have hnn : name' ≠ name := by
      rcases hne with hne | hne
      · exact absurd rfl hne
      · exact Ne.symm hne
    -- both entries are in one directory: take one away, the other is left
    have hleft : (t.dropEntry p name).target p name' = some (m : Int) := by
      rw [Tree.target_dropEntry (.inr hnn), h2]
    have hone := Tree.one_le_countP hleft
    have hle := le_sum_of_lt (fun k => ((t.dropEntry p name).ents k).countP
      (fun e => e.2 = (m : Int))) hp
    have hdrop := Tree.linkCount_dropEntry hp h1 m
    simp only [if_true] at hdrop
    unfold Tree.linkCount at hdrop ⊢
    omega
  · have hadd := add_le_sum (fun k => (t.ents k).countP (fun e => e.2 = (m : Int))) hp hq hpq
    have hone := Tree.one_le_countP h1
    have hone' := Tree.one_le_countP h2
    unfold Tree.linkCount
    omega

theorem Tree.Shape.linkCount_le (h : t.Shape) :
    t.linkCount m ≤ RFS_NINODES * ONE_BLOCK_DIRENTRYS := by
  have hle : ∀ k ∈ range RFS_NINODES,
      (t.ents k).countP (fun e => e.2 = (m : Int)) ≤ ONE_BLOCK_DIRENTRYS := by
    intro k _
    by_cases hk : (t.disk k).type = R_DIR
    · exact List.countP_le_length.trans (h.dir k hk).le
    · rw [h.plain k hk]
      exact Nat.zero_le _
  calc t.linkCount m ≤ ∑ _k ∈ range RFS_NINODES, ONE_BLOCK_DIRENTRYS := sum_le_sum hle
    _ = RFS_NINODES * ONE_BLOCK_DIRENTRYS := by rw [sum_const_nat (fun _ _ => rfl), card_range]

theorem Tree.Counted.linkCount_free (h : t.Counted) (hm : ¬ t.InUse m) : t.linkCount m = 0 := by
  apply sum_eq_zero
  intro k _
  rw [List.countP_eq_zero]
  intro e he hem
  obtain ⟨j, hj, -, hin⟩ := h.target k e he
  rw [decide_eq_true_eq, hj, Int.natCast_inj] at hem
  exact hm (hem ▸ hin)

/-- The link counts of all inodes but `m` are the numbers of their entries. -/
structure Tree.CountedBut (t : Tree) (m : Nat) : Prop where
  target : ∀ n e, e ∈ t.ents n → ∃ k : Nat, e.2 = k ∧ k ≠ 0 ∧ (t.InUse k ∨ k = m)
  links : ∀ k, k ≠ 0 → k ≠ m → t.InUse k → (t.disk k).nlinks = t.linkCount k
  pos : ∀ k, k ≠ 0 → k ≠ m → t.InUse k → 0 < t.linkCount k
  dirs : ∀ k, k ≠ 0 → k ≠ m → (t.disk k).type = R_DIR → t.linkCount k = 1

theorem Tree.ents_setEnts (k : Nat) : (t.setEnts p l).ents k = if k = p then l else t.ents k := by
  by_cases hk : k = p
  · subst hk
    simp [Tree.setEnts, Tree.put]
  · simp [Tree.setEnts, Tree.put, hk]

theorem Tree.ents_put_addEntry (hm : t.ents m = []) : ((t.put m dk d []).addEntry p name m).ents
    = update t.ents p (t.ents p ++ [(name, (m : Int))]) := by
  have hput : (t.put m dk d []).ents = t.ents := by
    rw [← hm]
    exact update_eq_self ..
  funext k
  rw [Tree.addEntry, Tree.ents_setEnts, hput]
  by_cases hk : k = p
  · rw [if_pos hk, hk, update_self]
  · rw [if_neg hk, update_of_ne hk]

theorem Tree.Shape.disk_setEnts (h : t.Shape) (hp : (t.disk p).type = R_DIR) (k : Nat) :
    ((t.setEnts p l).disk k).type = (t.disk k).type ∧
      ((t.setEnts p l).disk k).nlinks = (t.disk k).nlinks := by
  by_cases hk : k = p
  · subst hk
    have hsame := (h.dir k hp).same
    simp [Tree.setEnts, Tree.put, Dinode.withSize, hsame]
  · simp [Tree.setEnts, Tree.put, hk]

theorem Tree.Shape.inUse_setEnts (h : t.Shape) (hp : (t.disk p).type = R_DIR) (k : Nat) :
    (t.setEnts p l).InUse k ↔ t.InUse k := by
  unfold Tree.InUse
  rw [(h.disk_setEnts hp k).1]

theorem Tree.CountedBut.addEntry (h : t.CountedBut m) (hs : t.Shape)
    (hp : (t.disk p).type = R_DIR) (hm : m ≠ 0) (hin : t.InUse m)
    (hlinks : (t.disk m).nlinks = t.linkCount m + 1)
    (hdir : (t.disk m).type = R_DIR → t.linkCount m = 0) : (t.addEntry p name m).Counted := by
  have hcnt : ∀ k, (t.addEntry p name m).linkCount k = t.linkCount k + if k = m then 1 else 0 :=
    Tree.linkCount_addEntry (hs.lt p (Tree.inUse_of_dir hp))
  have hself : ∀ k, (t.addEntry p name m).InUse k ↔ t.InUse k := hs.inUse_setEnts hp
  have hdisk : ∀ k, ((t.addEntry p name m).disk k).type = (t.disk k).type ∧
      ((t.addEntry p name m).disk k).nlinks = (t.disk k).nlinks := hs.disk_setEnts hp
  constructor
  · intro n e he
    have hold : e ∈ t.ents n → ∃ k : Nat, e.2 = k ∧ k ≠ 0 ∧ (t.addEntry p name m).InUse k := by
      intro he
      obtain ⟨k, hk, hk0, hku⟩ := h.target n e he
      rcases hku with hku | rfl
      · exact ⟨k, hk, hk0, (hself k).mpr hku⟩
      · exact ⟨k, hk, hk0, (hself k).mpr hin⟩
    rw [Tree.addEntry, Tree.ents_setEnts] at he
    split at he
    · rename_i hnp
      rcases List.mem_append.mp he with he | he
      · exact hold (hnp ▸ he)
      · rw [List.mem_singleton.mp he]
        exact ⟨m, rfl, hm, (hself m).mpr hin⟩
    · exact hold he
  · intro k hk0 hk
    rw [(hdisk k).2, hcnt]
    by_cases hkm : k = m
    · subst hkm
      rw [if_pos rfl, hlinks, Int.natCast_add, Int.natCast_one]
    · rw [if_neg hkm, Nat.add_zero]
      exact h.links k hk0 hkm ((hself k).mp hk)
  · intro k hk0 hk
    rw [hcnt]
    by_cases hkm : k = m
    · simp [hkm]
    · simp [hkm, h.pos k hk0 hkm ((hself k).mp hk)]
  · intro k hk0 hk
    rw [(hdisk k).1] at hk
    rw [hcnt]
    by_cases hkm : k = m
    · subst hkm
      simp [hdir hk]
    · simp [hkm, h.dirs k hk0 hkm hk]

theorem Tree.CountedBut.dropEntry (h : t.CountedBut m) (hs : t.Shape)
    (ht : t.target p name = some (m : Int))
    (hm : (¬ t.InUse m ∧ t.linkCount m = 1) ∨
      ((t.disk m).type = R_FILE ∧ (t.disk m).nlinks + 1 = t.linkCount m ∧ 2 ≤ t.linkCount m)) :
    (t.dropEntry p name).Counted := by
  have hp := hs.dir_of_target ht
  have hcnt := Tree.linkCount_dropEntry (hs.lt p (Tree.inUse_of_dir hp)) ht
  have hself : ∀ k, (t.dropEntry p name).InUse k ↔ t.InUse k := hs.inUse_setEnts hp
  have hdisk : ∀ k, ((t.dropEntry p name).disk k).type = (t.disk k).type ∧
      ((t.dropEntry p name).disk k).nlinks = (t.disk k).nlinks := hs.disk_setEnts hp
  have hsub : ∀ n e, e ∈ (t.dropEntry p name).ents n → e ∈ t.ents n := by
    intro n e he
    rw [Tree.dropEntry, Tree.ents_setEnts] at he
    split at he
    · rename_i hnp
      rw [hnp]
      exact List.mem_of_mem_eraseP he
    · exact he
  constructor
  · intro n e he
    obtain ⟨k, hk, hk0, hku⟩ := h.target n e (hsub n e he)
    refine ⟨k, hk, hk0, (hself k).mpr ?_⟩
    rcases hku with hku | rfl
    · exact hku
    · rcases hm with ⟨-, hone⟩ | ⟨hfile, -⟩
      · -- the only entry of `m` was the one removed
        exfalso
        have hkc := hcnt k
        rw [if_pos rfl, hone] at hkc
        have hn := hs.lt n (Tree.inUse_of_dir (hs.dir_of_mem (hsub n e he)))
        have hle := le_sum_of_lt (fun j => ((t.dropEntry p name).ents j).countP
          (fun e => e.2 = (k : Int))) hn
        have hpos : 0 < ((t.dropEntry p name).ents n).countP (fun e => e.2 = (k : Int)) :=
          List.countP_pos_iff.mpr ⟨e, he, by simpa using hk⟩
        unfold Tree.linkCount at hkc
        omega
      · exact Tree.inUse_of_file hfile
  · intro k hk0 hk
    rw [hself] at hk
    rw [(hdisk k).2]
    have hkc := hcnt k
    by_cases hkm : k = m
    · subst hkm
      rw [if_pos rfl] at hkc
      rcases hm with ⟨hfree, -⟩ | ⟨-, hlinks, -⟩
      · exact absurd hk hfree
      · omega
    · rw [if_neg hkm] at hkc
      rw [h.links k hk0 hkm hk, ← hkc, Nat.add_zero]
  · intro k hk0 hk
    rw [hself] at hk
    have hkc := hcnt k
    by_cases hkm : k = m
    · subst hkm
      rw [if_pos rfl] at hkc
      rcases hm with ⟨hfree, -⟩ | ⟨-, -, htwo⟩
      · exact absurd hk hfree
      · omega
    · rw [if_neg hkm] at hkc
      have hpos := h.pos k hk0 hkm hk
      omega
  · intro k hk0 hk
    rw [(hdisk k).1] at hk
    have hkc := hcnt k
    by_cases hkm : k = m
    · subst hkm
      rcases hm with ⟨hfree, -⟩ | ⟨hfile, -⟩
      · exact absurd (Tree.inUse_of_dir hk) hfree
      · rw [hk] at hfile
        exact absurd hfile.symm R_FILE_ne_R_DIR
    · rw [if_neg hkm] at hkc
      have hone := h.dirs k hk0 hkm hk
      omega

/-! ## Every operation keeps the invariant -/

structure NewInode (d : Dinode) (b : Nat) : Prop where
  kind : d.type = R_FILE ∨ d.type = R_DIR
  size : d.size = 0
  nlinks : d.nlinks = 1
  blocks : d.blocks = 1
  addr : d.addr 0 = b
  data : IsData b
  fits : d.Fits

theorem NewInode.holds {c : Nat} (h : NewInode d b) : d.Holds c ↔ c = b := by
  constructor
  · rintro ⟨i, hi, hic⟩
    rw [h.blocks] at hi
    obtain rfl : i = 0 := by omega
    rw [h.addr] at hic
    exact (Int.natCast_inj.mp hic).symm
  · rintro rfl
    exact ⟨0, by rw [h.blocks]; decide, h.addr⟩

theorem NewInode.inodeOk (h : NewInode d b) (hb : used b) : InodeOk used d d where
  kind := h.kind
  type_eq := rfl
  nlinks_eq := rfl
  pos := h.blocks.ge
  grown := Int.le_refl _
  le := by rw [h.blocks]; decide
  addrs _ _ := rfl
  data i hi := by
    rw [h.blocks] at hi
    obtain rfl : i = 0 := by omega
    exact ⟨b, h.addr, hb⟩
  inj i j hi hj _ := by
    rw [h.blocks] at hi hj
    omega
  size_nonneg := h.size.ge
  size_le := by
    rw [h.size, h.blocks]
    decide
  fits := h.fits

theorem Tree.Shape.newInode (h : t.Shape) (hm : ¬ t.InUse m) (hlt : m < RFS_NINODES)
    (hd : NewInode d b) (hb : ¬ t.used b) : (t.put m d d []).Shape := by
  apply h.put hlt (hd.inodeOk (.inr (hd.holds.mpr rfl)))
  · intro _
    refine ⟨rfl, hd.blocks, by rw [hd.size]; rfl, Nat.zero_le _, ?_⟩
    intro e he
    cases he
  · exact fun _ => rfl
  · rintro rfl
    exact absurd (Tree.inUse_of_dir h.root) hm
  · intro c hc
    rw [hd.holds.mp hc]
    exact hd.data
  · intro c hc hu
    rw [hd.holds.mp hc] at hu
    exact absurd hu hb

theorem Tree.put_disk_of_ne (hk : k ≠ n) : (t.put n dk d l).disk k = t.disk k := by
  simp [Tree.put, hk]

@[simp] theorem Tree.put_disk_self : (t.put n dk d l).disk n = dk := by simp [Tree.put]

theorem Tree.Counted.but (h : t.Counted) (hl : t.ents m = l) : (t.put m dk d l).CountedBut m := by
  subst hl
  have hin : ∀ k, k ≠ m → ((t.put m dk d (t.ents m)).InUse k ↔ t.InUse k) := by
    intro k hk
    unfold Tree.InUse
    rw [Tree.put_disk_of_ne hk]
  refine ⟨fun n e he => ?_, fun k hk0 hk hku => ?_, fun k hk0 hk hku => ?_, fun k hk0 hk hku => ?_⟩
  · simp only [Tree.put, update_eq_self] at he
    obtain ⟨k, hek, hk0, hku⟩ := h.target n e he
    refine ⟨k, hek, hk0, ?_⟩
    by_cases hkm : k = m
    · exact .inr hkm
    · exact .inl ((hin k hkm).mpr hku)
  · rw [Tree.put_disk_of_ne hk, Tree.linkCount_put_self]
    exact h.links k hk0 ((hin k hk).mp hku)
  · rw [Tree.linkCount_put_self]
    exact h.pos k hk0 ((hin k hk).mp hku)
  · rw [Tree.put_disk_of_ne hk] at hku
    rw [Tree.linkCount_put_self]
    exact h.dirs k hk0 hku

theorem Tree.Ok.create (h : t.Ok) (hp : (t.disk p).type = R_DIR)
    (hroom : (t.ents p).length < ONE_BLOCK_DIRENTRYS) (hname : NameOk name)
    (hm : ¬ t.InUse m) (hlt : m < RFS_NINODES) (hd : NewInode d b) (hb : ¬ t.used b) :
    (t.create p name m d).Ok := by
  have hents : t.ents m = [] := by
    apply h.shape.plain
    exact fun hdir => hm (Tree.inUse_of_dir hdir)
  have hpm : p ≠ m := by
    rintro rfl
    exact hm (Tree.inUse_of_dir hp)
  have hshape := h.shape.newInode hm hlt hd hb
  have hp' : ((t.put m d d []).disk p).type = R_DIR := by rw [Tree.put_disk_of_ne hpm, hp]
  have hpe : (t.put m d d []).ents p = t.ents p := by simp [Tree.put, hpm]
  have hcount : (t.put m d d []).linkCount m = 0 := by
    rw [← hents, Tree.linkCount_put_self]
    exact h.counted.linkCount_free hm
  refine ⟨hshape.setEnts hp' ?_ ?_, (h.counted.but hents).addEntry hshape hp' ?_ ?_ ?_ ?_⟩
  · rwa [hpe, List.length_append]
  · rw [hpe]
    exact (h.shape.dir p hp).names_append hname
  · rintro rfl
    exact hm (Tree.inUse_of_dir h.shape.root)
  · rw [Tree.InUse, Tree.put_disk_self]
    rcases hd.kind with hk | hk
    · rw [hk]
      exact R_FILE_ne_R_FREE
    · rw [hk]
      exact R_DIR_ne_R_FREE
  · rw [Tree.put_disk_self, hd.nlinks, hcount]
    rfl
  · exact fun _ => hcount

theorem Tree.create_disk (hp : (t.disk p).type = R_DIR) (hm : ¬ t.InUse m) :
    (t.create p name m d).disk m = d := by
  have hne : m ≠ p := by
    rintro rfl
    exact hm (Tree.inUse_of_dir hp)
  simp [Tree.create, Tree.addEntry, Tree.setEnts, Tree.put, hne]

theorem Tree.Shape.setFile (h : t.Shape) (hm : (t.disk m).type = R_FILE)
    (hok : InodeOk (fun b => t.used b ∨ d.Holds b) dk d) (hk : dk.type = R_FILE)
    (hdata : ∀ b, d.Holds b → IsData b)
    (hfresh : ∀ b, d.Holds b → t.used b → (t.node m).Holds b) : (t.put m dk d []).Shape := by
  have hin := Tree.inUse_of_file hm
  apply h.put (h.lt m hin) hok
  · exact fun hdir => absurd (hk.symm.trans hdir) R_FILE_ne_R_DIR
  · exact fun _ => rfl
  · rintro rfl
    exact absurd (hm.symm.trans h.root) R_FILE_ne_R_DIR
  · exact hdata
  · exact fun b hb hu => ⟨hin, hfresh b hb hu⟩

theorem InodeOk.withLinks {k : Int} (h : InodeOk used dk d) (hk : Fits32 k) :
    InodeOk used (dk.withLinks k) (d.withLinks k) :=
  { h with nlinks_eq := rfl, fits := { h.fits with nlinks := hk } }

theorem InodeOk.synced (h : InodeOk used dk d) : InodeOk used d d :=
  { h with
    kind := h.type_eq ▸ h.kind
    type_eq := rfl
    nlinks_eq := rfl
    pos := Int.le_trans h.pos h.grown
    grown := Int.le_refl _
    addrs := fun _ _ => rfl }

theorem Tree.Shape.ents_file (h : t.Shape) (hm : (t.disk m).type = R_FILE) : t.ents m = [] := by
  apply h.plain
  rw [hm]
  exact R_FILE_ne_R_DIR

theorem Tree.Shape.ne_zero_of_file (h : t.Shape) (hm : (t.disk m).type = R_FILE) : m ≠ 0 := by
  rintro rfl
  exact absurd (hm.symm.trans h.root) R_FILE_ne_R_DIR

theorem Tree.Ok.nlinks_file (h : t.Ok) (hm : (t.disk m).type = R_FILE) :
    (t.node m).nlinks = t.linkCount m := by
  have hin := Tree.inUse_of_file hm
  rw [(h.shape.inode m hin).nlinks_eq]
  exact h.counted.links m (h.shape.ne_zero_of_file hm) hin

theorem Tree.Ok.fits_nlinks_succ (h : t.Ok) (hm : (t.disk m).type = R_FILE) :
    Fits32 ((t.node m).nlinks + 1) := by
  have hle := h.shape.linkCount_le (m := m)
  rw [h.nlinks_file hm]
  unfold RFS_NINODES ONE_BLOCK_DIRENTRYS at hle
  exact fits_natCast (x := t.linkCount m + 1) (by omega)

theorem Tree.Ok.fits_nlinks_pred (h : t.Ok) (hm : (t.disk m).type = R_FILE) :
    Fits32 ((t.node m).nlinks - 1) := by
  have hle := h.shape.linkCount_le (m := m)
  have hlinks := h.nlinks_file hm
  unfold RFS_NINODES ONE_BLOCK_DIRENTRYS at hle
  unfold Fits32
  omega

theorem Tree.Ok.link (h : t.Ok) (hp : (t.disk p).type = R_DIR)
    (hroom : (t.ents p).length < ONE_BLOCK_DIRENTRYS) (hname : NameOk name)
    (hm : (t.disk m).type = R_FILE) : (t.link p name m).Ok := by
  have hin := Tree.inUse_of_file hm
  have hok := h.shape.inode m hin
  have hm0 := h.shape.ne_zero_of_file hm
  have hents := h.shape.ents_file hm
  have hpm : p ≠ m := (Tree.file_ne_dir hm hp).symm
  have hlinks := h.nlinks_file hm
  have hfits := h.fits_nlinks_succ hm
  have hshape : (t.put m ((t.node m).withLinks ((t.node m).nlinks + 1))
      ((t.node m).withLinks ((t.node m).nlinks + 1)) []).Shape := by
    apply h.shape.setFile hm
    · exact (hok.synced.withLinks hfits).mono (fun b hb => .inr hb)
    · exact hok.type_eq.trans hm
    · exact fun b hb => h.shape.isData b (hok.holds_used hb)
    · exact fun b hb _ => hb
  have hp' : ((t.put m ((t.node m).withLinks ((t.node m).nlinks + 1))
      ((t.node m).withLinks ((t.node m).nlinks + 1)) []).disk p).type = R_DIR := by
    rw [Tree.put_disk_of_ne hpm, hp]
  have hpe : (t.put m ((t.node m).withLinks ((t.node m).nlinks + 1))
      ((t.node m).withLinks ((t.node m).nlinks + 1)) []).ents p = t.ents p := by
    simp [Tree.put, hpm]
  have htype : ((t.node m).withLinks ((t.node m).nlinks + 1)).type = R_FILE := hok.type_eq.trans hm
  refine ⟨hshape.setEnts hp' ?_ ?_, (h.counted.but hents).addEntry hshape hp' hm0 ?_ ?_ ?_⟩
  · rwa [hpe, List.length_append]
  · rw [hpe]
    exact (h.shape.dir p hp).names_append hname
  · apply Tree.inUse_of_file
    rw [Tree.put_disk_self, htype]
  · rw [Tree.put_disk_self, ← hents, Tree.linkCount_put_self, ← hlinks]
    rfl
  · rw [Tree.put_disk_self, htype]
    exact fun hdir => absurd hdir R_FILE_ne_R_DIR

theorem Tree.free_disk_of_ne (hk : k ≠ m) : (t.free m).disk k = t.disk k := by simp [Tree.free, hk]

theorem Tree.unlinkNode_disk_of_ne (hk : k ≠ m) : (t.unlinkNode m).disk k = t.disk k := by
  unfold Tree.unlinkNode
  split
  · exact Tree.free_disk_of_ne hk
  · exact Tree.put_disk_of_ne hk

theorem Tree.unlinkNode_ents (hm : t.ents m = []) : (t.unlinkNode m).ents = t.ents := by
  unfold Tree.unlinkNode
  split
  · rfl
  · simp [Tree.put, ← hm]

theorem Tree.length_drop (t : Tree) {i : Int} (h : t.target p name = some i) :
    ((t.ents p).eraseP (fun e => e.1 = name)).length = (t.ents p).length - 1 := by
  obtain ⟨e, he, -⟩ := Option.map_eq_some_iff.mp h
  have hname : decide (e.1 = name) = true :=
    List.find?_some (p := fun e : Name × Int => decide (e.1 = name)) he
  exact List.length_eraseP_of_mem (List.mem_of_find?_eq_some he) hname

theorem Tree.target_unlink {name' : Name} (hm : t.ents m = [])
    (h : q ≠ p ∨ name' ≠ name) : (t.unlink p name m).target q name' = t.target q name' := by
  rw [Tree.unlink, Tree.target_dropEntry h]
  unfold Tree.target
  rw [Tree.unlinkNode_ents hm]

theorem Tree.unlinkNode_disk : (t.unlinkNode m).disk
    = update t.disk m ((t.unlinkNode m).disk m) := by
  funext k
  by_cases hk : k = m
  · subst hk
    rw [update_self]
  · rw [update_of_ne hk, Tree.unlinkNode_disk_of_ne hk]

theorem Tree.Ok.unlinkNode_file (h : t.Ok) (hm : (t.disk m).type = R_FILE)
    (hf : (t.disk m).Fits) : ((t.unlinkNode m).disk m).type ≠ R_DIR ∧
      ((t.unlinkNode m).disk m).Fits := by
  unfold Tree.unlinkNode
  split
  · simp only [Tree.free, update_self]
    refine ⟨fun hc => R_DIR_ne_R_FREE hc.symm, hf.size, ?_, ?_, hf.blocks, hf.addrs⟩
    · exact fits_natCast (x := 2) (by decide)
    · exact fits_natCast (x := 0) (by decide)
  · rw [Tree.put_disk_self]
    refine ⟨fun hc => R_FILE_ne_R_DIR (hm.symm.trans hc), hf.size, hf.type, ?_, hf.blocks, hf.addrs⟩
    exact h.fits_nlinks_pred hm

theorem Tree.Ok.shape_unlinkNode (h : t.Ok) (hm : (t.disk m).type = R_FILE) :
    (t.unlinkNode m).Shape := by
  have hok := h.shape.inode m (Tree.inUse_of_file hm)
  unfold Tree.unlinkNode
  split
  · exact h.shape.free hm
  · apply h.shape.setFile hm
    · exact (hok.withLinks (h.fits_nlinks_pred hm)).mono (fun b hb => .inr hb)
    · exact hm
    · exact fun b hb => h.shape.isData b (hok.holds_used hb)
    · exact fun b hb _ => hb

theorem Tree.Ok.unlink (h : t.Ok) (hm : (t.disk m).type = R_FILE)
    (ht : t.target p name = some (m : Int)) : (t.unlink p name m).Ok := by
  have hin := Tree.inUse_of_file hm
  have hm0 := h.shape.ne_zero_of_file hm
  have hents := h.shape.ents_file hm
  have hp := h.shape.dir_of_target ht
  have hpm : p ≠ m := (Tree.file_ne_dir hm hp).symm
  have hlinks := h.nlinks_file hm
  have hpos := h.counted.pos m hm0 hin
  have hshape := h.shape_unlinkNode hm
  have hlist := h.shape.dir p hp
  have hcnt : (t.unlinkNode m).linkCount m = t.linkCount m := by
    unfold Tree.linkCount
    rw [Tree.unlinkNode_ents hents]
  have ht' : (t.unlinkNode m).target p name = some (m : Int) := by
    rw [Tree.target, Tree.unlinkNode_ents hents]
    exact ht
  refine ⟨hshape.setEnts ?_ ?_ ?_, ?_⟩
  · rw [Tree.unlinkNode_disk_of_ne hpm, hp]
  · rw [Tree.unlinkNode_ents hents]
    exact List.length_eraseP_le.trans hlist.le
  · rw [Tree.unlinkNode_ents hents]
    exact fun e hmem => hlist.names e (List.mem_of_mem_eraseP hmem)
  by_cases hone : (t.node m).nlinks = 1
  · -- the last name: the inode is free
    have hnode : t.unlinkNode m = t.free m := if_pos hone
    have huse : ∀ k, k ≠ m → ((t.free m).InUse k ↔ t.InUse k) := by
      intro k hk
      unfold Tree.InUse
      rw [Tree.free_disk_of_ne hk]
    have hbut : (t.free m).CountedBut m := by
      refine ⟨fun n e he => ?_, fun k hk0 hk hku => ?_, fun k hk0 hk hku => ?_,
        fun k hk0 hk hku => ?_⟩
      · obtain ⟨k, hek, hk0, hku⟩ := h.counted.target n e he
        refine ⟨k, hek, hk0, ?_⟩
        by_cases hkm : k = m
        · exact .inr hkm
        · exact .inl ((huse k hkm).mpr hku)
      · rw [Tree.free_disk_of_ne hk]
        exact h.counted.links k hk0 ((huse k hk).mp hku)
      · exact h.counted.pos k hk0 ((huse k hk).mp hku)
      · rw [Tree.free_disk_of_ne hk] at hku
        exact h.counted.dirs k hk0 hku
    have hfree : ¬ (t.free m).InUse m := by simp [Tree.InUse, Tree.free, Dinode.freed]
    rw [Tree.unlink, hnode]
    rw [hnode] at hshape hcnt ht'
    exact hbut.dropEntry hshape ht' (.inl ⟨hfree, by rw [hcnt]; omega⟩)
  · -- another name is left
    have hnode : t.unlinkNode m = t.put m ((t.disk m).withLinks ((t.node m).nlinks - 1))
        ((t.node m).withLinks ((t.node m).nlinks - 1)) [] := if_neg hone
    rw [Tree.unlink, hnode]
    rw [hnode] at hshape hcnt ht'
    refine (h.counted.but hents).dropEntry hshape ht' ?_
    rw [Tree.put_disk_self, hcnt]
    refine .inr ⟨hm, ?_, by omega⟩
    show (t.node m).nlinks - 1 + 1 = _
    omega

theorem Tree.Counted.put_same (h : t.Counted) (hl : t.ents m = l)
    (htype : dk.type = (t.disk m).type) (hlinks : dk.nlinks = (t.disk m).nlinks) :
    (t.put m dk d l).Counted := by
  subst hl
  have hdisk : ∀ k, ((t.put m dk d (t.ents m)).disk k).type = (t.disk k).type ∧
      ((t.put m dk d (t.ents m)).disk k).nlinks = (t.disk k).nlinks := by
    intro k
    by_cases hk : k = m
    · subst hk
      rw [Tree.put_disk_self]
      exact ⟨htype, hlinks⟩
    · rw [Tree.put_disk_of_ne hk]
      exact ⟨rfl, rfl⟩
  have hin : ∀ k, (t.put m dk d (t.ents m)).InUse k ↔ t.InUse k := by
    intro k
    unfold Tree.InUse
    rw [(hdisk k).1]
  refine ⟨fun n e he => ?_, fun k hk0 hku => ?_, fun k hk0 hku => ?_, fun k hk0 hku => ?_⟩
  · simp only [Tree.put, update_eq_self] at he
    obtain ⟨k, hek, hk0, hku⟩ := h.target n e he
    exact ⟨k, hek, hk0, (hin k).mpr hku⟩
  · rw [(hdisk k).2, Tree.linkCount_put_self]
    exact h.links k hk0 ((hin k).mp hku)
  · rw [Tree.linkCount_put_self]
    exact h.pos k hk0 ((hin k).mp hku)
  · rw [(hdisk k).1] at hku
    rw [Tree.linkCount_put_self]
    exact h.dirs k hk0 hku

theorem Tree.Ok.write (h : t.Ok) (hm : (t.disk m).type = R_FILE)
    (hok : InodeOk (fun b => t.used b ∨ d.Holds b) (t.disk m) d)
    (hdata : ∀ b, d.Holds b → IsData b)
    (hfresh : ∀ b, d.Holds b → t.used b → (t.node m).Holds b) : (t.write m d).Ok :=
  ⟨h.shape.setFile hm hok hm hdata hfresh, h.counted.put_same (h.shape.ents_file hm) rfl rfl⟩

theorem Tree.Ok.sync (h : t.Ok) (hm : (t.disk m).type = R_FILE) : (t.sync m).Ok := by
  have hok := h.shape.inode m (Tree.inUse_of_file hm)
  have hents := h.shape.ents_file hm
  refine ⟨?_, h.counted.put_same rfl hok.type_eq hok.nlinks_eq⟩
  rw [Tree.sync, hents]
  apply h.shape.setFile hm
  · exact hok.synced.mono (fun b hb => .inr hb)
  · exact hok.type_eq.trans hm
  · exact fun b hb => h.shape.isData b (hok.holds_used hb)
  · exact fun b hb _ => hb

theorem Tree.Shape.exists_free (h : t.Shape) : ∃ n, n < RFS_NINODES ∧ ¬ t.InUse n := by
  by_contra hall
  push Not at hall
  have hblock : ∀ n, n < RFS_NINODES → ∃ b : Nat, (t.node n).addr 0 = b ∧ IsData b ∧
      (t.node n).Holds b := by
    intro n hn
    have hok := h.inode n (hall n hn)
    have hpos := hok.pos
    have hgrown := hok.grown
    obtain ⟨b, hb, hu⟩ := hok.data 0 (by omega)
    exact ⟨b, hb, h.isData b hu, 0, by omega, hb⟩
  have hinj : ∀ n ∈ range RFS_NINODES, ∀ k ∈ range RFS_NINODES,
      ((t.node n).addr 0).toNat = ((t.node k).addr 0).toNat → n = k := by
    intro n hn k hk heq
    rw [mem_range] at hn hk
    obtain ⟨b, hb, -, hhb⟩ := hblock n hn
    obtain ⟨c, hc, -, hhc⟩ := hblock k hk
    rw [hb, hc, Int.toNat_natCast, Int.toNat_natCast] at heq
    subst heq
    by_contra hne
    exact h.apart n k (hall n hn) (hall k hk) hne b hhb hhc
  have hmaps : ∀ n ∈ range RFS_NINODES, ((t.node n).addr 0).toNat
      ∈ range (RFS_BLK_OFFSET_FREE + RFS_NBLOCKS) := by
    intro n hn
    obtain ⟨b, hb, hdata, -⟩ := hblock n (mem_range.mp hn)
    rw [hb, Int.toNat_natCast, mem_range]
    exact hdata.2
  have hcard := card_le_card_of_injOn (fun n => ((t.node n).addr 0).toNat) hmaps hinj
  rw [card_range, card_range] at hcard
  unfold RFS_NINODES RFS_BLK_OFFSET_FREE RFS_NBLOCKS at hcard
  omega

end

end CabbagePKE
