import CabbagePKE.Pmm.Guarded
import CabbagePKE.Pmm.HandOut
import CabbagePKE.Rfs.Device

/-!
# The pages of directory streams

`rfs_hook_opendir` takes a page for each block of the directory and one for
`struct rfs_dir_cache`, whose address it leaves in the `i_fs_info` of the vinode;
`rfs_hook_closedir` frees the pages that the `i_fs_info` leads to. Runs of both
are followed with a ledger: the pages that all opendirs took for blocks, those
that all closedirs freed, and those that the open streams hold.
-/

namespace CabbagePKE

open Lib Function List

open GuardedTable (Good)

/-- An open descriptor: the vinode of its directory, and the pages that were
taken for its blocks when it was opened. -/
structure DirFd where
  fd : Nat
  node : Nat
  own : List Nat
  deriving DecidableEq, Repr

/-- The allocator, the `i_fs_info` of the vinodes (`0` for none), the open
streams, and the history: the pages that opendirs took for blocks and that
closedirs freed. -/
structure CacheSys (T : Type) where
  pages : HandOut T
  iFsInfo : Nat → Nat
  streams : List DirFd
  taken : List Nat
  freed : List Nat

/-- What happens: a descriptor is opened on the directory at vinode `node`,
which has `blocks` blocks with these contents; it is read; it is closed; other
code takes a page, shares or frees one of its own. -/
inductive CacheOp
  | opendir (fd node : Nat) (blocks : Int) (contents : Nat → Mem)
  | readdir (fd : Nat)
  | closedir (fd : Nat)
  | other (op : PageOp)

/-! ## The code -/

section

variable {T : Type} [RefTable T]

/-- `alloc_page` with the outstanding references counted -/
def HandOut.allocPage (h : HandOut T) : Outcome (Nat × HandOut T) := do
  let r ← CabbagePKE.allocPage h.pmm
  return (r.1, ⟨r.2, if r.1 = 0 then h.out else gain h.out r.1⟩)

def HandOut.setMem (h : HandOut T) (m : Mem) : HandOut T := { h with pmm := { h.pmm with mem := m } }

/-- The loop of `rfs_hook_opendir` over the `n` blocks that are left, from the
last to the first; the result is the page of the first block. -/
def takeCachePages (contents : Nat → Mem) : Nat → HandOut T → (previous : Nat) →
    Outcome (Nat × HandOut T)
  | 0, h, previous => .ok (previous, h)
  | n + 1, h, previous => do
      let (pdire, h) ← h.allocPage
      if previous ≠ 0 ∧ previous ≠ pdire + RFS_BLKSIZE then
        .error (.panic "rfs_hook_opendir: memory discontinuity" [])
      else if pdire = 0 then .error .undefined
      else
        takeCachePages contents n
          (h.setMem (copyBytes h.pmm.mem pdire (contents n) 0 RFS_BLKSIZE)) pdire

/-- `block_count` and `dir_base_addr` of the `struct rfs_dir_cache` at `info` -/
def storeCache (m : Mem) (info : Nat) (blockCount : Int) (base : Nat) : Mem :=
  writeLE (putWords m info [blockCount]) (info + 8) 8 base

def cachePages (base n : Nat) : List Nat := (List.range n).map (fun i => base + i * RFS_BLKSIZE)

def CacheSys.opendir (st : CacheSys T) (fd node : Nat) (blocks : Int) (contents : Nat → Mem) :
    Outcome (CacheSys T) := do
  let (base, h) ← takeCachePages contents blocks.toNat st.pages 0
  let (info, h) ← h.allocPage
  if info = 0 then .error .undefined
  else
    let own := cachePages base blocks.toNat
    return {
      pages := h.setMem (storeCache h.pmm.mem info blocks base)
      iFsInfo := update st.iFsInfo node info
      streams := ⟨fd, node, own⟩ :: st.streams
      taken := own ++ st.taken
      freed := st.freed }

/-- `free_page` of each page in turn, with the outstanding references counted -/
def freeCachePages : List Nat → HandOut T → Outcome (HandOut T)
  | [], h => .ok h
  | pa :: rest, h => do
      let h ← h.step (.free pa)
      freeCachePages rest h

def CacheSys.closedir (st : CacheSys T) (fd : Nat) : Outcome (CacheSys T) :=
  match st.streams.find? (fun s => s.fd == fd) with
  | none => .error .undefined
  | some s => do
      let info := st.iFsInfo s.node
      let blockCount := getWord st.pages.pmm.mem info
      let pages := cachePages (readLE st.pages.pmm.mem (info + 8) 8) blockCount.toNat
      let h ← freeCachePages pages st.pages
      return { st with pages := h, streams := st.streams.erase s, freed := pages ++ st.freed }

def CacheSys.step (st : CacheSys T) : CacheOp → Outcome (CacheSys T)
  | .opendir fd node blocks contents => st.opendir fd node blocks contents
  | .readdir _ => .ok st
  | .closedir fd => st.closedir fd
  | .other op => do
      let h ← st.pages.step op
      return { st with pages := h }

def CacheSys.live (st : CacheSys T) : List Nat := st.streams.flatMap DirFd.own

def CacheSys.held (st : CacheSys T) : List Nat :=
  st.live ++ st.streams.map (fun s => st.iFsInfo s.node)

/-- A new descriptor is a free one and `blocks` is an `int`; other code keeps
to its own pages. -/
def CacheSys.Allowed (st : CacheSys T) : CacheOp → Prop
  | .opendir fd _ blocks _ => (∀ s ∈ st.streams, s.fd ≠ fd) ∧ Fits32 blocks
  | .readdir _ | .closedir _ => True
  | .other .alloc => True
  | .other (.refInsert pa) => 1 ≤ st.pages.out pa ∧ pa ∉ st.held
  | .other (.free pa) => 1 ≤ st.pages.out pa ∧ pa ∉ st.held

def CacheSys.Apart (st : CacheSys T) : CacheOp → Prop
  | .opendir _ node _ _ => ∀ s ∈ st.streams, s.node ≠ node
  | _ => True

/-- No page is on the free list twice or while it is in use, and of the pages
that were taken for blocks, those of the closed streams have been freed, each
of them once, and those of the open streams have not. -/
def CacheSys.Sound (st : CacheSys T) : Prop :=
  st.pages.Safe ∧ st.taken.Perm (st.freed ++ st.live)

end

/-! ## Counted calls -/

section

variable {T : Type} [GuardedTable T] {h h' : HandOut T} {p pa : Nat} {m : Mem}

theorem HandOut.allocPage_step (ha : h.allocPage = .ok (p, h')) :
    h.step .alloc = .ok h' ∧ CabbagePKE.allocPage h.pmm = .ok (p, h'.pmm) := by
  rw [HandOut.allocPage, bind_eq_ok] at ha
  obtain ⟨⟨q, pmm⟩, halloc, ha⟩ := ha
  cases ha
  refine ⟨?_, halloc⟩
  rw [HandOut.step, halloc]
  rfl

theorem HandOut.step_good {op : PageOp} (hs : h.step op = .ok h') (hg : Good h'.pmm.refs) :
    Good h.pmm.refs ∧ h.PlaceOk op := by
  cases op with
  | alloc =>
    rw [HandOut.step, bind_eq_ok] at hs
    obtain ⟨⟨q, pmm⟩, halloc, hs⟩ := hs
    cases hs
    exact allocPage_good halloc hg
  | refInsert pa =>
    rw [HandOut.step, bind_eq_ok] at hs
    obtain ⟨refs, hins, hs⟩ := hs
    cases hs
    exact GuardedTable.good_of_insert hins hg
  | free pa =>
    rw [HandOut.step, bind_eq_ok] at hs
    obtain ⟨pmm, hfree, hs⟩ := hs
    cases hs
    exact ⟨freePage_good hfree hg, trivial⟩

theorem HandOut.step_mem {op : PageOp} (hs : h.step op = .ok h') {a : Nat}
    (ha : ∀ pa, op = .free pa → a < pa ∨ pa + 8 ≤ a) : h'.pmm.mem a = h.pmm.mem a := by
  cases op with
  | alloc =>
    rw [HandOut.step, bind_eq_ok] at hs
    obtain ⟨⟨q, pmm⟩, halloc, hs⟩ := hs
    cases hs
    rw [CabbagePKE.allocPage, bind_eq_ok] at halloc
    obtain ⟨refs, -, halloc⟩ := halloc
    cases halloc
    rfl
  | refInsert pa =>
    rw [HandOut.step, bind_eq_ok] at hs
    obtain ⟨refs, -, hs⟩ := hs
    cases hs
    rfl
  | free pa =>
    rw [HandOut.step, bind_eq_ok] at hs
    obtain ⟨pmm, hfree, hs⟩ := hs
    cases hs
    unfold freePage at hfree
    split at hfree
    · cases hfree
    · split at hfree
      · cases hfree
        rfl
      · cases hfree
        exact writeLE_of_outside (ha pa rfl)

theorem HandOut.Inv.setMem (hi : h.Inv) (hout : 1 ≤ h.out pa)
    (hm : ∀ a, a < pa ∨ pa + PGSIZE ≤ a → m a = h.pmm.mem a) : (h.setMem m).Inv := by
  obtain ⟨free, hw⟩ := hi.wf
  refine ⟨⟨free, hw.write fun q hq i hlt => hm _ ?_⟩, hi.counted, hi.managed, hi.null⟩
  have hq0 := hw.unreferenced q hq
  have hpos := hw.toListed.pos hq
  have hne : q ≠ pa := by
    rintro rfl
    rw [hi.counted q hpos] at hq0
    omega
  have hap := page_apart (hw.managed q hq).1 (hi.managed pa hout).1 hne
  unfold PGSIZE at *
  omega

theorem HandOut.Inv.allocPage (hi : h.Inv) (ha : h.allocPage = .ok (p, h'))
    (hg : Good h'.pmm.refs) (hp : p ≠ 0) :
    h'.Inv ∧ h.out p = 0 ∧ h'.out = gain h.out p ∧ h'.pmm.mem = h.pmm.mem := by
  obtain ⟨hs, halloc⟩ := HandOut.allocPage_step ha
  have hplace := (HandOut.step_good hs hg).2
  obtain ⟨-, -, -, -, hsafe⟩ := hi.safe
  refine ⟨hi.alloc hplace hs, hsafe p _ halloc hp, ?_, ?_⟩
  · rw [HandOut.step, halloc, ok_bind] at hs
    simp only [pure_eq_ok, Except.ok.injEq] at hs
    rw [← hs]
    exact if_neg hp
  · funext a
    exact HandOut.step_mem hs (by simp)

theorem HandOut.Inv.step_out {op : PageOp} (hi : h.Inv) (hs : h.step op = .ok h')
    (hg : Good h'.pmm.refs) (hp : 1 ≤ h.out p) (hins : op ≠ .refInsert p) (hfree : op ≠ .free p) :
    h'.out p = h.out p := by
  cases op with
  | alloc =>
    obtain ⟨-, -, -, -, hsafe⟩ := hi.safe
    rw [HandOut.step, bind_eq_ok] at hs
    obtain ⟨⟨q, pmm⟩, halloc, hs⟩ := hs
    cases hs
    dsimp only
    split
    · rfl
    · rename_i hq
      have hne : p ≠ q := by
        rintro rfl
        have := hsafe p pmm halloc hq
        omega
      rw [gain, if_neg hne, Nat.add_zero]
  | refInsert pa =>
    rw [HandOut.step, bind_eq_ok] at hs
    obtain ⟨refs, -, hs⟩ := hs
    cases hs
    have hne : p ≠ pa := fun heq => hins (heq ▸ rfl)
    dsimp only
    rw [gain, if_neg hne, Nat.add_zero]
  | free pa =>
    rw [HandOut.step, bind_eq_ok] at hs
    obtain ⟨pmm, -, hs⟩ := hs
    cases hs
    have hne : p ≠ pa := fun heq => hfree (heq ▸ rfl)
    dsimp only
    rw [lose, if_neg hne, Nat.sub_zero]

end

/-! ## The loops -/

section

variable {T : Type} [GuardedTable T] {h h' : HandOut T} {base previous n : Nat}
  {contents : Nat → Mem}

theorem cachePages_succ (base n : Nat) :
    cachePages base (n + 1) = cachePages base n ++ [base + n * RFS_BLKSIZE] := by
  rw [cachePages, range_succ, map_append]
  rfl

theorem cachePages_nodup (base n : Nat) : (cachePages base n).Nodup := by
  refine List.Nodup.map (fun i j hij => ?_) nodup_range
  unfold RFS_BLKSIZE at hij
  omega

theorem takeCachePages_good (hl : takeCachePages contents n h previous = .ok (base, h'))
    (hg : Good h'.pmm.refs) : Good h.pmm.refs := by
  induction n generalizing h previous with
  | zero =>
    cases hl
    exact hg
  | succ n ih =>
    rw [takeCachePages, bind_eq_ok] at hl
    obtain ⟨⟨pdire, h1⟩, ha, hl⟩ := hl
    dsimp only at hl
    split at hl
    · cases hl
    · split at hl
      · cases hl
      · have hg1 : Good h1.pmm.refs := (ih hl :)
        exact (HandOut.step_good (HandOut.allocPage_step ha).1 hg1).1

theorem takeCachePages_spec (hi : h.Inv) (hl : takeCachePages contents n h previous = .ok (base, h'))
    (hg : Good h'.pmm.refs) :
    h'.Inv ∧ (previous ≠ 0 → previous = base + n * RFS_BLKSIZE) ∧
      (∀ x ∈ cachePages base n, h.out x = 0 ∧ h'.out x = 1) ∧
      (∀ x, x ∉ cachePages base n → h'.out x = h.out x) ∧
      ∀ a, (∀ x ∈ cachePages base n, a < x ∨ x + PGSIZE ≤ a) → h'.pmm.mem a = h.pmm.mem a := by
  induction n generalizing h previous with
  | zero =>
    cases hl
    exact ⟨hi, fun _ => by omega, fun x hx => by simp [cachePages] at hx, fun _ _ => rfl,
      fun _ _ => rfl⟩
  | succ n ih =>
    rw [takeCachePages, bind_eq_ok] at hl
    obtain ⟨⟨pdire, h1⟩, ha, hl⟩ := hl
    dsimp only at hl
    split at hl
    · cases hl
    · rename_i hnext
      split at hl
      · cases hl
      · rename_i hp
        have hg1 : Good h1.pmm.refs := (takeCachePages_good hl hg :)
        obtain ⟨hi1, hfresh, hgain, hmem1⟩ := hi.allocPage ha hg1 hp
        have hone : h1.out pdire = 1 := by simp [hgain, gain, hfresh]
        have hcopy : ∀ a, a < pdire ∨ pdire + PGSIZE ≤ a →
            copyBytes h1.pmm.mem pdire (contents n) 0 RFS_BLKSIZE a = h1.pmm.mem a := by
          intro a ha
          unfold PGSIZE at ha
          unfold copyBytes RFS_BLKSIZE
          rw [if_neg (by omega)]
        have hi2 := hi1.setMem (Nat.le_of_eq hone.symm) hcopy
        obtain ⟨hi', hprev, hown, hrest, hmem⟩ := ih hi2 hl
        have hlast := hprev hp
        have hne : pdire ∉ cachePages base n := fun hin => by
          have := (hown _ hin).1
          have hsame : (h1.setMem (copyBytes h1.pmm.mem pdire (contents n) 0 RFS_BLKSIZE)).out
              pdire = h1.out pdire := rfl
          omega
        -- the references are those of the rest of the loop and of its first page
        have hout : ∀ x, x ≠ pdire → h1.out x = h.out x := by
          intro x hx
          rw [hgain, gain, if_neg hx, Nat.add_zero]
        refine ⟨hi', fun h0 => ?_, ?_, ?_, ?_⟩
        · have hadj : previous = pdire + RFS_BLKSIZE := by
            by_contra hcon
            exact hnext ⟨h0, hcon⟩
          rw [hadj, hlast, Nat.succ_mul, add_assoc]
        · intro x hx
          rw [cachePages_succ, mem_append, mem_singleton, ← hlast] at hx
          rcases hx with hx | rfl
          · have hxp : x ≠ pdire := fun heq => hne (heq ▸ hx)
            exact ⟨(hout x hxp).symm.trans (hown x hx).1, (hown x hx).2⟩
          · exact ⟨hfresh, (hrest x hne).trans hone⟩
        · intro x hx
          rw [cachePages_succ, mem_append, mem_singleton, ← hlast, not_or] at hx
          exact (hrest x hx.1).trans (hout x hx.2)
        · intro a ha
          rw [cachePages_succ, ← hlast] at ha
          rw [hmem a fun x hx => ha x (mem_append_left _ hx)]
          exact (hcopy a (ha pdire (by simp))).trans (congrFun hmem1 a)

theorem freeCachePages_good {l : List Nat} (hl : freeCachePages l h = .ok h') (hg : Good h'.pmm.refs) :
    Good h.pmm.refs := by
  induction l generalizing h with
  | nil =>
    cases hl
    exact hg
  | cons pa rest ih =>
    rw [freeCachePages, bind_eq_ok] at hl
    obtain ⟨h1, hs, hl⟩ := hl
    exact (HandOut.step_good hs (ih hl)).1

theorem freeCachePages_spec {l : List Nat} (hi : h.Inv) (hl : freeCachePages l h = .ok h')
    (hg : Good h'.pmm.refs) (hnd : l.Nodup) (hone : ∀ x ∈ l, h.out x = 1) :
    h'.Inv ∧ (∀ x, x ∉ l → 1 ≤ h.out x → h'.out x = h.out x) ∧
      ∀ a, (∀ x ∈ l, a < x ∨ x + PGSIZE ≤ a) → h'.pmm.mem a = h.pmm.mem a := by
  induction l generalizing h with
  | nil =>
    cases hl
    exact ⟨hi, fun _ _ _ => rfl, fun _ _ => rfl⟩
  | cons pa rest ih =>
    rw [freeCachePages, bind_eq_ok] at hl
    obtain ⟨h1, hs, hl⟩ := hl
    have hg1 := freeCachePages_good hl hg
    obtain ⟨hpa, hnd'⟩ := nodup_cons.mp hnd
    have hi1 : h1.Inv := hi.free (Nat.le_of_eq (hone pa (by simp)).symm) hs
    have hother : ∀ x, x ≠ pa → 1 ≤ h.out x → h1.out x = h.out x := fun x hx hout =>
      hi.step_out hs hg1 hout (by simp) (by simpa using Ne.symm hx)
    have hone1 : ∀ x ∈ rest, h1.out x = 1 := by
      intro x hx
      have hx1 := hone x (.tail _ hx)
      have hxp : x ≠ pa := fun heq => hpa (heq ▸ hx)
      rw [hother x hxp (by omega), hx1]
    obtain ⟨hi', hrest, hmem⟩ := ih hi1 hl hnd' hone1
    refine ⟨hi', fun x hx hout => ?_, fun a ha => ?_⟩
    · rw [mem_cons, not_or] at hx
      have hx₁ := hother x hx.1 hout
      rw [hrest x hx.2 (by omega), hx₁]
    · rw [hmem a fun x hx => ha x (.tail _ hx)]
      apply HandOut.step_mem hs
      intro q hq
      cases hq
      have := ha pa (by simp)
      unfold PGSIZE at this
      omega

end

/-! ## Streams that do not overlap -/

def DirFd.Cached (s : DirFd) (m : Mem) (info : Nat) : Prop :=
  cachePages (readLE m (info + 8) 8) (getWord m info).toNat = s.own

structure CacheSys.Inv {T : Type} [RefTable T] (st : CacheSys T) : Prop where
  pages : st.pages.Inv
  once : ∀ x ∈ st.live, st.pages.out x = 1
  info : ∀ s ∈ st.streams, 1 ≤ st.pages.out (st.iFsInfo s.node) ∧ st.iFsInfo s.node ∉ st.live
  cached : ∀ s ∈ st.streams, s.Cached st.pages.pmm.mem (st.iFsInfo s.node)
  nodup : st.live.Nodup
  nodes : st.streams.Pairwise (fun s s' => s.node ≠ s'.node)
  ledger : st.taken.Perm (st.freed ++ st.live)

section

variable {T : Type} [GuardedTable T] {st st' : CacheSys T} {s : DirFd} {m m' : Mem}
  {fd node info base : Nat} {blocks : Int} {contents : Nat → Mem}

theorem DirFd.Cached.congr (h : s.Cached m info)
    (hm : ∀ i, i < 16 → m' (info + i) = m (info + i)) : s.Cached m' info := by
  unfold DirFd.Cached at h ⊢
  have hcount : getWord m' info = getWord m info := getWord_congr fun i hi => hm i (by omega)
  have hbase : readLE m' (info + 8) 8 = readLE m (info + 8) 8 := by
    refine readLE_congr fun i hi => ?_
    rw [add_assoc]
    exact hm (8 + i) (by omega)
  rw [hcount, hbase, h]

theorem cached_storeCache (hfits : Fits32 blocks) (hbase : base < 2 ^ 64) :
    DirFd.Cached ⟨fd, node, cachePages base blocks.toNat⟩ (storeCache m info blocks base) info := by
  have hcount : getWord (storeCache m info blocks base) info = blocks := by
    have hword : getWord (putWords m info [blocks]) (info + 4 * 0) = blocks :=
      getWord_putWords_of_fits m info rfl hfits
    refine Eq.trans (getWord_congr fun i hi => ?_) hword
    have hlow : info + i < info + 8 := by omega
    exact writeLE_of_outside (.inl hlow)
  have haddr : readLE (storeCache m info blocks base) (info + 8) 8 = base :=
    readLE_writeLE_self _ _ (by norm_num; exact hbase)
  rw [DirFd.Cached, hcount, haddr]

theorem storeCache_outside {a : Nat} (h : a < info ∨ info + PGSIZE ≤ a) :
    storeCache m info blocks base a = m a := by
  unfold PGSIZE at h
  rw [storeCache, writeLE_of_outside (by omega)]
  exact putWords_outside (by simp only [length_singleton]; omega)

theorem CacheSys.Inv.info_apart (h : st.Inv) (hs : s ∈ st.streams) {x : Nat}
    (hx : x % PGSIZE = 0) (hne : x ≠ st.iFsInfo s.node) {i : Nat} (hi : i < 16) :
    st.iFsInfo s.node + i < x ∨ x + PGSIZE ≤ st.iFsInfo s.node + i := by
  have hal := (h.pages.managed _ (h.info s hs).1).1
  unfold PGSIZE at *
  omega

theorem CacheSys.opendir_good (ho : st.opendir fd node blocks contents = .ok st')
    (hg : Good st'.pages.pmm.refs) : Good st.pages.pmm.refs := by
  rw [CacheSys.opendir, bind_eq_ok] at ho
  obtain ⟨⟨base, h1⟩, htake, ho⟩ := ho
  rw [bind_eq_ok] at ho
  obtain ⟨⟨info, h2⟩, ha, ho⟩ := ho
  dsimp only at ho
  split at ho
  · cases ho
  · cases ho
    have hg1 := (HandOut.step_good (HandOut.allocPage_step ha).1 hg).1
    exact takeCachePages_good htake hg1

theorem CacheSys.Inv.opendir (h : st.Inv) (hfits : Fits32 blocks)
    (hapart : ∀ s ∈ st.streams, s.node ≠ node)
    (ho : st.opendir fd node blocks contents = .ok st') (hg : Good st'.pages.pmm.refs) :
    st'.Inv := by
  rw [CacheSys.opendir, bind_eq_ok] at ho
  obtain ⟨⟨base, h1⟩, htake, ho⟩ := ho
  rw [bind_eq_ok] at ho
  obtain ⟨⟨info, h2⟩, ha, ho⟩ := ho
  dsimp only at ho
  split at ho
  · cases ho
  · rename_i hinfo
    cases ho
    have hg1 := (HandOut.step_good (HandOut.allocPage_step ha).1 hg).1
    obtain ⟨hi1, -, hown, hrest, hmem1⟩ := takeCachePages_spec h.pages htake hg1
    obtain ⟨hi2, hfresh, hgain, hmem2⟩ := hi1.allocPage ha hg hinfo
    have hone : h2.out info = 1 := by simp [hgain, gain, hfresh]
    -- pages with a reference before are not among the new ones
    have hold : ∀ x, 1 ≤ st.pages.out x →
        x ∉ cachePages base blocks.toNat ∧ x ≠ info ∧ h2.out x = st.pages.out x := by
      intro x hx
      have hnot : x ∉ cachePages base blocks.toNat := fun hin => by
        have := (hown x hin).1
        omega
      have hx₁ := hrest x hnot
      have hne : x ≠ info := by
        rintro rfl
        omega
      refine ⟨hnot, hne, ?_⟩
      rw [hgain, gain, if_neg hne, Nat.add_zero, hx₁]
    have hnew : ∀ x ∈ cachePages base blocks.toNat, x ≠ info ∧ h2.out x = 1 := by
      intro x hx
      have hx₁ := (hown x hx).2
      have hne : x ≠ info := by
        rintro rfl
        omega
      refine ⟨hne, ?_⟩
      rw [hgain, gain, if_neg hne, Nat.add_zero, hx₁]
    have hbase : base < 2 ^ 64 := by
      by_cases hn : blocks.toNat = 0
      · rw [hn] at htake
        cases htake
        decide
      · have hin : base ∈ cachePages base blocks.toNat :=
          mem_map.mpr ⟨0, mem_range.mpr (Nat.pos_of_ne_zero hn), by simp⟩
        obtain ⟨free, hw⟩ := hi1.wf
        have hman := hi1.managed base (Nat.le_of_eq (hown base hin).2.symm)
        have hend := hw.end_lt
        have hlt := hman.2.2
        omega
    have hlive : ∀ x ∈ cachePages base blocks.toNat ++ st.live, x ≠ info ∧ h2.out x = 1 := by
      intro x hx
      rcases mem_append.mp hx with hx | hx
      · exact hnew x hx
      · have hx1 := h.once x hx
        obtain ⟨-, hne, hsame⟩ := hold x (by omega)
        exact ⟨hne, hsame.trans hx1⟩
    refine ⟨?_, fun x hx => (hlive x hx).2, ?_, ?_, ?_, ?_, ?_⟩
    · exact hi2.setMem (Nat.le_of_eq hone.symm) fun a ha => storeCache_outside ha
    · intro s hs
      rcases mem_cons.mp hs with rfl | hs
      · dsimp only
        rw [update_self]
        exact ⟨Nat.le_of_eq hone.symm, fun hin => (hlive info hin).1 rfl⟩
      · obtain ⟨hout, hnot⟩ := h.info s hs
        obtain ⟨hown', -, hsame⟩ := hold _ hout
        dsimp only
        rw [update_of_ne (hapart s hs)]
        refine ⟨hout.trans (Nat.le_of_eq hsame.symm), fun hin => ?_⟩
        exact (mem_append.mp hin).elim hown' hnot
    · intro s hs
      rcases mem_cons.mp hs with rfl | hs
      · dsimp only
        rw [update_self]
        exact cached_storeCache hfits hbase
      · obtain ⟨hout, -⟩ := h.info s hs
        obtain ⟨hown', hne, -⟩ := hold _ hout
        dsimp only
        rw [update_of_ne (hapart s hs)]
        refine (h.cached s hs).congr fun i hi => ?_
        have hal := (hi2.managed info (Nat.le_of_eq hone.symm)).1
        rw [HandOut.setMem]
        dsimp only
        rw [storeCache_outside (h.info_apart hs hal hne.symm hi), hmem2]
        refine hmem1 _ fun x hx => h.info_apart hs ?_ (fun heq => hown' (heq ▸ hx)) hi
        exact (hi1.managed x (Nat.le_of_eq (hown x hx).2.symm)).1
    · refine nodup_append.mpr ⟨cachePages_nodup _ _, h.nodup, fun x hx y hy => ?_⟩
      rintro rfl
      have hx0 := (hown x hx).1
      have hx1 := h.once x hy
      omega
    · exact pairwise_cons.mpr ⟨fun s hs => (hapart s hs).symm, h.nodes⟩
    · have hledger := h.ledger.append_left (cachePages base blocks.toNat)
      refine hledger.trans ?_
      rw [← append_assoc]
      refine perm_append_comm.append_right st.live |>.trans ?_
      rw [append_assoc]
      exact List.Perm.refl _

theorem CacheSys.closedir_inv (hc : st.closedir fd = .ok st') :
    ∃ s ∈ st.streams, ∃ h pages, pages = cachePages
        (readLE st.pages.pmm.mem (st.iFsInfo s.node + 8) 8)
        (getWord st.pages.pmm.mem (st.iFsInfo s.node)).toNat ∧
      freeCachePages pages st.pages = .ok h ∧
      st' = { st with pages := h, streams := st.streams.erase s, freed := pages ++ st.freed } := by
  unfold CacheSys.closedir at hc
  split at hc
  · cases hc
  · rename_i s hfind
    rw [bind_eq_ok] at hc
    obtain ⟨h, hfree, hc⟩ := hc
    cases hc
    exact ⟨s, mem_of_find?_eq_some hfind, h, _, rfl, hfree, rfl⟩

theorem CacheSys.Inv.closedir (h : st.Inv) (hc : st.closedir fd = .ok st')
    (hg : Good st'.pages.pmm.refs) : st'.Inv := by
  obtain ⟨s, hs, h', pages, hpages, hfree, rfl⟩ := CacheSys.closedir_inv hc
  -- the cache that is found is the stream's own
  rw [h.cached s hs] at hpages
  subst hpages
  have hlive : st.live.Perm (s.own ++ (st.streams.erase s).flatMap DirFd.own) :=
    (perm_cons_erase hs).flatMap_right DirFd.own
  have hnodup := hlive.nodup h.nodup
  obtain ⟨hnd, hnd', hdisj⟩ := nodup_append.mp hnodup
  have hone : ∀ x ∈ s.own, st.pages.out x = 1 := fun x hx =>
    h.once x (hlive.mem_iff.mpr (mem_append_left _ hx))
  obtain ⟨hi', hrest, hmem⟩ := freeCachePages_spec h.pages hfree hg hnd hone
  have hinfo : ∀ s' ∈ st.streams, st.iFsInfo s'.node ∉ s.own := fun s' hs' hin =>
    (h.info s' hs').2 (hlive.mem_iff.mpr (mem_append_left _ hin))
  refine ⟨hi', fun x hx => ?_, fun s' hs' => ?_, fun s' hs' => ?_, hnd', ?_, ?_⟩
  · have hx1 := h.once x (hlive.mem_iff.mpr (mem_append_right _ hx))
    have hnot : x ∉ s.own := fun hin => hdisj x hin x hx rfl
    exact (hrest x hnot (by omega)).trans hx1
  · have hmem' := mem_of_mem_erase hs'
    obtain ⟨hout, hnot⟩ := h.info s' hmem'
    refine ⟨?_, fun hin => hnot (hlive.mem_iff.mpr (mem_append_right _ hin))⟩
    exact hout.trans (Nat.le_of_eq (hrest _ (hinfo s' hmem') hout).symm)
  · have hmem' := mem_of_mem_erase hs'
    refine (h.cached s' hmem').congr fun i hi => hmem _ fun x hx => ?_
    refine h.info_apart hmem' ?_ (fun heq => hinfo s' hmem' (heq ▸ hx)) hi
    exact (h.pages.managed x (Nat.le_of_eq (hone x hx).symm)).1
  · exact h.nodes.sublist erase_sublist
  · calc st.taken.Perm (st.freed ++ st.live) := h.ledger
      _ |>.Perm (st.freed ++ (s.own ++ (st.streams.erase s).flatMap DirFd.own)) :=
        hlive.append_left _
      _ |>.Perm (s.own ++ st.freed ++ (st.streams.erase s).flatMap DirFd.own) := by
        rw [← append_assoc]
        exact perm_append_comm.append_right _

theorem CacheSys.Inv.other {op : PageOp} {h' : HandOut T} (h : st.Inv)
    (hok : st.Allowed (.other op)) (hs : st.pages.step op = .ok h') (hg : Good h'.pmm.refs) :
    CacheSys.Inv { st with pages := h' } := by
  have hallowed : st.pages.Allowed op := by
    cases op with
    | alloc => trivial
    | refInsert pa => exact hok.1
    | free pa => exact hok.1
  have hheld : ∀ x ∈ st.held, op ≠ .refInsert x ∧ op ≠ .free x := by
    intro x hx
    cases op with
    | alloc => simp
    | refInsert pa => exact ⟨fun heq => hok.2 (by cases heq; exact hx), by simp⟩
    | free pa => exact ⟨by simp, fun heq => hok.2 (by cases heq; exact hx)⟩
  have hout : ∀ x ∈ st.held, 1 ≤ st.pages.out x → h'.out x = st.pages.out x := fun x hx hx1 =>
    h.pages.step_out hs hg hx1 (hheld x hx).1 (hheld x hx).2
  have hinfo : ∀ s ∈ st.streams, st.iFsInfo s.node ∈ st.held := fun s hs =>
    mem_append_right _ (mem_map.mpr ⟨s, hs, rfl⟩)
  refine ⟨h.pages.step ⟨hallowed, (HandOut.step_good hs hg).2⟩ hs, fun x hx => ?_,
    fun s hs' => ⟨?_, (h.info s hs').2⟩, fun s hs' => ?_, h.nodup, h.nodes, h.ledger⟩
  · have hx1 := h.once x hx
    exact (hout x (mem_append_left _ hx) (by omega)).trans hx1
  · have hx1 := (h.info s hs').1
    exact hx1.trans (Nat.le_of_eq (hout _ (hinfo s hs') hx1).symm)
  · refine (h.cached s hs').congr fun i hi => HandOut.step_mem hs fun pa hpa => ?_
    have hne : pa ≠ st.iFsInfo s.node := by
      rintro rfl
      exact (hheld _ (hinfo s hs')).2 hpa
    have hal : pa % PGSIZE = 0 := by
      subst hpa
      exact (h.pages.managed pa hok.1).1
    have hap := h.info_apart hs' hal hne hi
    unfold PGSIZE at hap
    omega

theorem CacheSys.step_good {op : CacheOp} (hs : st.step op = .ok st')
    (hg : Good st'.pages.pmm.refs) : Good st.pages.pmm.refs := by
  cases op with
  | opendir fd node blocks contents => exact CacheSys.opendir_good hs hg
  | readdir fd =>
    cases hs
    exact hg
  | closedir fd =>
    obtain ⟨s, -, h', pages, -, hfree, rfl⟩ := CacheSys.closedir_inv hs
    exact freeCachePages_good hfree hg
  | other op =>
    rw [CacheSys.step, bind_eq_ok] at hs
    obtain ⟨h', hs, heq⟩ := hs
    cases heq
    exact (HandOut.step_good hs hg).1

theorem CacheSys.Inv.step {op : CacheOp} (h : st.Inv) (hok : st.Allowed op)
    (hapart : st.Apart op) (hs : st.step op = .ok st') (hg : Good st'.pages.pmm.refs) :
    st'.Inv := by
  cases op with
  | opendir fd node blocks contents => exact h.opendir hok.2 hapart hs hg
  | readdir fd =>
    cases hs
    exact h
  | closedir fd => exact h.closedir hs hg
  | other op =>
    rw [CacheSys.step, bind_eq_ok] at hs
    obtain ⟨h', hs, heq⟩ := hs
    cases heq
    exact h.other hok hs hg

def CacheSys.initial (pmm : Pmm T) : CacheSys T where
  pages := ⟨pmm, fun _ => 0⟩
  iFsInfo := fun _ => 0
  streams := []
  taken := []
  freed := []

/-- The states of the runs whose operations are allowed and meet `ok` besides. -/
def CacheSys.Run (ok : CacheSys T → CacheOp → Prop) (pmm : Pmm T) (st : CacheSys T) : Prop :=
  Reaches CacheSys.step (fun st op => st.Allowed op ∧ ok st op) (CacheSys.initial pmm) st

end

/-! ## Runs -/

instance CacheSys.decidableAllowed {T : Type} (st : CacheSys T) (op : CacheOp) :
    Decidable (st.Allowed op) :=
  match op with
  | .opendir fd _ blocks _ =>
    inferInstanceAs (Decidable ((∀ s ∈ st.streams, s.fd ≠ fd) ∧ -2 ^ 31 ≤ blocks ∧ blocks < 2 ^ 31))
  | .readdir _ | .closedir _ => isTrue trivial
  | .other .alloc => isTrue trivial
  | .other (.refInsert pa) => inferInstanceAs (Decidable (1 ≤ st.pages.out pa ∧ pa ∉ st.held))
  | .other (.free pa) => inferInstanceAs (Decidable (1 ≤ st.pages.out pa ∧ pa ∉ st.held))

instance CacheSys.decidableApart {T : Type} (st : CacheSys T) (op : CacheOp) :
    Decidable (st.Apart op) :=
  match op with
  | .opendir _ node _ _ => inferInstanceAs (Decidable (∀ s ∈ st.streams, s.node ≠ node))
  | .readdir _ | .closedir _ | .other _ => isTrue trivial

end CabbagePKE
