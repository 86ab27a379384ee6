import CabbagePKE.Vm.PageTable
import CabbagePKE.Lib.Radix
import Mathlib.Data.Nat.Bitwise

/-!
# Page tables in memory

`page_walk`, `map_pages` and `lookup_pa` of `kernel/vmm.c` on the words of
physical memory: a table is a page of 512 entries, an entry holds the page
number and ten bits of flags, and the tables form a radix tree of three
levels. `Wf` is what the code relies on: the tables are distinct pages and
none of them is free.
-/

namespace CabbagePKE.Sv39

open Lib Lib.Radix List Option

variable {T : Type} [RefTable T]

/-! ## Entries -/

def PTE_V : Nat := 1 <<< 0

def PTE_R : Nat := 1 <<< 1

def PTE_W : Nat := 1 <<< 2

def pa2pte (pa : Nat) : Nat := u64 ((pa >>> 12) <<< 10)

def pte2pa (pte : Nat) : Nat := u64 ((pte >>> 10) <<< 12)

def px (level va : Nat) : Nat := (va >>> (12 + 9 * level)) &&& 0x1FF

def slot (pt i : Nat) : Nat := pt + 8 * i

def load (m : Mem) (pte : Nat) : Nat := readLE m pte 8

def store (m : Mem) (pte w : Nat) : Mem := writeLE m pte 8 w

/-! ## The functions -/

/-- The loop of `page_walk` from level `level` and table `pt` down. -/
def pageWalkFrom (va : Nat) (alloc : Bool) : Nat → Pmm T → Nat → Outcome (Nat × Pmm T)
  | 0, s, pt => .ok (slot pt (px 0 va), s)
  | level + 1, s, pt =>
    let pte := slot pt (px (level + 1) va)
    if load s.mem pte &&& PTE_V ≠ 0 then
      pageWalkFrom va alloc level s (pte2pa (load s.mem pte))
    else if alloc then do
      let (p, s) ← allocPage s
      if p ≠ 0 then
        let mem := store (fillBytes s.mem p 0 PGSIZE) pte (pa2pte p ||| PTE_V)
        pageWalkFrom va alloc level { s with mem := mem } p
      else return (0, s)
    else return (0, s)

/-- `page_walk`: the address of the entry, or 0 -/
def pageWalk (s : Pmm T) (pageDir va : Nat) (alloc : Bool) : Outcome (Nat × Pmm T) :=
  if MAXVA ≤ va then .error (.panic "page_walk" [])
  else pageWalkFrom va alloc 2 s pageDir

/-- The loop of `map_pages` over `n` pages from `first` on. -/
def mapPagesFrom (pageDir perm : Nat) : Nat → Nat → Nat → Pmm T → Outcome (Int × Pmm T)
  | 0, _, _, s => .ok (0, s)
  | n + 1, first, pa, s => do
      let (pte, s) ← pageWalk s pageDir first true
      if pte = 0 then return (-1, s)
      else if load s.mem pte &&& PTE_V ≠ 0 then
        .error (.panic "map_pages fails on mapping va (0x%lx) to pa (0x%lx)" [first, pa])
      else
        mapPagesFrom pageDir perm n (u64 (first + PGSIZE)) (u64 (pa + PGSIZE))
          { s with mem := store s.mem pte (pa2pte pa ||| perm ||| PTE_V) }

/-- `map_pages`; the loop ends after the page of the last byte, or at
`page_walk`'s panic. -/
def mapPages (s : Pmm T) (pageDir va size pa perm : Nat) : Outcome (Int × Pmm T) :=
  let first := ROUNDDOWN va PGSIZE
  let last := ROUNDDOWN (u64 (va + size + (2 ^ 64 - 1))) PGSIZE
  mapPagesFrom pageDir perm (last / PGSIZE + 1 - first / PGSIZE) first pa s

def lookupPa (s : Pmm T) (pagetable va : Nat) : Outcome Nat :=
  if MAXVA ≤ va then .ok 0
  else do
    let (pte, s) ← pageWalk s pagetable va false
    if pte = 0 then return 0
    else
      let w := load s.mem pte
      if w &&& PTE_V = 0 ∨ w &&& PTE_R = 0 ∧ w &&& PTE_W = 0 then return 0
      else return pte2pa w

/-! ## The tree in memory -/

def ptr (w : Nat) : Option Nat := if w &&& PTE_V ≠ 0 then some (pte2pa w) else none

def tab (m : Mem) (p : Nat) (i : Fin 512) : Nat := load m (slot p i)

theorem px_lt (level va : Nat) : px level va < 512 := Nat.and_le_right.trans_lt (by decide)

def index (level va : Nat) : Fin 512 := ⟨px level va, px_lt level va⟩

/-- The path of an address from the directory to its last-level table. -/
def path (va : Nat) : List (Fin 512) := [index 2 va, index 1 va]

/-- The page that an entry of the last level maps, as `lookup_pa` reads it. -/
def leafPa (w : Nat) : Nat :=
  if w &&& PTE_V = 0 ∨ w &&& PTE_R = 0 ∧ w &&& PTE_W = 0 then 0 else pte2pa w

def mapped (m : Mem) (root va : Nat) : Nat :=
  ((node ptr (tab m) root (path va)).map (fun p => leafPa (tab m p (index 0 va)))).getD 0

/-- The tables below `root` are distinct pages, and none of them is free. -/
structure Wf (s : Pmm T) (root : Nat) (free : List Nat) : Prop where
  listed : s.Listed free
  separate : Separate ptr 2 (tab s.mem) root
  page : ∀ p, IsTable ptr 2 (tab s.mem) root p → p % PGSIZE = 0 ∧ p ≠ 0 ∧ p ∉ free

/-! ## Flags and page numbers -/

section

variable {pa perm : Nat}

theorem px_eq (level va : Nat) : px level va = va / 2 ^ (12 + 9 * level) % 512 := by
  rw [px, Nat.shiftRight_eq_div_pow, show (0x1FF : Nat) = 2 ^ 9 - 1 from rfl,
    Nat.and_two_pow_sub_one_eq_mod]

theorem pte2pa_or (hpa : pa % PGSIZE = 0) (hlt : pa < 2 ^ 64) (hperm : perm < 2 ^ 10) :
    pte2pa (pa2pte pa ||| perm) = pa := by
  have hshift : pa >>> 12 <<< 10 < 2 ^ 64 := by
    rw [Nat.shiftRight_eq_div_pow, Nat.shiftLeft_eq]
    omega
  have hlow : perm >>> 10 = 0 := by
    rw [Nat.shiftRight_eq_div_pow]
    exact Nat.div_eq_of_lt hperm
  have hback : pa >>> 12 <<< 12 = pa := by
    rw [Nat.shiftRight_eq_div_pow, Nat.shiftLeft_eq]
    unfold PGSIZE at hpa
    omega
  rw [pte2pa, pa2pte, u64_of_lt hshift, Nat.shiftRight_or_distrib, Nat.shiftLeft_shiftRight, hlow,
    Nat.or_zero, hback, u64_of_lt hlt]

theorem pa2pte_or_lt (pa : Nat) (hperm : perm < 2 ^ 10) : pa2pte pa ||| perm < 2 ^ 64 := by
  refine Nat.or_lt_two_pow ?_ (by omega)
  exact Nat.mod_lt _ (by decide)

theorem or_and_ne_zero {b x y : Nat} (h : y &&& b ≠ 0) : (x ||| y) &&& b ≠ 0 := by
  rw [Nat.and_or_distrib_right]
  intro hz
  exact h (Nat.or_eq_zero_iff.mp hz).2

theorem or_PTE_V_lt (hperm : perm < 2 ^ 10) : perm ||| PTE_V < 2 ^ 10 :=
  Nat.or_lt_two_pow hperm (by decide)

theorem ptr_table (hpa : pa % PGSIZE = 0) (hlt : pa < 2 ^ 64) :
    ptr (pa2pte pa ||| PTE_V) = some pa := by
  rw [ptr, if_pos (or_and_ne_zero (by decide)), pte2pa_or hpa hlt (by decide)]

theorem leafPa_map (hpa : pa % PGSIZE = 0) (hlt : pa < 2 ^ 64) (hperm : perm < 2 ^ 10)
    (hrw : perm &&& PTE_R ≠ 0 ∨ perm &&& PTE_W ≠ 0) :
    leafPa (pa2pte pa ||| perm ||| PTE_V) = pa := by
  have hflag : ∀ b, perm &&& b ≠ 0 → (pa2pte pa ||| perm ||| PTE_V) &&& b ≠ 0 := by
    intro b hb
    rw [Nat.or_assoc, Nat.or_comm perm, ← Nat.or_assoc]
    exact or_and_ne_zero hb
  rw [leafPa, if_neg, Nat.or_assoc, pte2pa_or hpa hlt (or_PTE_V_lt hperm)]
  rintro (hv | ⟨hr, hw⟩)
  · exact or_and_ne_zero (by decide) hv
  · exact hrw.elim (fun h => hflag _ h hr) (fun h => hflag _ h hw)

theorem page_eq_iff {a b : Nat} (ha : a < MAXVA) (hb : b < MAXVA) :
    (path a = path b ∧ index 0 a = index 0 b) ↔ a / PGSIZE = b / PGSIZE := by
  simp only [path, index, cons.injEq, and_true, Fin.mk.injEq, px_eq]
  unfold MAXVA at *
  unfold PGSIZE
  omega

end

/-! ## Tables in memory -/

section

variable {m : Mem} {p q : Nat} {i j : Fin 512} {w : Nat}

theorem tab_congr {m' : Mem} (h : ∀ x, p ≤ x → x < p + PGSIZE → m' x = m x) :
    tab m' p = tab m p := by
  funext i
  refine readLE_congr fun k hk => h _ ?_ ?_
  · unfold slot
    omega
  · unfold slot PGSIZE
    omega

theorem tab_store (m : Mem) (hp : p % PGSIZE = 0) (hq : q % PGSIZE = 0) (i j : Fin 512)
    (hw : w < 2 ^ 64) :
    tab (store m (slot q i) w) p j = if p = q ∧ j = i then w else tab m p j := by
  split
  · rename_i heq
    obtain ⟨rfl, rfl⟩ := heq
    exact readLE_writeLE_self m _ (by simpa using hw)
  · rename_i hne
    refine readLE_writeLE_of_disjoint ?_
    unfold slot
    by_cases hpq : p = q
    · subst hpq
      omega
    · have hap := page_apart hp hq hpq
      unfold PGSIZE at hap
      omega

theorem tab_fill (m : Mem) (p : Nat) (i : Fin 512) : tab (fillBytes m p 0 PGSIZE) p i = 0 := by
  have hzero : readLE (fillBytes m p 0 PGSIZE) (slot p i) 8 = 0 % 256 ^ 8 := by
    refine readLE_of_digits fun k hk => ?_
    have hin : p ≤ slot p i + k ∧ slot p i + k < p + PGSIZE := by
      unfold slot PGSIZE
      omega
    simp [fillBytes, hin]
  rw [tab, load, hzero, Nat.zero_mod]

theorem tab_fill_of_ne (m : Mem) (hp : p % PGSIZE = 0) (hq : q % PGSIZE = 0) (hne : p ≠ q) :
    tab (fillBytes m q 0 PGSIZE) p = tab m p := by
  refine tab_congr fun x h1 h2 => ?_
  have hap := page_apart hp hq hne
  have hout : ¬ (q ≤ x ∧ x < q + PGSIZE) := by omega
  simp [fillBytes, hout]

omit [RefTable T] in
theorem listed_store {s : Pmm T} {free : List Nat} (h : s.Listed free)
    (hq : q % PGSIZE = 0) (hnot : q ∉ free) (i : Fin 512) (w : Nat) :
    Pmm.Listed { s with mem := store s.mem (slot q i) w } free := by
  refine h.write fun p hp k hk => writeLE_of_outside ?_
  have hne : p ≠ q := fun hc => hnot (hc ▸ hp)
  have hap := page_apart (h.managed p hp).1 hq hne
  unfold slot
  unfold PGSIZE at hap
  omega

end

/-! ## Reading the tree -/

section

variable {s : Pmm T} {root va : Nat} {free : List Nat}

theorem node_path (m : Mem) (root va : Nat) : node ptr (tab m) root (path va)
    = (ptr (tab m root (index 2 va))).bind (fun p => ptr (tab m p (index 1 va))) := by
  show (ptr (tab m root (index 2 va))).bind (fun p => (ptr (tab m p (index 1 va))).bind some) = _
  simp only [bind_fun_some]

theorem pageWalkFrom_level (s : Pmm T) (pt va level : Nat) :
    pageWalkFrom va false (level + 1) s pt
      = match ptr (tab s.mem pt (index (level + 1) va)) with
        | some p => pageWalkFrom va false level s p
        | none => .ok (0, s) := by
  rw [pageWalkFrom, ptr]
  by_cases hv : tab s.mem pt (index (level + 1) va) &&& PTE_V ≠ 0
  · rw [if_pos hv]
    exact if_pos hv
  · rw [if_neg hv]
    exact if_neg hv

theorem pageWalkFrom_read (s : Pmm T) (root va : Nat) : pageWalkFrom va false 2 s root
    = .ok (((node ptr (tab s.mem) root (path va)).map (fun p => slot p (px 0 va))).getD 0, s) := by
  rw [node_path, pageWalkFrom_level]
  cases ptr (tab s.mem root (index 2 va)) with
  | none => rfl
  | some p =>
    dsimp only
    rw [pageWalkFrom_level, bind_some]
    cases ptr (tab s.mem p (index 1 va)) with
    | none => rfl
    | some q => rfl

theorem Wf.lookupPa_eq (h : Wf s root free) (hva : va < MAXVA) :
    lookupPa s root va = .ok (mapped s.mem root va) := by
  rw [lookupPa, if_neg (by omega), pageWalk, if_neg (by omega), pageWalkFrom_read, ok_bind, mapped]
  cases hp : node ptr (tab s.mem) root (path va) with
  | none => rfl
  | some p =>
    have hp0 := (h.page p ⟨path va, by simp [path], hp⟩).2.1
    have hslot : slot p (px 0 va) ≠ 0 := by
      unfold slot
      omega
    simp only [map_some, getD_some, hslot, if_false]
    rw [leafPa]
    split
    · rename_i hno
      rw [if_pos (by exact hno)]
      rfl
    · rename_i hyes
      rw [if_neg (by exact hyes)]
      rfl

end

/-! ## Growing the tree -/

section

variable {s s' s₁ : Pmm T} {root va p q : Nat} {free : List Nat} {π : List (Fin 512)} {i : Fin 512}

def hang (s : Pmm T) (p q : Nat) (i : Fin 512) : Pmm T :=
  { s with mem := store (fillBytes s.mem p 0 PGSIZE) (slot q i) (pa2pte p ||| PTE_V) }

theorem Wf.grow (h : Wf s root free) (hq : node ptr (tab s.mem) root π = some q)
    (hπ : π.length < 2) (hinv : ptr (tab s.mem q i) = none)
    (ha : allocPage s = .ok (p, s₁)) (hp : p ≠ 0) :
    ∃ free', Wf (hang s₁ p q i) root free' ∧
      node ptr (tab (hang s₁ p q i).mem) root (π ++ [i]) = some p ∧
      ∀ a, mapped (hang s₁ p q i).mem root a = mapped s.mem root a := by
  obtain ⟨hm, hst, hen, ⟨hp0, -⟩ | ⟨rest, -, rfl, hl⟩⟩ := allocPage_inv h.listed ha
  · exact absurd hp0 hp
  obtain ⟨hqpage, -, hqfree⟩ := h.page q ⟨π, by omega, hq⟩
  have hman := h.listed.managed p (by simp)
  have hlt : p < 2 ^ 64 := hman.2.2.trans h.listed.end_lt
  have hnd := nodup_cons.mp h.listed.chain.nodup
  have hpq : p ≠ q := fun hc => hqfree (hc ▸ .head ..)
  have hw : pa2pte p ||| PTE_V < 2 ^ 64 := pa2pte_or_lt p (by decide)
  have hfresh : ¬ IsTable ptr 2 (tab s.mem) root p := fun hc => (h.page p hc).2.2 (.head ..)
  -- the entries after the change
  have htab : ∀ r j, r % PGSIZE = 0 → r ≠ p →
      tab (hang s₁ p q i).mem r j
        = if r = q ∧ j = i then pa2pte p ||| PTE_V else tab s.mem r j := by
    intro r j hr hrp
    rw [hang, tab_store _ hr hqpage i j hw, tab_fill_of_ne _ hr hman.1 hrp, hm]
  have hzero : ∀ j, tab (hang s₁ p q i).mem p j = 0 := by
    intro j
    rw [hang, tab_store _ hman.1 hqpage i j hw, if_neg (fun hc => hpq hc.1), tab_fill]
  have hadds : Adds ptr 2 (tab s.mem) (tab (hang s₁ p q i).mem) root π i p := by
    refine ⟨hπ, hfresh, fun j => ?_, ?_, q, hq, ?_, fun r j hr hne => ?_⟩
    · rw [hzero]
      rfl
    · rwa [node_snoc, hq]
    · rw [htab q i hqpage hpq.symm, if_pos ⟨rfl, rfl⟩, ptr_table hman.1 hlt]
    · have hrp : r ≠ p := fun hc => hfresh (hc ▸ hr)
      rw [htab r j (h.page r hr).1 hrp, if_neg hne]
  refine ⟨rest, ⟨?_, hadds.separate h.separate, fun r hr => ?_⟩, ?_, fun a => ?_⟩
  · -- the list is threaded through the other free pages
    have hfill := Took.fill (m := fillBytes s₁.mem p 0 PGSIZE) h.listed hl hm hst hen
      (fun x hx => by
        have hout : ¬ (p ≤ x ∧ x < p + PGSIZE) := by omega
        simp [fillBytes, hout, hm])
    exact listed_store hfill.listed hqpage (fun hc => hqfree (.tail _ hc)) i _
  · rcases hadds.isTable h.separate hr with rfl | hr
    · exact ⟨hman.1, hp, hnd.1⟩
    · obtain ⟨h1, h2, h3⟩ := h.page r hr
      exact ⟨h1, h2, fun hc => h3 (.tail _ hc)⟩
  · rw [hadds.node_eq h.separate (by rw [length_append, length_singleton]; omega), if_pos rfl]
  · unfold mapped
    rw [hadds.node_eq h.separate (by simp [path])]
    by_cases hpath : path a = π ++ [i]
    · -- the new table maps nothing, and there was none before
      rw [if_pos hpath, hpath, node_snoc, hq, bind_some, hinv, map_some, hzero]
      rfl
    · rw [if_neg hpath]
      cases hr : node ptr (tab s.mem) root (path a) with
      | none => rfl
      | some r =>
        have hrt : IsTable ptr 2 (tab s.mem) root r := ⟨path a, by simp [path], hr⟩
        have hrq : r ≠ q := by
          rintro rfl
          have hlen := congrArg length (h.separate (path a) π r (by simp [path]) (by omega) hr hq)
          simp only [path, length_cons, length_nil] at hlen
          omega
        rw [map_some, map_some, htab r _ (h.page r hrt).1
          (fun hc => hfresh (hc ▸ hrt)), if_neg (fun hc => hrq hc.1)]

theorem Wf.walkLevel {level pte : Nat} (h : Wf s root free)
    (hq : node ptr (tab s.mem) root π = some q) (hπ : π.length < 2)
    (hrun : pageWalkFrom va true (level + 1) s q = .ok (pte, s')) :
    (pte = 0 ∧ ∃ free', Wf s' root free' ∧ ∀ a, mapped s'.mem root a = mapped s.mem root a) ∨
      ∃ s2 p free2, Wf s2 root free2 ∧
        node ptr (tab s2.mem) root (π ++ [index (level + 1) va]) = some p ∧
        (∀ a, mapped s2.mem root a = mapped s.mem root a) ∧
        pageWalkFrom va true level s2 p = .ok (pte, s') := by
  rw [pageWalkFrom] at hrun
  by_cases hv : tab s.mem q (index (level + 1) va) &&& PTE_V ≠ 0
  · rw [if_pos (by exact hv)] at hrun
    refine .inr ⟨s, _, free, h, ?_, fun _ => rfl, hrun⟩
    rw [node_snoc, hq, bind_some, ptr, if_pos hv]
    rfl
  · have hinv : ptr (tab s.mem q (index (level + 1) va)) = none := if_neg hv
    rw [if_neg (by exact hv), if_pos rfl, bind_eq_ok] at hrun
    obtain ⟨⟨p, s₁⟩, ha, hrun⟩ := hrun
    dsimp only at hrun
    split at hrun
    · rename_i hp
      obtain ⟨free2, hwf, hnode, hmap⟩ := h.grow hq hπ hinv ha hp
      exact .inr ⟨hang s₁ p q (index (level + 1) va), p, free2, hwf, hnode, hmap, hrun⟩
    · rename_i hp
      cases hrun
      obtain rfl : p = 0 := not_not.mp hp
      obtain ⟨hm, -, -, ⟨-, rfl, hl⟩ | ⟨rest, hp', -, -⟩⟩ := allocPage_inv h.listed ha
      · refine .inl ⟨rfl, [], ⟨hl, ?_, ?_⟩, fun _ => by rw [hm]⟩
        · rw [hm]
          exact h.separate
        · rw [hm]
          exact h.page
      · exact absurd rfl hp'

theorem Wf.pageWalk {pte : Nat} (h : Wf s root free)
    (hrun : Sv39.pageWalk s root va true = .ok (pte, s')) :
    va < MAXVA ∧ ∃ free', Wf s' root free' ∧ (∀ a, mapped s'.mem root a = mapped s.mem root a) ∧
      (pte ≠ 0 → ∃ p, node ptr (tab s'.mem) root (path va) = some p ∧ pte = slot p (px 0 va)) := by
  rw [Sv39.pageWalk] at hrun
  split at hrun
  · cases hrun
  refine ⟨by omega, ?_⟩
  have hroot : node ptr (tab s.mem) root [] = some root := rfl
  rcases h.walkLevel hroot (by decide) hrun with ⟨rfl, f, hwf, hmap⟩ | ⟨s2, p2, f2, h2, hn2, hm2, hrun⟩
  · exact ⟨f, hwf, hmap, fun hc => absurd rfl hc⟩
  rcases h2.walkLevel hn2 (by simp) hrun with ⟨rfl, f, hwf, hmap⟩ | ⟨s3, p3, f3, h3, hn3, hm3, hrun⟩
  · exact ⟨f, hwf, fun a => (hmap a).trans (hm2 a), fun hc => absurd rfl hc⟩
  cases hrun
  exact ⟨f3, h3, fun a => (hm3 a).trans (hm2 a), fun _ => ⟨p3, hn3, rfl⟩⟩

end

/-! ## Mapping pages -/

section

variable {s s' : Pmm T} {root va p w pa perm : Nat} {free : List Nat}

omit [RefTable T] in
theorem Wf.store (h : Wf s root free) (hva : va < MAXVA)
    (hp : node ptr (tab s.mem) root (path va) = some p) (hw : w < 2 ^ 64) :
    Wf { s with mem := Sv39.store s.mem (slot p (px 0 va)) w } root free ∧
      ∀ a, a < MAXVA → mapped (Sv39.store s.mem (slot p (px 0 va)) w) root a
        = if a / PGSIZE = va / PGSIZE then leafPa w else mapped s.mem root a := by
  obtain ⟨hpage, hp0, hfree⟩ := h.page p ⟨path va, by simp [path], hp⟩
  have htab : ∀ r j, r % PGSIZE = 0 → tab (Sv39.store s.mem (slot p (px 0 va)) w) r j
      = if r = p ∧ j = index 0 va then w else tab s.mem r j :=
    fun r j hr => tab_store s.mem hr hpage (index 0 va) j hw
  have hnode : ∀ π : List (Fin 512), π.length ≤ 2 →
      node ptr (tab (Sv39.store s.mem (slot p (px 0 va)) w)) root π
        = node ptr (tab s.mem) root π := by
    intro π hπ
    refine h.separate.node_store hp (by simp [path]) (fun r hr hne => ?_) hπ
    funext j
    rw [htab r j (h.page r hr).1, if_neg (fun hc => hne hc.1)]
  refine ⟨⟨listed_store h.listed hpage hfree (index 0 va) w, ?_, ?_⟩, fun a ha => ?_⟩
  · intro π π' r hπ hπ' hr hr'
    rw [hnode π hπ] at hr
    rw [hnode π' hπ'] at hr'
    exact h.separate π π' r hπ hπ' hr hr'
  · rintro r ⟨π, hπ, hr⟩
    rw [hnode π hπ] at hr
    exact h.page r ⟨π, hπ, hr⟩
  · unfold mapped
    rw [hnode _ (by simp [path])]
    cases hr : node ptr (tab s.mem) root (path a) with
    | none =>
      -- `a` has no table, so it is not on the page of `va`
      rw [if_neg]
      · rfl
      · intro hpage'
        have hsame := ((page_eq_iff ha hva).mpr hpage').1
        simp [hsame, hp] at hr
    | some r =>
      have hrt : IsTable ptr 2 (tab s.mem) root r := ⟨path a, by simp [path], hr⟩
      simp only [map_some, getD_some]
      rw [htab r _ (h.page r hrt).1]
      have hiff : (r = p ∧ index 0 a = index 0 va) ↔ a / PGSIZE = va / PGSIZE := by
        rw [← page_eq_iff ha hva]
        constructor
        · rintro ⟨rfl, hidx⟩
          exact ⟨h.separate _ _ r (by simp [path]) (by simp [path]) hr hp, hidx⟩
        · rintro ⟨hsame, hidx⟩
          rw [hsame, hp] at hr
          exact ⟨(some.inj hr).symm, hidx⟩
      by_cases hpage' : a / PGSIZE = va / PGSIZE
      · rw [if_pos (hiff.mpr hpage'), if_pos hpage']
      · rw [if_neg (fun hc => hpage' (hiff.mp hc)), if_neg hpage']

theorem Wf.mapPagesFrom (n first : Nat) (h : Wf s root free) (hfirst : first % PGSIZE = 0)
    (hpa : pa % PGSIZE = 0) (hlt : pa + n * PGSIZE < 2 ^ 64) (hperm : perm < 2 ^ 10)
    (hrw : perm &&& PTE_R ≠ 0 ∨ perm &&& PTE_W ≠ 0)
    (hrun : Sv39.mapPagesFrom root perm n first pa s = .ok (0, s')) :
    ∃ free', Wf s' root free' ∧ ∀ a, a < MAXVA → mapped s'.mem root a
      = if first / PGSIZE ≤ a / PGSIZE ∧ a / PGSIZE < first / PGSIZE + n
        then pa + (a / PGSIZE - first / PGSIZE) * PGSIZE else mapped s.mem root a := by
  induction n generalizing first pa s free with
  | zero =>
    cases hrun
    refine ⟨free, h, fun a _ => ?_⟩
    rw [if_neg (by omega)]
  | succ n ih =>
    rw [Sv39.mapPagesFrom, bind_eq_ok] at hrun
    obtain ⟨⟨pte, s₁⟩, hwalk, hrun⟩ := hrun
    obtain ⟨hva, free1, h1, hmap1, htable⟩ := h.pageWalk hwalk
    dsimp only at hrun
    split at hrun
    · cases hrun
    rename_i hpte
    split at hrun
    · cases hrun
    obtain ⟨p, hp, rfl⟩ := htable hpte
    have hw : pa2pte pa ||| perm ||| PTE_V < 2 ^ 64 := by
      rw [Nat.or_assoc]
      exact pa2pte_or_lt pa (or_PTE_V_lt hperm)
    obtain ⟨h2, hmap2⟩ := h1.store hva hp hw
    have hstep : u64 (first + PGSIZE) = first + PGSIZE := by
      apply u64_of_lt
      unfold MAXVA at hva
      unfold PGSIZE
      omega
    have hstep' : u64 (pa + PGSIZE) = pa + PGSIZE := by
      apply u64_of_lt
      unfold PGSIZE at *
      omega
    rw [hstep, hstep'] at hrun
    have hleaf := leafPa_map hpa (by unfold PGSIZE at *; omega) hperm hrw
    obtain ⟨free', h', hmap'⟩ := ih (first + PGSIZE) h2 (by unfold PGSIZE at *; omega)
      (by unfold PGSIZE at *; omega) (by unfold PGSIZE at *; omega) hrun
    refine ⟨free', h', fun a ha => ?_⟩
    have hdiv : (first + PGSIZE) / PGSIZE = first / PGSIZE + 1 := by
      unfold PGSIZE
      omega
    rw [hmap' a ha, hdiv, hmap2 a ha, hmap1, hleaf]
    by_cases hin : first / PGSIZE + 1 ≤ a / PGSIZE ∧ a / PGSIZE < first / PGSIZE + 1 + n
    · rw [if_pos hin, if_pos (by omega)]
      unfold PGSIZE at *
      omega
    · rw [if_neg hin]
      by_cases heq : a / PGSIZE = first / PGSIZE
      · rw [if_pos heq, if_pos (by omega), heq, Nat.sub_self, Nat.zero_mul, Nat.add_zero]
      · rw [if_neg heq, if_neg (by omega)]

/-- **`map_pages` maps the range and nothing else**: for a well-formed tree,
a range below `MAXVA` and a page-aligned physical address, a call that
returns 0 leaves a well-formed tree in which `lookup_pa` finds the page at
the same distance from `pa` for every address of the range, and what it
found before for every other address. -/
theorem mapPages_correct {size : Nat} (h : Wf s root free) (hsize : 1 ≤ size)
    (hrange : va + size ≤ MAXVA) (hpa : pa % PGSIZE = 0) (hpa56 : pa < 2 ^ 56)
    (hperm : perm < 2 ^ 10) (hrw : perm &&& PTE_R ≠ 0 ∨ perm &&& PTE_W ≠ 0)
    (hrun : mapPages s root va size pa perm = .ok (0, s')) :
    (∃ free', Wf s' root free') ∧ ∀ a, a < MAXVA → lookupPa s' root a
      = if ROUNDDOWN va PGSIZE ≤ a ∧ a < ROUNDDOWN (va + size - 1) PGSIZE + PGSIZE
        then .ok (pa + (ROUNDDOWN a PGSIZE - ROUNDDOWN va PGSIZE)) else lookupPa s root a := by
  have hlast : u64 (va + size + (2 ^ 64 - 1)) = va + size - 1 := by
    unfold u64
    unfold MAXVA at hrange
    omega
  rw [mapPages, hlast] at hrun
  have hcount : pa + (ROUNDDOWN (va + size - 1) PGSIZE / PGSIZE + 1 - ROUNDDOWN va PGSIZE / PGSIZE)
      * PGSIZE < 2 ^ 64 := by
    unfold ROUNDDOWN PGSIZE
    unfold MAXVA at hrange
    omega
  obtain ⟨free', h', hmap⟩ := h.mapPagesFrom _ _ (by unfold ROUNDDOWN PGSIZE; omega) hpa hcount
    hperm hrw hrun
  refine ⟨⟨free', h'⟩, fun a ha => ?_⟩
  rw [h'.lookupPa_eq ha, h.lookupPa_eq ha, hmap a ha]
  have hiff : (ROUNDDOWN va PGSIZE / PGSIZE ≤ a / PGSIZE ∧ a / PGSIZE < ROUNDDOWN va PGSIZE / PGSIZE
      + (ROUNDDOWN (va + size - 1) PGSIZE / PGSIZE + 1 - ROUNDDOWN va PGSIZE / PGSIZE)) ↔
      (ROUNDDOWN va PGSIZE ≤ a ∧ a < ROUNDDOWN (va + size - 1) PGSIZE + PGSIZE) := by
    unfold ROUNDDOWN PGSIZE
    omega
  have hdist : (a / PGSIZE - ROUNDDOWN va PGSIZE / PGSIZE) * PGSIZE
      = ROUNDDOWN a PGSIZE - ROUNDDOWN va PGSIZE := by
    unfold ROUNDDOWN PGSIZE
    omega
  by_cases hin : ROUNDDOWN va PGSIZE ≤ a ∧ a < ROUNDDOWN (va + size - 1) PGSIZE + PGSIZE
  · rw [if_pos (hiff.mpr hin), if_pos hin, hdist]
  · rw [if_neg (fun hc => hin (hiff.mp hc)), if_neg hin]

omit [RefTable T] in
theorem wf_fresh (hl : s.Listed free) (hp : p % PGSIZE = 0) (hp0 : p ≠ 0) (hfree : p ∉ free)
    (hzero : ∀ i, tab s.mem p i = 0) : Wf s p free := by
  have hnode : ∀ (π : List (Fin 512)) r, node ptr (tab s.mem) p π = some r → π = [] ∧ r = p := by
    intro π r hr
    cases π with
    | nil => exact ⟨rfl, (some.inj hr).symm⟩
    | cons i π =>
      rw [node, hzero] at hr
      cases hr
  refine ⟨hl, fun π π' r _ _ hr hr' => ?_, ?_⟩
  · rw [(hnode π r hr).1, (hnode π' r hr').1]
  · rintro r ⟨π, -, hr⟩
    rw [(hnode π r hr).2]
    exact ⟨hp, hp0, hfree⟩

def threePages : Pmm RefList where
  mem := writeLE (writeLE (fun _ => 0) 0x2000 8 0x3000) 0x3000 8 0x4000
  gFreeMemList := 0x2000
  refs := []
  freeMemStartAddr := 0x2000
  freeMemEndAddr := 0x5000

theorem threePages_wf : Wf threePages 0x1000 [0x2000, 0x3000, 0x4000] := by
  have hchain : Chain (nodeNext threePages.mem) (toPtr threePages.gFreeMemList)
      [0x2000, 0x3000, 0x4000] := by
    have h1 : nodeNext threePages.mem 0x2000 = some 0x3000 := by decide +kernel
    have h2 : nodeNext threePages.mem 0x3000 = some 0x4000 := by decide +kernel
    have h3 : nodeNext threePages.mem 0x4000 = none := by decide +kernel
    exact ⟨rfl, h1, h2, h3⟩
  refine wf_fresh ⟨by decide, by decide, hchain, by decide, ?_⟩ (by decide) (by decide) (by decide)
    ?_
  · intro q hq
    have hcases : q = 0x2000 ∨ q = 0x3000 ∨ q = 0x4000 := by simpa using hq
    show q % 4096 = 0 ∧ 0x2000 ≤ q ∧ q < 0x5000
    omega
  · intro i
    have hzero : readLE threePages.mem (slot 0x1000 i) 8 = 0 % 256 ^ 8 := by
      refine readLE_of_digits fun k hk => ?_
      have hlow : slot 0x1000 i + k < 0x2000 := by
        unfold slot
        omega
      have hbyte : threePages.mem (slot 0x1000 i + k) = 0 := by
        show writeLE (writeLE (fun _ => 0) 0x2000 8 0x3000) 0x3000 8 0x4000 _ = 0
        rw [writeLE_of_outside (by omega), writeLE_of_outside (by omega)]
      simp [hbyte]
    rw [tab, load, hzero, Nat.zero_mod]

/-- A range of two pages that lie in different last-level tables. -/
theorem mapPages_correct_across : ∃ s' : Pmm RefList,
    mapPages threePages 0x1000 0x1ff800 0x1000 0x80000000 PTE_R = .ok (0, s') ∧
    (∃ free', Wf s' 0x1000 free') ∧ ∀ a, a < MAXVA → lookupPa s' 0x1000 a
      = if ROUNDDOWN 0x1ff800 PGSIZE ≤ a ∧ a < ROUNDDOWN (0x1ff800 + 0x1000 - 1) PGSIZE + PGSIZE
        then .ok (0x80000000 + (ROUNDDOWN a PGSIZE - ROUNDDOWN 0x1ff800 PGSIZE))
        else lookupPa threePages 0x1000 a := by
  obtain ⟨⟨r, s'⟩, hmap, rfl⟩ : ∃ r,
      mapPages threePages 0x1000 0x1ff800 0x1000 0x80000000 PTE_R = .ok r ∧ r.1 = 0 := by
    decide +kernel
  exact ⟨s', hmap, mapPages_correct threePages_wf (by decide) (by decide) (by decide) (by decide)
    (by decide) (.inl (by decide)) hmap⟩

end

end CabbagePKE.Sv39
