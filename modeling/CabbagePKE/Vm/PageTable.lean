import CabbagePKE.Pmm.PageAllocator

/-!
# User page tables

`kernel/vmm.c` over an Sv39 tree. The tree is held as a value: which
second- and third-level tables exist (with the pages they occupy) and one
entry for each virtual page. `page_walk` grows it with pages taken from
the allocator, exactly where the code does.
-/

namespace CabbagePKE

open Lib

variable {T : Type} [RefTable T]

structure Perm where
  r : Bool
  w : Bool
  x : Bool
  u : Bool
  a : Bool
  d : Bool
  deriving DecidableEq, Repr

/-- A page table entry: `PTE2PA`, the valid bit, the permissions and the
two software bits. -/
structure Pte where
  pa : Nat
  v : Bool
  perm : Perm
  rsw : Nat
  deriving DecidableEq, Repr

def Pte.zero : Pte := ⟨0, false, ⟨false, false, false, false, false, false⟩, 0⟩

def Pte.leaf (pa : Nat) (perm : Perm) : Pte := ⟨ROUNDDOWN pa PGSIZE, true, perm, 0⟩

def protToType (read write exec user : Bool) : Perm :=
  if read || write || exec then
    { r := read, w := write, x := exec, u := user, a := read || exec, d := write }
  else { r := true, w := false, x := false, u := user, a := false, d := false }

/-- A user page table: the directory's page, the pages of the second-level
tables (by `va >> 30`) and third-level tables (by `va >> 21`), and the
entries (by `va >> 12`). -/
structure PageTable where
  dir : Nat
  mid : Nat → Option Nat
  leaf : Nat → Option Nat
  pte : Nat → Pte

def MAXVA : Nat := 2 ^ 38

def PageTable.empty (dir : Nat) : PageTable :=
  ⟨dir, fun _ => none, fun _ => none, fun _ => Pte.zero⟩

/-- The entry `page_walk` finds without allocating; a missing table reads
as an invalid entry. -/
def PageTable.entry (pt : PageTable) (vpn : Nat) : Pte :=
  if (pt.mid (vpn / 512 / 512)).isSome ∧ (pt.leaf (vpn / 512)).isSome then pt.pte vpn
  else Pte.zero

def PageTable.walks (pt : PageTable) (vpn : Nat) : Bool :=
  (pt.mid (vpn / 512 / 512)).isSome && (pt.leaf (vpn / 512)).isSome

def PageTable.set (pt : PageTable) (vpn : Nat) (e : Pte) : PageTable :=
  { pt with pte := fun i => if i = vpn then e else pt.pte i }

/-- One level of `page_walk`: follow a table pointer, or take a zeroed
page for the missing table. -/
def walkLevel (s : Pmm T) (table : Option Nat) (alloc : Bool) :
    Outcome (Option Nat × Pmm T) :=
  match table with
  | some p => .ok (some p, s)
  | none =>
    if alloc then do
      let (p, s) ← allocPage s
      if p ≠ 0 then
        return (some p, { s with mem := fillBytes s.mem p 0 PGSIZE })
      else return (none, s)
    else return (none, s)

/-- Point the directory entry `i` at the table on page `m`; a page that was
not there before is zeroed, so it points at no third-level table. -/
def PageTable.addMid (pt : PageTable) (i m : Nat) : PageTable :=
  { pt with
    leaf := if (pt.mid i).isSome then pt.leaf
      else fun j => if j / 512 = i then none else pt.leaf j
    mid := fun j => if j = i then some m else pt.mid j }

/-- Point the second-level entry `i` at the table on page `l`; a page that
was not there before is zeroed, so its entries are invalid. -/
def PageTable.addLeaf (pt : PageTable) (i l : Nat) : PageTable :=
  { pt with
    pte := if (pt.leaf i).isSome then pt.pte
      else fun vpn => if vpn / 512 = i then Pte.zero else pt.pte vpn
    leaf := fun j => if j = i then some l else pt.leaf j }

/-- `page_walk(page_dir, va, 1)`: whether there is an entry for `va`, and
the grown tree. -/
def pageWalk (s : Pmm T) (pt : PageTable) (va : Nat) :
    Outcome (Bool × Pmm T × PageTable) :=
  if MAXVA ≤ va then .error (.panic "page_walk" [])
  else do
    let i := va / PGSIZE / 512
    let (m, s) ← walkLevel s (pt.mid (i / 512)) true
    match m with
    | none => return (false, s, pt)
    | some m =>
      let pt := pt.addMid (i / 512) m
      let (l, s) ← walkLevel s (pt.leaf i) true
      match l with
      | none => return (false, s, pt)
      | some l => return (true, s, pt.addLeaf i l)

def mapPagesFrom (s : Pmm T) (pt : PageTable) (perm : Perm) :
    Nat → Nat → Nat → Outcome (Int × Pmm T × PageTable)
  | 0, _, _ => .ok (0, s, pt)
  | n + 1, first, pa => do
      let (found, s, pt) ← pageWalk s pt first
      if !found then return (-1, s, pt)
      else if (pt.pte (first / PGSIZE)).v then
        .error (.panic "map_pages fails on mapping va (0x%lx) to pa (0x%lx)" [first, pa])
      else
        mapPagesFrom s (pt.set (first / PGSIZE) (Pte.leaf pa perm)) perm n
          (first + PGSIZE) (pa + PGSIZE)

def mapPages (s : Pmm T) (pt : PageTable) (va size pa : Nat) (perm : Perm) :
    Outcome (Int × Pmm T × PageTable) :=
  mapPagesFrom s pt perm ((va + size - 1) / PGSIZE + 1 - va / PGSIZE)
    (ROUNDDOWN va PGSIZE) pa

def userVmMap (s : Pmm T) (pt : PageTable) (va size pa : Nat) (perm : Perm) :
    Outcome (Pmm T × PageTable) := do
  let (r, s, pt) ← mapPages s pt va size pa perm
  if r ≠ 0 then .error (.panic "fail to user_vm_map .\n" [])
  else return (s, pt)

def lookupPa (pt : PageTable) (va : Nat) : Nat :=
  if MAXVA ≤ va then 0
  else
    let e := pt.entry (va / PGSIZE)
    if e.v ∧ (e.perm.r ∨ e.perm.w) then e.pa else 0

def userVaToPa (pt : PageTable) (va : Nat) : Nat := lookupPa pt va + va % PGSIZE

theorem lookupPa_page (pt : PageTable) {va va' : Nat} (h : va / PGSIZE = va' / PGSIZE) :
    lookupPa pt va = lookupPa pt va' := by
  have hiff : MAXVA ≤ va ↔ MAXVA ≤ va' := by
    unfold PGSIZE at h
    unfold MAXVA
    omega
  unfold lookupPa
  simp only [hiff, h]

/-! ## Pages taken from the allocator -/

/-- The allocator went from the list `free` to a suffix of it, and memory
changed inside the pages taken from it only. -/
structure Took (s s' : Pmm T) (free free' : List Nat) : Prop where
  listed : s'.Listed free'
  taken : ∃ taken, free = taken ++ free' ∧
    ∀ x, (∀ p ∈ taken, x < p ∨ p + PGSIZE ≤ x) → s'.mem x = s.mem x
  start_eq : s'.freeMemStartAddr = s.freeMemStartAddr
  end_eq : s'.freeMemEndAddr = s.freeMemEndAddr

section

variable {s s' s'' : Pmm T} {free free' free'' : List Nat} {table table' : Option Nat}

section

omit [RefTable T]

theorem Took.refl (h : s.Listed free) : Took s s free free :=
  ⟨h, ⟨[], rfl, fun _ _ => rfl⟩, rfl, rfl⟩

theorem Took.trans (h : Took s s' free free') (h' : Took s' s'' free' free'') :
    Took s s'' free free'' := by
  obtain ⟨t, ht, hm⟩ := h.taken
  obtain ⟨t', ht', hm'⟩ := h'.taken
  refine ⟨h'.listed, ⟨t ++ t', by rw [ht, ht', List.append_assoc], fun x hx => ?_⟩,
    h'.start_eq.trans h.start_eq, h'.end_eq.trans h.end_eq⟩
  rw [hm' x (fun p hp => hx p (by simp [hp])), hm x (fun p hp => hx p (by simp [hp]))]

theorem Took.mem_of_mem (h : Took s s' free free') {p : Nat} (hp : p ∈ free') : p ∈ free := by
  obtain ⟨t, ht, -⟩ := h.taken
  simp [ht, hp]

theorem Took.mem_eq (h : Took s s' free free') {x : Nat}
    (hx : ∀ p ∈ free, x < p ∨ p + PGSIZE ≤ x) : s'.mem x = s.mem x := by
  obtain ⟨t, ht, hm⟩ := h.taken
  exact hm x (fun p hp => hx p (by simp [ht, hp]))

theorem Took.page_eq (h : Took s s' free free') (hl : s.Listed free) {pa x : Nat}
    (ha : pa % PGSIZE = 0) (hn : pa ∉ free) (hx : x < PGSIZE) :
    s'.mem (pa + x) = s.mem (pa + x) := by
  refine h.mem_eq (fun p hp => ?_)
  have hne : p ≠ pa := fun heq => hn (heq ▸ hp)
  have hap := page_apart (hl.managed p hp).1 ha hne
  omega

theorem Took.fill {p : Nat} {m : Mem} (h : s.Listed (p :: free)) (h' : s'.Listed free)
    (hm : s'.mem = s.mem) (hst : s'.freeMemStartAddr = s.freeMemStartAddr)
    (hen : s'.freeMemEndAddr = s.freeMemEndAddr)
    (hfill : ∀ x, x < p ∨ p + PGSIZE ≤ x → m x = s.mem x) :
    Took s { s' with mem := m } (p :: free) free := by
  have hnd := List.nodup_cons.mp h.chain.nodup
  refine ⟨h'.write (fun q hq i hi => ?_), ⟨[p], rfl, fun x hx => hfill x (hx p (by simp))⟩,
    hst, hen⟩
  rw [hm]
  refine hfill _ ?_
  have hne : p ≠ q := fun heq => hnd.1 (heq ▸ hq)
  have hap := page_apart (h.managed p (by simp)).1 (h.managed q (by simp [hq])).1 hne
  unfold PGSIZE at *
  omega

end

theorem allocPage_took {p : Nat} {m : Mem} (h : s.Listed free)
    (ha : allocPage s = .ok (p, s')) (hp : p ≠ 0)
    (hfill : ∀ x, x < p ∨ p + PGSIZE ≤ x → m x = s.mem x) :
    ∃ rest, free = p :: rest ∧ Took s { s' with mem := m } free rest := by
  obtain ⟨hm, hst, hen, ⟨hp0, -⟩ | ⟨rest, -, rfl, hl⟩⟩ := allocPage_inv h ha
  · exact absurd hp0 hp
  · exact ⟨rest, rfl, Took.fill h hl hm hst hen hfill⟩

theorem allocPage_null (h : s.Listed free) (ha : allocPage s = .ok (0, s')) :
    Took s s' free [] := by
  obtain ⟨hm, hst, hen, ⟨-, rfl, hl⟩ | ⟨rest, hp, -, -⟩⟩ := allocPage_inv h ha
  · exact ⟨hl, ⟨[], rfl, fun x _ => by rw [hm]⟩, hst, hen⟩
  · exact absurd rfl hp

theorem walkLevel_inv (h : walkLevel s table true = .ok (table', s')) :
    (∃ p, table = some p ∧ table' = some p ∧ s' = s) ∨
      (table = none ∧ ∃ p s1, allocPage s = .ok (p, s1) ∧
        ((p = 0 ∧ table' = none ∧ s' = s1) ∨
          (p ≠ 0 ∧ table' = some p ∧ s' = { s1 with mem := fillBytes s1.mem p 0 PGSIZE }))) := by
  cases table with
  | some p =>
    cases h
    exact .inl ⟨p, rfl, rfl, rfl⟩
  | none =>
    simp only [walkLevel, if_true, bind_eq_ok] at h
    obtain ⟨⟨p, s1⟩, ha, h⟩ := h
    dsimp only at h
    split at h
    · rename_i hp
      cases h
      exact .inr ⟨rfl, p, s1, ha, .inr ⟨hp, rfl, rfl⟩⟩
    · rename_i hp
      cases h
      exact .inr ⟨rfl, p, s', ha, .inl ⟨not_not.mp hp, rfl, rfl⟩⟩

theorem walkLevel_took (h : s.Listed free) (hw : walkLevel s table true = .ok (table', s')) :
    ∃ free', Took s s' free free' ∧ (table' = none → free' = []) := by
  rcases walkLevel_inv hw with ⟨p, -, rfl, rfl⟩ | ⟨-, p, s1, ha, ⟨rfl, -, rfl⟩ | ⟨hp, rfl, rfl⟩⟩
  · exact ⟨free, .refl h, by simp⟩
  · exact ⟨[], allocPage_null h ha, fun _ => rfl⟩
  · have hm := (allocPage_inv h ha).1
    obtain ⟨rest, -, ht⟩ := allocPage_took h ha hp (m := fillBytes s1.mem p 0 PGSIZE)
      fun x hx => by rw [fillBytes_outside hx, hm]
    exact ⟨rest, ht, by simp⟩

inductive TookTables : Pmm T → Pmm T → Prop
  | refl (s : Pmm T) : TookTables s s
  | null {s s₁ s₂ : Pmm T} (h : TookTables s s₁) (ha : allocPage s₁ = .ok (0, s₂)) :
      TookTables s s₂
  | table {s s₁ s₂ : Pmm T} {p : Nat} (h : TookTables s s₁) (ha : allocPage s₁ = .ok (p, s₂))
      (hp : p ≠ 0) : TookTables s { s₂ with mem := fillBytes s₂.mem p 0 PGSIZE }

theorem walkLevel_tables (h : TookTables s s')
    (hw : walkLevel s' table true = .ok (table', s'')) : TookTables s s'' := by
  rcases walkLevel_inv hw with ⟨p, -, -, rfl⟩ | ⟨-, p, s1, ha, ⟨rfl, -, rfl⟩ | ⟨hp, -, rfl⟩⟩
  · exact h
  · exact h.null ha
  · exact h.table ha hp

end

/-! ## Growing the tree -/

section

variable {s s' : Pmm T} {pt pt' : PageTable} {free : List Nat}

variable {pa size va : Nat} {found : Bool} {perm : Perm} {r : Int}

theorem entry_addMid (pt : PageTable) (i m vpn : Nat) :
    (pt.addMid i m).entry vpn = pt.entry vpn := by
  by_cases hv : vpn / 512 / 512 = i
  · by_cases hm : (pt.mid i).isSome
    · simp [PageTable.entry, PageTable.addMid, hv, hm]
    · simp [PageTable.entry, PageTable.addMid, hv, hm]
  · by_cases hm : (pt.mid i).isSome
    · simp [PageTable.entry, PageTable.addMid, hv, hm]
    · simp [PageTable.entry, PageTable.addMid, hv, hm]

theorem entry_addLeaf {pt : PageTable} {i l : Nat} (h : (pt.mid (i / 512)).isSome) (vpn : Nat) :
    (pt.addLeaf i l).entry vpn = pt.entry vpn := by
  by_cases hv : vpn / 512 = i
  · by_cases hl : (pt.leaf i).isSome
    · simp [PageTable.entry, PageTable.addLeaf, hv, hl, h]
    · simp [PageTable.entry, PageTable.addLeaf, hv, hl]
  · by_cases hl : (pt.leaf i).isSome
    · simp [PageTable.entry, PageTable.addLeaf, hv, hl]
    · simp [PageTable.entry, PageTable.addLeaf, hv, hl]

theorem pageWalk_inv (h : pageWalk s pt va = .ok (found, s', pt')) :
    va < MAXVA ∧ ∃ m s1, walkLevel s (pt.mid (va / PGSIZE / 512 / 512)) true = .ok (m, s1) ∧
      ((m = none ∧ found = false ∧ s' = s1 ∧ pt' = pt) ∨
        ∃ p l, m = some p ∧ walkLevel s1 ((pt.addMid (va / PGSIZE / 512 / 512) p).leaf
            (va / PGSIZE / 512)) true = .ok (l, s') ∧
          ((l = none ∧ found = false ∧ pt' = pt.addMid (va / PGSIZE / 512 / 512) p) ∨
            ∃ q, l = some q ∧ found = true ∧
              pt' = (pt.addMid (va / PGSIZE / 512 / 512) p).addLeaf (va / PGSIZE / 512) q)) := by
  unfold pageWalk at h
  split at h
  · cases h
  simp only [bind_eq_ok] at h
  obtain ⟨⟨m, s1⟩, hm, h⟩ := h
  refine ⟨by omega, m, s1, hm, ?_⟩
  cases m with
  | none =>
    cases h
    exact .inl ⟨rfl, rfl, rfl, rfl⟩
  | some p =>
    simp only [bind_eq_ok] at h
    obtain ⟨⟨l, s2⟩, hl, h⟩ := h
    cases l with
    | none =>
      cases h
      exact .inr ⟨p, none, rfl, hl, .inl ⟨rfl, rfl, rfl⟩⟩
    | some q =>
      cases h
      exact .inr ⟨p, some q, rfl, hl, .inr ⟨q, rfl, rfl, rfl⟩⟩

theorem pageWalk_entry (h : pageWalk s pt va = .ok (found, s', pt')) :
    (∀ vpn, pt'.entry vpn = pt.entry vpn) ∧
      (found = true → pt'.walks (va / PGSIZE) = true) ∧ va < MAXVA ∧ pt'.dir = pt.dir := by
  obtain ⟨hva, m, s1, -, ⟨-, rfl, -, rfl⟩ | ⟨p, l, -, -, ⟨-, rfl, rfl⟩ | ⟨q, -, rfl, rfl⟩⟩⟩ :=
    pageWalk_inv h
  · exact ⟨fun _ => rfl, by simp, hva, rfl⟩
  · exact ⟨entry_addMid pt _ p, by simp, hva, rfl⟩
  · have hm : ((pt.addMid (va / PGSIZE / 512 / 512) p).mid
        (va / PGSIZE / 512 / 512)).isSome := by simp [PageTable.addMid]
    refine ⟨?_, ?_, hva, rfl⟩
    · intro vpn
      rw [entry_addLeaf hm, entry_addMid]
    · intro _
      simp [PageTable.walks, PageTable.addLeaf, PageTable.addMid]

theorem pageWalk_took (hl : s.Listed free) (h : pageWalk s pt va = .ok (found, s', pt')) :
    ∃ free', Took s s' free free' ∧ (found = false → free' = []) := by
  obtain ⟨-, m, s1, hw1, ⟨rfl, -, rfl, -⟩ | ⟨p, l, -, hw2, hend⟩⟩ := pageWalk_inv h
  · obtain ⟨free1, ht1, hdry1⟩ := walkLevel_took hl hw1
    exact ⟨free1, ht1, fun _ => hdry1 rfl⟩
  · obtain ⟨free1, ht1, -⟩ := walkLevel_took hl hw1
    obtain ⟨free2, ht2, hdry2⟩ := walkLevel_took ht1.listed hw2
    refine ⟨free2, ht1.trans ht2, ?_⟩
    rcases hend with ⟨rfl, -, -⟩ | ⟨q, -, rfl, -⟩
    · exact fun _ => hdry2 rfl
    · simp

theorem pageWalk_tables {s0 : Pmm T} (h0 : TookTables s0 s)
    (h : pageWalk s pt va = .ok (found, s', pt')) : TookTables s0 s' := by
  obtain ⟨-, m, s1, hw1, ⟨-, -, rfl, -⟩ | ⟨p, l, -, hw2, -⟩⟩ := pageWalk_inv h
  · exact walkLevel_tables h0 hw1
  · exact walkLevel_tables (walkLevel_tables h0 hw1) hw2

theorem entry_of_walks {vpn : Nat} (h : pt.walks vpn = true) : pt.entry vpn = pt.pte vpn := by
  simp only [PageTable.walks, Bool.and_eq_true] at h
  simp [PageTable.entry, h]

theorem walks_of_valid {v : Nat} (h : (pt.entry v).v = true) : pt.walks v = true := by
  unfold PageTable.entry at h
  split at h
  · rename_i hw
    simp [PageTable.walks, hw.1, hw.2]
  · cases h

theorem entry_set {vpn : Nat} (e : Pte) (h : pt.walks vpn = true) (i : Nat) :
    (pt.set vpn e).entry i = if i = vpn then e else pt.entry i := by
  simp only [PageTable.walks, Bool.and_eq_true] at h
  by_cases hi : i = vpn
  · subst hi
    simp [PageTable.entry, PageTable.set, h]
  · simp [PageTable.entry, PageTable.set, hi]

theorem mapPagesFrom_inv {n first : Nat}
    (h : mapPagesFrom s pt perm (n + 1) first pa = .ok (r, s', pt')) :
    ∃ found s1 pt1, pageWalk s pt first = .ok (found, s1, pt1) ∧
      ((found = false ∧ r = -1 ∧ s' = s1 ∧ pt' = pt1) ∨
        (found = true ∧ (pt1.pte (first / PGSIZE)).v = false ∧
          mapPagesFrom s1 (pt1.set (first / PGSIZE) (Pte.leaf pa perm)) perm n (first + PGSIZE)
            (pa + PGSIZE) = .ok (r, s', pt'))) := by
  simp only [mapPagesFrom, bind_eq_ok] at h
  obtain ⟨⟨found, s1, pt1⟩, hw, h⟩ := h
  refine ⟨found, s1, pt1, hw, ?_⟩
  cases found with
  | false =>
    cases h
    exact .inl ⟨rfl, rfl, rfl, rfl⟩
  | true =>
    simp only [Bool.not_true, Bool.false_eq_true, if_false] at h
    split at h
    · cases h
    · rename_i hv
      exact .inr ⟨rfl, Bool.eq_false_iff.mpr hv, h⟩

theorem mapPagesFrom_entry : ∀ (n first pa : Nat) (s : Pmm T)
    (pt : PageTable), first % PGSIZE = 0 → mapPagesFrom s pt perm n first pa = .ok (r, s', pt') →
    pt'.dir = pt.dir ∧ (n ≠ 0 → first < MAXVA) ∧ ∃ k, k ≤ n ∧ (r = 0 ↔ k = n) ∧
      ∀ vpn, (first / PGSIZE ≤ vpn ∧ vpn < first / PGSIZE + k → (pt.entry vpn).v = false) ∧
        pt'.entry vpn = if first / PGSIZE ≤ vpn ∧ vpn < first / PGSIZE + k
          then Pte.leaf (pa + (vpn - first / PGSIZE) * PGSIZE) perm else pt.entry vpn := by
  intro n
  induction n with
  | zero =>
    intro first pa s pt hfirst h
    cases h
    refine ⟨rfl, fun h0 => absurd rfl h0, 0, Nat.le_refl 0, by simp, fun vpn => ⟨by omega, ?_⟩⟩
    rw [if_neg (by omega)]
  | succ n ih =>
    intro first pa s pt hfirst h
    obtain ⟨found, s1, pt1, hw, ⟨-, rfl, -, rfl⟩ | ⟨rfl, hv, h⟩⟩ := mapPagesFrom_inv h
    · obtain ⟨hent, -, hva, hdir⟩ := pageWalk_entry hw
      refine ⟨hdir, fun _ => hva, 0, Nat.zero_le _, by simp, fun vpn => ⟨by omega, ?_⟩⟩
      rw [if_neg (by omega), hent]
    · obtain ⟨hent, hwalks, hva, hdir⟩ := pageWalk_entry hw
      have hstep : (first + PGSIZE) / PGSIZE = first / PGSIZE + 1 := by
        unfold PGSIZE
        omega
      obtain ⟨hdir2, -, k, hk, hr, hent2⟩ := ih (first + PGSIZE) (pa + PGSIZE) s1 _
        (by unfold PGSIZE at *; omega) h
      refine ⟨hdir2.trans hdir, fun _ => hva, k + 1, by omega, by omega, fun vpn => ?_⟩
      obtain ⟨hun, hnew⟩ := hent2 vpn
      rw [hstep, entry_set _ (hwalks rfl), hent vpn] at hun
      rw [hnew, hstep, entry_set _ (hwalks rfl), hent vpn]
      by_cases hv' : vpn = first / PGSIZE
      · subst hv'
        refine ⟨fun _ => by rw [← hent, entry_of_walks (hwalks rfl), hv], ?_⟩
        rw [if_neg (by omega), if_pos rfl, if_pos (by omega)]
        simp
      · rw [if_neg hv'] at hun ⊢
        refine ⟨fun hin => hun (by omega), ?_⟩
        by_cases hin : first / PGSIZE + 1 ≤ vpn ∧ vpn < first / PGSIZE + 1 + k
        · rw [if_pos hin, if_pos (by omega)]
          congr 1
          rw [show vpn - first / PGSIZE = vpn - (first / PGSIZE + 1) + 1 from by omega, Nat.add_mul]
          omega
        · rw [if_neg hin, if_neg (by omega)]

theorem mapPagesFrom_took : ∀ (n first pa : Nat) (s : Pmm T)
    (pt : PageTable) (free : List Nat), s.Listed free →
    mapPagesFrom s pt perm n first pa = .ok (r, s', pt') →
    ∃ free', Took s s' free free' ∧ (r ≠ 0 → free' = []) := by
  intro n
  induction n with
  | zero =>
    intro first pa s pt free hl h
    cases h
    exact ⟨free, .refl hl, fun hr => absurd rfl hr⟩
  | succ n ih =>
    intro first pa s pt free hl h
    obtain ⟨found, s1, pt1, hw, hend⟩ := mapPagesFrom_inv h
    obtain ⟨free1, ht1, hdry1⟩ := pageWalk_took hl hw
    rcases hend with ⟨rfl, -, rfl, -⟩ | ⟨-, -, h⟩
    · exact ⟨free1, ht1, fun _ => hdry1 rfl⟩
    · obtain ⟨free2, ht2, hdry2⟩ := ih _ _ s1 _ free1 ht1.listed h
      exact ⟨free2, ht1.trans ht2, hdry2⟩

theorem mapPagesFrom_tables {s0 : Pmm T} :
    ∀ (n first pa : Nat) (s : Pmm T) (pt : PageTable), TookTables s0 s →
      mapPagesFrom s pt perm n first pa = .ok (r, s', pt') → TookTables s0 s' := by
  intro n
  induction n with
  | zero =>
    intro first pa s pt h0 h
    cases h
    exact h0
  | succ n ih =>
    intro first pa s pt h0 h
    obtain ⟨found, s1, pt1, hw, ⟨-, -, rfl, -⟩ | ⟨-, -, h⟩⟩ := mapPagesFrom_inv h
    · exact pageWalk_tables h0 hw
    · exact ih _ _ _ _ (pageWalk_tables h0 hw) h

omit [RefTable T] in
theorem pages_of_va (va : Nat) : ROUNDDOWN va PGSIZE % PGSIZE = 0 ∧
    ROUNDDOWN va PGSIZE / PGSIZE = va / PGSIZE ∧
    (va % PGSIZE = 0 → ROUNDDOWN va PGSIZE = va ∧
      (va + PGSIZE - 1) / PGSIZE + 1 - va / PGSIZE = 1) := by
  unfold ROUNDDOWN PGSIZE
  omega

theorem mapPages_page (hva : va % PGSIZE = 0)
    (h : mapPages s pt va PGSIZE pa perm = .ok (r, s', pt')) :
    va < MAXVA ∧ pt'.dir = pt.dir ∧
      ((r = 0 ∧ (pt.entry (va / PGSIZE)).v = false ∧
          ∀ vpn, pt'.entry vpn = if vpn = va / PGSIZE then Pte.leaf pa perm else pt.entry vpn) ∨
        (r ≠ 0 ∧ ∀ vpn, pt'.entry vpn = pt.entry vpn)) := by
  obtain ⟨hround, hone⟩ := (pages_of_va va).2.2 hva
  rw [mapPages, hone, hround] at h
  obtain ⟨hdir, hlt, k, hk, hr, hent⟩ := mapPagesFrom_entry 1 va pa s pt hva h
  refine ⟨hlt (by decide), hdir, ?_⟩
  by_cases hk1 : k = 1
  · subst hk1
    refine .inl ⟨hr.mpr rfl, (hent _).1 (by omega), fun vpn => ?_⟩
    rw [(hent vpn).2]
    by_cases hv : vpn = va / PGSIZE
    · subst hv
      simp
    · rw [if_neg (by omega), if_neg hv]
  · refine .inr ⟨by omega, fun vpn => ?_⟩
    rw [(hent vpn).2, if_neg (by omega)]

theorem userVmMap_inv (h : userVmMap s pt va size pa perm = .ok (s', pt')) :
    mapPages s pt va size pa perm = .ok (0, s', pt') := by
  simp only [userVmMap, bind_eq_ok] at h
  obtain ⟨⟨r, s1, pt1⟩, hm, h⟩ := h
  by_cases hr : r = 0
  · subst hr
    cases h
    exact hm
  · simp [hr] at h

theorem userVmMap_took (hl : s.Listed free)
    (h : userVmMap s pt va size pa perm = .ok (s', pt')) : ∃ free', Took s s' free free' := by
  obtain ⟨free', ht, -⟩ := mapPagesFrom_took _ _ _ _ _ free hl (userVmMap_inv h)
  exact ⟨free', ht⟩

theorem userVmMap_entry (hva : va % PGSIZE = 0)
    (h : userVmMap s pt va PGSIZE pa perm = .ok (s', pt')) :
    pt'.dir = pt.dir ∧ va < MAXVA ∧
      ∀ vpn, pt'.entry vpn
        = if vpn = va / PGSIZE then Pte.leaf pa perm else pt.entry vpn := by
  obtain ⟨hlt, hdir, ⟨-, -, hent⟩ | ⟨hr, -⟩⟩ := mapPages_page hva (userVmMap_inv h)
  · exact ⟨hdir, hlt, hent⟩
  · exact absurd rfl hr

theorem userVmMap_unmapped (hva : va % PGSIZE = 0)
    (h : userVmMap s pt va PGSIZE pa perm = .ok (s', pt')) :
    (pt.entry (va / PGSIZE)).v = false := by
  obtain ⟨-, -, ⟨-, hun, -⟩ | ⟨hr, -⟩⟩ := mapPages_page hva (userVmMap_inv h)
  · exact hun
  · exact absurd rfl hr

end

end CabbagePKE
