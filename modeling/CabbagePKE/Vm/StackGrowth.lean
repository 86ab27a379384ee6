import CabbagePKE.Pmm.DoubleFree
import CabbagePKE.Vm.Plain

/-!
# Growing the stack

A store below the mapped part of the stack faults, and `handle_user_page_fault`
maps a fresh page if `sp < stval < USER_STACK_TOP`. The address `sp` itself, that
of the last word pushed, fails the first comparison: the handler then takes the
fault for one on a shared page, and panics or goes through a null pointer.
-/

namespace CabbagePKE

open Lib

variable {T : Type} [RefTable T]

/-! ## Pages that can still be had -/

def accepts (t : T) : List Nat → Bool
  | [] => true
  | p :: ps => okTest (RefTable.insert t p) (fun t' => accepts t' ps)

/-- `alloc_page` can be called `k` times: there are `k` free pages, and the table
of reference counts has room for them. -/
def Supplies (t : T) (free : List Nat) (k : Nat) : Prop :=
  k ≤ free.length ∧ accepts t (free.take k) = true

/-- The page that `page_walk` takes where it finds no table. -/
def tableCost (table : Option Nat) : Nat := if table.isNone then 1 else 0

/-- How many tables `page_walk` has to add on the way to a page. Below a table of the second
level that is missing there is none of the third. -/
def PageTable.missing (pt : PageTable) (vpn : Nat) : Nat :=
  tableCost (pt.mid (vpn / 512 / 512)) +
    tableCost (if (pt.mid (vpn / 512 / 512)).isSome then pt.leaf (vpn / 512) else none)

section

variable {s s' : Pmm T} {pt : PageTable} {free : List Nat} {p va : Nat}

theorem supplies_zero (t : T) (free : List Nat) : Supplies t free 0 := ⟨Nat.zero_le _, rfl⟩

theorem supplies_cons (t : T) (p : Nat) (free : List Nat) (k : Nat) :
    Supplies t (p :: free) (k + 1) ↔ ∃ t', RefTable.insert t p = .ok t' ∧ Supplies t' free k := by
  unfold Supplies
  rw [List.take_succ_cons, accepts, List.length_cons]
  cases hins : RefTable.insert t p with
  | error e => simp [okTest]
  | ok t' => simp [okTest]

theorem allocPage_refs (h : allocPage s = .ok (p, s')) :
    RefTable.insert s.refs p = .ok s'.refs := by
  simp only [allocPage, bind_eq_ok] at h
  obtain ⟨refs, hins, h⟩ := h
  cases h
  exact hins

theorem allocPage_supplies (hl : s.Listed free) (k : Nat) :
    Supplies s.refs free (k + 1) ↔ ∃ p s' rest, allocPage s = .ok (p, s') ∧ p ≠ 0 ∧
      free = p :: rest ∧ s'.Listed rest ∧ s'.mem = s.mem ∧ Supplies s'.refs rest k := by
  constructor
  · intro h
    cases free with
    | nil => exact absurd h.1 (by simp)
    | cons q rest =>
      obtain ⟨t', hins, hk⟩ := (supplies_cons _ _ _ _).mp h
      obtain ⟨hq, -⟩ := toPtr_eq_some.mp (chain_cons.mp hl.chain).1
      obtain ⟨s', ha, hrefs⟩ : ∃ s', allocPage s = .ok (q, s') ∧ s'.refs = t' := by
        rw [allocPage, hq, hins, ok_bind]
        exact ⟨_, rfl, rfl⟩
      obtain ⟨hmem, -, -, ⟨-, hnil, -⟩ | ⟨rest', hq0, hcons, hl'⟩⟩ := allocPage_inv hl ha
      · cases hnil
      · cases hcons
        exact ⟨q, s', rest, ha, hq0, rfl, hl', hmem, hrefs ▸ hk⟩
  · rintro ⟨p, s', rest, ha, -, rfl, -, -, hk⟩
    exact (supplies_cons _ _ _ _).mpr ⟨s'.refs, allocPage_refs ha, hk⟩

theorem walkLevel_supplies {table : Option Nat} (hl : s.Listed free) (k : Nat) :
    Supplies s.refs free (k + tableCost table) ↔ ∃ m s' free',
      walkLevel s table true = .ok (some m, s') ∧ s'.Listed free' ∧ Supplies s'.refs free' k := by
  cases table with
  | some m =>
    constructor
    · intro h
      exact ⟨m, s, free, rfl, hl, h⟩
    · rintro ⟨m', s', free', hw, hl', h⟩
      cases hw
      rwa [hl'.chain.unique hl.chain] at h
  | none =>
    show Supplies s.refs free (k + 1) ↔ _
    -- the page is zeroed, which leaves the rest of the list alone
    have hzero : ∀ p s', allocPage s = .ok (p, s') → p ≠ 0 → ∃ rest, free = p :: rest ∧
        Pmm.Listed { s' with mem := fillBytes s'.mem p 0 PGSIZE } rest := by
      intro p s' ha hp
      obtain ⟨rest, hcons, ht⟩ := allocPage_took (m := fillBytes s'.mem p 0 PGSIZE) hl ha hp
        (fun x hx => by rw [fillBytes_outside hx, (allocPage_inv hl ha).1])
      exact ⟨rest, hcons, ht.listed⟩
    rw [allocPage_supplies hl]
    constructor
    · rintro ⟨p, s', rest, ha, hp, rfl, -, -, hk⟩
      obtain ⟨rest', hcons, hl'⟩ := hzero p s' ha hp
      cases hcons
      refine ⟨p, { s' with mem := fillBytes s'.mem p 0 PGSIZE }, rest, ?_, hl', hk⟩
      rw [walkLevel, if_pos rfl, ha, ok_bind]
      simp only [ne_eq, hp, not_false_eq_true, if_true, pure_eq_ok]
    · rintro ⟨m, s', free', hw, hl', hk⟩
      obtain ⟨q, hq, -⟩ | ⟨-, p, s1, ha, ⟨-, hm, -⟩ | ⟨hp, hm, rfl⟩⟩ := walkLevel_inv hw
      · cases hq
      · cases hm
      · cases hm
        obtain ⟨rest, hcons, hl1⟩ := hzero m s1 ha hp
        rw [hl'.chain.unique hl1.chain] at hk
        obtain ⟨hmem, -, -, ⟨h0, -⟩ | ⟨rest', -, hcons', hl1'⟩⟩ := allocPage_inv hl ha
        · exact absurd h0 hp
        · cases hcons.symm.trans hcons'
          exact ⟨m, s1, rest, ha, hp, hcons, hl1', hmem, hk⟩

theorem addMid_leaf (pt : PageTable) (m vpn : Nat) :
    (pt.addMid (vpn / 512 / 512) m).leaf (vpn / 512)
      = if (pt.mid (vpn / 512 / 512)).isSome then pt.leaf (vpn / 512) else none := by
  unfold PageTable.addMid
  split
  · rfl
  · exact if_pos rfl

theorem pageWalk_found_iff (hl : s.Listed free) (hva : va < MAXVA) :
    (∃ s' pt', pageWalk s pt va = .ok (true, s', pt')) ↔
      Supplies s.refs free (pt.missing (va / PGSIZE)) := by
  rw [PageTable.missing, Nat.add_comm, walkLevel_supplies hl]
  constructor
  · rintro ⟨s', pt', h⟩
    obtain ⟨-, m, s1, hw1, ⟨-, hfound, -⟩ | ⟨m', l, rfl, hw2, ⟨-, hfound, -⟩ | ⟨l', rfl, -⟩⟩⟩ :=
      pageWalk_inv h
    · cases hfound
    · cases hfound
    · obtain ⟨free1, ht1, -⟩ := walkLevel_took hl hw1
      obtain ⟨free2, ht2, -⟩ := walkLevel_took ht1.listed hw2
      rw [addMid_leaf] at hw2
      refine ⟨m', s1, free1, hw1, ht1.listed, ?_⟩
      have hlevel := (walkLevel_supplies ht1.listed 0).mpr
        ⟨l', s', free2, hw2, ht2.listed, supplies_zero _ _⟩
      rwa [Nat.zero_add] at hlevel
  · rintro ⟨m, s1, free1, hw1, hl1, hk⟩
    rw [← Nat.zero_add (tableCost _), walkLevel_supplies hl1, ← addMid_leaf pt m] at hk
    obtain ⟨l, s2, -, hw2, -, -⟩ := hk
    simp only [pageWalk, if_neg (not_le.mpr hva), hw1, ok_bind, hw2]
    exact ⟨_, _, rfl⟩

end

/-! ## The fault -/

/-- What the handler should do for a live address of the stack: map a page that
was free, and is not any longer, at the page of `stval`, for user code to read
and write, and change no other entry. -/
def GrowsStack (s : Pmm T) (c : Space) (sp stval : Nat) (free : List Nat) : Prop :=
  ∃ s' c' pa free', handleUserPageFault s c sp stval = .ok (s', c') ∧
    pa ∈ free ∧ s'.Listed free' ∧ pa ∉ free' ∧
    c'.pagetable.entry (stval / PGSIZE) = Pte.leaf pa (protToType true true false true) ∧
    ∀ vpn, vpn ≠ stval / PGSIZE → c'.pagetable.entry vpn = c.pagetable.entry vpn

/-- The entry of `va`, valid or not, has the mark of a shared page and names the
frame `f`, which has references besides this one. -/
structure StillShared (s : Pmm T) (c : Space) (va f : Nat) : Prop where
  walks : c.pagetable.walks (va / PGSIZE) = true
  mark : (c.pagetable.entry (va / PGSIZE)).rsw = 1
  frame : (c.pagetable.entry (va / PGSIZE)).pa = f
  managed : s.Managed f
  more : (RefTable.erase s.refs f).1 = 0

section

variable {s s' : Pmm T} {c c' : Space} {sp stval f : Nat} {free : List Nat}

theorem growsStack_above (hl : s.Listed free) (hsp : sp < stval) (htop : stval < USER_STACK_TOP) :
    GrowsStack s c sp stval free ↔
      Supplies s.refs free (c.pagetable.missing (stval / PGSIZE) + 1) := by
  have hva : stval < MAXVA := htop.trans (by decide)
  have hfault : stackFault sp stval := ⟨hsp, htop⟩
  rw [allocPage_supplies hl]
  constructor
  · rintro ⟨s', c', pa, free', hrun, -⟩
    rcases handleUserPageFault_inv hrun with ⟨-, p, s1, pt1, ha, hp, hwalk, -⟩ | ⟨hno, -⟩
    · obtain ⟨hmem, -, -, ⟨h0, -⟩ | ⟨rest, -, hcons, hl1⟩⟩ := allocPage_inv hl ha
      · exact absurd h0 hp
      · exact ⟨p, s1, rest, ha, hp, hcons, hl1, hmem,
          (pageWalk_found_iff hl1 hva).mp ⟨s', pt1, hwalk⟩⟩
    · exact absurd hfault hno
  · rintro ⟨p, s1, rest, ha, hp, rfl, hl1, -, hk⟩
    obtain ⟨s', pt1, hwalk⟩ := (pageWalk_found_iff hl1 hva).mpr hk
    obtain ⟨hent, hwalks, -, -⟩ := pageWalk_entry hwalk
    obtain ⟨free', ht, -⟩ := pageWalk_took hl1 hwalk
    have hrun : handleUserPageFault s c sp stval = .ok (s', { c with
        pagetable := pt1.set (stval / PGSIZE) (.leaf p (protToType true true false true)) }) := by
      rw [handleUserPageFault, if_pos hfault, ha, ok_bind]
      simp only [hp, if_false, hwalk, ok_bind, Bool.not_true, Bool.false_eq_true, pure_eq_ok]
    refine ⟨s', _, p, free', hrun, by simp, ht.listed, ?_, ?_, ?_⟩
    · intro hmem
      exact (List.nodup_cons.mp hl.chain.nodup).1 (ht.mem_of_mem hmem)
    · rw [entry_set _ (hwalks rfl), if_pos rfl]
    · intro vpn hne
      rw [entry_set _ (hwalks rfl), if_neg hne, hent]

theorem not_fresh_of_lastRef {s1 : Pmm T} {pa : Nat} {free' : List Nat} (hl : s.Listed free)
    (hlast : s.LastRef f) (hf : freePage s f = .ok s1) (ha : allocPage s1 = .ok (pa, s'))
    (hmem : pa ∈ free) (hl' : s'.Listed free') : pa = f ∧ f ∈ free' := by
  rw [freePage_of_lastRef hlast] at hf
  cases hf
  obtain rfl : pa = f := allocPage_fst ha
  refine ⟨rfl, (hl'.chain.linked_iff).mp ?_⟩
  simp only [allocPage, bind_eq_ok] at ha
  obtain ⟨refs, -, ha⟩ := ha
  cases ha
  have hne : (s.pushed pa).gFreeMemList ≠ 0 := hl.pos hmem
  rw [if_pos hne]
  show Linked _ (nodeNext (s.pushed pa).mem pa) pa
  rw [hl.pushed_next pa]
  exact hl.pushed_linked hmem

theorem growsStack_at (hl : s.Listed free) (hva : stval < MAXVA) :
    GrowsStack s c stval stval free ↔
      ∃ f, StillShared s c stval f ∧ Supplies (RefTable.erase s.refs f).2 free 1 := by
  have hfault : ¬ stackFault stval stval := fun h => lt_irrefl _ h.1
  constructor
  · rintro ⟨s', c', pa, free', hrun, hmem, hl', hnew, hent, -⟩
    rcases handleUserPageFault_inv hrun with ⟨hyes, -⟩ | ⟨-, -, hwalks, hmark, s1, p, hf, ha, hp, rfl⟩
    · exact absurd hyes hfault
    have hm := freePage_managed hf
    by_cases hlast : s.LastRef (c.pagetable.entry (stval / PGSIZE)).pa
    · -- the frame comes back: it was not free, or it is free still
      rw [freePage_of_lastRef hlast] at hf
      cases hf
      have hpf : p = (c.pagetable.entry (stval / PGSIZE)).pa := allocPage_fst ha
      rw [show Space.pagetable _ = _ from rfl, entry_set _ hwalks, if_pos rfl] at hent
      have hmod : p % PGSIZE = 0 := hpf ▸ hm.1
      have hpa := congrArg Pte.pa hent
      rw [leaf_pa_of_aligned _ hmod, leaf_pa_of_aligned _ (hl.managed pa hmem).1] at hpa
      obtain ⟨-, hstill⟩ := not_fresh_of_lastRef hl hlast (freePage_of_lastRef hlast) ha
        (hpa ▸ hmem) hl'
      exact absurd (hpa ▸ hpf ▸ hstill) hnew
    · obtain ⟨hl1, -, rfl⟩ := freePage_of_not_lastRef hl hlast hf
      refine ⟨_, ⟨hwalks, hmark, rfl, hm, ?_⟩, ?_⟩
      · by_contra hmore
        exact hlast ⟨hm, hmore⟩
      · obtain ⟨hmem1, -, -, ⟨h0, -⟩ | ⟨rest, -, hcons, hl2⟩⟩ := allocPage_inv hl1 ha
        · exact absurd h0 hp
        · exact (allocPage_supplies hl1 0).mpr
            ⟨p, s', rest, ha, hp, hcons, hl2, hmem1, supplies_zero _ _⟩
  · rintro ⟨f, hs, hk⟩
    have hguard : ¬ (f % PGSIZE ≠ 0 ∨ f < s.freeMemStartAddr ∨ s.freeMemEndAddr ≤ f) := by
      obtain ⟨ha, hlo, hhi⟩ := hs.managed
      omega
    have hf : freePage s f = .ok { s with refs := (RefTable.erase s.refs f).2 } := by
      rw [freePage, if_neg hguard, if_pos hs.more]
    have hl1 : Pmm.Listed { s with refs := (RefTable.erase s.refs f).2 } free :=
      ⟨hl.start_pos, hl.end_lt, hl.chain, hl.head_lt, hl.managed⟩
    obtain ⟨p, s', rest, ha, hp, rfl, hl', -, -⟩ := (allocPage_supplies hl1 0).mp hk
    have hpte : c.pagetable.pte (stval / PGSIZE) = c.pagetable.entry (stval / PGSIZE) :=
      (entry_of_walks hs.walks).symm
    have hrun : handleUserPageFault s c stval stval = .ok (s', { c with
        pagetable := c.pagetable.set (stval / PGSIZE)
          (.leaf p (protToType true true false true)) }) := by
      rw [handleUserPageFault, if_neg hfault, if_neg (not_le.mpr hva), hs.walks, hpte,
        hs.mark, hs.frame, hf]
      simp only [Bool.not_true, Bool.false_eq_true, if_false, if_true, ok_bind, ha, hp, pure_eq_ok]
    refine ⟨s', _, p, rest, hrun, by simp, hl', (List.nodup_cons.mp hl.chain.nodup).1, ?_, ?_⟩
    · rw [entry_set _ hs.walks, if_pos rfl]
    · intro vpn hne
      rw [entry_set _ hs.walks, if_neg hne]

/-- **Stack growth.** For a store fault between the stack pointer and the top of
the stack, the handler maps a fresh page exactly if the address is above the stack
pointer and there are pages left for it and for the missing tables; at the stack
pointer itself only if the entry there is left over from a page that is still
shared. -/
theorem stack_growth_iff (hl : s.Listed free) (hlo : sp ≤ stval) (htop : stval < USER_STACK_TOP) :
    GrowsStack s c sp stval free ↔
      (sp < stval ∧ Supplies s.refs free (c.pagetable.missing (stval / PGSIZE) + 1)) ∨
        (sp = stval ∧ ∃ f, StillShared s c stval f ∧
          Supplies (RefTable.erase s.refs f).2 free 1) := by
  rcases Nat.lt_or_eq_of_le hlo with hsp | rfl
  · rw [growsStack_above hl hsp htop]
    constructor
    · exact fun h => .inl ⟨hsp, h⟩
    · rintro (⟨-, h⟩ | ⟨heq, -⟩)
      · exact h
      · omega
  · rw [growsStack_at hl (htop.trans (by decide))]
    constructor
    · exact fun h => .inr ⟨rfl, h⟩
    · rintro (⟨hlt, -⟩ | ⟨-, h⟩)
      · omega
      · exact h

end

/-- A push below the program's stack page: the page of the handler is there. -/
theorem stack_growth_iff_push : ∃ (s : VmSys RefList) (c : Space),
    s.procs 0 = some c ∧ s.pmm.Listed (s.pmm.freeList 64) ∧
      (c.pagetable.entry (0x7fffd008 / PGSIZE)).v = false ∧
      GrowsStack s.pmm c 0x7fffcff0 0x7fffd008 (s.pmm.freeList 64) := by
  obtain ⟨-, -, s, -, c, hc, hl, hv, hk⟩ : ProcessAfter [.load [segmentAt 0x10000 5]] (fun s c =>
      (c.pagetable.entry (0x7fffd008 / PGSIZE)).v = false ∧
        c.pagetable.missing (0x7fffd008 / PGSIZE) + 1 ≤ (s.freeList 64).length ∧
        accepts s.refs ((s.freeList 64).take (c.pagetable.missing (0x7fffd008 / PGSIZE) + 1))
          = true) := by decide +kernel
  exact ⟨s, c, hc, hl, hv,
    (stack_growth_iff hl (by decide) (by decide)).mpr (.inl ⟨by decide, hk⟩)⟩

/-- The word pushed is the first one of its page, and `sp` is its address: the handler panics.
Where the page has no table yet, it goes through a null pointer. -/
theorem stack_pointer_refused : ∃ (s₀ s : VmSys RefList) (c : Space),
    vmBoot 0x80006000 (64 * PGSIZE) (fun _ => 0) [] 0x80001000 = .ok s₀ ∧
      Reaches VmSys.step (fun _ _ => True) s₀ s ∧ s.procs 0 = some c ∧
      s.pmm.Listed (s.pmm.freeList 64) ∧
      (c.pagetable.entry (0x7fffd000 / PGSIZE)).v = false ∧
      handleUserPageFault s.pmm c 0x7fffd000 0x7fffd000
        = .error (.panic "this address is not available!" []) ∧
      (c.pagetable.entry (0x40000000 / PGSIZE)).v = false ∧
      handleUserPageFault s.pmm c 0x40000000 0x40000000 = .error .undefined := by
  obtain ⟨s₀, hboot, s, hrun, c, hc, hl, ht⟩ :
      ProcessAfter [.load [segmentAt 0x10000 5]] (fun s c =>
        (c.pagetable.entry (0x7fffd000 / PGSIZE)).v = false ∧
        handleUserPageFault s c 0x7fffd000 0x7fffd000
          = .error (.panic "this address is not available!" []) ∧
        (c.pagetable.entry (0x40000000 / PGSIZE)).v = false ∧
        handleUserPageFault s c 0x40000000 0x40000000 = .error .undefined) := by decide +kernel
  exact ⟨s₀, s, c, hboot, hrun.reaches .start, hc, hl, ht⟩

end CabbagePKE
