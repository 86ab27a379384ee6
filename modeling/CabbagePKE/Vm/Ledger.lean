import CabbagePKE.Vm.Space
import CabbagePKE.Pmm.Guarded
import CabbagePKE.Lib.RefCount

/-!
# Who references which page

The entries of all page tables against the allocator's counts. Every entry that
is writable or marked copy-on-write has a reference of its own; the read-only
code mappings made by `fork` have none, and rely on someone else's. `Ledger`
keeps both facts, and that heap pages are shared with heap pages only. Below are
the ways in which the kernel changes the entries and the counts.
-/

namespace CabbagePKE

open Lib
open GuardedTable (Good)

variable {T : Type} [GuardedTable T]

/-! ## The allocator only grows -/

structure Grew (s s' : Pmm T) (free free' : List Nat) : Prop where
  took : Took s s' free free'
  wf : s'.Wf free'
  mono : ∀ q, RefTable.count s.refs q ≤ RefTable.count s'.refs q

/-- Growth from any well-formed state, provided the table is still sound
in the end. -/
def Grows (s s' : Pmm T) : Prop :=
  Good s'.refs → Good s.refs ∧ ∀ free, s.Wf free → ∃ free', Grew s s' free free'

section

variable {s s' s'' : Pmm T} {pt pt' : PageTable} {p va : Nat} {free : List Nat}

theorem Grows.refl (s : Pmm T) : Grows s s := fun hg =>
  ⟨hg, fun free hw => ⟨free, .refl hw.toListed, hw, fun _ => le_rfl⟩⟩

theorem Grows.trans (h : Grows s s') (h' : Grows s' s'') : Grows s s'' := by
  intro hg
  obtain ⟨hg', k'⟩ := h' hg
  obtain ⟨hg0, k⟩ := h hg'
  refine ⟨hg0, fun free hw => ?_⟩
  obtain ⟨free1, g1⟩ := k free hw
  obtain ⟨free2, g2⟩ := k' free1 g1.wf
  exact ⟨free2, g1.took.trans g2.took, g2.wf, fun q => (g1.mono q).trans (g2.mono q)⟩

theorem allocPage_grew {m : Mem} (hw : s.Wf free) (ha : allocPage s = .ok (p, s'))
    (hg : Good s'.refs) (hp : p ≠ 0)
    (hfill : ∀ x, x < p ∨ p + PGSIZE ≤ x → m x = s.mem x) :
    ∃ rest, free = p :: rest ∧ Grew s { s' with mem := m } free rest ∧
      1 ≤ RefTable.count s'.refs p := by
  obtain ⟨-, hok⟩ := allocPage_good ha hg
  cases free with
  | nil =>
    have hz : s.gFreeMemList = 0 := by simpa using hw.chain
    exact absurd ((allocPage_fst ha).trans hz) hp
  | cons q rest =>
    obtain ⟨hq, -⟩ := toPtr_eq_some.mp hw.chain.1
    obtain ⟨s1, ha1, hw1, hm, hst, hen, hcnt⟩ := allocPage_cons hw (hq ▸ hok)
    cases ha1.symm.trans ha
    have htook := Took.fill hw.toListed hw1.toListed hm hst hen hfill
    refine ⟨rest, rfl, ⟨htook, ⟨htook.listed, hw1.refs, hw1.unreferenced⟩, fun r => ?_⟩, ?_⟩
    · rw [hcnt]
      exact Nat.le_add_right _ _
    · rw [hcnt, if_pos rfl]
      omega

theorem allocPage_grew_null (hw : s.Wf free) (ha : allocPage s = .ok (0, s'))
    (hg : Good s'.refs) : Grew s s' free [] := by
  obtain ⟨-, hok⟩ := allocPage_good ha hg
  cases free with
  | nil =>
    have hz : s.gFreeMemList = 0 := by simpa using hw.chain
    obtain ⟨s1, ha1, hw1, -, -, -, hcnt⟩ := allocPage_nil hw (hz ▸ hok)
    cases ha1.symm.trans ha
    refine ⟨allocPage_null hw.toListed ha1, hw1, fun q => ?_⟩
    rw [hcnt]
    exact Nat.le_add_right _ _
  | cons q rest =>
    obtain ⟨hq, hq0⟩ := toPtr_eq_some.mp hw.chain.1
    exact absurd ((allocPage_fst ha).trans hq).symm hq0

theorem allocPage_grows (ha : allocPage s = .ok (p, s')) : Grows s s' := by
  intro hg
  refine ⟨(allocPage_good ha hg).1, fun free hw => ?_⟩
  by_cases hp : p = 0
  · subst hp
    exact ⟨[], allocPage_grew_null hw ha hg⟩
  · have hm := (allocPage_inv hw.toListed ha).1
    obtain ⟨rest, -, hgrew, -⟩ := allocPage_grew hw ha hg hp (fun x _ => congrFun hm x)
    exact ⟨rest, hgrew⟩

theorem TookTables.grows (h : TookTables s s') : Grows s s' := by
  induction h with
  | refl => exact .refl s
  | null _ ha ih => exact ih.trans (allocPage_grows ha)
  | @table _ s2 p _ ha hp ih =>
    refine ih.trans fun hg => ⟨(allocPage_good ha hg).1, fun free hw => ?_⟩
    have hm := (allocPage_inv hw.toListed ha).1
    obtain ⟨rest, -, hgrew, -⟩ := allocPage_grew (m := fillBytes s2.mem p 0 PGSIZE) hw ha hg hp
      fun x hx => by rw [fillBytes_outside hx, hm]
    exact ⟨rest, hgrew⟩

theorem pageWalk_grows {found : Bool} (h : pageWalk s pt va = .ok (found, s', pt')) : Grows s s' :=
  (pageWalk_tables (.refl s) h).grows

theorem mapPages_grows {size pa : Nat} {perm : Perm} {r : Int}
    (h : mapPages s pt va size pa perm = .ok (r, s', pt')) : Grows s s' :=
  (mapPagesFrom_tables _ _ _ _ _ (.refl s) h).grows

theorem userVmMap_grows {size pa : Nat} {perm : Perm}
    (h : userVmMap s pt va size pa perm = .ok (s', pt')) : Grows s s' :=
  mapPages_grows (userVmMap_inv h)

theorem addRef_grew {pa : Nat} (hw : s.Wf free) (h : addRef s pa = .ok s')
    (hg : Good s'.refs) (hpa : pa ∉ free) :
    Grew s s' free free ∧ ∀ q, RefTable.count s'.refs q
      = RefTable.count s.refs q + if q = pa then 1 else 0 := by
  simp only [addRef, bind_eq_ok] at h
  obtain ⟨refs, hins, h⟩ := h
  cases h
  obtain ⟨-, hok⟩ := GuardedTable.good_of_insert hins hg
  obtain ⟨t', hins', hwf, hcnt⟩ := RefTable.insert_spec hw.refs hok
  cases hins.symm.trans hins'
  have hl : Pmm.Listed { s with refs := refs } free :=
    ⟨hw.start_pos, hw.end_lt, hw.chain, hw.head_lt, hw.managed⟩
  refine ⟨⟨⟨hl, ⟨[], rfl, fun _ _ => rfl⟩, rfl, rfl⟩, ⟨hl, hwf, fun q hq => ?_⟩, fun q => ?_⟩, hcnt⟩
  · have hne : q ≠ pa := fun he => hpa (he ▸ hq)
    rw [hcnt, hw.unreferenced q hq, if_neg hne]
  · rw [hcnt]
    exact Nat.le_add_right _ _

theorem addRef_good {pa : Nat} (h : addRef s pa = .ok s') (hg : Good s'.refs) : Good s.refs := by
  simp only [addRef, bind_eq_ok] at h
  obtain ⟨refs, hins, h⟩ := h
  cases h
  exact (GuardedTable.good_of_insert hins hg).1

end

/-! ## Entries and references -/

abbrev Entries := Nat → Nat → Pte

def Pte.counted (e : Pte) : Bool := e.perm.w || e.rsw == 1

def Frame (lo hi f : Nat) : Prop := f % PGSIZE = 0 ∧ lo ≤ f ∧ f < hi

def Holds (lo hi : Nat) (ent : Entries) (h : Nat × Nat) (f : Nat) : Prop :=
  (ent h.1 h.2).v = true ∧ (ent h.1 h.2).counted = true ∧ (ent h.1 h.2).pa = f ∧ Frame lo hi f

/-- Among the processes `iso` selects, a heap page that one can write is
mapped by that one only. -/
def Isolated (iso : Nat → Prop) (lo hi : Nat) (ent : Entries) (inHeap : Nat → Nat → Prop) :
    Prop :=
  ∀ p v, iso p → (ent p v).v = true → (ent p v).perm.w = true → inHeap p v →
    Frame lo hi (ent p v).pa ∧
      ∀ q w, iso q → q ≠ p → (ent q w).v = true → (ent q w).pa ≠ (ent p v).pa

/-- The counts are sound for the entries. `inHeap p v` says that page `v`
of process `p` lies in its heap, `isHeap f` that frame `f` was taken for a
heap, and `own` lists the pages taken and not mapped yet. The heaps of the
processes `iso` selects are isolated from each other. -/
structure Ledger (iso : Nat → Prop) (lo hi : Nat) (s : Pmm T) (ent : Entries) (inHeap : Nat → Nat → Prop)
    (own : List Nat) (isHeap : Nat → Prop) (free : List Nat) : Prop where
  start_eq : s.freeMemStartAddr = lo
  end_eq : s.freeMemEndAddr = hi
  wf : s.Wf free
  covers : Lib.Covers (RefTable.count s.refs) (Holds lo hi ent)
  plain : ∀ p v, (ent p v).v = true → (ent p v).counted = false → Frame lo hi (ent p v).pa →
    1 ≤ RefTable.count s.refs (ent p v).pa
  kind : ∀ p v, (ent p v).v = true → Frame lo hi (ent p v).pa →
    (isHeap (ent p v).pa ↔ inHeap p v)
  heapCounted : ∀ p v, (ent p v).v = true → inHeap p v → (ent p v).counted = true
  cowHeap : ∀ p v, (ent p v).v = true → (ent p v).rsw = 1 → inHeap p v
  fresh : ∀ f ∈ own, Frame lo hi f ∧ 1 ≤ RefTable.count s.refs f ∧
    ∀ p v, (ent p v).v = true → (ent p v).pa ≠ f
  nodup : own.Nodup
  paAligned : ∀ p v, (ent p v).v = true → (ent p v).pa % PGSIZE = 0
  isolated : Isolated iso lo hi ent inHeap

/-- What the ledger says of a single valid entry, `here` if it lies in the heap. -/
structure EntryOk (lo hi : Nat) (s : Pmm T) (own : List Nat) (isHeap : Nat → Prop) (here : Prop)
    (e : Pte) : Prop where
  plain : e.counted = false → Frame lo hi e.pa → 1 ≤ RefTable.count s.refs e.pa
  kind : Frame lo hi e.pa → (isHeap e.pa ↔ here)
  heapCounted : here → e.counted = true
  cowHeap : e.rsw = 1 → here
  fresh : e.pa ∉ own
  paAligned : e.pa % PGSIZE = 0

/-- Some classification of the frames and some free list make the ledger. -/
def Books (iso : Nat → Prop) (lo hi : Nat) (s : Pmm T) (ent : Entries) (inHeap : Nat → Nat → Prop)
    (own : List Nat) : Prop :=
  ∃ isHeap free, Ledger iso lo hi s ent inHeap own isHeap free

section

variable {iso : Nat → Prop} {lo hi : Nat} {s s' : Pmm T} {ent ent' : Entries}
  {inHeap inHeap' : Nat → Nat → Prop}
  {own : List Nat} {isHeap : Nat → Prop} {free free' : List Nat} {p v f : Nat}

theorem Ledger.entry (h : Ledger iso lo hi s ent inHeap own isHeap free)
    (hv : (ent p v).v = true) : EntryOk lo hi s own isHeap (inHeap p v) (ent p v) where
  plain := h.plain p v hv
  kind := h.kind p v hv
  heapCounted := h.heapCounted p v hv
  cowHeap := h.cowHeap p v hv
  fresh hmem := (h.fresh _ hmem).2.2 p v hv rfl
  paAligned := h.paAligned p v hv

theorem Ledger.of_entries (hst : s.freeMemStartAddr = lo) (hen : s.freeMemEndAddr = hi)
    (hwf : s.Wf free) (hcov : Lib.Covers (RefTable.count s.refs) (Holds lo hi ent))
    (hent : ∀ p v, (ent p v).v = true → EntryOk lo hi s own isHeap (inHeap p v) (ent p v))
    (hown : ∀ f ∈ own, Frame lo hi f ∧ 1 ≤ RefTable.count s.refs f) (hnd : own.Nodup)
    (hiso : Isolated iso lo hi ent inHeap) : Ledger iso lo hi s ent inHeap own isHeap free where
  start_eq := hst
  end_eq := hen
  wf := hwf
  covers := hcov
  plain p v hv := (hent p v hv).plain
  kind p v hv := (hent p v hv).kind
  heapCounted p v hv := (hent p v hv).heapCounted
  cowHeap p v hv := (hent p v hv).cowHeap
  fresh f hf := ⟨(hown f hf).1, (hown f hf).2, fun p v hv heq => (hent p v hv).fresh (heq ▸ hf)⟩
  nodup := hnd
  paAligned p v hv := (hent p v hv).paAligned
  isolated := hiso

theorem Ledger.own_pos (h : Ledger iso lo hi s ent inHeap own isHeap free) :
    ∀ f ∈ own, Frame lo hi f ∧ 1 ≤ RefTable.count s.refs f :=
  fun f hf => ⟨(h.fresh f hf).1, (h.fresh f hf).2.1⟩

theorem Ledger.count_pos (h : Ledger iso lo hi s ent inHeap own isHeap free)
    (hv : (ent p v).v = true) (hf : Frame lo hi (ent p v).pa) :
    1 ≤ RefTable.count s.refs (ent p v).pa := by
  cases hc : (ent p v).counted with
  | false => exact h.plain p v hv hc hf
  | true =>
    have hh : Holds lo hi ent (p, v) (ent p v).pa := ⟨hv, hc, rfl, hf⟩
    exact h.covers.pos hh

theorem Ledger.frame_of_free (h : Ledger iso lo hi s ent inHeap own isHeap free)
    (hf : f ∈ free) : Frame lo hi f := by
  have hm := h.wf.managed f hf
  unfold Pmm.Managed at hm
  rwa [h.start_eq, h.end_eq] at hm

theorem Ledger.not_free (h : Ledger iso lo hi s ent inHeap own isHeap free)
    (hv : (ent p v).v = true) : (ent p v).pa ∉ free := by
  intro hmem
  have hpos := h.count_pos hv (h.frame_of_free hmem)
  have hz := h.wf.unreferenced _ hmem
  omega

theorem Ledger.own_not_free (h : Ledger iso lo hi s ent inHeap own isHeap free)
    (hf : f ∈ own) : f ∉ free := by
  intro hmem
  have hpos := (h.fresh f hf).2.1
  have hz := h.wf.unreferenced f hmem
  omega

theorem Ledger.grew (h : Ledger iso lo hi s ent inHeap own isHeap free)
    (hgrew : Grew s s' free free') : Ledger iso lo hi s' ent inHeap own isHeap free' := by
  refine ⟨hgrew.took.start_eq.trans h.start_eq, hgrew.took.end_eq.trans h.end_eq, hgrew.wf,
    h.covers.mono hgrew.mono (fun _ _ hh => hh), ?_, h.kind, h.heapCounted, h.cowHeap, ?_,
    h.nodup, h.paAligned, h.isolated⟩
  · intro q w hv hc hf
    exact (h.plain q w hv hc hf).trans (hgrew.mono _)
  · intro g hg
    obtain ⟨hfr, hpos, hne⟩ := h.fresh g hg
    exact ⟨hfr, hpos.trans (hgrew.mono g), hne⟩

theorem Books.grows (h : Books iso lo hi s ent inHeap own) (hgrows : Grows s s')
    (hg : Good s'.refs) : Books iso lo hi s' ent inHeap own := by
  obtain ⟨isHeap, free, hl⟩ := h
  obtain ⟨free', hgrew⟩ := (hgrows hg).2 free hl.wf
  exact ⟨isHeap, free', hl.grew hgrew⟩

theorem Books.alloc (h : Books iso lo hi s ent inHeap own) (ha : allocPage s = .ok (p, s'))
    (hg : Good s'.refs) (hp : p ≠ 0) : Books iso lo hi s' ent inHeap (p :: own) := by
  obtain ⟨isHeap, free, hl⟩ := h
  have hm := (allocPage_inv hl.wf.toListed ha).1
  obtain ⟨rest, rfl, hgrew, hpos⟩ := allocPage_grew hl.wf ha hg hp (fun x _ => congrFun hm x)
  have hl' := hl.grew hgrew
  refine ⟨isHeap, rest, { hl' with fresh := ?_, nodup := ?_ }⟩
  · intro f hf
    rcases List.mem_cons.mp hf with rfl | hf
    · refine ⟨hl.frame_of_free (by simp), hpos, fun q w hv he => ?_⟩
      exact hl.not_free hv (by simp [he])
    · exact hl'.fresh f hf
  · exact List.nodup_cons.mpr ⟨fun hmem => hl.own_not_free hmem (by simp), hl.nodup⟩

theorem Books.own_subset (h : Books iso lo hi s ent inHeap own) {own' : List Nat}
    (hsub : own' ⊆ own) (hnd : own'.Nodup) : Books iso lo hi s ent inHeap own' := by
  obtain ⟨isHeap, free, hl⟩ := h
  exact ⟨isHeap, free, { hl with fresh := fun f hf => hl.fresh f (hsub hf), nodup := hnd }⟩

theorem Isolated.drop (h : Isolated iso lo hi ent inHeap)
    (hent : ∀ p v, (ent' p v).v = true → ent' p v = ent p v) :
    Isolated iso lo hi ent' inHeap := by
  intro p v hp hv
  have he := hent p v hv
  rw [he] at hv ⊢
  intro hw hin
  obtain ⟨hfr, hne⟩ := h p v hp hv hw hin
  refine ⟨hfr, fun q w hq hqp hv' => ?_⟩
  have he' := hent q w hv'
  rw [he'] at hv' ⊢
  exact hne q w hq hqp hv'

theorem Books.drop (h : Books iso lo hi s ent inHeap own)
    (hent : ∀ p v, (ent' p v).v = true → ent' p v = ent p v) :
    Books iso lo hi s ent' inHeap own := by
  obtain ⟨isHeap, free, hl⟩ := h
  refine ⟨isHeap, free, .of_entries hl.start_eq hl.end_eq hl.wf ?_ ?_ hl.own_pos hl.nodup
    (hl.isolated.drop hent)⟩
  · refine hl.covers.mono (fun _ => le_rfl) (fun q f hh => ?_)
    unfold Holds at hh ⊢
    rwa [hent q.1 q.2 hh.1] at hh
  · intro p v hv
    have he := hent p v hv
    rw [he] at hv ⊢
    exact hl.entry hv

theorem Books.redraw (h : Books iso lo hi s ent inHeap own)
    (hheap : ∀ p v, (ent p v).v = true → (inHeap' p v ↔ inHeap p v)) :
    Books iso lo hi s ent inHeap' own := by
  obtain ⟨isHeap, free, hl⟩ := h
  refine ⟨isHeap, free, { hl with kind := ?_, heapCounted := ?_, cowHeap := ?_, isolated := ?_ }⟩
  · intro p v hv hf
    rw [hheap p v hv]
    exact hl.kind p v hv hf
  · intro p v hv hin
    exact hl.heapCounted p v hv ((hheap p v hv).mp hin)
  · intro p v hv hc
    exact (hheap p v hv).mpr (hl.cowHeap p v hv hc)
  · intro p v hp hv hw hin
    exact hl.isolated p v hp hv hw ((hheap p v hv).mp hin)

theorem Books.isolate (h : Books iso lo hi s ent inHeap own) {iso' : Nat → Prop}
    (hro : ∀ p v, iso' p → (ent p v).v = true → inHeap p v → (ent p v).perm.w = false) :
    Books iso' lo hi s ent inHeap own := by
  obtain ⟨isHeap, free, hl⟩ := h
  refine ⟨isHeap, free, { hl with isolated := fun p v hp hv hw hin => ?_ }⟩
  simp [hro p v hp hv hin] at hw

/-! ### Memory -/

theorem Ledger.write (h : Ledger iso lo hi s ent inHeap own isHeap free) {m : Mem}
    (hal : f % PGSIZE = 0) (hf : f ∉ free)
    (hm : ∀ x, x < f ∨ f + PGSIZE ≤ x → m x = s.mem x) :
    Ledger iso lo hi { s with mem := m } ent inHeap own isHeap free := by
  refine { h with wf := h.wf.write (fun q hq i hi => hm _ ?_) }
  have hne : f ≠ q := fun he => hf (he ▸ hq)
  have hap := page_apart hal (h.wf.managed q hq).1 hne
  unfold PGSIZE at *
  omega

theorem Books.write_own (h : Books iso lo hi s ent inHeap own) {m : Mem} (hf : f ∈ own)
    (hm : ∀ x, x < f ∨ f + PGSIZE ≤ x → m x = s.mem x) :
    Books iso lo hi { s with mem := m } ent inHeap own := by
  obtain ⟨isHeap, free, hl⟩ := h
  exact ⟨isHeap, free, hl.write (hl.fresh f hf).1.1 (hl.own_not_free hf) hm⟩

theorem Books.write_entry (h : Books iso lo hi s ent inHeap own) {m : Mem} (hv : (ent p v).v = true)
    (hm : ∀ x, x < (ent p v).pa ∨ (ent p v).pa + PGSIZE ≤ x → m x = s.mem x) :
    Books iso lo hi { s with mem := m } ent inHeap own := by
  obtain ⟨isHeap, free, hl⟩ := h
  exact ⟨isHeap, free, hl.write (hl.paAligned p v hv) (hl.not_free hv) hm⟩

/-! ### Setting one entry -/

section

variable {e : Pte} (hent : ∀ q w, ent' q w = if q = p ∧ w = v then e else ent q w)

include hent

theorem holds_set {h : Nat × Nat} (hh : Holds lo hi ent' h f) :
    Holds lo hi ent h f ∨ (h = (p, v) ∧ f = e.pa) := by
  unfold Holds at hh ⊢
  rw [hent] at hh
  by_cases hpv : h.1 = p ∧ h.2 = v
  · rw [if_pos hpv] at hh
    exact .inr ⟨Prod.ext hpv.1 hpv.2, hh.2.2.1.symm⟩
  · rw [if_neg hpv] at hh
    exact .inl hh

/-- The heaps stay isolated when the new entry's frame is none of the
others' writable heap pages, and the new entry is no writable heap page
itself unless its frame is nobody's. -/
theorem isolated_set (hold : Isolated iso lo hi ent inHeap)
    (hother : iso p → ∀ q w, iso q → q ≠ p → (ent q w).v = true → (ent q w).perm.w = true →
      inHeap q w → e.pa ≠ (ent q w).pa)
    (hnew : iso p → e.perm.w = true → inHeap p v → Frame lo hi e.pa ∧
      ∀ q w, iso q → q ≠ p → (ent q w).v = true → (ent q w).pa ≠ e.pa) :
    Isolated iso lo hi ent' inHeap := by
  intro q w
  rw [hent q w]
  split
  · rename_i hqw
    intro hp _ hw hin
    rw [hqw.1] at hp
    rw [hqw.1, hqw.2] at hin
    obtain ⟨hfr, hne⟩ := hnew hp hw hin
    refine ⟨hfr, fun q' w' hi' hq' => ?_⟩
    rw [hent q' w', if_neg (fun h => hq' (h.1.trans hqw.1.symm))]
    exact hne q' w' hi' (fun h => hq' (h.trans hqw.1.symm))
  · intro hq hv hw hin
    obtain ⟨hfr, hne⟩ := hold q w hq hv hw hin
    refine ⟨hfr, fun q' w' hi' hq' => ?_⟩
    rw [hent q' w']
    split
    · rename_i hqw'
      intro _
      exact hother (hqw'.1 ▸ hi') q w hq (fun h => hq' (hqw'.1.trans h.symm)) hv hw hin
    · exact hne q' w' hi' hq'

theorem entries_set (hold : ∀ q w, (ent q w).v = true →
      EntryOk lo hi s own isHeap (inHeap q w) (ent q w))
    (hnew : EntryOk lo hi s own isHeap (inHeap p v) e) (q w : Nat) (hv : (ent' q w).v = true) :
    EntryOk lo hi s own isHeap (inHeap q w) (ent' q w) := by
  rw [hent] at hv ⊢
  split
  · rename_i hqw
    rwa [hqw.1, hqw.2]
  · rename_i hqw
    rw [if_neg hqw] at hv
    exact hold q w hv

theorem Books.set_outside (h : Books iso lo hi s ent inHeap own) (hout : ¬ Frame lo hi e.pa)
    (hal : e.pa % PGSIZE = 0) (hcnt : inHeap p v → e.counted = true)
    (hcow : e.rsw = 1 → inHeap p v)
    (hiso : iso p → e.perm.w = true → ¬ inHeap p v) : Books iso lo hi s ent' inHeap own := by
  obtain ⟨isHeap, free, hl⟩ := h
  have hnew : EntryOk lo hi s own isHeap (inHeap p v) e :=
    ⟨fun _ hf => absurd hf hout, fun hf => absurd hf hout, hcnt, hcow,
      fun hmem => hout (hl.own_pos _ hmem).1, hal⟩
  refine ⟨isHeap, free, .of_entries hl.start_eq hl.end_eq hl.wf ?_
    (entries_set hent (fun _ _ => hl.entry) hnew) hl.own_pos hl.nodup ?_⟩
  · refine hl.covers.mono (fun _ => le_rfl) (fun q f hh => ?_)
    rcases holds_set hent hh with hold | ⟨-, rfl⟩
    · exact hold
    · exact absurd hh.2.2.2 hout
  · refine isolated_set hent hl.isolated (fun _ q w hq _ hv hw hin he => ?_)
      (fun hp hw hin => absurd hin (hiso hp hw))
    exact hout (he ▸ (hl.isolated q w hq hv hw hin).1)

theorem Books.set_own (h : Books iso lo hi s ent inHeap own) (hown : e.pa ∈ own)
    (hcnt : e.counted = true) (hcow : e.rsw = 1 → inHeap p v) :
    Books iso lo hi s ent' inHeap (own.erase e.pa) := by
  obtain ⟨isHeap, free, hl⟩ := h
  obtain ⟨hfr, hpos, hne⟩ := hl.fresh _ hown
  have hmem : ∀ f, f ∈ own.erase e.pa ↔ f ≠ e.pa ∧ f ∈ own := fun f =>
    List.Nodup.mem_erase_iff hl.nodup
  have hnew : EntryOk lo hi s (own.erase e.pa) (fun f => if f = e.pa then inHeap p v else isHeap f)
      (inHeap p v) e :=
    ⟨fun hc => absurd hcnt (by simp [hc]), fun _ => by rw [if_pos rfl], fun _ => hcnt, hcow,
      fun hin => ((hmem _).mp hin).1 rfl, hfr.1⟩
  refine ⟨_, free, .of_entries hl.start_eq hl.end_eq hl.wf ?_
    (entries_set hent (fun q w hv => ?_) hnew)
    (fun f hf => hl.own_pos f ((hmem f).mp hf).2) (hl.nodup.erase _) ?_⟩
  · refine hl.covers.first (p, v) e.pa hpos (fun q hh => hne q.1 q.2 hh.1 hh.2.2.1) ?_
    exact fun q f hh => holds_set hent hh
  · refine { hl.entry hv with
      kind := fun hf => ?_, fresh := fun hin => (hl.entry hv).fresh ((hmem _).mp hin).2 }
    rw [if_neg (hne q w hv)]
    exact hl.kind q w hv hf
  · exact isolated_set hent hl.isolated (fun _ q w _ _ hv _ _ he => hne q w hv he.symm)
      (fun _ _ _ => ⟨hfr, fun q w _ _ hv => hne q w hv⟩)

theorem Books.set_plain (h : Books iso lo hi s ent inHeap own) (p0 v0 : Nat)
    (hv0 : (ent p0 v0).v = true) (hpa : e.pa = (ent p0 v0).pa) (hheap0 : ¬ inHeap p0 v0)
    (hheap : ¬ inHeap p v) (hcnt : e.counted = false) (hiso : iso p → iso p0) :
    Books iso lo hi s ent' inHeap own := by
  obtain ⟨isHeap, free, hl⟩ := h
  have hnew : EntryOk lo hi s own isHeap (inHeap p v) e := by
    refine ⟨fun _ hf => ?_, fun hf => ?_, fun hin => absurd hin hheap, fun hc => ?_, ?_, ?_⟩
    · rw [hpa] at hf ⊢
      exact hl.count_pos hv0 hf
    · rw [hpa] at hf ⊢
      rw [hl.kind p0 v0 hv0 hf]
      exact iff_of_false hheap0 hheap
    · simp [Pte.counted, hc] at hcnt
    · rw [hpa]
      exact (hl.entry hv0).fresh
    · rw [hpa]
      exact hl.paAligned p0 v0 hv0
  refine ⟨isHeap, free, .of_entries hl.start_eq hl.end_eq hl.wf ?_
    (entries_set hent (fun _ _ => hl.entry) hnew) hl.own_pos hl.nodup ?_⟩
  · refine hl.covers.mono (fun _ => le_rfl) (fun q f hh => ?_)
    unfold Holds at hh ⊢
    rw [hent] at hh
    split at hh
    · rw [hcnt] at hh
      exact absurd hh.2.1 (by simp)
    · exact hh
  · refine isolated_set hent hl.isolated (fun hp q w hq _ hv hw hin he => ?_)
      (fun _ _ hin => absurd hin hheap)
    -- a writable heap page is mapped by its process only, and only in the heap
    obtain ⟨hfr, hne⟩ := hl.isolated q w hq hv hw hin
    by_cases hpq : p0 = q
    · subst hpq
      rw [← he, hpa] at hfr
      have hk := (hl.kind p0 w hv (by rw [← he, hpa]; exact hfr)).mpr hin
      rw [← he, hpa] at hk
      exact hheap0 ((hl.kind p0 v0 hv0 hfr).mp hk)
    · exact hne p0 v0 (hiso hp) hpq hv0 (hpa.symm.trans he)

theorem Books.set_shared (h : Books iso lo hi s ent inHeap own) (p0 v0 : Nat)
    (hv0 : (ent p0 v0).v = true) (hpa : e.pa = (ent p0 v0).pa) (hheap0 : inHeap p0 v0)
    (hheap : inHeap p v) (hcnt : e.counted = true) (hro : e.perm.w = false)
    (hiso : iso p → iso p0 ∧ ∀ w, (ent p0 w).v = true → inHeap p0 w → (ent p0 w).perm.w = false)
    (href : addRef s e.pa = .ok s') (hg : Good s'.refs) :
    Books iso lo hi s' ent' inHeap own := by
  obtain ⟨isHeap, free, hl⟩ := h
  have hnf : e.pa ∉ free := hpa ▸ hl.not_free hv0
  obtain ⟨hgrew, hcount⟩ := addRef_grew hl.wf href hg hnf
  have hl' := hl.grew hgrew
  have hnew : EntryOk lo hi s' own isHeap (inHeap p v) e := by
    refine ⟨fun hc => absurd hcnt (by simp [hc]), fun hf => ?_, fun _ => hcnt, fun _ => hheap,
      ?_, ?_⟩
    · rw [hpa] at hf ⊢
      rw [hl.kind p0 v0 hv0 hf]
      exact iff_of_true hheap0 hheap
    · rw [hpa]
      exact (hl.entry hv0).fresh
    · rw [hpa]
      exact hl.paAligned p0 v0 hv0
  refine ⟨isHeap, free, .of_entries hl'.start_eq hl'.end_eq hl'.wf ?_
    (entries_set hent (fun _ _ => hl'.entry) hnew) hl'.own_pos hl.nodup ?_⟩
  · refine hl.covers.acquire (p, v) e.pa (fun g => ?_) (fun q f hh => holds_set hent hh)
    rw [hcount g]
  · refine isolated_set hent hl.isolated (fun hp q w hq _ hv hw hin he => ?_)
      (fun _ hw _ => by rw [hro] at hw; cases hw)
    obtain ⟨hp0, hreadOnly⟩ := hiso hp
    by_cases hpq : p0 = q
    · subst hpq
      simp [hreadOnly w hv hin] at hw
    · exact (hl.isolated q w hq hv hw hin).2 p0 v0 hp0 hpq hv0 (hpa.symm.trans he)

end

/-! ### Giving a page back -/

theorem Ledger.frame_of_managed {isHeap : Nat → Prop} {free : List Nat} {f : Nat}
    (h : Ledger iso lo hi s ent inHeap own isHeap free) (hf : s.Managed f) : Frame lo hi f := by
  unfold Pmm.Managed at hf
  rwa [h.start_eq, h.end_eq] at hf

/-- `free_page` on the frame of an entry with a reference: the entry's
reference is gone. Nobody may map the frame without one. -/
theorem Books.release (h : Books iso lo hi s ent inHeap own) (hv : (ent p v).v = true)
    (hcnt : (ent p v).counted = true)
    (hnone : ∀ q w, (ent q w).v = true → (ent q w).pa = (ent p v).pa → (ent q w).counted = true)
    (hf : freePage s (ent p v).pa = .ok s')
    (hdrop : ∀ q w, (ent' q w).v = true → ent' q w = ent q w ∧ ¬ (q = p ∧ w = v)) :
    Books iso lo hi s' ent' inHeap own := by
  obtain ⟨isHeap, free, hl⟩ := h
  have hman := freePage_managed hf
  have hfr := hl.frame_of_managed hman
  have hholds : Holds lo hi ent (p, v) (ent p v).pa := ⟨hv, hcnt, rfl, hfr⟩
  have hcovers : ∀ {count' : Nat → Nat},
      (∀ q, count' q = RefTable.count s.refs q - if q = (ent p v).pa then 1 else 0) →
      Lib.Covers count' (Holds lo hi ent') := by
    intro count' hc
    refine hl.covers.release hholds (fun g => Nat.le_of_eq (hc g).symm) (fun q g hh => ?_)
    obtain ⟨he, hne⟩ := hdrop q.1 q.2 hh.1
    refine ⟨?_, fun hq => hne (by simp [hq.1])⟩
    unfold Holds at hh ⊢
    rwa [he] at hh
  -- the ledger over whatever the list is now
  have hrest : ∀ {free' : List Nat}, s'.freeMemStartAddr = s.freeMemStartAddr →
      s'.freeMemEndAddr = s.freeMemEndAddr → s'.Wf free' →
      (∀ q, RefTable.count s'.refs q
        = RefTable.count s.refs q - if q = (ent p v).pa then 1 else 0) →
      Books iso lo hi s' ent' inHeap own := by
    intro free' hst hen hwf hc
    have hkeep : ∀ g, g ≠ (ent p v).pa → RefTable.count s'.refs g = RefTable.count s.refs g := by
      intro g hg
      rw [hc, if_neg hg, Nat.sub_zero]
    refine ⟨isHeap, free', .of_entries (hst.trans hl.start_eq) (hen.trans hl.end_eq) hwf
      (hcovers hc) (fun q w hv' => ?_) (fun g hg => ?_) hl.nodup
      (hl.isolated.drop fun q w hv' => (hdrop q w hv').1)⟩
    · have he := (hdrop q w hv').1
      rw [he] at hv' ⊢
      refine { hl.entry hv' with plain := fun hc' hf' => ?_ }
      rw [hkeep _ (fun heq => by rw [hnone q w hv' heq] at hc'; cases hc')]
      exact hl.plain q w hv' hc' hf'
    · obtain ⟨hfr', hpos', hne'⟩ := hl.fresh g hg
      exact ⟨hfr', by rwa [hkeep g (fun heq => hne' p v hv heq.symm)]⟩
  by_cases hone : 1 < RefTable.count s.refs (ent p v).pa
  · obtain ⟨s1, hf1, hwf, -, hst, hen, hc⟩ := freePage_shared hl.wf hman hone
    cases hf1.symm.trans hf
    exact hrest hst hen hwf hc
  · obtain ⟨s1, hf1, hwf, -, hst, hen, hc⟩ :=
      freePage_last hl.wf hman (by omega) (hl.not_free hv)
    cases hf1.symm.trans hf
    exact hrest hst hen hwf hc

end

end CabbagePKE
