import CabbagePKE.Pmm.PageAllocator

/-!
# Tables that remember whether they are sound

`ref_insert` puts a page at its place only under `RefTable.InsertOk`. A guarded
table can tell from its state that every insertion so far was placed: an ideal
table always is, and `WatchedRefs` is the code's table with one bit of history
beside it, which no operation reads.
-/

namespace CabbagePKE

open Lib

/-- A table whose state tells that all insertions so far were placed. -/
class GuardedTable (T : Type) extends RefTable T where
  Good : T → Prop
  good_of_insert : ∀ {t t' : T} {pa : Nat}, insert t pa = .ok t' → Good t' →
    Good t ∧ InsertOk t pa
  good_of_erase : ∀ {t : T} {pa : Nat}, Good (erase t pa).2 → Good t

instance IdealRefs.guarded : GuardedTable IdealRefs where
  Good _ := True
  good_of_insert := fun _ _ => ⟨trivial, trivial⟩
  good_of_erase := fun _ => trivial

/-- The code's table, and whether each insertion so far found its place. -/
structure WatchedRefs where
  table : RefList
  placed : Bool
  deriving DecidableEq, Repr

instance WatchedRefs.refTable : RefTable WatchedRefs where
  insert t pa := do
    let table ← refInsert t.table pa
    return ⟨table, t.placed && decide (t.table.InsertOk pa)⟩
  erase t pa := ((refErase t.table pa).1, ⟨(refErase t.table pa).2, t.placed⟩)
  count t := refCount t.table
  Wf t := t.table.Wf
  InsertOk t := t.table.InsertOk
  insert_spec := by
    intro t pa hw hok
    obtain ⟨l, hl, hwf, hcnt⟩ := refInsert_spec hw hok
    exact ⟨⟨l, t.placed && decide (t.table.InsertOk pa)⟩, by simp [hl], hwf, hcnt⟩
  erase_spec := fun pa hw => refErase_spec hw pa

instance WatchedRefs.guarded : GuardedTable WatchedRefs where
  Good t := t.placed = true
  good_of_insert := by
    intro t t' pa h hg
    simp only [RefTable.insert, bind_eq_ok] at h
    obtain ⟨l, -, h⟩ := h
    cases h
    have hboth : t.placed = true ∧ t.table.InsertOk pa := by simpa using hg
    exact hboth
  good_of_erase := fun h => h

/-! ## The allocator over a guarded table -/

section

open GuardedTable (Good)

variable {T : Type} [GuardedTable T] {s s' : Pmm T} {p pa : Nat}

theorem allocPage_good (ha : allocPage s = .ok (p, s')) (hg : Good s'.refs) :
    Good s.refs ∧ RefTable.InsertOk s.refs s.gFreeMemList := by
  simp only [allocPage, bind_eq_ok] at ha
  obtain ⟨refs, hins, ha⟩ := ha
  cases ha
  exact GuardedTable.good_of_insert hins hg

theorem freePage_good (hf : freePage s pa = .ok s') (hg : Good s'.refs) : Good s.refs := by
  unfold freePage at hf
  split at hf
  · cases hf
  · split at hf
    · cases hf
      exact GuardedTable.good_of_erase hg
    · cases hf
      exact GuardedTable.good_of_erase hg

theorem freePage_managed {T : Type} [RefTable T] {s s' : Pmm T} {pa : Nat}
    (hf : freePage s pa = .ok s') : s.Managed pa := by
  unfold freePage at hf
  split at hf
  · cases hf
  · unfold Pmm.Managed
    omega

end

theorem Pmm.Wf.write {T : Type} [RefTable T] {s : Pmm T} {free : List Nat} (h : s.Wf free) {m : Mem}
    (hm : ∀ p ∈ free, ∀ i, i < 8 → m (p + i) = s.mem (p + i)) :
    Pmm.Wf { s with mem := m } free :=
  ⟨h.toListed.write hm, h.refs, h.unreferenced⟩

end CabbagePKE
