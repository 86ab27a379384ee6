import CabbagePKE.Lib.Yields
import CabbagePKE.Rfs.Plan

/-!
# How far a file can grow

An inode has room for the addresses of `RFS_DIRECT_BLKNUM` blocks, and `rfs_write`
never compares a block's index with that number. Writes that all end below the size of
these blocks stay inside the array, however many there are; one byte more is stored past it.
-/

namespace CabbagePKE

open Lib

structure WriteCall where
  offset : Nat
  len : Nat
  buf : Mem

def writeAll : List WriteCall → Volume → Vinode → Outcome (Volume × Vinode)
  | [], v, f => .ok (v, f)
  | w :: ws, v, f => do
    let (_, _, v, f) ← rfsWrite v f w.buf w.len w.offset
    writeAll ws v f

def InBlocks (v : Volume) (f : Vinode) : Prop :=
  ∃ nb size : Nat, FileOk v f.toDinode nb ∧ f.size = size ∧ size ≤ RFS_BLKSIZE * nb

section

variable {v : Volume} {f : Vinode} {o len E : Nat}

theorem rfsWrite_within (buf : Mem) (h : InBlocks v f)
    (hmax : o + len ≤ DIRECT_BLKNUM * RFS_BLKSIZE) :
    Yields (· = Halt.undefined) (rfsWrite v f buf len o) fun r => InBlocks r.2.2.1 r.2.2.2 := by
  obtain ⟨nb, size, hok, hsize, hle⟩ := h
  by_cases ho : o ≤ size
  · obtain ⟨hall, hnone⟩ := rfsWrite_spec buf hok hsize hle ho hmax
    by_cases hfree : blocksFor (o + len) - nb ≤ v.sb.freeCount
    · obtain ⟨v', f', hrun, hw⟩ := hall hfree
      apply Yields.of_eq hrun
      exact ⟨_, _, ⟨hw.ok.nblocks, hw.ok.blocks_eq, hw.ok.le, hw.ok.data, hw.ok.inj⟩, rfl,
        max_le_blocks hle⟩
    · apply Yields.of_eq_error (hnone hfree)
      intro hstop
      cases hstop
  · have hpast : f.size < (o : Int) := by omega
    apply Yields.of_eq_error (by rw [rfsWrite, if_pos hpast])
    intro hstop
    cases hstop

theorem writeAll_within {ws : List WriteCall} (h : InBlocks v f)
    (hmax : ∀ w ∈ ws, w.offset + w.len ≤ DIRECT_BLKNUM * RFS_BLKSIZE) :
    Yields (· = Halt.undefined) (writeAll ws v f) fun r => InBlocks r.1 r.2 := by
  induction ws generalizing v f with
  | nil => exact .of_ok h
  | cons w ws ih =>
    apply Yields.bind (rfsWrite_within w.buf h (hmax w (.head ..)))
    intro r hr
    exact ih hr fun w' hw' => hmax w' (List.mem_cons_of_mem w hw')

theorem rfsWrite_past (buf : Mem) (h : FileOk v f.toDinode DIRECT_BLKNUM)
    (hsize : f.size = (DIRECT_BLKNUM * RFS_BLKSIZE : Nat)) (hfree : 0 < v.sb.freeCount) :
    rfsWrite v f buf 1 (DIRECT_BLKNUM * RFS_BLKSIZE : Nat) = .error .undefined := by
  obtain ⟨r, halloc⟩ := (rfsAllocBlock_isOk h.nblocks).mpr hfree
  have hgrow : growFile v f (DIRECT_BLKNUM : Int) = .error .undefined := by
    have hout : ¬ (0 ≤ (DIRECT_BLKNUM : Int) ∧ (DIRECT_BLKNUM : Int) < DIRECT_BLKNUM) := by decide
    rw [growFile, if_pos h.blocks_eq.symm, halloc, ok_bind]
    exact if_neg hout
  have hdata : writeData v f buf 1 (DIRECT_BLKNUM * RFS_BLKSIZE : Nat) = .error .undefined := by
    have halign : ((DIRECT_BLKNUM * RFS_BLKSIZE : Nat) : Int).tmod RFS_BLKSIZE = 0 := by decide
    have hblk : ((DIRECT_BLKNUM * RFS_BLKSIZE : Nat) : Int).tdiv RFS_BLKSIZE = DIRECT_BLKNUM := by
      decide
    have hwhole : wrap32 ((((1 : Nat) : Int) + 0).tdiv RFS_BLKSIZE) = 0 :=
      wrap32_of_fits (fits_natCast (x := 0) (by decide))
    have hremain : wrap32 ((((1 : Nat) : Int) + 0).tmod RFS_BLKSIZE) = 1 :=
      wrap32_of_fits (fits_natCast (x := 1) (by decide))
    simp only [writeData, halign, hblk, hwhole, hremain, ne_eq, not_true, if_false]
    show writeChunk v f buf 0 1 (DIRECT_BLKNUM : Int) = _
    rw [writeChunk, hgrow, error_bind]
  rw [rfsWrite, hsize, if_neg (Int.lt_irrefl _), hdata, error_bind]

/-- **Where writes stay inside the inode.** Writes to a file, whatever their number, use only
the entries that `addrs` has exactly if they end in the blocks an inode has room for. -/
theorem write_indices_iff (E : Nat) :
    (∀ v f, InBlocks v f → ∀ ws : List WriteCall, (∀ w ∈ ws, w.offset + w.len ≤ E) →
      writeAll ws v f ≠ .error .undefined) ↔ E ≤ DIRECT_BLKNUM * RFS_BLKSIZE := by
  constructor
  · intro hall
    by_contra hE
    -- One byte more, at the end of a file of the maximal size.
    have hfull : InBlocks (rowFile DIRECT_BLKNUM (DIRECT_BLKNUM * RFS_BLKSIZE)).1
        (rowFile DIRECT_BLKNUM (DIRECT_BLKNUM * RFS_BLKSIZE)).2 :=
      ⟨DIRECT_BLKNUM, _, rowFile_ok _ le_rfl, rfl, by decide⟩
    apply hall _ _ hfull [⟨DIRECT_BLKNUM * RFS_BLKSIZE, 1, fun _ => 0⟩]
    · intro w hw
      rw [List.mem_singleton] at hw
      rw [hw]
      dsimp only
      omega
    · rw [writeAll, rfsWrite_past _ (rowFile_ok _ le_rfl) rfl (by decide), error_bind]
  · intro hE v f h ws hws hstop
    exact (writeAll_within h fun w hw => (hws w hw).trans hE).2 _ hstop rfl

end

/-- Eleven writes of a page each, one after the other from the start of an empty file: the
first ten succeed, and the address of the eleventh block is stored at `addrs[10]`. -/
theorem eleventh_page_past_inode :
    InBlocks (rowFile 1 0).1 (rowFile 1 0).2 ∧
    (∃ r, writeAll ((List.range 10).map fun k => ⟨4096 * k, 4096, fun _ => 1⟩) (rowFile 1 0).1
      (rowFile 1 0).2 = .ok r) ∧
    writeAll ((List.range 11).map fun k => ⟨4096 * k, 4096, fun _ => 1⟩) (rowFile 1 0).1
      (rowFile 1 0).2 = .error .undefined := by
  exact ⟨⟨1, 0, rowFile_ok 0 (by decide), rfl, by decide⟩, by decide +kernel, by decide +kernel⟩

end CabbagePKE
