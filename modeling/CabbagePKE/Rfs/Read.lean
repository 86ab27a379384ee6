import CabbagePKE.Rfs.Write

/-!
# Reading a file

`rfs_read` collects the bytes of a read block by block in a buffer of its own and
hands them to the caller with `strcpy`. The collected bytes are those of the file
(`readData_byte`), but the caller gets them only up to the first `NUL`.
-/

namespace CabbagePKE

open Lib

/-! ## The code -/

def LSEEK_SET : Int := 0

def LSEEK_CUR : Int := 1

/-- Read block `blockOffset` and copy `n` of its bytes, from `first` on, to the buffer. -/
def readChunk (v : Volume) (f : Vinode) (buffer : Mem) (bufOffset first n : Nat)
    (blockOffset : Int) : Outcome (Mem × Volume) := do
  let b ← addrAt f.toDinode blockOffset
  let dev ← ramdiskRead v.dev b
  return (copyBytes buffer bufOffset dev.iobuffer first n, { v with dev := dev })

def readBlocks (f : Vinode) :
    Nat → Volume → Mem → (bufOffset : Nat) → (blockOffset : Int) → Outcome (Mem × Volume)
  | 0, v, buffer, _, _ => .ok (buffer, v)
  | n + 1, v, buffer, bufOffset, blockOffset => do
      let (buffer, v) ← readChunk v f buffer bufOffset 0 RFS_BLKSIZE blockOffset
      readBlocks f n v buffer (bufOffset + RFS_BLKSIZE) (blockOffset + 1)

def readRest (v : Volume) (f : Vinode) (buffer : Mem) (bufOffset : Nat)
    (blockOffset readtimes remain : Int) : Outcome (Mem × Volume) :=
  if readtimes < 0 then .ok (buffer, v)
  else do
    let (buffer, v) ← readBlocks f readtimes.toNat v buffer bufOffset blockOffset
    if 0 < remain then
      readChunk v f buffer (bufOffset + readtimes.toNat * RFS_BLKSIZE) 0 remain.toNat
        (blockOffset + readtimes)
    else return (buffer, v)

def readFirst (v : Volume) (f : Vinode) (buffer : Mem) (align firstBlockLen blockOffset : Int) :
    Outcome (Mem × Volume) := do
  let b ← addrAt f.toDinode blockOffset
  let dev ← ramdiskRead v.dev b
  if align < 0 ∨ firstBlockLen < 0 ∨ (RFS_BLKSIZE : Int) < align + firstBlockLen then
    .error .undefined
  else
    return (copyBytes buffer 0 dev.iobuffer align.toNat firstBlockLen.toNat, { v with dev := dev })

/-- The blocks of a read of `len` bytes at `offset`, collected in `buffer`. The first block is
read also when it holds none of the bytes. -/
def readData (v : Volume) (f : Vinode) (buffer : Mem) (len : Nat) (offset : Int) :
    Outcome (Mem × Volume) := do
  let align := offset.tmod RFS_BLKSIZE
  let readtimes := wrap32 ((align + len).tdiv RFS_BLKSIZE)
  let remain := wrap32 ((align + len).tmod RFS_BLKSIZE)
  let blockOffset := offset.tdiv RFS_BLKSIZE
  let firstBlockLen := if readtimes = 0 then wrap32 len else RFS_BLKSIZE - align
  let (buffer, v) ← readFirst v f buffer align firstBlockLen blockOffset
  readRest v f buffer firstBlockLen.toNat (blockOffset + 1) (readtimes - 1) remain

/-- `rfs_read` into a buffer that holds `rBuf`: the bytes read, the offset after the read, the
buffer and the volume. The local buffer is filled before it is read, so its contents at the
start do not matter. -/
def rfsRead (v : Volume) (f : Vinode) (rBuf : Mem) (len : Nat) (offset : Int) :
    Outcome (Nat × Int × Mem × Volume) :=
  if f.size < offset then .error (.panic "rfs_read:offset should less than file size!" [])
  else do
    let len := if f.size < offset + len then (f.size - offset).toNat else len
    let (buffer, v) ← readData v f (fun _ => 0) len offset
    return (len, wrap32 (offset + len), putString rBuf 0 (cstr buffer 0 len), v)

/-- `rfs_lseek`: the result and the offset after it. -/
def rfsLseek (f : Vinode) (newOffset whence offset : Int) : Int × Int :=
  if whence = LSEEK_SET then
    if newOffset < 0 ∨ f.size < newOffset then (-1, offset) else (0, wrap32 newOffset)
  else if whence = LSEEK_CUR then
    if offset + newOffset < 0 ∨ f.size < offset + newOffset then (-1, offset)
    else (0, wrap32 (offset + newOffset))
  else (-1, offset)

/-! ## What a read collects -/

section

variable {v v' : Volume} {f : Vinode} {buffer buffer' : Mem} {bufOffset first n len : Nat}

theorem readChunk_inv {blockOffset : Int}
    (h : readChunk v f buffer bufOffset first n blockOffset = .ok (buffer', v')) :
    ∃ k : Nat, blockOffset = k ∧ v'.dev.blocks = v.dev.blocks ∧ v'.sb = v.sb ∧
      buffer' = copyBytes buffer bufOffset (v.dev.blocks (f.addr k).toNat) first n := by
  rw [readChunk, bind_eq_ok] at h
  obtain ⟨b, hb, h⟩ := h
  rw [bind_eq_ok] at h
  obtain ⟨dev, hdev, h⟩ := h
  unfold addrAt at hb
  split at hb
  · rename_i hrange
    cases hb
    unfold ramdiskRead at hdev
    split at hdev
    · cases hdev
    · cases hdev
      cases h
      exact ⟨blockOffset.toNat, by omega, rfl, rfl, rfl⟩
  · cases hb

theorem copyBytes_block {j k : Nat} (hbuf : bufOffset ≤ j) (hlt : j < bufOffset + n)
    (hblk : first + n ≤ RFS_BLKSIZE) :
    copyBytes buffer bufOffset (v.dev.blocks (f.addr k).toNat) first n j
      = v.byte f.toDinode (k * RFS_BLKSIZE + first + (j - bufOffset)) := by
  have hdiv : (k * RFS_BLKSIZE + first + (j - bufOffset)) / RFS_BLKSIZE = k := by
    unfold RFS_BLKSIZE at hblk ⊢
    omega
  have hmod : (k * RFS_BLKSIZE + first + (j - bufOffset)) % RFS_BLKSIZE
      = first + (j - bufOffset) := by
    unfold RFS_BLKSIZE at hblk ⊢
    omega
  rw [Volume.byte, hdiv, hmod, copyBytes, if_pos ⟨hbuf, hlt⟩]

/-- `Collected v f k first buffer lo hi buffer'`: positions `lo` to `hi` of the buffer now hold
the bytes of the file from byte `x` on, and the positions below `lo` are as before. -/
structure Collected (v : Volume) (f : Vinode) (x : Nat) (buffer : Mem) (lo hi : Nat)
    (buffer' : Mem) : Prop where
  byte : ∀ j, lo ≤ j → j < hi → buffer' j = v.byte f.toDinode (x + (j - lo))
  below : ∀ j, j < lo → buffer' j = buffer j

theorem Collected.trans {x lo mid hi : Nat} {buffer'' : Mem}
    (h : Collected v f x buffer lo mid buffer') (hle : lo ≤ mid)
    (h' : Collected v f (x + (mid - lo)) buffer' mid hi buffer'') :
    Collected v f x buffer lo hi buffer'' where
  byte j hlo hhi := by
    by_cases hj : j < mid
    · rw [h'.below j hj, h.byte j hlo hj]
    · rw [h'.byte j (by omega) hhi]
      congr 1
      omega
  below j hj := by rw [h'.below j (by omega), h.below j hj]

theorem Collected.congr {x lo hi : Nat} (h : Collected v' f x buffer lo hi buffer')
    (hv : v'.dev.blocks = v.dev.blocks) : Collected v f x buffer lo hi buffer' where
  byte j hlo hhi := by
    rw [h.byte j hlo hhi, Volume.byte, hv]
    rfl
  below := h.below

theorem Collected.none {x lo : Nat} : Collected v f x buffer lo lo buffer where
  byte j hlo hhi := by omega
  below _ _ := rfl

theorem readChunk_collects {blockOffset : Int} (hblk : first + n ≤ RFS_BLKSIZE)
    (h : readChunk v f buffer bufOffset first n blockOffset = .ok (buffer', v')) :
    v'.dev.blocks = v.dev.blocks ∧ v'.sb = v.sb ∧ 0 ≤ blockOffset ∧
      Collected v f (blockOffset.toNat * RFS_BLKSIZE + first) buffer bufOffset (bufOffset + n)
        buffer' := by
  obtain ⟨k, rfl, hblocks, hsb, rfl⟩ := readChunk_inv h
  refine ⟨hblocks, hsb, by omega, ?_, ?_⟩
  · intro j hlo hhi
    rw [Int.toNat_natCast, copyBytes_block hlo hhi hblk]
  · intro j hj
    rw [copyBytes, if_neg (by omega)]

theorem readBlocks_collects : ∀ (n : Nat) {v : Volume} {buffer : Mem} {bufOffset k : Nat},
    readBlocks f n v buffer bufOffset (k : Int) = .ok (buffer', v') →
    v'.dev.blocks = v.dev.blocks ∧ v'.sb = v.sb ∧
      Collected v f (k * RFS_BLKSIZE) buffer bufOffset (bufOffset + n * RFS_BLKSIZE) buffer' := by
  intro n
  induction n with
  | zero =>
    intro v buffer bufOffset k h
    cases h
    rw [Nat.zero_mul]
    exact ⟨rfl, rfl, .none⟩
  | succ n ih =>
    intro v buffer bufOffset k h
    rw [readBlocks, bind_eq_ok] at h
    obtain ⟨⟨buffer1, v1⟩, hchunk, hrest⟩ := h
    obtain ⟨hb1, hs1, -, hc1⟩ := readChunk_collects (by omega) hchunk
    obtain ⟨hb2, hs2, hc2⟩ := ih (k := k + 1) (by exact hrest)
    refine ⟨hb2.trans hb1, hs2.trans hs1, ?_⟩
    rw [Int.toNat_natCast, Nat.add_zero] at hc1
    have hnext : k * RFS_BLKSIZE + (bufOffset + RFS_BLKSIZE - bufOffset)
        = (k + 1) * RFS_BLKSIZE := by
      unfold RFS_BLKSIZE
      omega
    have hend : bufOffset + RFS_BLKSIZE + n * RFS_BLKSIZE = bufOffset + (n + 1) * RFS_BLKSIZE := by
      unfold RFS_BLKSIZE
      omega
    rw [hend, ← hnext] at hc2
    exact hc1.trans (by omega) (hc2.congr hb1)

theorem readRest_collects {k t r : Nat} (hr : r < RFS_BLKSIZE)
    (h : readRest v f buffer bufOffset (k : Int) (t : Int) (r : Int) = .ok (buffer', v')) :
    v'.dev.blocks = v.dev.blocks ∧ v'.sb = v.sb ∧
      Collected v f (k * RFS_BLKSIZE) buffer bufOffset (bufOffset + (t * RFS_BLKSIZE + r))
        buffer' := by
  rw [readRest, if_neg (by omega), bind_eq_ok] at h
  obtain ⟨⟨buffer1, v1⟩, hblocks, h⟩ := h
  dsimp only at h
  obtain ⟨hb1, hs1, hc1⟩ := readBlocks_collects t hblocks
  split at h
  · obtain ⟨hb2, hs2, -, hc2⟩ := readChunk_collects (by rw [Int.toNat_natCast]; omega) h
    refine ⟨hb2.trans hb1, hs2.trans hs1, ?_⟩
    have hcast : (k : Int) + (t : Int) = ((k + t : Nat) : Int) := by omega
    rw [hcast, Int.toNat_natCast, Int.toNat_natCast, Nat.add_zero] at hc2
    have hnext : (k + t) * RFS_BLKSIZE
        = k * RFS_BLKSIZE + (bufOffset + t * RFS_BLKSIZE - bufOffset) := by
      unfold RFS_BLKSIZE
      omega
    rw [hnext, add_assoc] at hc2
    exact hc1.trans (by omega) (hc2.congr hb1)
  · rename_i hzero
    cases h
    have hr0 : r = 0 := by omega
    rw [hr0, Nat.add_zero]
    exact ⟨hb1, hs1, hc1⟩

theorem readFirst_collects {align firstBlockLen blockOffset : Int}
    (h : readFirst v f buffer align firstBlockLen blockOffset = .ok (buffer', v')) :
    v'.dev.blocks = v.dev.blocks ∧ v'.sb = v.sb ∧ 0 ≤ align ∧ 0 ≤ blockOffset ∧
      Collected v f (blockOffset.toNat * RFS_BLKSIZE + align.toNat) buffer 0 firstBlockLen.toNat
        buffer' := by
  rw [readFirst, bind_eq_ok] at h
  obtain ⟨b, hb, h⟩ := h
  rw [bind_eq_ok] at h
  obtain ⟨dev, hdev, h⟩ := h
  split at h
  · cases h
  · rename_i hguard
    have hchunk : readChunk v f buffer 0 align.toNat firstBlockLen.toNat blockOffset
        = .ok (buffer', v') := by rw [readChunk, hb, ok_bind, hdev, ok_bind, ← h]
    obtain ⟨hblocks, hs, hnonneg, hc⟩ := readChunk_collects (by omega) hchunk
    rw [Nat.zero_add] at hc
    exact ⟨hblocks, hs, by omega, hnonneg, hc⟩

theorem blkDivMod (o : Nat) : (o : Int).tdiv RFS_BLKSIZE = ((o / RFS_BLKSIZE : Nat) : Int) ∧
    (o : Int).tmod RFS_BLKSIZE = ((o % RFS_BLKSIZE : Nat) : Int) := by
  rw [Int.tdiv_eq_ediv_of_nonneg (by omega), Int.tmod_eq_emod_of_nonneg (by omega)]
  exact ⟨by simp, by simp⟩

theorem readData_byte {offset : Int} (hlen : offset + len ≤ (DIRECT_BLKNUM * RFS_BLKSIZE : Nat))
    (h : readData v f buffer len offset = .ok (buffer', v')) :
    v'.dev.blocks = v.dev.blocks ∧ v'.sb = v.sb ∧ 0 ≤ offset ∧
      ∀ j, j < len → buffer' j = v.byte f.toDinode (offset.toNat + j) := by
  rw [readData, bind_eq_ok] at h
  obtain ⟨⟨buffer1, v1⟩, hfirst, hrest⟩ := h
  obtain ⟨hb1, hs1, halign, hblock, hc1⟩ := readFirst_collects hfirst
  have hoff : 0 ≤ offset := by
    have hdiv := Int.tmod_add_mul_tdiv offset RFS_BLKSIZE
    have hpos := Int.mul_nonneg (Int.natCast_nonneg RFS_BLKSIZE) hblock
    omega
  obtain ⟨o, rfl⟩ := Int.eq_ofNat_of_zero_le hoff
  have hsum : ((o % RFS_BLKSIZE : Nat) : Int) + (len : Int) = ((o % RFS_BLKSIZE + len : Nat) : Int) :=
    (Int.natCast_add _ _).symm
  have hmod : o % RFS_BLKSIZE < RFS_BLKSIZE := Nat.mod_lt _ (by decide)
  have hcut := Nat.div_add_mod (o % RFS_BLKSIZE + len) RFS_BLKSIZE
  have hstart := Nat.div_add_mod o RFS_BLKSIZE
  simp only [(blkDivMod o).1, (blkDivMod o).2, hsum, (blkDivMod _).1, (blkDivMod _).2,
    Int.toNat_natCast] at hc1 hrest
  generalize o / RFS_BLKSIZE = k at *
  generalize o % RFS_BLKSIZE = a at *
  have hrlt : (a + len) % RFS_BLKSIZE < RFS_BLKSIZE := Nat.mod_lt _ (by decide)
  generalize (a + len) / RFS_BLKSIZE = t at *
  generalize (a + len) % RFS_BLKSIZE = r at *
  have hfits : ∀ x : Nat, x ≤ DIRECT_BLKNUM * RFS_BLKSIZE + RFS_BLKSIZE → wrap32 (x : Int) = x := by
    intro x hx
    apply wrap32_of_fits
    unfold Fits32
    unfold DIRECT_BLKNUM RFS_BLKSIZE at hx
    omega
  rw [hfits t (by unfold RFS_BLKSIZE at *; omega), hfits len (by omega)] at hc1 hrest
  rw [hfits r (by omega)] at hrest
  have hpos : ∀ j, k * RFS_BLKSIZE + a + (j - 0) = o + j := by
    intro j
    rw [mul_comm] at hstart
    omega
  cases t with
  | zero =>
    -- one block, not to its end
    cases hrest
    refine ⟨hb1, hs1, hoff, fun j hj => ?_⟩
    rw [hc1.byte j (by omega) hj, Int.toNat_natCast, hpos j]
  | succ t =>
    have ht : ¬ ((t + 1 : Nat) : Int) = 0 := by omega
    have hfirst : ((RFS_BLKSIZE : Int) - (a : Int)).toNat = RFS_BLKSIZE - a := by omega
    have hnext : (k : Int) + 1 = ((k + 1 : Nat) : Int) := by omega
    have htimes : ((t + 1 : Nat) : Int) - 1 = (t : Int) := by omega
    rw [if_neg ht, hfirst] at hc1 hrest
    rw [hnext, htimes] at hrest
    obtain ⟨hb2, hs2, hc2⟩ := readRest_collects hrlt hrest
    have hx : (k + 1) * RFS_BLKSIZE = k * RFS_BLKSIZE + a + (RFS_BLKSIZE - a - 0) := by
      unfold RFS_BLKSIZE at *
      omega
    have hc := hc1.trans (Nat.zero_le _) (by rw [← hx]; exact hc2.congr hb1)
    refine ⟨hb2.trans hb1, hs2.trans hs1, hoff, fun j hj => ?_⟩
    have hj' : j < RFS_BLKSIZE - a + (t * RFS_BLKSIZE + r) := by
      unfold RFS_BLKSIZE at *
      omega
    rw [hc.byte j (Nat.zero_le j) hj', Int.toNat_natCast, hpos j]

/-- **What `rfs_read` returns.** The count is cut at the end of the file, the offset moves by it,
and the caller gets the string that the collected bytes of the file make up. -/
theorem rfsRead_inv {rBuf rBuf' : Mem} {offset offset' : Int}
    (hsize : f.size ≤ (DIRECT_BLKNUM * RFS_BLKSIZE : Nat))
    (h : rfsRead v f rBuf len offset = .ok (n, offset', rBuf', v')) :
    v'.dev.blocks = v.dev.blocks ∧ v'.sb = v.sb ∧ 0 ≤ offset ∧ n ≤ len ∧ offset + n ≤ f.size ∧
      offset' = offset + n ∧
      ∃ buffer : Mem, (∀ j, j < n → buffer j = v.byte f.toDinode (offset.toNat + j)) ∧
        ∀ dst, rfsRead v f dst len offset
          = .ok (n, offset', putString dst 0 (cstr buffer 0 n), v') := by
  unfold rfsRead at h ⊢
  split at h
  · cases h
  · rename_i hoff
    rw [bind_eq_ok] at h
    obtain ⟨⟨buffer, v1⟩, hdata, h⟩ := h
    simp only [pure_eq_ok, Except.ok.injEq, Prod.mk.injEq] at h
    obtain ⟨hn, rfl, -, rfl⟩ := h
    have hcut : n ≤ len ∧ offset + n ≤ f.size := by
      rw [← hn]
      split
      · omega
      · omega
    rw [hn] at hdata ⊢
    obtain ⟨hb, hs, hpos, hbyte⟩ := readData_byte (by omega) hdata
    refine ⟨hb, hs, hpos, hcut.1, hcut.2, ?_, buffer, hbyte, fun dst => ?_⟩
    · apply wrap32_of_fits
      unfold Fits32
      unfold DIRECT_BLKNUM RFS_BLKSIZE at hsize
      omega
    · rw [if_neg hoff]
      dsimp only
      rw [hdata]
      rfl

end

/-! ## Reads that transfer nothing -/

section

variable {v : Volume} {f : Vinode} {offset : Int}

theorem rfsRead_blockOff (rBuf : Mem) (len : Nat) (hsize : ¬ f.size < offset)
    (h : f.BlockOff offset) :
    ∃ fmt args, rfsRead v f rBuf len offset = .error (.panic fmt args) := by
  obtain ⟨b, haddr, hoff⟩ := h
  obtain ⟨fmt, args, hpanic⟩ := ramdiskRead_panics v.dev hoff
  refine ⟨fmt, args, ?_⟩
  rw [rfsRead, if_neg hsize]
  simp only [readData, readFirst, haddr, ok_bind, hpanic, error_bind]

theorem rfsRead_nothing (rBuf : Mem) (hsize : ¬ f.size < offset) (h : ¬ f.BlockOff offset) :
    rfsRead v f rBuf 0 offset = .error .undefined ∨
      ∃ offset' rBuf' v', rfsRead v f rBuf 0 offset = .ok (0, offset', rBuf', v') := by
  have hwrap : wrap32 0 = 0 := wrap32_of_fits (fits_natCast (x := 0) (by decide))
  have hsize' : ¬ f.size < offset + (0 : Nat) := by omega
  rw [rfsRead, if_neg hsize, if_neg hsize']
  rcases addrAt_of_not_blockOff h with haddr | ⟨b, haddr, hb⟩
  · left
    simp only [readData, readFirst, haddr, error_bind]
  · simp only [readData, readFirst, haddr, ok_bind, ramdiskRead_eq hb, Nat.cast_zero, Int.add_zero,
      tmod_tdiv_zero, hwrap, if_true]
    split
    · left
      rfl
    · exact .inr ⟨_, _, _, rfl⟩

end

end CabbagePKE
