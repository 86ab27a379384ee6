import CabbagePKE.Rfs.Overwrite
import CabbagePKE.Rfs.Read

/-!
# The blocks that a read fetches

Which blocks `rfs_read` fetches, and what it copies from each, follows from the
offset and the count: `readPlan` lists the pieces, and a read is a fold over the
list (`readData_plan`). The first piece is always there, so at the end of a file
whose last block is full it is a block the file does not have.
-/

namespace CabbagePKE

open Lib List

/-! ## The plan -/

/-- A piece of a read: `count` bytes of block `index`, from `first` on, that go to `bufOffset`. -/
structure Chunk where
  index : Nat
  first : Nat
  count : Nat
  bufOffset : Nat
  deriving DecidableEq

def blockPlan : Nat → (bufOffset index : Nat) → List Chunk
  | 0, _, _ => []
  | n + 1, bufOffset, index =>
    ⟨index, 0, RFS_BLKSIZE, bufOffset⟩ :: blockPlan n (bufOffset + RFS_BLKSIZE) (index + 1)

def restPlan (bufOffset index n r : Nat) : List Chunk :=
  blockPlan n bufOffset index ++
    if 0 < r then [⟨index + n, 0, r, bufOffset + n * RFS_BLKSIZE⟩] else []

def readPlan (len o : Nat) : List Chunk :=
  match (o % RFS_BLKSIZE + len) / RFS_BLKSIZE with
  | 0 => [⟨o / RFS_BLKSIZE, o % RFS_BLKSIZE, len, 0⟩]
  | n + 1 => ⟨o / RFS_BLKSIZE, o % RFS_BLKSIZE, RFS_BLKSIZE - o % RFS_BLKSIZE, 0⟩ ::
      restPlan (RFS_BLKSIZE - o % RFS_BLKSIZE) (o / RFS_BLKSIZE + 1) n
        ((o % RFS_BLKSIZE + len) % RFS_BLKSIZE)

/-- Fetch the block of a piece and copy its bytes to the buffer. -/
def fetch (f : Vinode) (st : Mem × Volume) (c : Chunk) : Outcome (Mem × Volume) :=
  readChunk st.2 f st.1 c.bufOffset c.first c.count c.index

section

variable {v : Volume} {f : Vinode} {buffer : Mem} {len o n r bufOffset index : Nat}

theorem readBlocks_plan (n : Nat) (v : Volume) (buffer : Mem) (bufOffset index : Nat) :
    readBlocks f n v buffer bufOffset index
      = (blockPlan n bufOffset index).foldlM (fetch f) (buffer, v) := by
  induction n generalizing v buffer bufOffset index with
  | zero => rfl
  | succ n ih =>
    rw [readBlocks, blockPlan, foldlM_cons, ← Nat.cast_succ]
    congr 1
    funext st
    exact ih st.2 st.1 (bufOffset + RFS_BLKSIZE) (index + 1)

theorem readRest_plan (v : Volume) (buffer : Mem) (bufOffset index n r : Nat) :
    readRest v f buffer bufOffset index n r
      = (restPlan bufOffset index n r).foldlM (fetch f) (buffer, v) := by
  have hneg : ¬ (n : Int) < 0 := by omega
  rw [readRest, if_neg hneg, restPlan, foldlM_append, Int.toNat_natCast, readBlocks_plan]
  congr 1
  funext st
  dsimp only
  by_cases hr : 0 < r
  · have hr' : 0 < (r : Int) := by omega
    rw [if_pos hr, if_pos hr', Int.toNat_natCast, ← Nat.cast_add]
    exact (bind_pure _).symm
  · have hr' : ¬ 0 < (r : Int) := by omega
    rw [if_neg hr, if_neg hr']
    rfl

theorem readFirst_chunk (v : Volume) (buffer : Mem) {a : Nat} (h : a + n ≤ RFS_BLKSIZE) :
    readFirst v f buffer a n index = fetch f (buffer, v) ⟨index, a, n, 0⟩ := by
  have hguard : ¬ ((a : Int) < 0 ∨ (n : Int) < 0 ∨ (RFS_BLKSIZE : Int) < a + n) := by omega
  simp only [readFirst, fetch, readChunk, hguard, if_false, Int.toNat_natCast]

theorem readData_plan (v : Volume) (f : Vinode) (buffer : Mem) (h : o + len < 2 ^ 31) :
    readData v f buffer len (o : Int) = (readPlan len o).foldlM (fetch f) (buffer, v) := by
  have hmod : o % RFS_BLKSIZE < RFS_BLKSIZE := Nat.mod_lt _ (by decide)
  have hsmall : o % RFS_BLKSIZE + len < 2 ^ 31 := by
    have hle := Nat.mod_le o RFS_BLKSIZE
    omega
  have hcut := Nat.div_add_mod (o % RFS_BLKSIZE + len) RFS_BLKSIZE
  have hrlt : (o % RFS_BLKSIZE + len) % RFS_BLKSIZE < RFS_BLKSIZE := Nat.mod_lt _ (by decide)
  have hfits : ∀ x : Nat, x ≤ o % RFS_BLKSIZE + len → wrap32 (x : Int) = x :=
    fun x hx => wrap32_of_fits (fits_natCast (by omega))
  rw [readData, readPlan]
  simp only [(blkDivMod o).1, (blkDivMod o).2, ← Int.natCast_add, (blkDivMod _).1, (blkDivMod _).2]
  rw [hfits _ (Nat.div_le_self _ _), hfits _ (Nat.mod_le _ _), hfits len (by omega)]
  generalize (o % RFS_BLKSIZE + len) % RFS_BLKSIZE = r at *
  cases hn : (o % RFS_BLKSIZE + len) / RFS_BLKSIZE with
  | zero =>
    rw [hn] at hcut
    simp only [Nat.cast_zero, if_true]
    rw [readFirst_chunk v buffer (by omega), foldlM_cons]
    rfl
  | succ n =>
    have hne : ¬ ((n + 1 : Nat) : Int) = 0 := by omega
    have hlen : (RFS_BLKSIZE : Int) - (o % RFS_BLKSIZE : Nat)
        = (RFS_BLKSIZE - o % RFS_BLKSIZE : Nat) := by omega
    have htimes : ((n + 1 : Nat) : Int) - 1 = (n : Int) := by omega
    rw [if_neg hne, hlen, htimes, readFirst_chunk v buffer (by omega), foldlM_cons,
      Int.toNat_natCast, ← Nat.cast_succ]
    congr 1
    funext st
    exact readRest_plan st.2 st.1 _ _ n r

theorem mem_blockPlan {c : Chunk} (h : c ∈ blockPlan n bufOffset index) :
    index ≤ c.index ∧ c.index < index + n := by
  induction n generalizing bufOffset index with
  | zero => cases h
  | succ n ih =>
    rcases mem_cons.mp h with rfl | hrest
    · exact ⟨Nat.le_refl index, Nat.lt_add_of_pos_right (Nat.succ_pos n)⟩
    · have hc := ih hrest
      omega

theorem mem_restPlan {c : Chunk} (h : c ∈ restPlan bufOffset index n r) :
    c.index < index + n + min r 1 := by
  rcases mem_append.mp h with hblock | hlast
  · have hc := mem_blockPlan hblock
    omega
  · by_cases hr : 0 < r
    · rw [if_pos hr, mem_singleton] at hlast
      rw [hlast]
      dsimp only
      omega
    · simp [if_neg hr] at hlast

theorem exists_first_readPlan (len o : Nat) : ∃ c ∈ readPlan len o, c.index = o / RFS_BLKSIZE := by
  rw [readPlan]
  cases (o % RFS_BLKSIZE + len) / RFS_BLKSIZE with
  | zero => exact ⟨_, .head .., rfl⟩
  | succ n => exact ⟨_, .head .., rfl⟩

theorem mem_readPlan {c : Chunk} (h : c ∈ readPlan len o) :
    c.index = o / RFS_BLKSIZE ∨ c.index < blocksFor (o + len) := by
  have hcut := Nat.div_add_mod (o % RFS_BLKSIZE + len) RFS_BLKSIZE
  rw [readPlan] at h
  cases hn : (o % RFS_BLKSIZE + len) / RFS_BLKSIZE with
  | zero =>
    rw [hn, mem_singleton] at h
    rw [h]
    exact .inl rfl
  | succ n =>
    rw [hn] at h hcut
    rcases mem_cons.mp h with rfl | hrest
    · exact .inl rfl
    · right
      have hc := mem_restPlan hrest
      unfold blocksFor
      unfold RFS_BLKSIZE at *
      omega

/-- A file's blocks hold all of a read that ends inside the file, unless the file is full to
the end of its last block and the read starts there. -/
theorem readPlan_inside_iff {size : Nat} (h : o + len ≤ size) :
    (∀ c ∈ readPlan len o, c.index < fileBlocks size) ↔
      ¬ (0 < size ∧ RFS_BLKSIZE ∣ size ∧ o = size) := by
  have hfirst : o / RFS_BLKSIZE < fileBlocks size ↔ ¬ (0 < size ∧ RFS_BLKSIZE ∣ size ∧ o = size) := by
    unfold fileBlocks blocksFor RFS_BLKSIZE
    omega
  rw [← hfirst]
  constructor
  · intro hall
    obtain ⟨c, hc, hindex⟩ := exists_first_readPlan len o
    rw [← hindex]
    exact hall c hc
  · intro hlt c hc
    rcases mem_readPlan hc with hindex | hlast
    · rwa [hindex]
    · have hmono : blocksFor (o + len) ≤ fileBlocks size := by
        unfold fileBlocks blocksFor RFS_BLKSIZE
        omega
      omega

end

/-! ## Reads of a file -/

/-- The count of a read of `len` bytes at `o`, cut at the end of the file. -/
def readCount (size len o : Nat) : Nat := min len (size - o)

/-- Fetch the blocks of `plan` and hand `count` bytes to the caller, whose buffer holds `rBuf`. -/
def readAlong (plan : List Chunk) (v : Volume) (f : Vinode) (rBuf : Mem) (count o : Nat) :
    Outcome (Nat × Int × Mem × Volume) := do
  let (buffer, v) ← plan.foldlM (fetch f) (fun _ => 0, v)
  return (count, ((o + count : Nat) : Int), putString rBuf 0 (cstr buffer 0 count), v)

section

variable {v : Volume} {f : Vinode} {size len o nb : Nat}

theorem rfsRead_plan (v : Volume) (rBuf : Mem) (len : Nat) (hsize : f.size = size)
    (hfits : size < 2 ^ 31) (ho : o ≤ size) :
    rfsRead v f rBuf len o
      = readAlong (readPlan (readCount size len o) o) v f rBuf (readCount size len o) o := by
  have hoff : ¬ f.size < (o : Int) := by omega
  have hcount : (if f.size < (o : Int) + len then (f.size - o).toNat else len)
      = readCount size len o := by
    unfold readCount
    split
    · omega
    · omega
  have hle : o + readCount size len o ≤ size := by
    unfold readCount
    omega
  have hnext : wrap32 ((o : Int) + (readCount size len o : Nat))
      = ((o + readCount size len o : Nat) : Int) := by
    rw [← Int.natCast_add]
    exact wrap32_of_fits (fits_natCast (by omega))
  rw [rfsRead, if_neg hoff, hcount]
  dsimp only
  rw [readData_plan v f _ (by omega), hnext]
  rfl

theorem foldlM_fetch_ok (h : FileOk v f.toDinode nb) (plan : List Chunk) (buffer : Mem)
    (hin : ∀ c ∈ plan, c.index < nb) :
    ∃ buffer' v', plan.foldlM (fetch f) (buffer, v) = .ok (buffer', v') := by
  induction plan generalizing v buffer with
  | nil => exact ⟨buffer, v, rfl⟩
  | cons c plan ih =>
    have hindex := hin c (.head ..)
    have hlt : c.index < DIRECT_BLKNUM := hindex.trans_le h.le
    obtain ⟨b, hb, hdata, -⟩ := h.data c.index hindex
    have haddr : addrAt f.toDinode c.index = .ok (f.addr c.index) := by
      rw [addrAt, if_pos ⟨by omega, by omega⟩, Int.toNat_natCast]
    have hread : ramdiskRead v.dev b
        = .ok { v.dev with iobuffer := v.dev.blocks (b : Int).toNat } := ramdiskRead_eq hdata.onDisk
    have hok : FileOk { v with dev := { v.dev with iobuffer := v.dev.blocks (b : Int).toNat } }
        f.toDinode nb := ⟨h.nblocks, h.blocks_eq, h.le, h.data, h.inj⟩
    rw [foldlM_cons, fetch, readChunk, haddr, ok_bind, hb, hread, ok_bind, pure_eq_ok, ok_bind]
    exact ih hok _ fun c' hc' => hin c' (.tail _ hc')

/-- **Which blocks a read fetches.** A read at `o` fetches the blocks of its plan, and they are
blocks of the file unless the file is full to the end of its last block and `o` is its end. -/
theorem read_blocks_iff (len : Nat) (hsize : f.size = size) (hfits : size < 2 ^ 31)
    (ho : o ≤ size) :
    (∀ (v : Volume) (rBuf : Mem), rfsRead v f rBuf len o
      = readAlong (readPlan (readCount size len o) o) v f rBuf (readCount size len o) o) ∧
    ((∀ c ∈ readPlan (readCount size len o) o, c.index < fileBlocks size) ↔
      ¬ (0 < size ∧ RFS_BLKSIZE ∣ size ∧ o = size)) := by
  have hle : o + readCount size len o ≤ size := by
    unfold readCount
    omega
  exact ⟨fun v rBuf => rfsRead_plan v rBuf len hsize hfits ho, readPlan_inside_iff hle⟩

theorem readPlan_run_ok (h : FileOk v f.toDinode (fileBlocks size)) (len : Nat) (ho : o < size) :
    ∃ buffer v', (readPlan (readCount size len o) o).foldlM (fetch f) (fun _ => 0, v)
      = .ok (buffer, v') := by
  have hle : o + readCount size len o ≤ size := by
    unfold readCount
    omega
  exact foldlM_fetch_ok h _ _ ((readPlan_inside_iff hle).mpr fun hend => Nat.ne_of_lt ho hend.2.2)

theorem rfsRead_ok (h : FileOk v f.toDinode (fileBlocks size)) (rBuf : Mem) (len : Nat)
    (hsize : f.size = size) (hfits : size < 2 ^ 31) (ho : o < size) :
    ∃ offset' rBuf' v', rfsRead v f rBuf len o = .ok (readCount size len o, offset', rBuf', v') := by
  obtain ⟨buffer, v', hrun⟩ := readPlan_run_ok h len ho
  rw [rfsRead_plan v rBuf len hsize hfits ho.le, readAlong, hrun, ok_bind]
  exact ⟨_, _, _, rfl⟩

/-- **Gathering the blocks of a read.** Inside a file, the local buffer of `rfs_read` gets the
bytes of the file from the offset on, up to the count or to the end, and its text goes to `rBuf`. -/
theorem read_gathers (h : FileOk v f.toDinode (fileBlocks size)) (len : Nat)
    (hsize : f.size = size) (ho : o < size) :
    ∃ buffer v', readData v f (fun _ => 0) (min len (size - o)) o = .ok (buffer, v') ∧
      (∀ j, j < min len (size - o) → buffer j = v.byte f.toDinode (o + j)) ∧
      ∀ rBuf, rfsRead v f rBuf len o = .ok (min len (size - o),
        ((o + min len (size - o) : Nat) : Int),
        putString rBuf 0 (cstr buffer 0 (min len (size - o))), v') := by
  have hcap : size ≤ DIRECT_BLKNUM * RFS_BLKSIZE := by
    have hblocks := h.le
    unfold fileBlocks blocksFor RFS_BLKSIZE at hblocks
    unfold RFS_BLKSIZE
    omega
  unfold DIRECT_BLKNUM RFS_BLKSIZE at hcap
  obtain ⟨buffer, v', hrun⟩ := readPlan_run_ok h len ho
  have hdata : readData v f (fun _ => 0) (readCount size len o) o = .ok (buffer, v') := by
    rw [readData_plan v f _ (by unfold readCount; omega), hrun]
  obtain ⟨-, -, -, hbyte⟩ := readData_byte (by unfold readCount DIRECT_BLKNUM RFS_BLKSIZE; omega) hdata
  refine ⟨buffer, v', hdata, hbyte, fun rBuf => ?_⟩
  rw [rfsRead_plan v rBuf len hsize (by omega) ho.le, readAlong, hrun, ok_bind]
  rfl

/-- **What was written is read back.** `rfs_read` hands out every part of the range that
`rfs_write` has written, as text: up to the first `NUL` of that part. -/
theorem rfsRead_written (wBuf : Mem) (h : FileOk v f.toDinode (fileBlocks size))
    (hsize : f.size = size) (ho : o ≤ size) (hmax : o + len ≤ DIRECT_BLKNUM * RFS_BLKSIZE)
    (hfree : blocksFor (o + len) - fileBlocks size ≤ v.sb.freeCount) :
    ∃ v' f', rfsWrite v f wBuf len o = .ok (len, (o + len : Nat), v', f') ∧
      ∀ i n rBuf, 0 < n → i + n ≤ len → ∃ v'', rfsRead v' f' rBuf n (o + i : Nat) =
        .ok (n, (o + i : Nat) + n, putString rBuf 0 (cstr wBuf i n), v'') := by
  obtain ⟨v', f', hw, hwrote⟩ := (rfsWrite_spec wBuf h hsize (le_fileBlocks size) ho hmax).1 hfree
  have hblocks : max (fileBlocks size) (blocksFor (o + len)) = fileBlocks (max size (o + len)) := by
    unfold fileBlocks blocksFor RFS_BLKSIZE
    omega
  rw [hblocks] at hwrote
  have hle := hwrote.ok.le
  have hfit := le_fileBlocks (max size (o + len))
  unfold RFS_BLKSIZE at hfit
  unfold DIRECT_BLKNUM at hle
  refine ⟨v', _, hw, fun i n rBuf hn hin => ?_⟩
  obtain ⟨o', rBuf', v'', hread⟩ := rfsRead_ok (f := { f' with size := (max size (o + len) : Nat) })
    { hwrote.ok with } rBuf n rfl (by omega) (show o + i < _ by omega)
  have hcount : readCount (max size (o + len)) n (o + i) = n := by
    unfold readCount
    omega
  rw [hcount] at hread
  obtain ⟨-, -, -, -, -, rfl, buffer, hbuf, hdst⟩ := rfsRead_inv (by
    unfold RFS_BLKSIZE DIRECT_BLKNUM
    exact Int.ofNat_le.mpr (by omega)) hread
  have hstr : cstr buffer 0 n = cstr wBuf i n := by
    refine cstr_congr fun j hj => ?_
    rw [Nat.zero_add, hbuf j hj]
    refine (hwrote.byte (o + i + j) ?_).trans ?_
    · unfold RFS_BLKSIZE
      omega
    · rw [written, if_neg (by omega), replaced, if_pos (by omega)]
      exact congrArg wBuf (by omega)
  exact ⟨v'', hstr ▸ hdst rBuf⟩

end

/-! ## A file in a row of blocks -/

/-- A disk of zeros with one file of `size` bytes in the first `nb` data blocks. -/
def rowFile (nb size : Nat) : Volume × Vinode :=
  ({ dev := { blocks := fun _ _ => 0, iobuffer := fun _ => 0 }
     sb := { nblocks := RFS_NBLOCKS, freemap := fun b => if b < nb then 1 else 0 } },
   { size := size, type := R_FILE, nlinks := 1, blocks := nb
     addrs := fun i => (RFS_BLK_OFFSET_FREE + i : Nat), inum := 1, ref := 1 })

theorem rowFile_addr {nb size i : Nat} (h : i < DIRECT_BLKNUM) :
    (rowFile nb size).2.addr i = (RFS_BLK_OFFSET_FREE + i : Nat) := dif_pos h

theorem rowFile_ok {nb : Nat} (size : Nat) (h : nb ≤ DIRECT_BLKNUM) :
    FileOk (rowFile nb size).1 (rowFile nb size).2.toDinode nb := by
  refine ⟨rfl, rfl, h, fun i hi => ⟨RFS_BLK_OFFSET_FREE + i, rowFile_addr (by omega), ?_, ?_⟩,
    fun i j hi hj heq => ?_⟩
  · unfold IsData RFS_NBLOCKS
    unfold DIRECT_BLKNUM at h
    omega
  · show (if RFS_BLK_OFFSET_FREE + i - RFS_BLK_OFFSET_FREE < nb then (1 : Int) else 0) ≠ 0
    rw [if_pos (by omega)]
    decide
  · rw [rowFile_addr (by omega), rowFile_addr (by omega)] at heq
    omega

/-- A read past the end, of a file that is not full. -/
theorem read_blocks_iff_short :
    readPlan (readCount 20 4096 20) 20 ≠ [] ∧
      ∀ c ∈ readPlan (readCount 20 4096 20) 20, c.index < fileBlocks 20 :=
  ⟨by decide,
    (read_blocks_iff (f := (rowFile 1 20).2) 4096 rfl (by decide) (by decide)).2.mpr (by decide)⟩

/-- At the end of a file of one full block, `addrs[1]` is fetched; at the end of a file of the
maximal size, `addrs[10]`, which is past the array. -/
theorem read_at_full_end :
    (readPlan (readCount 4096 1 4096) 4096).map Chunk.index = [1] ∧ fileBlocks 4096 = 1 ∧
      FileOk (rowFile 10 40960).1 (rowFile 10 40960).2.toDinode (fileBlocks 40960) ∧
      (readPlan (readCount 40960 1 40960) 40960).map Chunk.index = [DIRECT_BLKNUM] ∧
      ∀ rBuf, rfsRead (rowFile 10 40960).1 (rowFile 10 40960).2 rBuf 1 (40960 : Nat)
        = .error .undefined := by
  refine ⟨by decide, by decide, rowFile_ok 40960 (by decide), by decide, fun rBuf => ?_⟩
  have hplan : readPlan (readCount 40960 1 40960) 40960 = [⟨10, 0, 0, 0⟩] := by decide
  have hrun : rfsRead (rowFile 10 40960).1 (rowFile 10 40960).2 rBuf 1 (40960 : Nat)
      = readAlong (readPlan (readCount 40960 1 40960) 40960) (rowFile 10 40960).1
          (rowFile 10 40960).2 rBuf (readCount 40960 1 40960) 40960 :=
    rfsRead_plan _ rBuf 1 rfl (by decide) (by decide)
  rw [hrun, hplan]
  rfl

/-- Across the end of the first of two blocks. -/
theorem read_gathers_across :
    ∃ buffer v', readData (rowFile (fileBlocks 5000) 5000).1 (rowFile (fileBlocks 5000) 5000).2
        (fun _ => 0) (min 4096 (5000 - 4000)) (4000 : Nat) = .ok (buffer, v') := by
  obtain ⟨buffer, v', hdata, -⟩ :=
    read_gathers (o := 4000) (rowFile_ok 5000 (by decide)) 4096 rfl (by decide)
  exact ⟨buffer, v', hdata⟩

/-- Inside the only block of a file, over its end. -/
theorem rfsRead_written_over : ∃ v' f', rfsWrite (rowFile 1 20).1 (rowFile 1 20).2
    (fun j => .ofNat (j + 65)) 16 (8 : Nat) = .ok (16, (24 : Nat), v', f') ∧
      ∀ rBuf, ∃ v'', rfsRead v' f' rBuf 4 (20 : Nat)
        = .ok (4, (20 : Nat) + 4, putString rBuf 0 [77, 78, 79, 80], v'') := by
  have hok : FileOk (rowFile 1 20).1 (rowFile 1 20).2.toDinode (fileBlocks 20) :=
    rowFile_ok 20 (by decide)
  obtain ⟨v', f', hw, hr⟩ := rfsRead_written (fun j => .ofNat (j + 65)) hok rfl
    (show 8 ≤ 20 by decide) (show 8 + 16 ≤ _ by decide) (by decide)
  exact ⟨v', f', hw, fun rBuf => hr 12 4 rBuf (by decide) (by decide)⟩

end CabbagePKE
