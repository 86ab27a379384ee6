import CabbagePKE.Process.Files
import CabbagePKE.Rfs.Plan
import CabbagePKE.Vfs.Positions

/-!
# What a read brings to the caller

`do_read` has `rfs_read` fill a local buffer and copies it to the caller; both
copies are made with `strcpy` and end at the first `NUL` of the contents. So the
contents decide how many bytes arrive (`do_read_delivers_iff`) and whether the
byte after the caller's buffer is overwritten (`do_read_inside_iff`). The local
buffers are taken to fit on the kernel stack.
-/

namespace CabbagePKE

open Lib Function FileTable SharedFile

/-! ## Reading a file of the RAM disk -/

/-- Descriptor `fd` is open for reading at `o`, on a file of the RAM disk of `size` bytes. -/
structure FileTable.ReadsAt (t : FileTable) (fd : Int) (node : Vinode) (size o : Nat) : Prop where
  readable : (t.entry fd).readable ≠ 0
  found : ∃ e, t.vfs.Node (t.entry fd) e node
  type : node.type = R_FILE
  size_eq : node.size = size
  ok : FileOk t.vfs.rfs.vol node.toDinode (fileBlocks size)
  offset : (t.entry fd).offset = o

section

variable {t : FileTable} {fd : Int} {e : Dentry} {node : Vinode} {size o : Nat}

theorem doRead_rfs (stack buf : Mem) (count : Nat) (hr : (t.entry fd).readable ≠ 0)
    (hnode : t.vfs.Node (t.entry fd) e node) (htype : node.type = R_FILE) :
    t.doRead fd stack buf count = (do
      let (n, offset, buffer, vol) ← rfsRead t.vfs.rfs.vol node stack count (t.entry fd).offset
      return (wrap32 n, putString buf 0 (cstr buffer 0 count),
        t.put fd { t.entry fd with offset := offset }
          { t.vfs with rfs := { t.vfs.rfs with vol := vol } })) := by
  obtain ⟨d, p, hd, -, -, hp, hv, ht⟩ := hnode.reads
  rw [htype] at ht
  rw [doRead, if_neg hr, onEntry, hd]
  dsimp only
  rw [vfsRead_node stack count hr hp hv ht]
  cases rfsRead t.vfs.rfs.vol node stack count (t.entry fd).offset with
  | error halt => rfl
  | ok out => simp [Vfs.setOffset, Vfs.file, OpenFile.toFile, Vfs.withFile, hd]

theorem FileTable.put_entry_self (t : FileTable) (fd : Int) (x : OpenFile) (s : Vfs) :
    (t.put fd x s).entry fd = x := by simp [put, entry]

theorem FileTable.ReadsAt.size_le (h : t.ReadsAt fd node size o) :
    size ≤ DIRECT_BLKNUM * RFS_BLKSIZE := by
  have hle := le_fileBlocks size
  have hten := h.ok.le
  unfold RFS_BLKSIZE at *
  omega

theorem FileTable.ReadsAt.doRead (h : t.ReadsAt fd node size o) (ho : o < size) (stack : Mem)
    (count : Nat) :
    ∃ (buffer : Mem) (t' : FileTable),
      (∀ buf, t.doRead fd stack buf count = .ok (((min count (size - o) : Nat) : Int),
        putString buf 0 (cstr buffer 0 (min count (size - o))), t')) ∧
      (t'.entry fd).offset = ((o + min count (size - o) : Nat) : Int) ∧
      ∀ j, j < min count (size - o) → buffer j = t.vfs.rfs.vol.byte node.toDinode (o + j) := by
  have hsize := h.size_le
  have hfits : size < 2 ^ 31 := by
    unfold DIRECT_BLKNUM RFS_BLKSIZE at hsize
    omega
  obtain ⟨e, hnode⟩ := h.found
  obtain ⟨offset', rBuf', v', hrun⟩ := rfsRead_ok h.ok stack count h.size_eq hfits ho
  obtain ⟨-, -, -, -, -, hoffset, buffer, hbyte, hdst⟩ :=
    rfsRead_inv (by rw [h.size_eq]; exact Int.ofNat_le.mpr hsize) hrun
  have hwrap : wrap32 ((min count (size - o) : Nat) : Int) = ((min count (size - o) : Nat) : Int) :=
    wrap32_of_fits (fits_natCast (by omega))
  refine ⟨buffer, t.put fd { t.entry fd with offset := offset' }
    { t.vfs with rfs := { t.vfs.rfs with vol := v' } }, fun buf => ?_, ?_, hbyte⟩
  · rw [doRead_rfs stack buf count h.readable hnode h.type, h.offset, hdst stack, ok_bind]
    dsimp only
    rw [readCount, hwrap, cstr_putString_cstr stack buffer 0 0 (Nat.min_le_left _ _)]
    rfl
  · rw [put_entry_self, hoffset, Int.natCast_add]
    rfl

/-- **What a read delivers.** Before the end of the file `do_read` returns the number of bytes
that are there, at most `count`, and moves the offset by it. The caller gets the bytes of the
file if and only if those after a zero byte are in the buffer already. -/
theorem do_read_delivers_iff (h : t.ReadsAt fd node size o) (ho : o < size) (stack buf : Mem)
    (count : Nat) :
    ∃ buf' t', t.doRead fd stack buf count = .ok (((min count (size - o) : Nat) : Int), buf', t') ∧
      (t'.entry fd).offset = ((o + min count (size - o) : Nat) : Int) ∧
      ((∀ j, j < min count (size - o) → buf' j = t.vfs.rfs.vol.byte node.toDinode (o + j)) ↔
        ∀ j, j < min count (size - o) →
          (∃ i, i < j ∧ t.vfs.rfs.vol.byte node.toDinode (o + i) = 0) →
            buf j = t.vfs.rfs.vol.byte node.toDinode (o + j)) := by
  obtain ⟨buffer, t', hrun, hoffset, hbyte⟩ := h.doRead ho stack count
  refine ⟨_, t', hrun buf, hoffset, ?_⟩
  have hcopy := putString_cstr_eq_iff buf buffer 0 0 (min count (size - o))
  simp only [Nat.zero_add] at hcopy
  have hzero : ∀ j, j < min count (size - o) → ((∃ i, i < j ∧ buffer i = 0) ↔
      ∃ i, i < j ∧ t.vfs.rfs.vol.byte node.toDinode (o + i) = 0) := by
    intro j hj
    refine exists_congr fun i => and_congr_right fun hi => ?_
    rw [hbyte i (hi.trans hj)]
  constructor
  · intro hall j hj hz
    rw [← hbyte j hj]
    refine hcopy.mp (fun j hj => ?_) j hj ((hzero j hj).mpr hz)
    rw [hall j hj, hbyte j hj]
  · intro hold j hj
    rw [← hbyte j hj]
    refine hcopy.mpr (fun j hj hz => ?_) j hj
    rw [hbyte j hj]
    exact hold j hj ((hzero j hj).mp hz)

end

/-- Descriptor 0 is open for reading at `o`, on a file of `size` zeros in `nb` blocks. -/
def rowTable (nb size : Nat) (o : Int) : FileTable where
  vfs :=
    { rfs := { vol := (rowFile nb size).1, vinodes := fun _ => some (rowFile nb size).2
               nextVinode := 1 }
      dirCaches := fun _ => none
      vinodeHash := fun _ => none
      dentries := fun _ => some { name := [97], dRef := 1, inode := .rfs 0, parent := none }
      nextDentry := 1
      dentryHash := fun _ => none
      files := fun _ => none
      nextFile := 0 }
  pfiles := { cwd := 0, openedFiles := fun _ => ⟨FD_OPENED, 1, 0, o, some 0⟩, nfiles := 1 }

/-- Zeros arrive in a buffer of zeros. -/
theorem do_read_delivers_iff_zeros :
    ∃ buf' t', (rowTable 1 20 8).doRead 0 (fun _ => 7) (fun _ => 0) 16 = .ok (12, buf', t') ∧
      (t'.entry 0).offset = 20 ∧ ∀ j, j < 12 → buf' j = 0 := by
  have hreads : (rowTable 1 20 8).ReadsAt 0 (rowFile 1 20).2 20 8 :=
    ⟨by decide, ⟨_, 0, 0, rfl, rfl, rfl, rfl⟩, rfl, rfl, rowFile_ok 20 (by decide), rfl⟩
  obtain ⟨buf', t', hrun, hoffset, hbytes⟩ :=
    do_read_delivers_iff hreads (by decide) (fun _ => 7) (fun _ => 0) 16
  exact ⟨buf', t', hrun, hoffset, hbytes.mpr fun _ _ _ => rfl⟩

/-- A file of the bytes 65, 0 and 66 is read into a buffer of nines: `do_read` returns 3, and the
third byte is still 9. -/
theorem read_ends_at_nul :
    ∃ (t₀ t t' : FileTable) (node : Vinode) (buf' : Mem), t₀.Fresh ∧
      Reaches FileTable.step (fun _ _ => True) t₀ t ∧ (t.entry 0).dentry = some 3 ∧
      (t.vfs.rfsInode 3 >>= t.vfs.rfs.vinode) = .ok node ∧ node.size = 3 ∧
      t.vfs.rfs.vol.byte node.toDinode 2 = 66 ∧
      t.doRead 0 (fun _ => 0) (fun _ => 9) 3 = .ok (3, buf', t') ∧ buf' 2 = 9 := by
  have hrun : TableRun [.openFile pathA 66, .call 0 (.write (fun j => [65, 0, 66].getD j 0) 3),
      .call 0 (.lseek 0 0)] (fun t => (t.entry 0).dentry = some 3 ∧
        (∃ node, (t.vfs.rfsInode 3 >>= t.vfs.rfs.vinode) = .ok node ∧ node.size = 3 ∧
          t.vfs.rfs.vol.byte node.toDinode 2 = 66) ∧
        ∃ out, t.doRead 0 (fun _ => 0) (fun _ => 9) 3 = .ok out ∧ out.1 = 3 ∧ out.2.1 2 = 9) := by
    decide +kernel
  obtain ⟨t₀, t, hfresh, hreach, hopen, ⟨node, hnode, hsize, hlast⟩, ⟨r, buf', t'⟩, hread, rfl,
    hbyte⟩ := hrun.reached
  exact ⟨t₀, t, t', node, buf', hfresh, hreach, hopen, hnode, hsize, hlast, hread, hbyte⟩

/-! ## The memory around the buffer -/

/-- `do_read` into the memory at `buf`, on a descriptor that is open for reading -/
def SharedFile.doRead (s : SharedFile) (d : Nat) (stack mem : Mem) (buf count : Nat) :
    Outcome (Int × Mem × SharedFile) := do
  let (len, buffer, s) ← s.vfsRead d stack count
  return (wrap32 len, putString mem buf (cstr buffer 0 count), s)

/-- The local buffer has a `NUL` before byte `count`. RFS puts one behind the bytes it has read;
behind the bytes of a host file the buffer is as it was. -/
def SharedFile.Terminates (s : SharedFile) (d : Nat) (stack : Mem) (count : Nat) : Prop :=
  match s.backend with
  | .rfs v f => f.size < s.offset d + count ∨
      ∃ j, j < count ∧ v.byte f.toDinode ((s.offset d).toNat + j) = 0
  | .host pf => ∃ j, j < count ∧
      (if j < pf.size - pf.pos then pf.bytes (pf.pos + j) else stack j) = 0

section

variable {s s' : SharedFile} {t : FileTable} {d buf count : Nat} {stack mem mem' : Mem} {r : Int}

theorem SharedFile.doRead_table {fd : Int} {e : Dentry} {node : Vinode}
    (hr : (t.entry fd).readable ≠ 0) (hnode : t.vfs.Node (t.entry fd) e node)
    (htype : node.type = R_FILE) (hs : s.backend = .rfs t.vfs.rfs.vol node)
    (hoff : s.offset d = (t.entry fd).offset)
    (h : s.doRead d stack mem 0 count = .ok (r, mem', s')) :
    ∃ t', t.doRead fd stack mem count = .ok (r, mem', t') ∧ (t'.entry fd).offset = s'.offset d := by
  simp only [doRead, vfsRead, hs, hoff, bind_eq_ok] at h
  obtain ⟨_, ⟨⟨n, offset, buffer, vol⟩, hread, hout⟩, h⟩ := h
  cases hout
  cases h
  rw [doRead_rfs stack mem count hr hnode htype, hread]
  refine ⟨_, rfl, ?_⟩
  rw [put_entry_self]
  exact (update_self d offset s.offset).symm

theorem rfsRead_count {v v' : Volume} {f : Vinode} {n len : Nat} {offset offset' : Int}
    {buf' : Mem} (h : rfsRead v f mem len offset = .ok (n, offset', buf', v')) :
    (f.size < offset + len → n < len) ∧ (¬ f.size < offset + len → n = len) := by
  unfold rfsRead at h
  split at h
  · cases h
  rw [bind_eq_ok] at h
  obtain ⟨_, -, h⟩ := h
  simp only [pure_eq_ok, Except.ok.injEq, Prod.mk.injEq] at h
  rw [← h.1]
  constructor
  · intro hlt
    rw [if_pos hlt]
    omega
  · intro hle
    rw [if_neg hle]

theorem SharedFile.terminates_iff {buffer : Mem} (hsize : s.SizeOk)
    (h : s.vfsRead d stack count = .ok (r, buffer, s')) :
    (∃ j, j < count ∧ buffer j = 0) ↔ s.Terminates d stack count := by
  unfold vfsRead at h
  unfold SharedFile.Terminates
  cases hb : s.backend with
  | rfs v f =>
    rw [hb] at h
    rw [bind_eq_ok] at h
    obtain ⟨⟨n, offset', buf', v'⟩, hread, h⟩ := h
    cases h
    obtain ⟨hcut, hall⟩ := rfsRead_count hread
    obtain ⟨-, -, -, hn, -, -, b, hbyte, hdst⟩ := rfsRead_inv (hsize v f hb) hread
    -- the string in the local buffer is the one that RFS has put there
    rw [hdst stack] at hread
    cases hread
    have hstr := cstr_length_lt_iff (m := putString stack 0 (cstr b 0 n)) (a := 0)
      (Nat.le_refl count)
    rw [cstr_putString_cstr stack b 0 0 hn] at hstr
    simp only [Nat.zero_add] at hstr
    rw [← hstr]
    by_cases hlt : f.size < s.offset d + count
    · have hle := cstr_length_le b 0 n
      exact iff_of_true (hle.trans_lt (hcut hlt)) (.inl hlt)
    · obtain rfl : n = count := hall hlt
      rw [cstr_length_lt_iff (Nat.le_refl n)]
      simp only [hlt, false_or, Nat.zero_add]
      refine exists_congr fun j => and_congr_right fun hj => ?_
      rw [hbyte j hj]
  | host pf =>
    rw [hb] at h
    cases h
    refine exists_congr fun j => and_congr_right fun hj => ?_
    by_cases hin : j < pf.size - pf.pos
    · have hcopy : 0 ≤ j ∧ j < 0 + min count (pf.size - pf.pos) := by omega
      rw [copyBytes, if_pos hcopy, if_pos hin]
      rfl
    · have hcopy : ¬ (0 ≤ j ∧ j < 0 + min count (pf.size - pf.pos)) := by omega
      rw [copyBytes, if_neg hcopy, if_neg hin]

/-- **Which reads stay inside the buffer.** `do_read` changes no byte outside the `count` bytes at
`buf` if and only if its local buffer has a `NUL` before byte `count`, or the byte after the buffer
is 0 already. For a piece of a page the other pages are unchanged in these cases and if the piece
ends before the page does. -/
theorem do_read_inside_iff (hsize : s.SizeOk)
    (h : s.doRead d stack mem buf count = .ok (r, mem', s')) :
    ((∀ x, x < buf ∨ buf + count ≤ x → mem' x = mem x) ↔
      s.Terminates d stack count ∨ mem (buf + count) = 0) ∧
    ∀ pa off, pa % PGSIZE = 0 → buf = pa + off → off + count ≤ PGSIZE →
      ((∀ q, q % PGSIZE = 0 → q ≠ pa → ∀ i, i < PGSIZE → mem' (q + i) = mem (q + i)) ↔
        s.Terminates d stack count ∨ off + count < PGSIZE ∨ mem (pa + PGSIZE) = 0) := by
  rw [SharedFile.doRead, bind_eq_ok] at h
  obtain ⟨⟨len, buffer, s₁⟩, hread, h⟩ := h
  cases h
  have hout := putString_cstr_outside_iff mem buffer buf 0 count
  simp only [Nat.zero_add] at hout
  rw [SharedFile.terminates_iff hsize hread] at hout
  refine ⟨hout, ?_⟩
  rintro pa off hpa rfl hfit
  -- the copy stores at most `count + 1` bytes
  have hlen := cstr_length_le buffer 0 count
  have hfar : ∀ x, x < pa + off ∨ pa + off + count < x →
      putString mem (pa + off) (cstr buffer 0 count) x = mem x :=
    fun x hx => putString_outside (by omega)
  constructor
  · intro hpages
    by_cases hend : off + count < PGSIZE
    · exact .inr (.inl hend)
    have hlast : pa + off + count = pa + PGSIZE := by omega
    rw [hlast] at hout
    refine (hout.mp fun x hx => ?_).imp_right .inr
    by_cases hin : x < pa + off
    · exact hfar x (.inl hin)
    have hpage := hpages (x / PGSIZE * PGSIZE) (Nat.mul_mod_left _ _)
      (by unfold PGSIZE at *; omega) (x % PGSIZE) (Nat.mod_lt _ (by decide))
    rwa [Nat.div_add_mod'] at hpage
  · intro hcases q hq hne i hi
    have hap := page_apart hq hpa hne
    by_cases hend : off + count < PGSIZE
    · exact hfar _ (by omega)
    have hlast : pa + off + count = pa + PGSIZE := by omega
    rw [hlast] at hout
    refine hout.mpr ?_ (q + i) (by omega)
    exact hcases.imp_right fun hor => hor.resolve_left hend

end

def oneByte (host : Bool) : SharedFile where
  backend :=
    if host then .host { bytes := fun _ => 65, size := 1, pos := 0 }
    else .rfs { (rowFile 1 1).1 with dev := { blocks := fun _ _ => 65, iobuffer := fun _ => 0 } }
      (rowFile 1 1).2
  offset _ := 0

theorem oneByte_sizeOk (host : Bool) : (oneByte host).SizeOk := by
  cases host with
  | true => rintro v f ⟨⟩
  | false =>
    rintro v f ⟨⟩
    decide

/-- A read of one byte more than there is. -/
theorem do_read_inside_iff_longer :
    ∃ r mem' s', (oneByte false).doRead 0 (fun _ => 7) (fun _ => 9) 4000 2 = .ok (r, mem', s') ∧
      ∀ x, x < 4000 ∨ 4002 ≤ x → mem' x = 9 := by
  obtain ⟨⟨r, mem', s'⟩, hread⟩ :
      ∃ out, (oneByte false).doRead 0 (fun _ => 7) (fun _ => 9) 4000 2 = .ok out := by
    decide +kernel
  refine ⟨r, mem', s', hread, ?_⟩
  exact (do_read_inside_iff (oneByte_sizeOk false) hread).1.mpr (.inl (.inl (by decide)))

/-- The byte is read into the last byte of a page, and the first byte of the next page is
overwritten; on both file systems. -/
theorem read_writes_next_page :
    (∃ r mem' s', (oneByte false).doRead 0 (fun _ => 7) (fun _ => 9) 4095 1
      = .ok (r, mem', s') ∧ r = 1 ∧ mem' 4095 = 65 ∧ mem' 4096 = 0) ∧
    ∃ r mem' s', (oneByte true).doRead 0 (fun _ => 7) (fun _ => 9) 4095 1
      = .ok (r, mem', s') ∧ r = 1 ∧ mem' 4095 = 65 ∧ mem' 4096 = 0 := by
  have hread : ∀ host : Bool, ∃ out, (oneByte host).doRead 0 (fun _ => 7) (fun _ => 9) 4095 1
      = .ok out ∧ out.1 = 1 ∧ out.2.1 4095 = 65 ∧ out.2.1 4096 = 0 := by decide +kernel
  obtain ⟨⟨r, mem', s'⟩, hrun, hout⟩ := hread false
  obtain ⟨⟨r', mem'', s''⟩, hrun', hout'⟩ := hread true
  exact ⟨⟨r, mem', s', hrun, hout⟩, r', mem'', s'', hrun', hout'⟩

end CabbagePKE
