import CabbagePKE.Rfs.Overwrite
import CabbagePKE.Vfs.Model
import CabbagePKE.Vm.PageTable

/-!
# Appending through the write system call

`sys_user_write` cuts the buffer of the user at page boundaries, because
neighbouring virtual pages may be anywhere in memory, and `rfs_write` cuts each
piece again at block boundaries. At the end of a file each piece is appended
after the last one. The pages of the disk and of its buffer are the kernel's, so
writing does not change the user's bytes.
-/

namespace CabbagePKE

open Lib Function

/-! ## The system call -/

/-- What the call reads of the current process, with the memory: the page table
and where the entries of `opened_files` are. -/
structure UserFiles where
  pagetable : PageTable
  mem : Mem
  openedFiles : Nat → Nat

def toU64 (x : Int) : Nat := (x % 2 ^ 64).toNat

def UserFiles.byte (c : UserFiles) (va : Nat) : UInt8 := c.mem (userVaToPa c.pagetable va)

/-- `get_opened_file`: a descriptor outside the array names the last entry -/
def UserFiles.getOpenedFile (c : UserFiles) (fd : Int) : Nat :=
  if 0 ≤ fd ∧ fd < (MAX_FILES : Int) then c.openedFiles fd.toNat
  else c.openedFiles (MAX_FILES - 1)

def UserFiles.doWrite (c : UserFiles) (s : Vfs) (fd : Int) (buf : Mem) (count : Nat) :
    Outcome (Int × Vfs) := do
  let pfile ← s.file (c.getOpenedFile fd)
  if !pfile.writable then .error (.panic "do_write: cannot write file!\n" [])
  else do
    let (len, s) ← vfsWrite s (c.getOpenedFile fd) buf count
    return (wrap32 len, s)

/-- The loop of `sys_user_write`, from byte `i` on; each turn writes one byte at
least, or is the last one. A page that is not mapped is read through null. -/
def UserFiles.writePages (c : UserFiles) (fd : Int) (bufva count : Nat) :
    Nat → Int → Vfs → Outcome (Nat × Vfs)
  | 0, _, _ => .error .diverges
  | fuel + 1, i, s =>
    if toU64 i < count then
      let addr := toU64 (bufva + i)
      let pa := lookupPa c.pagetable addr
      let off := addr - ROUNDDOWN addr PGSIZE
      let left := toU64 (count - i)
      let len := if left < PGSIZE - off then left else PGSIZE - off
      if pa = 0 then .error .undefined
      else do
        let (r, s) ← c.doWrite s fd (fun x => c.mem (pa + off + x)) len
        let i := wrap32 (i + r)
        if toU64 r < len then return (toU64 i, s)
        else c.writePages fd bufva count fuel i s
    else .ok (count, s)

def UserFiles.sysUserWrite (c : UserFiles) (s : Vfs) (fd : Int) (bufva count : Nat) :
    Outcome (Nat × Vfs) :=
  c.writePages fd bufva count (count + 1) 0 s

/-! ## Files at their end -/

/-- Entry `f` is open for writing on the file with vinode `p`, at its end. -/
structure OpenAtEnd (s : Vfs) (f p : Nat) (node : Vinode) (size : Nat) : Prop where
  file : ∃ file e, s.files f = some file ∧ file.writable = true ∧ file.offset = size ∧
    s.dentries file.dentry = some e ∧ e.inode = .rfs p
  node_eq : s.rfs.vinodes p = some node
  type : node.type = R_FILE
  size_eq : node.size = size
  ok : FileOk s.rfs.vol node.toDinode (fileBlocks size)

/-- `d` is another file, of `nb` blocks: none is among the first `k` of `f`. -/
structure OtherFile (v : Volume) (f : Dinode) (k : Nat) (d : Dinode) (nb : Nat) : Prop where
  ok : FileOk v d nb
  apart : ∀ i j, i < nb → j < k → d.addr i ≠ f.addr j

/-- `n` bytes were appended to the file of vinode `p`, and no other file was
touched. -/
structure Appended (s s' : Vfs) (f p : Nat) (node node' : Vinode) (size n : Nat)
    (bytes : Nat → UInt8) : Prop where
  atEnd : OpenAtEnd s' f p node' (size + n)
  old : ∀ x, x < size →
    s'.rfs.vol.byte node'.toDinode x = s.rfs.vol.byte node.toDinode x
  new : ∀ j, j < n → s'.rfs.vol.byte node'.toDinode (size + j) = bytes j
  free : s'.rfs.vol.sb.freeCount + fileBlocks (size + n) =
    s.rfs.vol.sb.freeCount + fileBlocks size
  vinodes : ∀ q, q ≠ p → s'.rfs.vinodes q = s.rfs.vinodes q
  others : ∀ d nb, OtherFile s.rfs.vol node.toDinode (fileBlocks size) d nb →
    OtherFile s'.rfs.vol node'.toDinode (fileBlocks (size + n)) d nb ∧
      ∀ x, x / RFS_BLKSIZE < nb → s'.rfs.vol.byte d x = s.rfs.vol.byte d x

section

variable {s s' s'' : Vfs} {f p size n k : Nat} {node node' node'' : Vinode}
  {bytes bytes' : Nat → UInt8}

theorem Appended.refl (h : OpenAtEnd s f p node size) (bytes : Nat → UInt8) :
    Appended s s f p node node size 0 bytes where
  atEnd := h
  old _ _ := rfl
  new j hj := by omega
  free := rfl
  vinodes _ _ := rfl
  others _ _ hd := ⟨hd, fun _ _ => rfl⟩

theorem Appended.congr (h : Appended s s' f p node node' size n bytes)
    (hbytes : ∀ j, j < n → bytes j = bytes' j) : Appended s s' f p node node' size n bytes' :=
  { h with new := fun j hj => (h.new j hj).trans (hbytes j hj) }

theorem Appended.trans (h : Appended s s' f p node node' size n bytes)
    (h' : Appended s' s'' f p node' node'' (size + n) k bytes')
    (hbytes : ∀ j, bytes' j = bytes (n + j)) :
    Appended s s'' f p node node'' size (n + k) bytes where
  atEnd := by
    rw [← add_assoc]
    exact h'.atEnd
  old x hx := by rw [h'.old x (by omega), h.old x hx]
  new j hj := by
    by_cases hjn : j < n
    · rw [h'.old _ (by omega), h.new j hjn]
    · obtain ⟨i, rfl⟩ := Nat.exists_eq_add_of_le (not_lt.mp hjn)
      rw [← add_assoc, h'.new i (by omega), hbytes]
  free := by rw [← add_assoc, h'.free, h.free]
  vinodes q hq := by rw [h'.vinodes q hq, h.vinodes q hq]
  others d nb hd := by
    obtain ⟨hd', hsame⟩ := h.others d nb hd
    obtain ⟨hd'', hsame'⟩ := h'.others d nb hd'
    rw [← add_assoc]
    exact ⟨hd'', fun x hx => by rw [hsame' x hx, hsame x hx]⟩

theorem FileWrote.other {v v' : Volume} {f f' : Vinode} {nb nb' k : Nat} {g : Nat → UInt8}
    {d : Dinode} (h : FileWrote v f v' f' nb nb' g) (hd : OtherFile v f.toDinode nb d k) :
    OtherFile v' f'.toDinode nb' d k ∧ ∀ x, x / RFS_BLKSIZE < k → v'.byte d x = v.byte d x := by
  have hapart : ∀ i j, i < k → j < nb' → d.addr i ≠ f'.addr j := by
    intro i j hi hj heq
    by_cases hjn : j < nb
    · rw [h.addrs j hjn] at heq
      exact hd.apart i j hi hjn heq
    · -- a block that was in use is not handed out
      obtain ⟨b, hb, -, hused⟩ := hd.ok.data i hi
      exact h.fresh j (by omega) hj b (by rw [← heq, hb]) hused
  have hok : FileOk v' d k := by
    refine { hd.ok with nblocks := h.ok.nblocks, data := fun i hi => ?_ }
    obtain ⟨b, hb, hdata, hused⟩ := hd.ok.data i hi
    exact ⟨b, hb, hdata, (h.used b hdata).mpr (.inl hused)⟩
  refine ⟨⟨hok, hapart⟩, fun x hx => ?_⟩
  obtain ⟨b, hb, -⟩ := hd.ok.data _ hx
  have hother : ∀ i, i < nb' → f'.addr i ≠ b := by
    intro i hi heq
    exact hapart _ i hx hi (by rw [hb, heq])
  rw [Volume.byte, Volume.byte, hb, Int.toNat_natCast, h.others b hother]

theorem vfsWrite_appends (h : OpenAtEnd s f p node size) (buf : Mem)
    (hmax : size + n ≤ DIRECT_BLKNUM * RFS_BLKSIZE)
    (hfree : fileBlocks (size + n) - fileBlocks size ≤ s.rfs.vol.sb.freeCount) :
    ∃ s' node', vfsWrite s f buf n = .ok (n, s') ∧ Appended s s' f p node node' size n buf := by
  obtain ⟨file, e, hfile, hwritable, hoffset, hdentry, hinode⟩ := h.file
  have hneed : blocksFor (size + n) - fileBlocks size ≤ s.rfs.vol.sb.freeCount := by
    rw [← fileBlocks_add] at hfree
    omega
  obtain ⟨vol, node1, hrun, hw⟩ := (rfsWrite_spec buf h.ok h.size_eq (le_fileBlocks size)
    le_rfl hmax).1 hneed
  rw [fileBlocks_add] at hw
  have hbyte : ∀ x, x < size + n → vol.byte node1.toDinode x =
      replaced (s.rfs.vol.byte node.toDinode) buf size n x := by
    intro x hx
    have hblock : x / RFS_BLKSIZE < fileBlocks (size + n) := by
      unfold fileBlocks blocksFor RFS_BLKSIZE
      omega
    rw [hw.byte x hblock, written, if_neg (by omega)]
  refine ⟨{ s with
      rfs := { s.rfs.setVinode p { node1 with size := (size + n : Nat) } with vol := vol }
      files := update s.files f (some { file with offset := (size + n : Nat) }) },
    { node1 with size := (size + n : Nat) }, ?_, ?_⟩
  · simp [vfsWrite, Vfs.file, hfile, hwritable, Vfs.inodeType, Vfs.dentry, hdentry, hinode,
      Rfs.vinode, h.node_eq, h.type, Vfs.rfsInode, hoffset, hrun]
  · have htype : node1.type = R_FILE := by
      obtain ⟨addrs, rfl⟩ := hw.rest
      exact h.type
    refine { atEnd := ⟨?_, ?_, htype, rfl, { hw.ok with }⟩, old := ?_, new := ?_, free := hw.free
             vinodes := ?_, others := fun d nb hd => ?_ }
    · exact ⟨{ file with offset := (size + n : Nat) }, e, update_self .., hwritable, rfl,
        hdentry, hinode⟩
    · exact update_self ..
    · intro x hx
      refine (hbyte x (by omega)).trans ?_
      rw [replaced, if_neg (by omega)]
    · intro j hj
      refine (hbyte (size + j) (by omega)).trans ?_
      rw [replaced, if_pos (by omega), Nat.add_sub_cancel_left]
    · intro q hq
      exact update_of_ne hq ..
    · obtain ⟨hother, hsame⟩ := hw.other hd
      exact ⟨⟨hother.ok, hother.apart⟩, hsame⟩

end

/-! ## The loop over the pages -/

section

variable {c : UserFiles} {s : Vfs} {fd : Int} {p size count bufva i va : Nat} {node : Vinode}

theorem toU64_natCast {n : Nat} (h : n < 2 ^ 64) : toU64 n = n := by
  unfold toU64
  omega

theorem doWrite_appends {n : Nat} (h : OpenAtEnd s (c.getOpenedFile fd) p node size) (buf : Mem)
    (hmax : size + n ≤ DIRECT_BLKNUM * RFS_BLKSIZE)
    (hfree : fileBlocks (size + n) - fileBlocks size ≤ s.rfs.vol.sb.freeCount) :
    ∃ s' node', c.doWrite s fd buf n = .ok (n, s') ∧
      Appended s s' (c.getOpenedFile fd) p node node' size n buf := by
  obtain ⟨s', node', hrun, happ⟩ := vfsWrite_appends h buf hmax hfree
  obtain ⟨file, e, hfile, hwritable, -⟩ := h.file
  refine ⟨s', node', ?_, happ⟩
  have hlen : wrap32 (n : Int) = n := by
    apply wrap32_of_fits
    apply fits_natCast
    unfold RFS_BLKSIZE DIRECT_BLKNUM at hmax
    omega
  simp [UserFiles.doWrite, Vfs.file, hfile, hwritable, hrun, hlen]

theorem page_piece (c : UserFiles) {x : Nat} (hx : x < PGSIZE - va % PGSIZE) :
    c.mem (lookupPa c.pagetable va + va % PGSIZE + x) = c.byte (va + x) := by
  have hpage : (va + x) / PGSIZE = va / PGSIZE := by
    unfold PGSIZE at *
    omega
  have hoff : (va + x) % PGSIZE = va % PGSIZE + x := by
    unfold PGSIZE at *
    omega
  rw [UserFiles.byte, userVaToPa, lookupPa_page c.pagetable hpage, hoff, add_assoc]

def pieceLen (bufva count i : Nat) : Nat := min (count - i) (PGSIZE - (bufva + i) % PGSIZE)

theorem pieceLen_pos (bufva : Nat) (hi : i < count) : 0 < pieceLen bufva count i := by
  unfold pieceLen PGSIZE
  omega

theorem writePages_succ {fuel : Nat} {s' : Vfs} (hi : i < count) (hcount : count < 2 ^ 31)
    (hmapped : lookupPa c.pagetable (bufva + i) ≠ 0)
    (hwrite : c.doWrite s fd (fun x => c.mem (lookupPa c.pagetable (bufva + i) +
      (bufva + i) % PGSIZE + x)) (pieceLen bufva count i) = .ok (pieceLen bufva count i, s')) :
    c.writePages fd bufva count (fuel + 1) i s =
      c.writePages fd bufva count fuel (i + pieceLen bufva count i : Nat) s' := by
  have hva : bufva + i < MAXVA := by
    by_contra hge
    exact hmapped (if_pos (by omega))
  have hpiece : pieceLen bufva count i ≤ count - i := Nat.min_le_left ..
  have hi64 : toU64 i = i := toU64_natCast (by omega)
  have haddr : toU64 ((bufva : Int) + i) = bufva + i := by
    rw [← Int.natCast_add]
    apply toU64_natCast
    unfold MAXVA at hva
    omega
  have hleft : toU64 ((count : Int) - i) = count - i := by
    rw [← Int.ofNat_sub hi.le]
    exact toU64_natCast (by omega)
  have hoff : bufva + i - ROUNDDOWN (bufva + i) PGSIZE = (bufva + i) % PGSIZE := by
    unfold ROUNDDOWN PGSIZE
    omega
  have hlen : (if count - i < PGSIZE - (bufva + i) % PGSIZE then count - i
      else PGSIZE - (bufva + i) % PGSIZE) = pieceLen bufva count i := by
    unfold pieceLen
    split <;> omega
  have hr : toU64 (pieceLen bufva count i) = pieceLen bufva count i := toU64_natCast (by omega)
  have hnext : wrap32 ((i : Int) + pieceLen bufva count i) = (i + pieceLen bufva count i : Nat) := by
    rw [← Int.natCast_add]
    exact wrap32_of_fits (fits_natCast (by omega))
  rw [UserFiles.writePages]
  simp only [hi64, haddr, hleft, hoff, hlen, if_pos hi, if_neg hmapped, hwrite, ok_bind, hr, hnext,
    lt_irrefl, if_false]

theorem writePages_appends (hmapped : ∀ j, j < count → lookupPa c.pagetable (bufva + j) ≠ 0)
    (hmax : size + count ≤ DIRECT_BLKNUM * RFS_BLKSIZE) (fuel : Nat) (hi : i ≤ count)
    (hfuel : count - i < fuel) (h : OpenAtEnd s (c.getOpenedFile fd) p node (size + i))
    (hfree : fileBlocks (size + count) - fileBlocks (size + i) ≤ s.rfs.vol.sb.freeCount) :
    ∃ s' node', c.writePages fd bufva count fuel i s = .ok (count, s') ∧
      Appended s s' (c.getOpenedFile fd) p node node' (size + i) (count - i)
        (fun j => c.byte (bufva + i + j)) := by
  have hcount : count < 2 ^ 31 := by
    unfold RFS_BLKSIZE DIRECT_BLKNUM at hmax
    omega
  -- the fuel is the number of bytes left, and one for the last test
  induction fuel generalizing i s node with
  | zero => omega
  | succ fuel ih =>
    by_cases hlt : i < count
    · have hpos := pieceLen_pos bufva hlt
      have hpiece : pieceLen bufva count i ≤ count - i := Nat.min_le_left ..
      have hblocks : fileBlocks (size + i + pieceLen bufva count i) ≤
          fileBlocks (size + count) := by
        unfold fileBlocks blocksFor RFS_BLKSIZE
        omega
      obtain ⟨s1, node1, hwrite, happ⟩ := doWrite_appends h
        (fun x => c.mem (lookupPa c.pagetable (bufva + i) + (bufva + i) % PGSIZE + x))
        (n := pieceLen bufva count i) (by omega) (by omega)
      have hpage : Appended s s1 (c.getOpenedFile fd) p node node1 (size + i)
          (pieceLen bufva count i) (fun j => c.byte (bufva + i + j)) := by
        refine happ.congr (fun j hj => page_piece c ?_)
        exact hj.trans_le (Nat.min_le_right ..)
      have hend := happ.atEnd
      have hcnt := happ.free
      rw [add_assoc] at hend hcnt
      obtain ⟨s2, node2, hrun, hrest⟩ := ih (i := i + pieceLen bufva count i) (by omega)
        (by omega) hend (by omega)
      refine ⟨s2, node2, ?_, ?_⟩
      · rw [writePages_succ hlt hcount (hmapped i hlt) hwrite, hrun]
      · rw [← add_assoc] at hrest
        have hall := hpage.trans hrest (fun j => by
          rw [add_assoc, add_assoc, add_assoc])
        rwa [show pieceLen bufva count i + (count - (i + pieceLen bufva count i)) = count - i
          from by omega] at hall
    · obtain rfl : i = count := by omega
      refine ⟨s, node, ?_, ?_⟩
      · rw [UserFiles.writePages, toU64_natCast (by omega), if_neg (lt_irrefl i)]
      · rw [Nat.sub_self]
        exact .refl h _

end

/-- **Writing at the end of a file appends**: wherever the pages of the buffer
are, and however pages and blocks cut it, the call returns `count`, the file
grows by the bytes of the buffer, and no other file changes. -/
theorem sysUserWrite_appends {c : UserFiles} {s : Vfs} {fd : Int} {p size count bufva : Nat}
    {node : Vinode} (h : OpenAtEnd s (c.getOpenedFile fd) p node size)
    (hmapped : ∀ j, j < count → lookupPa c.pagetable (bufva + j) ≠ 0)
    (hmax : size + count ≤ DIRECT_BLKNUM * RFS_BLKSIZE)
    (hfree : fileBlocks (size + count) - fileBlocks size ≤ s.rfs.vol.sb.freeCount) :
    ∃ s' node', c.sysUserWrite s fd bufva count = .ok (count, s') ∧
      Appended s s' (c.getOpenedFile fd) p node node' size count
        (fun j => c.byte (bufva + j)) :=
  writePages_appends (i := 0) hmapped hmax (count + 1) (Nat.zero_le count) (by omega) h hfree

/-- A RAM disk with one file of `size` bytes in one block, open as entry 0. -/
def oneOpenFile (size : Nat) : Vfs :=
  { rfs :=
      { vol := (oneBlockFile (fun _ => 9) size).1
        vinodes := fun _ => some (oneBlockFile (fun _ => 9) size).2
        nextVinode := 1 }
    dirCaches := fun _ => none
    vinodeHash := fun _ => none
    dentries := fun _ => some { name := [102], dRef := 1, inode := .rfs 0, parent := none }
    nextDentry := 1
    dentryHash := fun _ => none
    files := fun _ =>
      some { opened := true, readable := true, writable := true, offset := size, dentry := 0 }
    nextFile := 1 }

/-- A process whose virtual pages lie in memory in the opposite order. -/
def pagesReversed : UserFiles :=
  { pagetable :=
      { dir := 1
        mid := fun _ => some 2
        leaf := fun _ => some 3
        pte := fun vpn => Pte.leaf ((1000 - vpn) * PGSIZE) (protToType true true false true) }
    mem := fun x => UInt8.ofNat x
    openedFiles := fun i => i }

/-- 4100 bytes from the middle of a page on, appended to a file of 4090: both
the buffer and the file go on in another page. -/
theorem sysUserWrite_appends_across : ∃ s' node',
    pagesReversed.sysUserWrite (oneOpenFile 4090) 0 6144 4100 = .ok (4100, s') ∧
      Appended (oneOpenFile 4090) s' (pagesReversed.getOpenedFile 0) 0
        (oneBlockFile (fun _ => 9) 4090).2 node' 4090 4100
        (fun j => pagesReversed.byte (6144 + j)) := by
  refine sysUserWrite_appends ⟨⟨_, _, rfl, rfl, rfl, rfl, rfl⟩, rfl, rfl, rfl,
    oneBlockFile_ok _ 4090⟩ (fun j hj => ?_) (by decide) (by decide +kernel)
  have hva : ¬ MAXVA ≤ 6144 + j := by
    unfold MAXVA
    omega
  have hpa : lookupPa pagesReversed.pagetable (6144 + j)
      = ROUNDDOWN ((1000 - (6144 + j) / PGSIZE) * PGSIZE) PGSIZE := by
    rw [lookupPa, if_neg hva]
    rfl
  rw [hpa]
  unfold ROUNDDOWN PGSIZE at *
  omega

end CabbagePKE
