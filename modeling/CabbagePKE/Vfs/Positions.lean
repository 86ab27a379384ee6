import CabbagePKE.Rfs.Read

/-!
# The positions of two descriptors

Every open of a file makes its own `struct file` with its own `offset`, and RFS
reads there. A host file is read at the position the host keeps for it, one for
all descriptors (`hostfs_hook_open` reuses the handle in the vinode).
`reads_own_iff` says when a read returns the bytes at the descriptor's offset.
-/

namespace CabbagePKE

open Lib Function

/-! ## The code -/

/-- A file of the host behind a `spike_file_t`: the host keeps one position. -/
structure HostFile where
  bytes : Nat → UInt8
  size : Nat
  pos : Nat

/-- The position that `spike_file_lseek` asks the host for. -/
def HostFile.target (pf : HostFile) (ptr dir : Int) : Int :=
  if dir = LSEEK_SET then ptr else if dir = LSEEK_CUR then pf.pos + ptr
  else if dir = 2 then pf.size + ptr else -1

/-- `spike_file_lseek`; the host refuses a negative position with `-EINVAL` -/
def spikeFileLseek (pf : HostFile) (ptr dir : Int) : Int × HostFile :=
  if pf.target ptr dir < 0 then (-22, pf)
  else (pf.target ptr dir, { pf with pos := (pf.target ptr dir).toNat })

/-- `hostfs_read`: the bytes read, the offset, the buffer and the host file. -/
def hostfsRead (pf : HostFile) (rBuf : Mem) (len : Nat) : Int × Int × Mem × HostFile :=
  let readLen := min len (pf.size - pf.pos)
  let rBuf := copyBytes rBuf 0 pf.bytes pf.pos readLen
  let pf := { pf with pos := pf.pos + readLen }
  (wrap32 readLen, wrap32 (spikeFileLseek pf 0 LSEEK_CUR).1, rBuf, pf)

/-- `hostfs_lseek`: the result, the offset and the host file. -/
def hostfsLseek (pf : HostFile) (newOffset whence : Int) : Int × Int × HostFile :=
  let (off, pf) := spikeFileLseek pf newOffset whence
  (if 0 ≤ wrap32 off then 0 else -1, wrap32 off, pf)

inductive Backend where
  | rfs (v : Volume) (f : Vinode)
  | host (pf : HostFile)

structure SharedFile where
  backend : Backend
  offset : Nat → Int

def SharedFile.move (s : SharedFile) (d : Nat) (backend : Backend) (offset : Int) : SharedFile :=
  { backend := backend, offset := update s.offset d offset }

def SharedFile.vfsRead (s : SharedFile) (d : Nat) (buf : Mem) (count : Nat) :
    Outcome (Int × Mem × SharedFile) :=
  match s.backend with
  | .rfs v f => do
      let (n, offset, buf, v) ← rfsRead v f buf count (s.offset d)
      return (n, buf, s.move d (.rfs v f) offset)
  | .host pf =>
    let (n, offset, buf, pf) := hostfsRead pf buf count
    .ok (n, buf, s.move d (.host pf) offset)

def SharedFile.vfsLseek (s : SharedFile) (d : Nat) (newOffset whence : Int) : Int × SharedFile :=
  match s.backend with
  | .rfs v f =>
    let (r, offset) := rfsLseek f newOffset whence (s.offset d)
    (if r ≠ 0 then -1 else offset, s.move d (.rfs v f) offset)
  | .host pf =>
    let (r, offset, pf) := hostfsLseek pf newOffset whence
    (if r ≠ 0 then -1 else offset, s.move d (.host pf) offset)

inductive FileOp where
  | read (d : Nat) (buf : Mem) (count : Nat)
  | lseek (d : Nat) (newOffset whence : Int)

def SharedFile.step (s : SharedFile) : FileOp → Outcome SharedFile
  | .read d buf count => do
      let (_, _, s) ← s.vfsRead d buf count
      return s
  | .lseek d newOffset whence => .ok (s.vfsLseek d newOffset whence).2

/-! ## The bytes of a file -/

def SharedFile.byte (s : SharedFile) (x : Nat) : UInt8 :=
  match s.backend with
  | .rfs v f => v.byte f.toDinode x
  | .host pf => pf.bytes x

def SharedFile.SizeOk (s : SharedFile) : Prop :=
  ∀ v f, s.backend = .rfs v f → f.size ≤ (DIRECT_BLKNUM * RFS_BLKSIZE : Nat)

def SharedFile.withBytes (s : SharedFile) (bytes : Nat → UInt8) : SharedFile :=
  match s.backend with
  | .rfs _ _ => s
  | .host pf => { s with backend := .host { pf with bytes := bytes } }

/-- A read on `d` returns the file's bytes, given by `byte`, from the descriptor's own offset on. -/
def SharedFile.ReadsOwn (s : SharedFile) (byte : Nat → UInt8) (d : Nat) (buf : Mem)
    (count : Nat) : Prop :=
  ∀ r buf' s', s.vfsRead d buf count = .ok (r, buf', s') →
    ∀ j : Nat, (j : Int) < r → 0 ≤ s.offset d ∧ buf' j = byte ((s.offset d).toNat + j)

section

variable {s s' s₀ : SharedFile}

inductive Backend.Same : Backend → Backend → Prop
  | rfs {v v' : Volume} {f : Vinode} (h : v'.dev.blocks = v.dev.blocks) :
      Backend.Same (.rfs v f) (.rfs v' f)
  | host {pf : HostFile} (pos : Nat) : Backend.Same (.host pf) (.host { pf with pos := pos })

theorem Backend.Same.refl (b : Backend) : b.Same b := by
  cases b with
  | rfs v f => exact .rfs rfl
  | host pf => exact .host pf.pos

theorem Backend.Same.trans {a b c : Backend} (h : a.Same b) (h' : b.Same c) : a.Same c := by
  cases h with
  | rfs h1 =>
    cases h' with
    | rfs h2 => exact .rfs (h2.trans h1)
  | host pos =>
    cases h' with
    | host pos' => exact .host pos'

theorem SharedFile.byte_same (h : s.backend.Same s'.backend) : s'.byte = s.byte := by
  funext x
  unfold SharedFile.byte
  generalize s.backend = b at h
  generalize s'.backend = b' at h
  cases h with
  | rfs hv =>
    dsimp only
    rw [Volume.byte, hv]
    rfl
  | host pos => rfl

theorem SharedFile.SizeOk.same (h : s.backend.Same s'.backend) (hs : s.SizeOk) : s'.SizeOk := by
  unfold SharedFile.SizeOk at *
  generalize s.backend = b at h hs
  generalize s'.backend = b' at h
  cases h with
  | rfs hv =>
    intro v f heq
    cases heq
    exact hs _ _ rfl
  | host pos =>
    intro v f heq
    cases heq

theorem spikeFileLseek_pos (pf : HostFile) (ptr dir : Int) :
    ∃ pos, (spikeFileLseek pf ptr dir).2 = { pf with pos := pos } := by
  unfold spikeFileLseek
  split
  · exact ⟨pf.pos, rfl⟩
  · exact ⟨_, rfl⟩

theorem spikeFileLseek_bytes (pf : HostFile) (bytes : Nat → UInt8) (ptr dir : Int) :
    spikeFileLseek { pf with bytes := bytes } ptr dir
      = ((spikeFileLseek pf ptr dir).1, { (spikeFileLseek pf ptr dir).2 with bytes := bytes }) := by
  have htarget : HostFile.target { pf with bytes := bytes } ptr dir = pf.target ptr dir := rfl
  unfold spikeFileLseek
  rw [htarget]
  split
  · rfl
  · rfl

theorem SharedFile.step_same {op : FileOp} (hsize : s.SizeOk) (h : s.step op = .ok s') :
    s.backend.Same s'.backend := by
  cases op with
  | read d buf count =>
    rw [SharedFile.step, bind_eq_ok] at h
    obtain ⟨⟨r, buf', s₁⟩, hread, h⟩ := h
    cases h
    unfold SharedFile.vfsRead at hread
    cases hb : s.backend with
    | rfs v f =>
      rw [hb] at hread
      rw [bind_eq_ok] at hread
      obtain ⟨⟨n, offset, buf₁, v'⟩, hrfs, hread⟩ := hread
      cases hread
      exact .rfs (rfsRead_inv (hsize v f hb) hrfs).1
    | host pf =>
      rw [hb] at hread
      cases hread
      exact .host _
  | lseek d newOffset whence =>
    cases h
    unfold SharedFile.vfsLseek
    cases hb : s.backend with
    | rfs v f => exact .rfs rfl
    | host pf =>
      obtain ⟨pos, hpos⟩ := spikeFileLseek_pos pf newOffset whence
      show Backend.Same _ (.host (spikeFileLseek pf newOffset whence).2)
      rw [hpos]
      exact .host pos

theorem SharedFile.reaches_same (hsize : s₀.SizeOk)
    (h : Reaches SharedFile.step (fun _ _ => True) s₀ s) :
    s₀.backend.Same s.backend := by
  refine h.invariant (fun s => s₀.backend.Same s.backend) (.refl _) ?_
  intro s op s' hs _ hstep
  exact hs.trans (s.step_same (hsize.same hs) hstep)

theorem SharedFile.withBytes_step {op : FileOp} (bytes : Nat → UInt8) (h : s.step op = .ok s') :
    (s.withBytes bytes).step op = .ok (s'.withBytes bytes) := by
  cases hb : s.backend with
  | rfs v f =>
    have hs : s.withBytes bytes = s := by rw [SharedFile.withBytes, hb]
    rw [hs, h]
    cases op with
    | read d buf count =>
      rw [SharedFile.step, SharedFile.vfsRead, hb] at h
      simp only [bind_eq_ok] at h
      obtain ⟨out, ⟨⟨n, offset, buf₁, v'⟩, -, hread⟩, h⟩ := h
      cases hread
      cases h
      rfl
    | lseek d newOffset whence =>
      cases h
      simp only [SharedFile.vfsLseek, hb]
      rfl
  | host pf =>
    have hs : s.withBytes bytes = { s with backend := .host { pf with bytes := bytes } } := by
      rw [SharedFile.withBytes, hb]
    rw [hs]
    cases op with
    | read d buf count =>
      rw [SharedFile.step, SharedFile.vfsRead, hb] at h
      cases h
      rfl
    | lseek d newOffset whence =>
      cases h
      simp only [SharedFile.step, SharedFile.vfsLseek, hb, hostfsLseek, spikeFileLseek_bytes]
      rfl

theorem SharedFile.withBytes_reaches (bytes : Nat → UInt8)
    (h : Reaches SharedFile.step (fun _ _ => True) s₀ s) :
    Reaches SharedFile.step (fun _ _ => True) (s₀.withBytes bytes) (s.withBytes bytes) := by
  refine h.map (fun s => s.withBytes bytes) ?_
  intro s op s' _ hstep
  exact ⟨trivial, s.withBytes_step bytes hstep⟩

end

/-! ## When a read is at the descriptor's own offset -/

section

variable {s s₀ s₁ : SharedFile} {d count : Nat} {r : Int} {buf buf₁ : Mem}

theorem reads_own_rfs {v : Volume} {f : Vinode} (hb : s.backend = .rfs v f) (hsize : s.SizeOk)
    (hok : s.vfsRead d buf count = .ok (r, buf₁, s₁)) :
    (∀ dst, s.ReadsOwn s.byte d dst count) ↔
      ∀ j : Nat, (j : Int) + 1 < r → s.byte ((s.offset d).toNat + j) ≠ 0 := by
  unfold SharedFile.vfsRead at hok
  rw [hb] at hok
  rw [bind_eq_ok] at hok
  obtain ⟨⟨n, offset, buf2, v'⟩, hread, hok⟩ := hok
  cases hok
  obtain ⟨-, -, hoff, -, -, -, buffer, hbyte, hdst⟩ := rfsRead_inv (hsize v f hb) hread
  have hfile : ∀ j, j < n → s.byte ((s.offset d).toNat + j) = buffer j := by
    intro j hj
    rw [SharedFile.byte, hb]
    exact (hbyte j hj).symm
  have hcall : ∀ dst, s.vfsRead d dst count
      = .ok (n, putString dst 0 (cstr buffer 0 n), s.move d (.rfs v' f) offset) := by
    intro dst
    rw [SharedFile.vfsRead, hb]
    dsimp only
    rw [hdst dst]
    rfl
  have hcopy := putString_cstr_iff buffer 0 0 n
  simp only [Nat.zero_add] at hcopy
  constructor
  · intro hown j hj
    rw [hfile j (by omega)]
    refine hcopy.mp ?_ j (by omega)
    intro dst j hj
    obtain ⟨-, hj'⟩ := hown dst _ _ _ (hcall dst) j (by omega)
    rw [hj', hfile j hj]
  · intro hne dst r' buf' s' hcall' j hj
    rw [hcall dst] at hcall'
    cases hcall'
    have hj' : j < n := by omega
    refine ⟨hoff, ?_⟩
    rw [hfile j hj']
    refine hcopy.mpr ?_ dst j hj'
    intro i hi
    rw [← hfile i (by omega)]
    exact hne i (by omega)

theorem reads_own_host {pf : HostFile} (hb : s.backend = .host pf)
    (hok : s.vfsRead d buf count = .ok (r, buf₁, s₁)) :
    (∀ bytes dst, (s.withBytes bytes).ReadsOwn bytes d dst count) ↔
      (pf.pos : Int) = s.offset d ∨ r ≤ 0 := by
  unfold SharedFile.vfsRead at hok
  rw [hb] at hok
  cases hok
  have hle := wrap32_natCast_le (min count (pf.size - pf.pos))
  have hcall : ∀ bytes dst, ∃ s', (s.withBytes bytes).vfsRead d dst count
      = .ok (wrap32 (min count (pf.size - pf.pos) : Nat),
        copyBytes dst 0 bytes pf.pos (min count (pf.size - pf.pos)), s') := by
    intro bytes dst
    rw [SharedFile.withBytes, hb]
    exact ⟨_, rfl⟩
  have hoffset : ∀ bytes, (s.withBytes bytes).offset = s.offset := by
    intro bytes
    rw [SharedFile.withBytes, hb]
  constructor
  · intro hown
    by_contra hneither
    obtain ⟨hpos, hr⟩ := not_or.mp hneither
    -- a file that has only one byte other than zero, at the position of the host
    obtain ⟨s', hs'⟩ := hcall (fun x => if x = pf.pos then 1 else 0) (fun _ => 0)
    obtain ⟨hoff, hbyte⟩ := hown _ _ _ _ _ hs' 0 (by omega)
    rw [hoffset] at hoff hbyte
    have hne : (s.offset d).toNat ≠ pf.pos := by omega
    have hin : 0 ≤ 0 ∧ 0 < 0 + min count (pf.size - pf.pos) := by omega
    rw [copyBytes, if_pos hin] at hbyte
    simp [hne] at hbyte
  · intro hwhen bytes dst r' buf' s' hread j hj
    obtain ⟨s'', hs''⟩ := hcall bytes dst
    cases hs''.symm.trans hread
    rcases hwhen with hpos | hr
    · have hin : 0 ≤ j ∧ j < 0 + min count (pf.size - pf.pos) := by omega
      rw [hoffset, ← hpos, copyBytes, if_pos hin]
      refine ⟨by omega, ?_⟩
      congr 1
    · omega

/-- **Which reads are independent of the other descriptors.** After any interleaving of reads and
seeks: a read of an RFS file returns the file's bytes at the descriptor's own offset, whatever
buffer it is given, if and only if none of the bytes but the last is a `NUL`; a read of a host file
returns them, whatever the file holds, if and only if the position of the host is the offset of the
descriptor or nothing is read. -/
theorem reads_own_iff (hsize : s₀.SizeOk)
    (hrun : Reaches SharedFile.step (fun _ _ => True) s₀ s)
    (hok : s.vfsRead d buf count = .ok (r, buf₁, s₁)) :
    (∀ v f, s.backend = .rfs v f →
      ((∀ dst, s.ReadsOwn s₀.byte d dst count) ↔
        ∀ j : Nat, (j : Int) + 1 < r → s₀.byte ((s.offset d).toNat + j) ≠ 0)) ∧
    (∀ pf, s.backend = .host pf →
      (∀ bytes, Reaches SharedFile.step (fun _ _ => True) (s₀.withBytes bytes)
        (s.withBytes bytes)) ∧
      ((∀ bytes dst, (s.withBytes bytes).ReadsOwn bytes d dst count) ↔
        (pf.pos : Int) = s.offset d ∨ r ≤ 0)) := by
  have hsame := SharedFile.reaches_same hsize hrun
  refine ⟨fun v f hb => ?_, fun pf hb => ⟨fun bytes => SharedFile.withBytes_reaches bytes hrun, ?_⟩⟩
  · rw [← SharedFile.byte_same hsame]
    exact reads_own_rfs hb (hsize.same hsame) hok
  · exact reads_own_host hb hok

def openedTwice : SharedFile where
  backend := .host { bytes := fun x => UInt8.ofNat x, size := 16, pos := 0 }
  offset _ := 0

theorem openedTwice_read :
    ∃ s r buf' s', Reaches SharedFile.step (fun _ _ => True) openedTwice s ∧ s.offset 1 = 0 ∧
      s.vfsRead 1 (fun _ => 0) 4 = .ok (r, buf', s') ∧ r = 4 ∧ buf' 0 = 4 := by
  obtain ⟨s, hrun, hoff, out, hout, hr, hb⟩ : ∃ s, Runs SharedFile.step (fun _ _ => True) openedTwice
      [.read 0 (fun _ => 0) 4] s ∧ s.offset 1 = 0 ∧
      ∃ out, s.vfsRead 1 (fun _ => 0) 4 = .ok out ∧ out.1 = 4 ∧ out.2.1 0 = 4 := by decide +kernel
  exact ⟨s, out.1, out.2.1, out.2.2, hrun.reaches .start, hoff, hout, hr, hb⟩

theorem reads_own_iff_openedTwice :
    ∃ s r buf' s', Reaches SharedFile.step (fun _ _ => True) openedTwice s ∧
      s.vfsRead 1 (fun _ => 0) 4 = .ok (r, buf', s') ∧
      ∀ pf, s.backend = .host pf →
        ((∀ bytes dst, (s.withBytes bytes).ReadsOwn bytes 1 dst 4) ↔
          (pf.pos : Int) = s.offset 1 ∨ r ≤ 0) := by
  obtain ⟨s, r, buf', s', hs, -, hread, -, -⟩ := openedTwice_read
  exact ⟨s, r, buf', s', hs, hread,
    fun pf hb => ((reads_own_iff (fun _ _ hb => by cases hb) hs hread).2 pf hb).2⟩

/-- The second descriptor is still at offset 0 and reads from byte 4 on. -/
theorem host_read_follows_other_descriptor :
    ∃ s r buf' s', Reaches SharedFile.step (fun _ _ => True) openedTwice s ∧ s.offset 1 = 0 ∧
      s.vfsRead 1 (fun _ => 0) 4 = .ok (r, buf', s') ∧ 0 < r ∧ buf' 0 ≠ openedTwice.byte 0 := by
  obtain ⟨s, r, buf', s', hs, hoff, hread, hr, hbyte⟩ := openedTwice_read
  refine ⟨s, r, buf', s', hs, hoff, hread, by omega, ?_⟩
  rw [hbyte]
  decide

end

end CabbagePKE
