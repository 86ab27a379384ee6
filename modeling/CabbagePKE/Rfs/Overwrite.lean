import CabbagePKE.Rfs.Write

/-!
# Overwriting part of a file

What `rfs_write` leaves in every byte of the file, for every alignment of
the write: the bytes of the buffer where the write goes, and after its last
byte, in the block that holds the remaining bytes, whatever the `iobuffer`
held. A write changes only the bytes written exactly when those leftovers
happen to be the bytes of the file (`TailKept`).
-/

namespace CabbagePKE

open Lib

/-! ## The bytes after a write -/

/-- The bytes of a file whose bytes from `o` on are replaced by `len` bytes
of `wBuf`. -/
def replaced (old : Nat → UInt8) (wBuf : Mem) (o len : Nat) : Nat → UInt8 := fun x =>
  if o ≤ x ∧ x < o + len then wBuf (x - o) else old x

/-- The write ends with remaining bytes at the start of a block. -/
def TailWritten (o len : Nat) : Prop :=
  (o + len) % RFS_BLKSIZE ≠ 0 ∧
    (o % RFS_BLKSIZE = 0 ∨ o / RFS_BLKSIZE < (o + len) / RFS_BLKSIZE)

instance TailWritten.decidable (o len : Nat) : Decidable (TailWritten o len) :=
  inferInstanceAs (Decidable (_ ∧ _))

/-- What the `iobuffer` holds at the place of byte `x` when the remaining
bytes are copied into it: the block written before, or what was there when
the write began. -/
def leftover (old : Nat → UInt8) (iobuffer wBuf : Mem) (o len x : Nat) : UInt8 :=
  if o / RFS_BLKSIZE < (o + len) / RFS_BLKSIZE then replaced old wBuf o len (x - RFS_BLKSIZE)
  else iobuffer (x % RFS_BLKSIZE)

def written (old : Nat → UInt8) (iobuffer wBuf : Mem) (o len : Nat) : Nat → UInt8 := fun x =>
  if TailWritten o len ∧ x / RFS_BLKSIZE = (o + len) / RFS_BLKSIZE ∧ o + len ≤ x
  then leftover old iobuffer wBuf o len x else replaced old wBuf o len x

def blocksFor (n : Nat) : Nat := (n + (RFS_BLKSIZE - 1)) / RFS_BLKSIZE

def fileBlocks (size : Nat) : Nat := max 1 (blocksFor size)

theorem le_fileBlocks (size : Nat) : size ≤ RFS_BLKSIZE * fileBlocks size := by
  unfold fileBlocks blocksFor RFS_BLKSIZE
  omega

theorem max_le_blocks {size n nb : Nat} (h : size ≤ RFS_BLKSIZE * nb) :
    max size n ≤ RFS_BLKSIZE * max nb (blocksFor n) := by
  have hn : n ≤ RFS_BLKSIZE * blocksFor n := by
    unfold blocksFor RFS_BLKSIZE
    omega
  exact max_le (h.trans (Nat.mul_le_mul_left _ (Nat.le_max_left ..)))
    (hn.trans (Nat.mul_le_mul_left _ (Nat.le_max_right ..)))

theorem fileBlocks_add (size n : Nat) :
    max (fileBlocks size) (blocksFor (size + n)) = fileBlocks (size + n) := by
  unfold fileBlocks blocksFor RFS_BLKSIZE
  omega

section

variable {v : Volume} {f : Vinode} {nb k n r : Nat}

theorem writeRest_spec (wBuf : Mem) (c : Nat) (h : FileOk v f.toDinode nb) (hk : k ≤ nb)
    (hr : r < RFS_BLKSIZE) (hle : k + n + min r 1 ≤ DIRECT_BLKNUM) :
    Writes v f nb (k + n + min r 1) (fun _ => True) (fun x =>
        if RFS_BLKSIZE * k ≤ x ∧ x < RFS_BLKSIZE * k + (RFS_BLKSIZE * n + r)
        then wBuf (c + (x - RFS_BLKSIZE * k))
        else if r ≠ 0 ∧ x / RFS_BLKSIZE = k + n then
          if n = 0 then v.dev.iobuffer (x % RFS_BLKSIZE)
          else wBuf (c + RFS_BLKSIZE * (n - 1) + x % RFS_BLKSIZE)
        else v.byte f.toDinode x)
      (writeRest v f wBuf c k n r) := by
  rw [writeRest, if_neg (by omega), Int.toNat_natCast]
  refine (writeBlocks_spec wBuf c h hk (by omega)).bind (by omega) (fun v1 f1 hio hw => ?_)
  dsimp only
  -- the bytes of the complete blocks
  have hfull : ∀ x, x / RFS_BLKSIZE < max nb (k + n) → ¬ (r ≠ 0 ∧ x / RFS_BLKSIZE = k + n) →
      v1.byte f1.toDinode x
        = if RFS_BLKSIZE * k ≤ x ∧ x < RFS_BLKSIZE * k + (RFS_BLKSIZE * n + r)
          then wBuf (c + (x - RFS_BLKSIZE * k)) else v.byte f.toDinode x := by
    intro x hx hlast
    rw [hw.byte x hx]
    by_cases hin : k ≤ x / RFS_BLKSIZE ∧ x / RFS_BLKSIZE < k + n
    · rw [if_pos hin, if_pos (by unfold RFS_BLKSIZE at *; omega)]
    · rw [if_neg hin, if_neg (by unfold RFS_BLKSIZE at *; omega)]
  by_cases hr0 : r = 0
  · rw [if_neg (by omega)]
    refine .done hw.ok (by omega) trivial (fun x hx => ?_)
    have hlast : ¬ (r ≠ 0 ∧ x / RFS_BLKSIZE = k + n) := fun hc => hc.1 hr0
    rw [hfull x hx hlast, if_neg hlast]
  · rw [if_pos (by omega), Int.toNat_natCast, ← Nat.cast_add]
    refine (writeChunk_spec wBuf (c + n * RFS_BLKSIZE) r hw.ok (k := k + n) (by omega)
      (by omega)).mono (by omega) (fun _ _ => trivial) (fun x hx => ?_)
    have hmod := Nat.mod_lt x (show 0 < RFS_BLKSIZE by decide)
    by_cases hlast : x / RFS_BLKSIZE = k + n
    · rw [if_pos hlast]
      simp only [copyBytes]
      by_cases hxr : x % RFS_BLKSIZE < r
      · rw [if_pos (by omega), if_pos (by unfold RFS_BLKSIZE at *; omega)]
        exact congrArg wBuf (by unfold RFS_BLKSIZE at *; omega)
      · rw [if_neg (by omega), if_neg (by unfold RFS_BLKSIZE at *; omega),
          if_pos ⟨hr0, hlast⟩, hio _ hmod]
    · have hlast' : ¬ (r ≠ 0 ∧ x / RFS_BLKSIZE = k + n) := fun hc => hlast hc.2
      rw [if_neg hlast, hfull x (by omega) hlast', if_neg hlast']

def firstLen (o len : Nat) : Nat :=
  if (len + o % RFS_BLKSIZE) / RFS_BLKSIZE = 0 then len else RFS_BLKSIZE - o % RFS_BLKSIZE

theorem writeUnaligned_spec (wBuf : Mem) {o len : Nat} (h : FileOk v f.toDinode nb)
    (ho : o < RFS_BLKSIZE * nb) (hal : o % RFS_BLKSIZE ≠ 0)
    (hmax : o + len ≤ DIRECT_BLKNUM * RFS_BLKSIZE) :
    Writes v f nb (blocksFor (o + len)) (fun _ => True)
      (written (v.byte f.toDinode) v.dev.iobuffer wBuf o len)
      (writeFirst v f wBuf (o % RFS_BLKSIZE : Nat) (firstLen o len) (o / RFS_BLKSIZE : Nat) >>=
        fun v1 => writeRest v1 f wBuf (firstLen o len) ((o / RFS_BLKSIZE : Nat) + 1)
          (((len + o % RFS_BLKSIZE) / RFS_BLKSIZE : Nat) - 1)
          ((len + o % RFS_BLKSIZE) % RFS_BLKSIZE : Nat)) := by
  have hk : o / RFS_BLKSIZE < nb := by
    unfold RFS_BLKSIZE at *
    omega
  have hdm := Nat.div_add_mod o RFS_BLKSIZE
  by_cases hz : (len + o % RFS_BLKSIZE) / RFS_BLKSIZE = 0
  · -- the write stays inside the block
    have hfirst : firstLen o len = len := if_pos hz
    have hin : o % RFS_BLKSIZE + firstLen o len ≤ RFS_BLKSIZE := by
      unfold RFS_BLKSIZE at *
      omega
    obtain ⟨v1, hrun, -, hw⟩ := writeFirst_spec wBuf h hk hin
    have hneed : blocksFor (o + len) ≤ nb := by
      unfold blocksFor RFS_BLKSIZE at *
      omega
    rw [hrun, ok_bind, writeRest, if_pos (by omega)]
    refine hw.writes (by omega) (.done hw.ok hneed trivial (fun x hx => ?_)) (by omega)
    have htail : ¬ (TailWritten o len ∧ x / RFS_BLKSIZE = (o + len) / RFS_BLKSIZE ∧
        o + len ≤ x) := by
      unfold TailWritten RFS_BLKSIZE at *
      omega
    rw [hw.byte x hx, written, if_neg htail, replaced, hdm, hfirst]
  · -- the write goes on in the next block
    have hfirst : firstLen o len = RFS_BLKSIZE - o % RFS_BLKSIZE := if_neg hz
    have hin : o % RFS_BLKSIZE + firstLen o len ≤ RFS_BLKSIZE := by
      unfold RFS_BLKSIZE at *
      omega
    obtain ⟨v1, hrun, hio, hw⟩ := writeFirst_spec wBuf h hk hin
    obtain ⟨n, hn⟩ := Nat.exists_eq_succ_of_ne_zero hz
    have hr : (len + o % RFS_BLKSIZE) % RFS_BLKSIZE = (o + len) % RFS_BLKSIZE := by
      unfold RFS_BLKSIZE at *
      omega
    have hend : (o + len) / RFS_BLKSIZE = o / RFS_BLKSIZE + 1 + n := by
      unfold RFS_BLKSIZE at *
      omega
    have hbf : o / RFS_BLKSIZE + 1 + n + min ((o + len) % RFS_BLKSIZE) 1 = blocksFor (o + len) := by
      unfold blocksFor RFS_BLKSIZE at *
      omega
    have hcast : (((n + 1 : Nat) : Int) - 1) = (n : Nat) := by omega
    rw [hrun, ok_bind, hn, hr, hcast, ← Nat.cast_succ]
    refine hw.writes (by omega) ?_ (by omega)
    refine (writeRest_spec (n := n) wBuf (firstLen o len) hw.ok (k := o / RFS_BLKSIZE + 1)
      (by omega) (Nat.mod_lt _ (by decide)) (by
        unfold RFS_BLKSIZE DIRECT_BLKNUM at *; omega)).mono hbf (fun _ _ => trivial)
      (fun x hx => ?_)
    have hxm := Nat.mod_lt x (show 0 < RFS_BLKSIZE by decide)
    rw [written]
    by_cases hnext : RFS_BLKSIZE * (o / RFS_BLKSIZE + 1) ≤ x ∧
        x < RFS_BLKSIZE * (o / RFS_BLKSIZE + 1) + (RFS_BLKSIZE * n + (o + len) % RFS_BLKSIZE)
    · rw [if_pos hnext, if_neg (by unfold RFS_BLKSIZE at *; omega), replaced,
        if_pos (by unfold RFS_BLKSIZE at *; omega), hfirst]
      exact congrArg wBuf (by unfold RFS_BLKSIZE at *; omega)
    rw [if_neg hnext]
    by_cases hlast : (o + len) % RFS_BLKSIZE ≠ 0 ∧ x / RFS_BLKSIZE = o / RFS_BLKSIZE + 1 + n
    · have htail : TailWritten o len ∧ x / RFS_BLKSIZE = (o + len) / RFS_BLKSIZE ∧ o + len ≤ x := by
        unfold TailWritten RFS_BLKSIZE at *
        omega
      have hlt : o / RFS_BLKSIZE < (o + len) / RFS_BLKSIZE := by omega
      rw [if_pos hlast, if_pos htail, leftover, if_pos hlt, replaced]
      by_cases hn0 : n = 0
      · -- the block before is the first one
        rw [if_pos hn0, hio _ hxm, hfirst]
        by_cases hin' : o % RFS_BLKSIZE ≤ x % RFS_BLKSIZE
        · rw [if_pos (by omega), if_pos (by unfold RFS_BLKSIZE at *; omega)]
          exact congrArg wBuf (by unfold RFS_BLKSIZE at *; omega)
        · rw [if_neg (by omega), if_neg (by unfold RFS_BLKSIZE at *; omega)]
          exact congrArg (v.byte f.toDinode) (by unfold RFS_BLKSIZE at *; omega)
      · rw [if_neg hn0, if_pos (by unfold RFS_BLKSIZE at *; omega), hfirst]
        exact congrArg wBuf (by unfold RFS_BLKSIZE at *; omega)
    · have hxnb : x / RFS_BLKSIZE < nb := by
        unfold blocksFor RFS_BLKSIZE at *
        omega
      rw [if_neg hlast, if_neg (by unfold TailWritten; omega), hw.byte x hxnb, replaced, hdm,
        hfirst]
      by_cases hin' : o ≤ x ∧ x < o + len
      · rw [if_pos hin', if_pos (by unfold RFS_BLKSIZE at *; omega)]
      · rw [if_neg hin', if_neg (by unfold RFS_BLKSIZE at *; omega)]

theorem writeAligned_spec (wBuf : Mem) {o len : Nat} (h : FileOk v f.toDinode nb)
    (ho : o ≤ RFS_BLKSIZE * nb) (hal : o % RFS_BLKSIZE = 0)
    (hmax : o + len ≤ DIRECT_BLKNUM * RFS_BLKSIZE) :
    Writes v f nb (blocksFor (o + len)) (fun _ => True)
      (written (v.byte f.toDinode) v.dev.iobuffer wBuf o len)
      (writeRest v f wBuf 0 (o / RFS_BLKSIZE : Nat) (len / RFS_BLKSIZE : Nat)
        (len % RFS_BLKSIZE : Nat)) := by
  have hbf : o / RFS_BLKSIZE + len / RFS_BLKSIZE + min (len % RFS_BLKSIZE) 1
      = blocksFor (o + len) := by
    unfold blocksFor RFS_BLKSIZE at *
    omega
  refine (writeRest_spec (n := len / RFS_BLKSIZE) wBuf 0 h (k := o / RFS_BLKSIZE)
    (by unfold RFS_BLKSIZE at *; omega) (Nat.mod_lt _ (by decide)) (by
      unfold RFS_BLKSIZE DIRECT_BLKNUM at *; omega)).mono hbf (fun _ _ => trivial) (fun x hx => ?_)
  have hend : (o + len) / RFS_BLKSIZE = o / RFS_BLKSIZE + len / RFS_BLKSIZE := by
    unfold RFS_BLKSIZE at *
    omega
  have hod : RFS_BLKSIZE * (o / RFS_BLKSIZE) = o := by
    unfold RFS_BLKSIZE at *
    omega
  rw [hod, Nat.div_add_mod len RFS_BLKSIZE, Nat.zero_add, written]
  by_cases hin : o ≤ x ∧ x < o + len
  · rw [if_pos hin, if_neg (by omega), replaced, if_pos hin]
  rw [if_neg hin]
  by_cases hlast : len % RFS_BLKSIZE ≠ 0 ∧ x / RFS_BLKSIZE = o / RFS_BLKSIZE + len / RFS_BLKSIZE
  · have htail : TailWritten o len ∧ x / RFS_BLKSIZE = (o + len) / RFS_BLKSIZE ∧ o + len ≤ x := by
      unfold TailWritten
      unfold RFS_BLKSIZE at *
      omega
    rw [if_pos hlast, if_pos htail, leftover]
    by_cases hn0 : len / RFS_BLKSIZE = 0
    · rw [if_pos hn0, if_neg (by rw [hend, hn0]; exact lt_irrefl _)]
    · have hlt : o / RFS_BLKSIZE < (o + len) / RFS_BLKSIZE := by
        rw [hend]
        exact Nat.lt_add_of_pos_right (Nat.pos_of_ne_zero hn0)
      rw [if_neg hn0, if_pos hlt, replaced, if_pos (by unfold RFS_BLKSIZE at *; omega)]
      exact congrArg wBuf (by unfold RFS_BLKSIZE at *; omega)
  · rw [if_neg hlast, if_neg (by unfold TailWritten; unfold RFS_BLKSIZE at *; omega), replaced,
      if_neg hin]

theorem writeData_spec (wBuf : Mem) {o len : Nat} (h : FileOk v f.toDinode nb)
    (ho : o ≤ RFS_BLKSIZE * nb) (hmax : o + len ≤ DIRECT_BLKNUM * RFS_BLKSIZE) :
    Writes v f nb (blocksFor (o + len)) (fun _ => True)
      (written (v.byte f.toDinode) v.dev.iobuffer wBuf o len) (writeData v f wBuf len o) := by
  have hmod := Nat.mod_lt o (show 0 < RFS_BLKSIZE by decide)
  -- the integers of the code are the natural numbers of the specifications
  have hfits : ∀ {x : Nat}, x ≤ 2 * (DIRECT_BLKNUM * RFS_BLKSIZE) → wrap32 (x : Int) = x := by
    intro x hx
    apply wrap32_of_fits
    apply fits_natCast
    unfold RFS_BLKSIZE DIRECT_BLKNUM at hx
    omega
  have hnat : ∀ x : Nat, (x : Int).tmod RFS_BLKSIZE = ((x % RFS_BLKSIZE : Nat) : Int) ∧
      (x : Int).tdiv RFS_BLKSIZE = ((x / RFS_BLKSIZE : Nat) : Int) := by
    intro x
    rw [Int.tmod_eq_emod_of_nonneg (by omega), Int.tdiv_eq_ediv_of_nonneg (by omega)]
    simp
  have hsum : (len : Int) + ((o % RFS_BLKSIZE : Nat) : Int)
      = ((len + o % RFS_BLKSIZE : Nat) : Int) := by omega
  have hwt := hfits (x := (len + o % RFS_BLKSIZE) / RFS_BLKSIZE) (by
    unfold RFS_BLKSIZE DIRECT_BLKNUM at *; omega)
  have hrm := hfits (x := (len + o % RFS_BLKSIZE) % RFS_BLKSIZE) (by
    unfold RFS_BLKSIZE DIRECT_BLKNUM at *; omega)
  simp only [writeData, (hnat _).1, (hnat _).2, hsum, hwt, hrm, hfits (x := len) (by omega)]
  by_cases hal : o % RFS_BLKSIZE = 0
  · rw [if_neg (by omega), hal, Nat.add_zero]
    exact writeAligned_spec wBuf h ho hal hmax
  · have hlt : o < RFS_BLKSIZE * nb := by
      refine Nat.lt_of_le_of_ne ho (fun heq => hal ?_)
      rw [heq, Nat.mul_mod_right]
    have hfl : (if (((len + o % RFS_BLKSIZE) / RFS_BLKSIZE : Nat) : Int) = 0 then (len : Int)
        else (RFS_BLKSIZE : Int) - ((o % RFS_BLKSIZE : Nat) : Int)) = (firstLen o len : Int) := by
      unfold firstLen
      split
      · rw [if_pos (by omega)]
      · rw [if_neg (by omega), Int.ofNat_sub hmod.le]
    rw [if_pos (by omega), hfl, Int.toNat_natCast]
    exact writeUnaligned_spec wBuf h hlt hal hmax

theorem rfsWrite_spec (wBuf : Mem) {s o len : Nat} (h : FileOk v f.toDinode nb)
    (hs : f.size = s) (hle : s ≤ RFS_BLKSIZE * nb) (ho : o ≤ s)
    (hmax : o + len ≤ DIRECT_BLKNUM * RFS_BLKSIZE) :
    (blocksFor (o + len) - nb ≤ v.sb.freeCount → ∃ v' f',
      rfsWrite v f wBuf len o
        = .ok (len, (o + len : Nat), v', { f' with size := (max s (o + len) : Nat) }) ∧
      FileWrote v f v' f' nb (max nb (blocksFor (o + len)))
        (written (v.byte f.toDinode) v.dev.iobuffer wBuf o len)) ∧
    (¬ blocksFor (o + len) - nb ≤ v.sb.freeCount →
      rfsWrite v f wBuf len o = .error .noFreeBlock) := by
  have hnot : ¬ f.size < (o : Int) := by omega
  have hsum : (o : Int) + (len : Int) = ((o + len : Nat) : Int) := by omega
  have hfits : wrap32 ((o + len : Nat) : Int) = ((o + len : Nat) : Int) := by
    apply wrap32_of_fits
    apply fits_natCast
    unfold RFS_BLKSIZE DIRECT_BLKNUM at hmax
    omega
  obtain ⟨hok, herr⟩ := writeData_spec wBuf h (ho.trans hle) hmax
  refine ⟨fun hall => ?_, fun hno => ?_⟩
  · obtain ⟨v', f', hrun, -, hw⟩ := hok hall
    have hsize : (if f'.size < ((o + len : Nat) : Int) then ((o + len : Nat) : Int) else f'.size)
        = ((max s (o + len) : Nat) : Int) := by
      rw [hw.size, hs]
      split <;> omega
    refine ⟨v', f', ?_, hw⟩
    simp only [rfsWrite, if_neg hnot, hrun, ok_bind, hsum, hfits, hsize, pure_eq_ok]
  · simp only [rfsWrite, if_neg hnot, herr hno, error_bind]

end

/-! ## Overwriting -/

/-- The write succeeds, the bytes from `o` on are those of the buffer,
every other byte is what it was, and the size is the larger end. -/
def Overwrites (v : Volume) (f : Vinode) (wBuf : Mem) (s o len : Nat) : Prop :=
  ∃ v' f', rfsWrite v f wBuf len o = .ok (len, (o + len : Nat), v', f') ∧
    (∀ i, i < len → v'.byte f'.toDinode (o + i) = wBuf i) ∧
    (∀ x, x < s → ¬ (o ≤ x ∧ x < o + len) → v'.byte f'.toDinode x = v.byte f.toDinode x) ∧
    f'.size = (max s (o + len) : Nat)

/-- Where the write ends with remaining bytes, the buffer happens to hold
the bytes of the file that follow them in their block. -/
def TailKept (v : Volume) (f : Vinode) (wBuf : Mem) (s o len : Nat) : Prop :=
  TailWritten o len → ∀ x, o + len ≤ x → x < s →
    x / RFS_BLKSIZE = (o + len) / RFS_BLKSIZE →
    leftover (v.byte f.toDinode) v.dev.iobuffer wBuf o len x = v.byte f.toDinode x

/-- **Overwriting part of a file changes only the bytes written** exactly
when enough blocks are free and the leftovers of the buffer do no harm. -/
theorem rfsWrite_overwrites {v : Volume} {f : Vinode} {nb : Nat} (wBuf : Mem) {s o len : Nat}
    (h : FileOk v f.toDinode nb) (hs : f.size = s) (hle : s ≤ RFS_BLKSIZE * nb) (ho : o < s)
    (hmax : o + len ≤ DIRECT_BLKNUM * RFS_BLKSIZE) :
    Overwrites v f wBuf s o len ↔
      blocksFor (o + len) - nb ≤ v.sb.freeCount ∧ TailKept v f wBuf s o len := by
  obtain ⟨hok, herr⟩ := rfsWrite_spec wBuf h hs hle ho.le hmax
  by_cases hall : blocksFor (o + len) - nb ≤ v.sb.freeCount
  · obtain ⟨v', f', hrun, hw⟩ := hok hall
    have hbyte : ∀ x, x < max s (o + len) →
        v'.byte { f' with size := (max s (o + len) : Nat) }.toDinode x
          = written (v.byte f.toDinode) v.dev.iobuffer wBuf o len x := by
      intro x hx
      apply hw.byte
      unfold blocksFor RFS_BLKSIZE at *
      omega
    constructor
    · rintro ⟨v₁, f₁, hrun₁, -, hkeep, -⟩
      cases hrun.symm.trans hrun₁
      refine ⟨hall, fun htail x hx hxs hblk => ?_⟩
      rw [← hkeep x hxs (by omega), hbyte x (by omega), written, if_pos ⟨htail, hblk, hx⟩]
    · rintro ⟨-, hkept⟩
      refine ⟨v', _, hrun, fun i hi => ?_, fun x hx hout => ?_, rfl⟩
      · rw [hbyte _ (by omega), written, if_neg (by omega), replaced, if_pos (by omega)]
        exact congrArg wBuf (by omega)
      · rw [hbyte x (by omega), written]
        split
        · rename_i htail
          exact hkept htail.1 x htail.2.2 hx htail.2.1
        · rw [replaced, if_neg hout]
  · constructor
    · rintro ⟨v', f', hrun, -⟩
      simp [herr hall] at hrun
    · rintro ⟨hfree, -⟩
      exact absurd hfree hall

/-- A disk of zeros with one file of `s` bytes in one block, and a buffer
in which an earlier operation left `io`. -/
def oneBlockFile (io : Mem) (s : Nat) : Volume × Vinode :=
  ({ dev := { blocks := fun _ _ => 0, iobuffer := io }
     sb := { nblocks := RFS_NBLOCKS, freemap := fun b => if b = 0 then 1 else 0 } },
   { size := s, type := R_FILE, nlinks := 1, blocks := 1
     addrs := fun _ => RFS_BLK_OFFSET_FREE, inum := 1, ref := 1 })

theorem oneBlockFile_ok (io : Mem) (s : Nat) :
    FileOk (oneBlockFile io s).1 (oneBlockFile io s).2.toDinode 1 := by
  refine ⟨rfl, rfl, by decide, fun i hi => ⟨RFS_BLK_OFFSET_FREE, ?_,
    ⟨by decide, by decide⟩, ?_⟩, fun i j hi hj _ => by omega⟩
  · rw [show i = 0 from by omega]
    rfl
  · show (if RFS_BLK_OFFSET_FREE - RFS_BLK_OFFSET_FREE = 0 then (1 : Int) else 0) ≠ 0
    decide

/-- A write in the middle of a block keeps the bytes after it. -/
theorem rfsWrite_overwrites_inside :
    Overwrites (oneBlockFile (fun _ => 9) 20).1 (oneBlockFile (fun _ => 9) 20).2 (fun _ => 7)
      20 3 2 := by
  refine (rfsWrite_overwrites (fun _ => 7) (oneBlockFile_ok _ 20) rfl (by decide) (by decide)
    (by decide)).mpr ⟨by decide, fun htail => ?_⟩
  exact absurd htail (by decide)

/-- Two bytes written at the start of a file of twenty: the rest of the
block is replaced by what the buffer held. -/
theorem rfsWrite_spoils_block :
    ¬ ∀ (v : Volume) (f : Vinode) (nb : Nat) (wBuf : Mem) (s o len : Nat),
      FileOk v f.toDinode nb → f.size = s → s ≤ RFS_BLKSIZE * nb → o < s →
      o + len ≤ DIRECT_BLKNUM * RFS_BLKSIZE → Overwrites v f wBuf s o len := by
  intro hclaim
  obtain ⟨v', f', hrun, -, hkeep, -⟩ := hclaim _ _ 1 (fun _ => 7) 20 0 2
    (oneBlockFile_ok (fun _ => 9) 20) rfl (by decide) (by decide) (by decide)
  obtain ⟨r, hr, h9⟩ : ∃ r, rfsWrite (oneBlockFile (fun _ => 9) 20).1
      (oneBlockFile (fun _ => 9) 20).2 (fun _ => 7) 2 0 = .ok r ∧
      r.2.2.1.byte r.2.2.2.toDinode 5 = 9 := by decide +kernel
  have h0 := hkeep 5 (by decide) (by decide)
  rw [show ((0 : Nat) : Int) = 0 from rfl, hr] at hrun
  cases hrun
  rw [h9] at h0
  exact absurd h0 (by decide)

end CabbagePKE
