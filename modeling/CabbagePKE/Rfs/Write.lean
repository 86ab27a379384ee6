import CabbagePKE.Rfs.Device

/-!
# Writing a file

`rfs_write` cuts a write into an unaligned first block, whole blocks and
the remaining bytes. The first block is read before it is changed; the last
one is not, so what follows the remaining bytes in its block comes from the
shared `iobuffer`. `FileWrote` says everything that a write does to the disk,
to the freemap and to the inode of the file.
-/

namespace CabbagePKE

open Lib Function

/-! ## The code -/

structure Vinode extends Dinode where
  inum : Int
  ref : Int

structure Volume where
  dev : RfsDevice
  sb : SuperBlock

/-- Allocate block `blockOffset` of the file if it is the next one. -/
def growFile (v : Volume) (f : Vinode) (blockOffset : Int) : Outcome (Volume × Vinode) :=
  if blockOffset = f.blocks then do
    let (b, sb) ← rfsAllocBlock v.sb
    if 0 ≤ blockOffset ∧ blockOffset < (DIRECT_BLKNUM : Int) then
      return ({ v with sb := sb },
        { f with toDinode := { f.setAddr blockOffset.toNat b with blocks := f.blocks + 1 } })
    else .error .undefined
  else return (v, f)

/-- Write `n` bytes of `wBuf` to the start of block `blockOffset`. -/
def writeChunk (v : Volume) (f : Vinode) (wBuf : Mem) (bufOffset n : Nat) (blockOffset : Int) :
    Outcome (Volume × Vinode) := do
  let (v, f) ← growFile v f blockOffset
  let iobuffer := copyBytes v.dev.iobuffer 0 wBuf bufOffset n
  let b ← addrAt f.toDinode blockOffset
  let dev ← ramdiskWrite { v.dev with iobuffer := iobuffer } b
  return ({ v with dev := dev }, f)

def writeBlocks (wBuf : Mem) :
    Nat → Volume → Vinode → (bufOffset : Nat) → (blockOffset : Int) → Outcome (Volume × Vinode)
  | 0, v, f, _, _ => .ok (v, f)
  | n + 1, v, f, bufOffset, blockOffset => do
      let (v, f) ← writeChunk v f wBuf bufOffset RFS_BLKSIZE blockOffset
      writeBlocks wBuf n v f (bufOffset + RFS_BLKSIZE) (blockOffset + 1)

/-- The unaligned first block: `firstBlockLen` bytes from `align` on. -/
def writeFirst (v : Volume) (f : Vinode) (wBuf : Mem) (align firstBlockLen blockOffset : Int) :
    Outcome Volume := do
  let b ← addrAt f.toDinode blockOffset
  let dev ← ramdiskRead v.dev b
  if align < 0 ∨ firstBlockLen < 0 ∨ (RFS_BLKSIZE : Int) < align + firstBlockLen then
    .error .undefined
  else
    let iobuffer := copyBytes dev.iobuffer align.toNat wBuf 0 firstBlockLen.toNat
    let dev ← ramdiskWrite { dev with iobuffer := iobuffer } b
    return { v with dev := dev }

def writeRest (v : Volume) (f : Vinode) (wBuf : Mem) (bufOffset : Nat)
    (blockOffset writetimes remain : Int) : Outcome (Volume × Vinode) :=
  if writetimes < 0 then .ok (v, f)
  else do
    let (v, f) ← writeBlocks wBuf writetimes.toNat v f bufOffset blockOffset
    if 0 < remain then
      writeChunk v f wBuf (bufOffset + writetimes.toNat * RFS_BLKSIZE) remain.toNat
        (blockOffset + writetimes)
    else return (v, f)

def writeData (v : Volume) (f : Vinode) (wBuf : Mem) (len : Nat) (offset : Int) :
    Outcome (Volume × Vinode) :=
  let align := offset.tmod RFS_BLKSIZE
  let writetimes := wrap32 ((len + align).tdiv RFS_BLKSIZE)
  let remain := wrap32 ((len + align).tmod RFS_BLKSIZE)
  let blockOffset := offset.tdiv RFS_BLKSIZE
  if align ≠ 0 then do
    let firstBlockLen := if writetimes = 0 then wrap32 len else RFS_BLKSIZE - align
    let v ← writeFirst v f wBuf align firstBlockLen blockOffset
    writeRest v f wBuf firstBlockLen.toNat (blockOffset + 1) (writetimes - 1) remain
  else writeRest v f wBuf 0 blockOffset writetimes remain

/-- `rfs_write`: the bytes written, the offset after the write, and the
volume and the inode it leaves. -/
def rfsWrite (v : Volume) (f : Vinode) (wBuf : Mem) (len : Nat) (offset : Int) :
    Outcome (Nat × Int × Volume × Vinode) :=
  if f.size < offset then .error (.panic "rfs_write:offset should less than file size!" [])
  else do
    let (v, f) ← writeData v f wBuf len offset
    let size := if f.size < offset + len then wrap32 (offset + len) else f.size
    return (len, wrap32 (offset + len), v, { f with size := size })

/-! ## What a write does -/

def Volume.byte (v : Volume) (d : Dinode) (x : Nat) : UInt8 :=
  v.dev.blocks (d.addr (x / RFS_BLKSIZE)).toNat (x % RFS_BLKSIZE)

structure FileOk (v : Volume) (f : Dinode) (nb : Nat) : Prop where
  nblocks : v.sb.nblocks = RFS_NBLOCKS
  blocks_eq : f.blocks = nb
  le : nb ≤ DIRECT_BLKNUM
  data : ∀ i, i < nb → ∃ b : Nat, f.addr i = b ∧ IsData b ∧ v.sb.Used b
  inj : ∀ i j, i < nb → j < nb → f.addr i = f.addr j → i = j

/-- The file grew from `nb` to `nb'` blocks and its bytes are now `g`. -/
structure FileWrote (v : Volume) (f : Vinode) (v' : Volume) (f' : Vinode) (nb nb' : Nat)
    (g : Nat → UInt8) : Prop where
  ok : FileOk v' f'.toDinode nb'
  byte : ∀ x, x / RFS_BLKSIZE < nb' → v'.byte f'.toDinode x = g x
  grows : nb ≤ nb'
  free : v'.sb.freeCount + nb' = v.sb.freeCount + nb
  rest : ∃ addrs, f' = { f with blocks := nb', addrs := addrs }
  addrs : ∀ i, i < nb → f'.addr i = f.addr i
  fits : (∀ i, Fits32 (f.addrs i)) → ∀ i, Fits32 (f'.addrs i)
  fresh : ∀ i, nb ≤ i → i < nb' → ∀ b : Nat, f'.addr i = b → ¬ v.sb.Used b
  used : ∀ b, IsData b → (v'.sb.Used b ↔ v.sb.Used b ∨ ∃ i, i < nb' ∧ f'.addr i = b)
  others : ∀ b : Nat, (∀ i, i < nb' → f'.addr i ≠ b) → v'.dev.blocks b = v.dev.blocks b

section

variable {v v' v'' : Volume} {f f' f'' : Vinode} {nb nb' nb'' k n : Nat} {g g' : Nat → UInt8}

theorem FileWrote.congr (h : FileWrote v f v' f' nb nb' g)
    (hg : ∀ x, x / RFS_BLKSIZE < nb' → g x = g' x) : FileWrote v f v' f' nb nb' g' :=
  { h with byte := fun x hx => (h.byte x hx).trans (hg x hx) }

theorem FileWrote.size (h : FileWrote v f v' f' nb nb' g) : f'.size = f.size := by
  obtain ⟨addrs, rfl⟩ := h.rest
  rfl

theorem FileWrote.refl (h : FileOk v f.toDinode nb) :
    FileWrote v f v f nb nb (v.byte f.toDinode) where
  ok := h
  byte _ _ := rfl
  grows := le_rfl
  free := rfl
  rest := ⟨f.addrs, by rw [← h.blocks_eq]⟩
  addrs _ _ := rfl
  fits hf := hf
  fresh i h1 h2 := by omega
  used b _ := by
    constructor
    · exact .inl
    · rintro (hb | ⟨i, hi, hb⟩)
      · exact hb
      · obtain ⟨c, hc, -, hu⟩ := h.data i hi
        rw [hb] at hc
        rwa [Int.natCast_inj.mp hc]
  others _ _ := rfl

theorem FileWrote.trans (h : FileWrote v f v' f' nb nb' g)
    (h' : FileWrote v' f' v'' f'' nb' nb'' g') :
    FileWrote v f v'' f'' nb nb'' g' where
  ok := h'.ok
  byte := h'.byte
  grows := h.grows.trans h'.grows
  free := h'.free.trans h.free
  rest := by
    obtain ⟨addrs, rfl⟩ := h.rest
    exact h'.rest
  addrs i hi := (h'.addrs i (hi.trans_le h.grows)).trans (h.addrs i hi)
  fits hf := h'.fits (h.fits hf)
  fresh i h1 h2 b hb := by
    by_cases hi : i < nb'
    · rw [h'.addrs i hi] at hb
      exact h.fresh i h1 hi b hb
    · intro hu
      obtain ⟨c, hc, hd, -⟩ := h'.ok.data i h2
      rw [hb] at hc
      rw [← Int.natCast_inj.mp hc] at hd
      exact h'.fresh i (by omega) h2 b hb ((h.used b hd).mpr (.inl hu))
  used b hb := by
    rw [h'.used b hb, h.used b hb, or_assoc]
    refine or_congr_right ⟨?_, .inr⟩
    rintro (⟨i, hi, hib⟩ | hi)
    · exact ⟨i, hi.trans_le h'.grows, by rw [h'.addrs i hi, hib]⟩
    · exact hi
  others b hb := by
    rw [h'.others b hb]
    exact h.others b (fun i hi => by
      rw [← h'.addrs i hi]
      exact hb i (hi.trans_le h'.grows))

theorem FileOk.addr (h : FileOk v f.toDinode nb) (hk : k < nb) :
    ∃ b : Nat, addrAt f.toDinode k = .ok b ∧ f.addr k = b ∧ IsData b := by
  obtain ⟨b, hb, hd, -⟩ := h.data k hk
  exact ⟨b, by rw [addrAt_eq (hk.trans_le h.le), hb], hb, hd⟩

theorem FileOk.store (h : FileOk v f.toDinode nb) (hk : k < nb) {b : Nat} (hb : f.addr k = b)
    (io : Mem) :
    FileWrote v f { v with dev := ⟨update v.dev.blocks b io, io⟩ } f nb nb
      (fun x => if x / RFS_BLKSIZE = k then io (x % RFS_BLKSIZE) else v.byte f.toDinode x) where
  ok := { h with }
  byte x hx := by
    simp only [Volume.byte]
    by_cases hxk : x / RFS_BLKSIZE = k
    · rw [if_pos hxk, hxk, hb, Int.toNat_natCast, update_self]
    · rw [if_neg hxk]
      obtain ⟨c, hc, -⟩ := h.data _ hx
      have hne : c ≠ b := by
        rintro rfl
        exact hxk (h.inj _ _ hx hk (by rw [hc, hb]))
      rw [hc, Int.toNat_natCast, update_of_ne hne]
  grows := le_rfl
  free := rfl
  rest := ⟨f.addrs, by rw [← h.blocks_eq]⟩
  addrs _ _ := rfl
  fits hf := hf
  fresh i h1 h2 := by omega
  used := (FileWrote.refl h).used
  others c hc := by
    apply update_of_ne
    rintro rfl
    exact hc k hk hb

/-- A write for which the file must have `need` blocks: it stops if too few are free, and otherwise
leaves the bytes `g` in the file, and in the `iobuffer` something of which `Q` holds. -/
def Writes (v : Volume) (f : Vinode) (nb need : Nat) (Q : Mem → Prop) (g : Nat → UInt8)
    (x : Outcome (Volume × Vinode)) : Prop :=
  (need - nb ≤ v.sb.freeCount → ∃ v' f', x = .ok (v', f') ∧ Q v'.dev.iobuffer ∧
    FileWrote v f v' f' nb (max nb need) g) ∧
  (¬ need - nb ≤ v.sb.freeCount → x = .error .noFreeBlock)

section

variable {need need' : Nat} {Q Q' : Mem → Prop} {x : Outcome (Volume × Vinode)}

theorem Writes.done (h : FileOk v f.toDinode nb) (hneed : need ≤ nb) (hQ : Q v.dev.iobuffer)
    (hg : ∀ x, x / RFS_BLKSIZE < nb → v.byte f.toDinode x = g x) :
    Writes v f nb need Q g (.ok (v, f)) := by
  refine ⟨fun _ => ⟨v, f, rfl, hQ, ?_⟩, fun hno => by omega⟩
  rw [Nat.max_eq_left hneed]
  exact (FileWrote.refl h).congr hg

theorem Writes.mono (h : Writes v f nb need Q g x) (hneed : need = need') (hQ : ∀ io, Q io → Q' io)
    (hg : ∀ x, x / RFS_BLKSIZE < max nb need' → g x = g' x) : Writes v f nb need' Q' g' x := by
  subst hneed
  refine ⟨fun hfree => ?_, h.2⟩
  obtain ⟨v', f', hrun, hio, hw⟩ := h.1 hfree
  exact ⟨v', f', hrun, hQ _ hio, hw.congr hg⟩

theorem FileWrote.writes (hw : FileWrote v f v' f' nb nb' g) (hle : nb' ≤ max nb need)
    (h : Writes v' f' nb' need Q g' x) (hfree : nb' - nb ≤ v.sb.freeCount) :
    Writes v f nb need Q g' x := by
  have hcount := hw.free
  have hgrows := hw.grows
  refine ⟨fun hall => ?_, fun hno => h.2 (by omega)⟩
  obtain ⟨v2, f2, hrun, hio, hw2⟩ := h.1 (by omega)
  rw [show max nb need = max nb' need from by omega]
  exact ⟨v2, f2, hrun, hio, hw.trans hw2⟩

theorem Writes.bind {next : Volume × Vinode → Outcome (Volume × Vinode)}
    (h : Writes v f nb need Q g x) (hle : need ≤ need')
    (hnext : ∀ v1 f1, Q v1.dev.iobuffer → FileWrote v f v1 f1 nb (max nb need) g →
      Writes v1 f1 (max nb need) need' Q' g' (next (v1, f1))) :
    Writes v f nb need' Q' g' (x >>= next) := by
  by_cases hfree : need - nb ≤ v.sb.freeCount
  · obtain ⟨v1, f1, rfl, hio, hw⟩ := h.1 hfree
    exact hw.writes (by omega) (hnext v1 f1 hio hw) (by omega)
  · refine ⟨fun hall => by omega, fun _ => ?_⟩
    rw [h.2 hfree]
    rfl

end

theorem growFile_next (h : FileOk v f.toDinode nb) (hlt : nb < DIRECT_BLKNUM) :
    (0 < v.sb.freeCount → ∃ v' f', growFile v f nb = .ok (v', f') ∧ v'.dev = v.dev ∧
      FileWrote v f v' f' nb (nb + 1) (v'.byte f'.toDinode) ∧
      ∀ x, x / RFS_BLKSIZE < nb → v'.byte f'.toDinode x = v.byte f.toDinode x) ∧
    (v.sb.freeCount = 0 → growFile v f nb = .error .noFreeBlock) := by
  have hiff := rfsAllocBlock_isOk h.nblocks
  refine ⟨fun hpos => ?_, fun hz => ?_⟩
  · obtain ⟨⟨r, sb'⟩, hal⟩ := hiff.mpr hpos
    obtain ⟨b, rfl, hdata, hfree, hnb, hmap⟩ := rfsAllocBlock_inv h.nblocks hal
    have hidx : (0 : Int) ≤ nb ∧ (nb : Int) < (DIRECT_BLKNUM : Int) := by omega
    have hcnt := freeCount_alloc hdata hfree hmap
    have haddr : ∀ j, ({ f.setAddr nb b with blocks := f.blocks + 1 } : Dinode).addr j
        = if j = nb then (b : Int) else f.addr j := fun j => Dinode.addr_setAddr hlt b
    have hused : ∀ c, IsData c → (sb'.Used c ↔ v.sb.Used c ∨ c = b) := by
      intro c hc
      rw [used_update hdata.1 hc.1 hmap]
      by_cases hcb : c = b <;> simp [hcb]
    have hold : ∀ i, i < nb → ∀ c : Nat, f.addr i = c → c ≠ b := by
      rintro i hi c hc rfl
      obtain ⟨c', hc', -, hu⟩ := h.data i hi
      rw [hc] at hc'
      exact hfree (Int.natCast_inj.mp hc' ▸ hu)
    have hbyte : ∀ x, x / RFS_BLKSIZE < nb →
        Volume.byte { v with sb := sb' } { f.setAddr nb b with blocks := f.blocks + 1 } x
          = v.byte f.toDinode x := by
      intro x hx
      unfold Volume.byte
      rw [haddr, if_neg (by omega)]
    refine ⟨{ v with sb := sb' },
      { f with toDinode := { f.setAddr nb b with blocks := f.blocks + 1 } }, ?_, rfl, ?_, hbyte⟩
    · simp only [growFile, h.blocks_eq, if_true, hal, ok_bind, hidx, and_self, Int.toNat_natCast,
        pure_eq_ok]
    · refine
        { ok := ?_, byte := fun _ _ => rfl, grows := by omega, free := ?_, rest := ?_
          addrs := ?_, fits := ?_, fresh := ?_, used := ?_, others := fun _ _ => rfl }
      · refine ⟨hnb, ?_, hlt, fun i hi => ?_, fun i j hi hj hij => ?_⟩
        · dsimp only
          rw [h.blocks_eq]
          omega
        · rw [haddr]
          by_cases hin : i = nb
          · rw [if_pos hin]
            exact ⟨b, rfl, hdata, (hused b hdata).mpr (.inr rfl)⟩
          · rw [if_neg hin]
            obtain ⟨c, hc, hcd, hu⟩ := h.data i (by omega)
            exact ⟨c, hc, hcd, (hused c hcd).mpr (.inl hu)⟩
        · rw [haddr, haddr] at hij
          by_cases hin : i = nb
          · by_cases hjn : j = nb
            · omega
            · rw [if_pos hin, if_neg hjn] at hij
              exact absurd rfl (hold j (by omega) b hij.symm)
          · by_cases hjn : j = nb
            · rw [if_neg hin, if_pos hjn] at hij
              exact absurd rfl (hold i (by omega) b hij)
            · rw [if_neg hin, if_neg hjn] at hij
              exact h.inj i j (by omega) (by omega) hij
      · dsimp only
        omega
      · refine ⟨(f.setAddr nb b).addrs, ?_⟩
        have hbl : f.blocks + 1 = ((nb + 1 : Nat) : Int) := by
          rw [h.blocks_eq]
          omega
        rw [hbl]
        rfl
      · intro i hi
        rw [haddr, if_neg (by omega)]
      · intro hf i
        show Fits32 (if (i : Nat) = nb then (b : Int) else f.addrs i)
        split
        · unfold IsData RFS_BLK_OFFSET_FREE RFS_NBLOCKS at hdata
          exact fits_natCast (by omega)
        · exact hf i
      · intro i h1 h2 c hc
        rw [haddr, if_pos (by omega)] at hc
        rwa [← Int.natCast_inj.mp hc]
      · intro c hc
        rw [hused c hc]
        constructor
        · rintro (hu | rfl)
          · exact .inl hu
          · exact .inr ⟨nb, by omega, by rw [haddr, if_pos rfl]⟩
        · rintro (hu | ⟨i, hi, hic⟩)
          · exact .inl hu
          · rw [haddr] at hic
            by_cases hin : i = nb
            · rw [if_pos hin] at hic
              exact .inr (Int.natCast_inj.mp hic).symm
            · rw [if_neg hin] at hic
              obtain ⟨c', hc', -, hu⟩ := h.data i (by omega)
              rw [hic] at hc'
              exact .inl (Int.natCast_inj.mp hc' ▸ hu)
  · simp only [growFile, h.blocks_eq, if_true, rfsAllocBlock_full h.nblocks hz, error_bind]

theorem writeChunk_spec (wBuf : Mem) (bufOffset n : Nat) (h : FileOk v f.toDinode nb)
    (hk : k ≤ nb) (hlt : k < DIRECT_BLKNUM) :
    Writes v f nb (k + 1) (fun io => io = copyBytes v.dev.iobuffer 0 wBuf bufOffset n)
      (fun x => if x / RFS_BLKSIZE = k
        then copyBytes v.dev.iobuffer 0 wBuf bufOffset n (x % RFS_BLKSIZE)
        else v.byte f.toDinode x)
      (writeChunk v f wBuf bufOffset n k) := by
  -- what remains once block `k` exists
  have hstore : ∀ {v1 : Volume} {f1 : Vinode} {nb1 : Nat}, FileOk v1 f1.toDinode nb1 → k < nb1 →
      growFile v f k = .ok (v1, f1) → v1.dev = v.dev →
      ∃ v', writeChunk v f wBuf bufOffset n k = .ok (v', f1) ∧
        v'.dev.iobuffer = copyBytes v.dev.iobuffer 0 wBuf bufOffset n ∧
        FileWrote v1 f1 v' f1 nb1 nb1 (fun x => if x / RFS_BLKSIZE = k
          then copyBytes v.dev.iobuffer 0 wBuf bufOffset n (x % RFS_BLKSIZE)
          else v1.byte f1.toDinode x) := by
    intro v1 f1 nb1 h1 hk1 hgrow hdev
    obtain ⟨b, hat, hb, hd⟩ := h1.addr hk1
    refine ⟨_, ?_, ?_, h1.store hk1 hb (copyBytes v.dev.iobuffer 0 wBuf bufOffset n)⟩
    · simp only [writeChunk, hgrow, ok_bind, hat, ramdiskWrite_eq hd.onDisk, Int.toNat_natCast,
        hdev, pure_eq_ok]
    · rfl
  by_cases hkn : k = nb
  · subst hkn
    obtain ⟨hok, herr⟩ := growFile_next h hlt
    refine ⟨fun hfree => ?_, fun hfree => ?_⟩
    · obtain ⟨v1, f1, hgrow, hdev, hw, hbyte⟩ := hok (by omega)
      obtain ⟨v', hrun, hio, hw'⟩ := hstore hw.ok (by omega) hgrow hdev
      rw [show max k (k + 1) = k + 1 from by omega]
      refine ⟨v', f1, hrun, hio, (hw.trans hw').congr (fun x hx => ?_)⟩
      by_cases hxk : x / RFS_BLKSIZE = k
      · rw [if_pos hxk, if_pos hxk]
      · rw [if_neg hxk, if_neg hxk]
        exact hbyte x (by omega)
    · simp only [writeChunk, herr (by omega), error_bind]
  · have hgrow : growFile v f k = .ok (v, f) := by
      rw [growFile, if_neg (by rw [h.blocks_eq]; omega)]
      rfl
    refine ⟨fun _ => ?_, fun hno => by omega⟩
    obtain ⟨v', hrun, hio, hw'⟩ := hstore h (by omega) hgrow rfl
    rw [show max nb (k + 1) = nb from by omega]
    exact ⟨v', f, hrun, hio, hw'⟩

theorem writeBlocks_spec (wBuf : Mem) : ∀ {n k nb : Nat} (bufOffset : Nat) {v : Volume}
    {f : Vinode}, FileOk v f.toDinode nb → k ≤ nb → k + n ≤ DIRECT_BLKNUM →
    Writes v f nb (k + n)
      (fun io => ∀ i, i < RFS_BLKSIZE → io i
        = if n = 0 then v.dev.iobuffer i else wBuf (bufOffset + RFS_BLKSIZE * (n - 1) + i))
      (fun x => if k ≤ x / RFS_BLKSIZE ∧ x / RFS_BLKSIZE < k + n
        then wBuf (bufOffset + (x - RFS_BLKSIZE * k)) else v.byte f.toDinode x)
      (writeBlocks wBuf n v f bufOffset k) := by
  intro n
  induction n with
  | zero =>
    intro k nb bufOffset v f h hk hlt
    exact .done h hk (fun _ _ => rfl) (fun x _ => by rw [if_neg (by omega)])
  | succ n ih =>
    intro k nb bufOffset v f h hk hlt
    refine (writeChunk_spec wBuf bufOffset RFS_BLKSIZE h hk (by omega)).bind (by omega)
      (fun v1 f1 hio hw => ?_)
    have hrest := ih (k := k + 1) (bufOffset + RFS_BLKSIZE) hw.ok (by omega) (by omega)
    refine hrest.mono (by omega) (fun io hlast i hi => ?_) (fun x hx => ?_)
    · rw [hlast i hi, if_neg (Nat.succ_ne_zero n)]
      by_cases hn : n = 0
      · rw [if_pos hn, hio, hn]
        simp only [copyBytes]
        rw [if_pos (by omega)]
        exact congrArg wBuf (by omega)
      · rw [if_neg hn]
        exact congrArg wBuf (by unfold RFS_BLKSIZE; omega)
    · by_cases hx1 : k + 1 ≤ x / RFS_BLKSIZE ∧ x / RFS_BLKSIZE < k + 1 + n
      · rw [if_pos hx1, if_pos (by omega)]
        exact congrArg wBuf (by unfold RFS_BLKSIZE at *; omega)
      · rw [if_neg hx1, hw.byte x (by omega)]
        by_cases hxk : x / RFS_BLKSIZE = k
        · have hmod := Nat.mod_lt x (show 0 < RFS_BLKSIZE by decide)
          rw [if_pos hxk, if_pos (by omega)]
          simp only [copyBytes]
          rw [if_pos (by omega)]
          exact congrArg wBuf (by unfold RFS_BLKSIZE at *; omega)
        · rw [if_neg hxk, if_neg (by omega)]

theorem writeFirst_spec (wBuf : Mem) {align len : Nat} (h : FileOk v f.toDinode nb) (hk : k < nb)
    (hle : align + len ≤ RFS_BLKSIZE) :
    ∃ v', writeFirst v f wBuf align len k = .ok v' ∧
      (∀ i, i < RFS_BLKSIZE → v'.dev.iobuffer i
        = if align ≤ i ∧ i < align + len then wBuf (i - align)
          else v.byte f.toDinode (RFS_BLKSIZE * k + i)) ∧
      FileWrote v f v' f nb nb (fun x =>
        if RFS_BLKSIZE * k + align ≤ x ∧ x < RFS_BLKSIZE * k + align + len
        then wBuf (x - (RFS_BLKSIZE * k + align)) else v.byte f.toDinode x) := by
  obtain ⟨b, hat, hb, hd⟩ := h.addr hk
  have hneg : ¬ ((align : Int) < 0 ∨ (len : Int) < 0 ∨
      (RFS_BLKSIZE : Int) < (align : Int) + (len : Int)) := by omega
  have hsame : ∀ i, i < RFS_BLKSIZE →
      v.byte f.toDinode (RFS_BLKSIZE * k + i) = v.dev.blocks b i := by
    intro i hi
    have hdiv : (RFS_BLKSIZE * k + i) / RFS_BLKSIZE = k := by
      rw [Nat.mul_add_div (by decide), Nat.div_eq_of_lt hi, Nat.add_zero]
    have hmod : (RFS_BLKSIZE * k + i) % RFS_BLKSIZE = i := by
      rw [Nat.mul_add_mod, Nat.mod_eq_of_lt hi]
    rw [Volume.byte, hdiv, hmod, hb, Int.toNat_natCast]
  refine ⟨_, ?_, ?_, (h.store hk hb (copyBytes (v.dev.blocks b) align wBuf 0 len)).congr ?_⟩
  · simp only [writeFirst, hat, ok_bind, ramdiskRead_eq hd.onDisk, if_neg hneg, Int.toNat_natCast,
      ramdiskWrite_eq hd.onDisk, pure_eq_ok]
  · intro i hi
    rw [hsame i hi]
    simp only [copyBytes, Nat.zero_add]
  · intro x hx
    have hmod := Nat.div_add_mod x RFS_BLKSIZE
    have hlt := Nat.mod_lt x (show 0 < RFS_BLKSIZE by decide)
    by_cases hxk : x / RFS_BLKSIZE = k
    · rw [if_pos hxk]
      rw [hxk] at hmod
      simp only [copyBytes, Nat.zero_add]
      by_cases hin : align ≤ x % RFS_BLKSIZE ∧ x % RFS_BLKSIZE < align + len
      · rw [if_pos hin, if_pos (by omega)]
        exact congrArg wBuf (by omega)
      · rw [if_neg hin, if_neg (by omega), ← hsame _ hlt, hmod]
    · have hout : ¬ (RFS_BLKSIZE * k + align ≤ x ∧ x < RFS_BLKSIZE * k + align + len) := by
        rintro ⟨h1, h2⟩
        apply hxk
        apply Nat.div_eq_of_lt_le
        · rw [mul_comm]
          omega
        · rw [mul_comm, Nat.mul_add, Nat.mul_one]
          omega
      rw [if_neg hxk, if_neg hout]

end

/-! ## Calls that transfer nothing -/

/-- The block at `offset` is listed in the inode but is not on the disk. -/
def Dinode.BlockOff (d : Dinode) (offset : Int) : Prop :=
  ∃ b, addrAt d (offset.tdiv RFS_BLKSIZE) = .ok b ∧ ¬ OnDisk b

section

variable {d : Dinode} {blkno offset : Int}

theorem ramdiskRead_panics (rdev : RfsDevice) (h : ¬ OnDisk blkno) :
    ∃ fmt args, ramdiskRead rdev blkno = .error (.panic fmt args) := by
  have hout : blkno < 0 ∨ RAMDISK_BLOCK_COUNT ≤ blkno := by
    unfold OnDisk at h
    omega
  rw [ramdiskRead, if_pos hout]
  exact ⟨_, _, rfl⟩

theorem addrAt_of_not_blockOff (h : ¬ d.BlockOff offset) :
    addrAt d (offset.tdiv RFS_BLKSIZE) = .error .undefined ∨
      ∃ b, addrAt d (offset.tdiv RFS_BLKSIZE) = .ok b ∧ OnDisk b := by
  cases haddr : addrAt d (offset.tdiv RFS_BLKSIZE) with
  | error e =>
    unfold addrAt at haddr
    split at haddr
    · cases haddr
    · cases haddr
      exact .inl rfl
  | ok b =>
    refine .inr ⟨b, rfl, ?_⟩
    by_contra hoff
    exact h ⟨b, haddr, hoff⟩

theorem tmod_tdiv_zero (offset : Int) : (offset.tmod RFS_BLKSIZE).tdiv RFS_BLKSIZE = 0 := by
  have hnat : ∀ o : Nat, ((o : Int).tmod RFS_BLKSIZE).tdiv RFS_BLKSIZE = 0 := fun o =>
    Int.tdiv_eq_zero_of_lt (Int.tmod_nonneg _ (by omega)) (Int.tmod_lt_of_pos _ (by decide))
  rcases Int.eq_nat_or_neg offset with ⟨o, rfl | rfl⟩
  · exact hnat o
  · rw [Int.neg_tmod, Int.neg_tdiv, hnat o, Int.neg_zero]

theorem rfsWrite_blockOff {v : Volume} {f : Vinode} (wBuf : Mem) (len : Nat)
    (hsize : ¬ f.size < offset) (halign : offset.tmod RFS_BLKSIZE ≠ 0) (h : f.BlockOff offset) :
    ∃ fmt args, rfsWrite v f wBuf len offset = .error (.panic fmt args) := by
  obtain ⟨b, haddr, hoff⟩ := h
  obtain ⟨fmt, args, hpanic⟩ := ramdiskRead_panics v.dev hoff
  refine ⟨fmt, args, ?_⟩
  rw [rfsWrite, if_neg hsize, writeData, if_pos halign]
  simp only [writeFirst, haddr, ok_bind, hpanic, error_bind]

theorem writeData_nothing {v : Volume} {f : Vinode} (wBuf : Mem)
    (h : ¬ (offset.tmod RFS_BLKSIZE ≠ 0 ∧ f.BlockOff offset)) :
    writeData v f wBuf 0 offset = .error .undefined ∨
      ∃ v' f', writeData v f wBuf 0 offset = .ok (v', f') := by
  have hwrap : wrap32 0 = 0 := wrap32_of_fits (fits_natCast (x := 0) (by decide))
  by_cases halign : offset.tmod RFS_BLKSIZE = 0
  · right
    simp only [writeData, halign, ne_eq, not_true_eq_false, if_false, Nat.cast_zero, Int.add_zero,
      Int.zero_tdiv, Int.zero_tmod, hwrap]
    exact ⟨v, f, rfl⟩
  · have hon : ¬ f.BlockOff offset := fun hoff => h ⟨halign, hoff⟩
    rw [writeData, if_pos halign]
    rcases addrAt_of_not_blockOff hon with haddr | ⟨b, haddr, hb⟩
    · left
      simp only [writeFirst, haddr, error_bind]
    · simp only [writeFirst, haddr, ok_bind, ramdiskRead_eq hb, Nat.cast_zero, Int.zero_add,
        tmod_tdiv_zero, hwrap, if_true]
      split
      · left
        rfl
      · right
        rw [ramdiskWrite_eq hb]
        exact ⟨_, f, rfl⟩

theorem rfsWrite_nothing {v : Volume} {f : Vinode} (wBuf : Mem) (hsize : ¬ f.size < offset)
    (h : ¬ (offset.tmod RFS_BLKSIZE ≠ 0 ∧ f.BlockOff offset)) :
    rfsWrite v f wBuf 0 offset = .error .undefined ∨
      ∃ offset' v' f', rfsWrite v f wBuf 0 offset = .ok (0, offset', v', f') := by
  rw [rfsWrite, if_neg hsize]
  rcases writeData_nothing wBuf h with hdata | ⟨v', f', hdata⟩
  · left
    rw [hdata, error_bind]
  · right
    rw [hdata, ok_bind]
    exact ⟨_, _, _, rfl⟩

end

end CabbagePKE
