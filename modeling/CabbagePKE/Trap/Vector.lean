import CabbagePKE.Base
import CabbagePKE.Lib.Bytes

/-!
# Registers across a trap

`smode_trap_vector` and `return_to_user` of `kernel/strap_vector.S`, with the two
macros of `util/load_store.S`. The trapframe has one address in the page tables
of the process and of the kernel, so one memory stands for both. `t6` is the base
of the stores and is overwritten before it is stored: it comes back from a trap
as the address of the trapframe.
-/

namespace CabbagePKE

open Lib Function List

inductive Reg
  | ra | sp | gp | tp | t0 | t1 | t2 | s0 | s1 | a0 | a1 | a2 | a3 | a4 | a5 | a6 | a7
  | s2 | s3 | s4 | s5 | s6 | s7 | s8 | s9 | s10 | s11 | t3 | t4 | t5 | t6
  deriving DecidableEq, Repr

structure Cpu where
  regs : Reg → BitVec 64
  sscratch : BitVec 64
  satp : BitVec 64
  mem : Mem

inductive Instr
  /-- `csrrw rd, sscratch, rs` -/
  | swapSscratch (rd rs : Reg)
  /-- `csrr rd, sscratch` -/
  | readSscratch (rd : Reg)
  /-- `csrw sscratch, rs` -/
  | writeSscratch (rs : Reg)
  /-- `csrw satp, rs` and the fence behind it -/
  | writeSatp (rs : Reg)
  /-- `addi rd, rs, 0` -/
  | move (rd rs : Reg)
  /-- `sd rs, off(base)` -/
  | sd (rs : Reg) (off : Nat) (base : Reg)
  /-- `ld rd, off(base)` -/
  | ld (rd : Reg) (off : Nat) (base : Reg)
  deriving DecidableEq, Repr

def Cpu.set (c : Cpu) (r : Reg) (v : BitVec 64) : Cpu := { c with regs := update c.regs r v }

def Cpu.addr (c : Cpu) (base : Reg) (off : Nat) : Nat := u64 ((c.regs base).toNat + off)

def Cpu.exec (c : Cpu) : Instr → Cpu
  | .swapSscratch rd rs => { c.set rd c.sscratch with sscratch := c.regs rs }
  | .readSscratch rd => c.set rd c.sscratch
  | .writeSscratch rs => { c with sscratch := c.regs rs }
  | .writeSatp rs => { c with satp := c.regs rs }
  | .move rd rs => c.set rd (c.regs rs)
  | .sd rs off base => { c with mem := writeLE c.mem (c.addr base off) 8 (c.regs rs).toNat }
  | .ld rd off base => c.set rd (.ofNat 64 (readLE c.mem (c.addr base off) 8))

def Cpu.run (c : Cpu) (code : List Instr) : Cpu := code.foldl Cpu.exec c

/-- The registers and their places in the trapframe, in the order of `load_store.S`. -/
def slots : List (Reg × Nat) :=
  [(.ra, 0), (.sp, 8), (.gp, 16), (.tp, 24), (.t0, 32), (.t1, 40), (.t2, 48), (.s0, 56), (.s1, 64),
    (.a0, 72), (.a1, 80), (.a2, 88), (.a3, 96), (.a4, 104), (.a5, 112), (.a6, 120), (.a7, 128),
    (.s2, 136), (.s3, 144), (.s4, 152), (.s5, 160), (.s6, 168), (.s7, 176), (.s8, 184), (.s9, 192),
    (.s10, 200), (.s11, 208), (.t3, 216), (.t4, 224), (.t5, 232), (.t6, 240)]

def storeAllRegisters : List Instr := slots.map fun x => .sd x.1 x.2 .t6

def restoreAllRegisters : List Instr := slots.map fun x => .ld x.1 x.2 .t6

/-- The stack, handler and page table of the kernel, behind `store_all_registers`. -/
def enterKernel : List Instr :=
  [.readSscratch .t0, .sd .t0 72 .a0, .ld .sp 248 .a0, .ld .t0 256 .a0, .ld .t1 272 .a0,
    .writeSatp .t1]

/-- Up to the jump to `smode_trap_handler`. -/
def smodeTrapVector : List Instr :=
  [.swapSscratch .a0 .a0, .move .t6 .a0] ++ (storeAllRegisters ++ enterKernel)

def returnToUser : List Instr :=
  [.writeSatp .a1, .writeSscratch .a0, .move .t6 .a0] ++ restoreAllRegisters

/-! ## The slots of the trapframe -/

theorem slots_eq : slots = slots.dropLast ++ [(.t6, 240)] := rfl

theorem exists_slot {r : Reg} (h : r ≠ .t6) : ∃ x ∈ slots.dropLast, x.1 = r := by
  revert h
  cases r <;> decide

theorem slots_nodup : (Reg.t6 :: slots.dropLast.map Prod.fst).Nodup := by decide

theorem slots_apart : ∀ x ∈ slots.dropLast, x.2 < 240 ∧ x.1 ≠ .t6 ∧
    (x ≠ (.a0, 72) → x.1 ≠ .a0 ∧ (x.2 + 8 ≤ 72 ∨ 80 ≤ x.2)) := by decide

section

variable {c : Cpu} {tf : BitVec 64} {l : List (Reg × Nat)}

theorem Cpu.run_append (c : Cpu) (is js : List Instr) : c.run (is ++ js) = (c.run is).run js :=
  foldl_append

theorem Cpu.addr_eq {base : Reg} {off : Nat} (h : c.regs base = tf) (hfit : tf.toNat + 280 ≤ 2 ^ 64)
    (hoff : off < 280) : c.addr base off = tf.toNat + off := by
  rw [Cpu.addr, h, u64_of_lt (by omega)]

theorem Cpu.run_stores (ht : c.regs .t6 = tf) (hfit : tf.toNat + 280 ≤ 2 ^ 64)
    (hoff : ∀ x ∈ l, x.2 < 280) (hl : l.Pairwise fun x y => x.2 + 8 ≤ y.2) :
    ∃ m, c.run (l.map fun x => .sd x.1 x.2 .t6) = { c with mem := m } ∧
      (∀ x ∈ l, readLE m (tf.toNat + x.2) 8 = (c.regs x.1).toNat) ∧
      ∀ a, (∀ x ∈ l, a + 8 ≤ tf.toNat + x.2) → readLE m a 8 = readLE c.mem a 8 := by
  induction l generalizing c with
  | nil => exact ⟨c.mem, rfl, by simp, fun _ _ => rfl⟩
  | cons x l ih =>
    obtain ⟨hx, hl⟩ := pairwise_cons.mp hl
    have haddr := Cpu.addr_eq ht hfit (hoff x (.head ..))
    obtain ⟨m, hrun, hin, hout⟩ := ih (c := c.exec (.sd x.1 x.2 .t6)) ht
      (fun y hy => hoff y (.tail _ hy)) hl
    have hstored : (c.exec (.sd x.1 x.2 .t6)).mem
        = writeLE c.mem (tf.toNat + x.2) 8 (c.regs x.1).toNat := by
      rw [← haddr]
      rfl
    rw [hstored] at hout
    refine ⟨m, hrun, fun y hy => ?_, fun a ha => ?_⟩
    · rcases mem_cons.mp hy with rfl | hy
      · rw [hout _ fun z hz => by have := hx z hz; omega]
        exact readLE_writeLE_self _ _ (by simpa using (c.regs y.1).isLt)
      · exact hin y hy
    · rw [hout a fun z hz => ha z (.tail _ hz)]
      have hbefore := ha x (.head ..)
      exact readLE_writeLE_of_disjoint (by omega)

theorem Cpu.run_loads (ht : c.regs .t6 = tf) (hfit : tf.toNat + 280 ≤ 2 ^ 64)
    (hoff : ∀ x ∈ l, x.2 < 280) (hl : (Reg.t6 :: l.map Prod.fst).Nodup) :
    ∃ regs, c.run (l.map fun x => .ld x.1 x.2 .t6) = { c with regs := regs } ∧
      (∀ x ∈ l, regs x.1 = .ofNat 64 (readLE c.mem (tf.toNat + x.2) 8)) ∧
      ∀ r, r ∉ l.map Prod.fst → regs r = c.regs r := by
  induction l generalizing c with
  | nil => exact ⟨c.regs, rfl, by simp, fun _ _ => rfl⟩
  | cons x l ih =>
    simp only [map_cons, nodup_cons, mem_cons, not_or] at hl
    obtain ⟨⟨hx6, hl6⟩, hx, hl⟩ := hl
    have haddr := Cpu.addr_eq ht hfit (hoff x (.head ..))
    have ht' : (c.exec (.ld x.1 x.2 .t6)).regs .t6 = tf := by
      rw [← ht]
      exact update_of_ne hx6 ..
    obtain ⟨regs, hrun, hin, hout⟩ := ih (c := c.exec (.ld x.1 x.2 .t6)) ht'
      (fun y hy => hoff y (.tail _ hy)) (nodup_cons.mpr ⟨hl6, hl⟩)
    refine ⟨regs, hrun, fun y hy => ?_, fun r hr => ?_⟩
    · rcases mem_cons.mp hy with rfl | hy
      · rw [hout _ hx, ← haddr]
        exact update_self ..
      · exact hin y hy
    · simp only [map_cons, mem_cons, not_or] at hr
      rw [hout r hr.2]
      exact update_of_ne hr.1 ..

theorem readLE_eq_of_area {m m' : Mem} {a off : Nat} (hoff : off + 8 ≤ 248)
    (h : ∀ x, a ≤ x → x < a + 248 → m x = m' x) : readLE m (a + off) 8 = readLE m' (a + off) 8 :=
  readLE_congr fun i hi => h _ (by omega) (by omega)

theorem enterKernel_mem (ha : c.regs .a0 = tf) (hfit : tf.toNat + 280 ≤ 2 ^ 64) :
    (c.run enterKernel).mem = writeLE c.mem (tf.toNat + 72) 8 c.sscratch.toNat := by
  have hmem : (c.run enterKernel).mem
      = writeLE c.mem ((c.set .t0 c.sscratch).addr .a0 72) 8
          ((c.set .t0 c.sscratch).regs .t0).toNat := rfl
  have ha' : (c.set .t0 c.sscratch).regs .a0 = tf := ha
  rw [hmem, Cpu.addr_eq ha' hfit (by decide)]
  rfl

theorem smodeTrapVector_stores (hs : c.sscratch = tf) (hfit : tf.toNat + 280 ≤ 2 ^ 64) :
    (∀ x ∈ slots.dropLast,
      readLE (c.run smodeTrapVector).mem (tf.toNat + x.2) 8 = (c.regs x.1).toNat) ∧
      readLE (c.run smodeTrapVector).mem (tf.toNat + 240) 8 = tf.toNat := by
  -- `a0` holds the trapframe while the stores run, and `sscratch` the `a0` of the user
  obtain ⟨e, he⟩ : ∃ e, e = c.run [.swapSscratch .a0 .a0, .move .t6 .a0] := ⟨_, rfl⟩
  have ha0 : e.regs .a0 = tf := by rw [he, ← hs]; rfl
  have ht6 : e.regs .t6 = tf := by rw [he, ← hs]; rfl
  have hscratch : e.sscratch = c.regs .a0 := by rw [he]; rfl
  have hregs : ∀ r, r ≠ .a0 → r ≠ .t6 → e.regs r = c.regs r := by
    intro r ha ht
    rw [he]
    exact (update_of_ne ht ..).trans (update_of_ne ha ..)
  obtain ⟨m, hrun, hin, -⟩ := Cpu.run_stores (l := slots) ht6 hfit (by decide) (by decide)
  have hend : (c.run smodeTrapVector).mem = writeLE m (tf.toNat + 72) 8 (c.regs .a0).toNat := by
    rw [smodeTrapVector, Cpu.run_append, ← he, Cpu.run_append, storeAllRegisters, hrun,
      enterKernel_mem (by exact ha0) hfit, hscratch]
  rw [hend]
  refine ⟨fun x hx => ?_, ?_⟩
  · by_cases hx0 : x = (.a0, 72)
    · rw [hx0]
      exact readLE_writeLE_self _ _ (by simpa using (c.regs .a0).isLt)
    · obtain ⟨-, ht, hap⟩ := slots_apart x hx
      obtain ⟨ha, hoff⟩ := hap hx0
      rw [readLE_writeLE_of_disjoint (by omega), hin x (dropLast_subset _ hx), hregs _ ha ht]
  · rw [readLE_writeLE_of_disjoint (by omega), hin (.t6, 240) (by decide), ht6]

theorem returnToUser_loads (ha : c.regs .a0 = tf) (hfit : tf.toNat + 280 ≤ 2 ^ 64) :
    (∀ x ∈ slots.dropLast,
      (c.run returnToUser).regs x.1 = .ofNat 64 (readLE c.mem (tf.toNat + x.2) 8)) ∧
      (c.run returnToUser).regs .t6 = .ofNat 64 (readLE c.mem (tf.toNat + 240) 8) := by
  obtain ⟨e, he⟩ : ∃ e, e = c.run [.writeSatp .a1, .writeSscratch .a0, .move .t6 .a0] := ⟨_, rfl⟩
  have ht6 : e.regs .t6 = tf := by rw [he, ← ha]; rfl
  have hmem : e.mem = c.mem := by rw [he]; rfl
  obtain ⟨regs, hrun, hin, hout⟩ := Cpu.run_loads ht6 hfit
    (fun x hx => (slots_apart x hx).1.trans (by decide)) slots_nodup
  have hlast : regs .t6 = tf := (hout .t6 (nodup_cons.mp slots_nodup).1).trans ht6
  have hend : c.run returnToUser = { e with regs := regs }.exec (.ld .t6 240 .t6) := by
    rw [returnToUser, Cpu.run_append, ← he, restoreAllRegisters, slots_eq, map_append,
      Cpu.run_append, hrun]
    rfl
  rw [hend, Cpu.exec, Cpu.addr_eq hlast hfit (by decide)]
  refine ⟨fun x hx => ?_, ?_⟩
  · rw [← hmem, ← hin x hx]
    exact update_of_ne (slots_apart x hx).2.1 ..
  · rw [← hmem]
    exact update_self Reg.t6 _ regs

end

/-- A trap that leaves the registers in the trapframe alone gives back every register but `t6`,
which comes back as the address of the trapframe. -/
theorem trap_restores_iff {c k : Cpu} {tf : BitVec 64} (hs : c.sscratch = tf)
    (hfit : tf.toNat + 280 ≤ 2 ^ 64) (ha : k.regs .a0 = tf)
    (hkeep : ∀ a, tf.toNat ≤ a → a < tf.toNat + 248 →
      k.mem a = (c.run smodeTrapVector).mem a) :
    (∀ r, r ≠ .t6 → (k.run returnToUser).regs r = c.regs r) ∧
      ((∀ r, (k.run returnToUser).regs r = c.regs r) ↔ c.regs .t6 = tf) := by
  obtain ⟨hstore, hstore6⟩ := smodeTrapVector_stores hs hfit
  obtain ⟨hload, hload6⟩ := returnToUser_loads ha hfit
  have hothers : ∀ r, r ≠ .t6 → (k.run returnToUser).regs r = c.regs r := by
    intro r hr
    obtain ⟨x, hmem, rfl⟩ := exists_slot hr
    have hoff := (slots_apart x hmem).1
    rw [hload x hmem, readLE_eq_of_area (by omega) hkeep, hstore x hmem, BitVec.ofNat_toNat,
      BitVec.setWidth_eq]
  have ht6 : (k.run returnToUser).regs .t6 = tf := by
    rw [hload6, readLE_eq_of_area (by omega) hkeep, hstore6, BitVec.ofNat_toNat,
      BitVec.setWidth_eq]
  refine ⟨hothers, fun hall => (hall .t6).symm.trans ht6, fun heq r => ?_⟩
  by_cases hr : r = .t6
  · rw [hr, ht6, heq]
  · exact hothers r hr

/-- User code interrupted with `t6` as given and its other registers 0. -/
def interrupted (t6 : BitVec 64) : Cpu := ⟨update (fun _ => 0) .t6 t6, 0x1000, 0, fun _ => 0⟩

theorem trap_restores_address :
    (interrupted 0x1000).sscratch = 0x1000 ∧
      ((∀ r, (((interrupted 0x1000).run smodeTrapVector).run returnToUser).regs r
        = (interrupted 0x1000).regs r) ↔ (interrupted 0x1000).regs .t6 = 0x1000) :=
  ⟨rfl, (trap_restores_iff (c := interrupted 0x1000) (show _ = 0x1000 from rfl) (by decide) rfl
    fun _ _ _ => rfl).2⟩

theorem trap_loses_t6 :
    (((interrupted 7).run smodeTrapVector).run returnToUser).regs .t6 = 0x1000 ∧
      (interrupted 7).regs .t6 = 7 := by decide +kernel

end CabbagePKE
