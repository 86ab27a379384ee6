import CabbagePKE.Lib.Run
import Mathlib.Algebra.Order.Ring.Int

/-!
# Outcomes and machine constants

A kernel function either returns or stops the machine. `Halt` lists the ways to
stop: `panic` and `assert`, an ordinary shutdown, an access that C leaves
undefined, a loop that never ends, and a call into code outside the model. The
constants come from `kernel/riscv.h`, `kernel/config.h`, `kernel/memlayout.h` and
`spike_interface/spike_file.h`.
-/

namespace CabbagePKE

inductive Halt
  /-- `panic(fmt, args)` -/
  | panic (fmt : String) (args : List Int)
  /-- `assert(e)` with `e` false -/
  | assertion (expr : String)
  /-- `shutdown(code)` -/
  | shutdown (code : Int)
  /-- an access outside every object -/
  | undefined
  /-- a loop that does not end -/
  | diverges
  /-- the call goes on in a part of the system that is not modelled -/
  | foreign
  deriving DecidableEq, Repr

def Halt.Asserts : Halt → Prop
  | .assertion _ => True
  | _ => False

abbrev Outcome := Except Halt

def u64 (n : Nat) : Nat := n % 2 ^ 64

def PGSIZE : Nat := 4096

def ROUNDUP (a b : Nat) : Nat := ((a - 1) / b + 1) * b

def ROUNDDOWN (a b : Nat) : Nat := a / b * b

def DRAM_BASE : Nat := 0x80000000

def KERN_BASE : Nat := 0x80000000

def PKE_MAX_ALLOWABLE_RAM : Nat := 128 * 1024 * 1024

def USER_STACK_TOP : Nat := 0x7ffff000

def USER_FREE_ADDRESS_START : Nat := PGSIZE * 1024

def NPROC : Nat := 32

def MAX_FILES : Nat := 128

theorem u64_of_lt {n : Nat} (h : n < 2 ^ 64) : u64 n = n := Nat.mod_eq_of_lt h

end CabbagePKE
