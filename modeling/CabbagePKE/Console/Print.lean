import CabbagePKE.Process.Paths

/-!
# Printing

`vsnprintf` of `util/snprintf.c`, `vprintk` and `sprint` of `spike_utils.c`, and
`sys_user_print`, which hands the text of the user to them as the format.
-/

namespace CabbagePKE

open Lib List

/-! ## `vsnprintf` -/

inductive VaArg
  | int (n : BitVec 32)
  | long (n : BitVec 64)
  | str (s : List UInt8)
  deriving DecidableEq, Repr

/-- The locals of `vsnprintf`. `out` has every byte produced, `pos` of them, also those behind the
end of the buffer. -/
structure Fmt where
  format : Bool
  longarg : Bool
  out : List UInt8
  vl : List VaArg
  deriving DecidableEq, Repr

def Fmt.vaNum (f : Fmt) : Outcome (Int × List VaArg) :=
  match f.longarg, f.vl with
  | true, .long n :: vl => return (n.toInt, vl)
  | false, .int n :: vl => return (n.toInt, vl)
  | _, _ => .error .undefined

def Fmt.emit (f : Fmt) (bytes : List UInt8) (vl : List VaArg) : Fmt :=
  ⟨false, false, f.out ++ bytes, vl⟩

def hexDigit (d : Nat) : UInt8 := .ofNat (if d < 10 then 48 + d else 97 + d - 10)

def Fmt.hex (f : Fmt) : Outcome Fmt := do
  let (num, vl) ← f.vaNum
  let digits := (List.range (if f.longarg then 16 else 8)).reverse
  return f.emit (digits.map fun i => hexDigit (num / 16 ^ i % 16).toNat) vl

def Fmt.dec (f : Fmt) : Outcome Fmt := do
  let (num, vl) ← f.vaNum
  if num = -2 ^ 63 then .error .undefined
  else
    let digits := (Nat.toDigits 10 num.natAbs).map fun c => UInt8.ofNat c.toNat
    return f.emit (if num < 0 then 45 :: digits else digits) vl

/-- One character behind a `%`: `l`, `p`, `x`, `d`, `s`, `c`, and any other is skipped. -/
def Fmt.convert (f : Fmt) (c : UInt8) : Outcome Fmt :=
  if c = 108 then return { f with longarg := true }
  else if c = 112 then { f with longarg := true, out := f.out ++ [48, 120] }.hex
  else if c = 120 then f.hex
  else if c = 100 then f.dec
  else if c = 115 then
    match f.vl with
    | .str s :: vl => return f.emit s vl
    | _ => .error .undefined
  else if c = 99 then
    match f.vl with
    | .int n :: vl => return f.emit [.ofNat n.toNat] vl
    | _ => .error .undefined
  else return f

def Fmt.step (f : Fmt) (c : UInt8) : Outcome Fmt :=
  if f.format then f.convert c
  else if c = 37 then return { f with format := true }
  else return { f with out := f.out ++ [c] }

/-- What is in the buffer of `n` bytes, up to the `NUL`, and `pos`. -/
def vsnprintf (n : Nat) (s : List UInt8) (vl : List VaArg) : Outcome (List UInt8 × Nat) := do
  let f ← s.foldlM Fmt.step ⟨false, false, [], vl⟩
  return (if n = 0 then [] else f.out.take (n - 1) ++ [0], f.out.length)

/-- The bytes that reach the console. The comparison with `sizeof(out)` takes a negative `res` for
a large one. -/
def vprintk (s : List UInt8) (vl : List VaArg) : Outcome (List UInt8) := do
  let (out, pos) ← vsnprintf 256 s vl
  return out.take (min (pos % 2 ^ 32) 256)

def sprint (s : List UInt8) (vl : List VaArg) : Outcome (List UInt8) := vprintk s vl

def sysUserPrint (pt : PageTable) (m : Mem) (buf : Nat) : Outcome (List UInt8) := do
  let pa ← copyDst pt buf
  sprint (cstr m pa (2 ^ 64)) []

/-! ## Output short enough for the buffer -/

theorem vprintk_eq {s : List UInt8} {vl : List VaArg} {f : Fmt}
    (h : s.foldlM Fmt.step ⟨false, false, [], vl⟩ = .ok f) (hlen : f.out.length < 256) :
    vprintk s vl = .ok f.out := by
  have hpos : min (f.out.length % 2 ^ 32) 256 = f.out.length := by omega
  simp only [vprintk, vsnprintf, h, ok_bind, pure_eq_ok, hpos]
  rw [if_neg (by decide), take_of_length_le (i := 256 - 1) (by omega), take_left]

theorem foldlM_step_plain {s : List UInt8} (h : 37 ∉ s) (out : List UInt8) (vl : List VaArg) :
    s.foldlM Fmt.step ⟨false, false, out, vl⟩ = .ok ⟨false, false, out ++ s, vl⟩ := by
  induction s generalizing out with
  | nil => simp [pure_eq_ok]
  | cons c s ih =>
    obtain ⟨hc, hs⟩ := not_or.mp (mem_cons.not.mp h)
    have hstep : Fmt.step ⟨false, false, out, vl⟩ c = .ok ⟨false, false, out ++ [c], vl⟩ := by
      rw [Fmt.step, if_neg (by simp), if_neg (Ne.symm hc)]
      rfl
    rw [foldlM_cons, hstep, ok_bind, ih hs, append_assoc, singleton_append]

theorem Fmt.convert_out {f g : Fmt} {c : UInt8} (hvl : f.vl = []) (h : f.convert c = .ok g) :
    g.out = f.out ∧ g.vl = [] := by
  have hnum : ∀ e : Fmt, e.vl = [] → e.vaNum = .error .undefined := by
    rintro ⟨format, longarg, out, vl⟩ rfl
    cases longarg <;> rfl
  have hhex : ∀ e : Fmt, e.vl = [] → e.hex ≠ .ok g := by
    intro e he
    simp [Fmt.hex, hnum e he, error_bind]
  simp only [Fmt.convert, hvl, Fmt.dec, hnum f hvl, error_bind] at h
  split_ifs at h
  · cases h
    exact ⟨rfl, rfl⟩
  · exact absurd h (hhex _ rfl)
  · exact absurd h (hhex f hvl)
  · cases h
    exact ⟨rfl, hvl⟩

theorem Fmt.step_length {f g : Fmt} {c : UInt8} (hvl : f.vl = []) (h : f.step c = .ok g) :
    g.vl = [] ∧ g.out.length ≤ f.out.length + (if c = 37 then 0 else 1) := by
  unfold Fmt.step at h
  split_ifs at h with hf hc
  · obtain ⟨hout, hg⟩ := Fmt.convert_out hvl h
    exact ⟨hg, by rw [hout]; omega⟩
  · cases h
    exact ⟨hvl, Nat.le_add_right ..⟩
  · cases h
    exact ⟨hvl, by simp [hc]⟩

theorem foldlM_step_length {s : List UInt8} {f g : Fmt} (hvl : f.vl = [])
    (h : s.foldlM Fmt.step f = .ok g) : g.out.length + s.count 37 ≤ f.out.length + s.length := by
  induction s generalizing f with
  | nil =>
    cases h
    simp
  | cons c s ih =>
    rw [foldlM_cons, bind_eq_ok] at h
    obtain ⟨e, hstep, hrest⟩ := h
    obtain ⟨he, hlen⟩ := Fmt.step_length hvl hstep
    have hih := ih he hrest
    rw [count_cons, length_cons]
    by_cases hc : c = 37
    · simp only [hc, beq_self_eq_true, if_true] at hlen ⊢
      omega
    · simp only [hc, beq_iff_eq, if_false] at hlen ⊢
      omega

theorem sprint_text_iff {s : List UInt8} (hlen : s.length < 256) :
    sprint s [] = .ok s ↔ 37 ∉ s := by
  constructor
  · intro h hmem
    rw [sprint] at h
    cases hf : s.foldlM Fmt.step ⟨false, false, [], []⟩ with
    | error e => simp [vprintk, vsnprintf, hf, error_bind] at h
    | ok f =>
      have hshort := foldlM_step_length rfl hf
      have hcount := count_pos_iff.mpr hmem
      simp only [length_nil] at hshort
      rw [vprintk_eq hf (by omega), Except.ok.injEq] at h
      rw [h] at hshort
      omega
  · intro h
    exact vprintk_eq (foldlM_step_plain h [] []) hlen

/-- `sys_user_print` shows the text of the user as it is exactly if there is no `%` in it. -/
theorem user_print_exact_iff {pt : PageTable} {m : Mem} {va : Nat} {text : List UInt8}
    (hlen : text.length < 256) (h0 : 0 ∉ text) (hpage : va % PGSIZE + text.length < PGSIZE)
    (hmap : pt.Backed va)
    (hstored : ∀ i, i ≤ text.length → m (userVaToPa pt (va + i)) = text.getD i 0) :
    sysUserPrint pt m va = .ok text ↔ 37 ∉ text := by
  have hpa : copyDst pt va = .ok (userVaToPa pt va) :=
    if_neg (not_lt.mpr (hmap.frame.trans (Nat.le_add_right ..)))
  have hstr : cstr m (userVaToPa pt va) (2 ^ 64) = text := by
    refine cstr_of_bytes (by omega) h0 fun i hi => ?_
    rw [← hstored i hi, userVaToPa_near pt (by omega)]
  rw [sysUserPrint, hpa, ok_bind, hstr]
  exact sprint_text_iff hlen

def oneFrame : PageTable :=
  ⟨0x80001000, fun _ => some 0x80002000, fun _ => some 0x80004000,
    fun _ => .leaf 0x80003000 ⟨true, true, false, true, true, true⟩⟩

theorem oneFrame_backed : oneFrame.Backed 0x1000 := ⟨by decide +kernel, by decide +kernel⟩

theorem user_print_exact_plain :
    oneFrame.Backed 0x1000 ∧ (sysUserPrint oneFrame (putString (fun _ => 0) 0x80003000 [72, 105])
      0x1000 = .ok [72, 105] ↔ 37 ∉ ([72, 105] : List UInt8)) :=
  ⟨oneFrame_backed, user_print_exact_iff (by decide) (by decide) (by decide) oneFrame_backed
    (by decide +kernel)⟩

/-- `"100%"` -/
theorem user_print_drops_percent :
    oneFrame.Backed 0x1000 ∧
      (∀ i, i ≤ 4 → putString (fun _ => 0) 0x80003000 [49, 48, 48, 37]
        (userVaToPa oneFrame (0x1000 + i)) = [49, 48, 48, 37].getD i 0) ∧
      sysUserPrint oneFrame (putString (fun _ => 0) 0x80003000 [49, 48, 48, 37]) 0x1000
        = .ok [49, 48, 48] :=
  ⟨oneFrame_backed, by decide +kernel, by decide +kernel⟩

end CabbagePKE
