import CabbagePKE.Process.Append

/-!
# What the read system call reports

`sys_user_read` asks `do_read` for one piece of the buffer after the other. The
cursor is an `int`, the result of `do_read` and the count are `uint64`, so -1 is
not less than any length and the cursor of a long read becomes negative.
`read_reports_iff` says when the caller is told what was read.
-/

namespace CabbagePKE

open Lib

/-! ## The system call -/

def toS64 (x : Nat) : Int := (x : Int).bmod (2 ^ 64)

/-- Where a turn of `sys_user_read` has the bytes put, for a cursor `i`. -/
def readDst (pt : PageTable) (bufva : Nat) (i : Int) : Nat :=
  let addr := toU64 (bufva + i)
  lookupPa pt addr + (addr - ROUNDDOWN addr PGSIZE)

def askLen (bufva count : Nat) (i : Int) : Nat :=
  let addr := toU64 (bufva + i)
  let off := addr - ROUNDDOWN addr PGSIZE
  let left := toU64 (count - i)
  if left < PGSIZE - off then left else PGSIZE - off

/-- The loop of `sys_user_read` from byte `i` on, for any `do_read`. -/
def readPages {σ : Type} (pt : PageTable) (doRead : Nat → Nat → σ → Outcome (Int × σ))
    (bufva count : Nat) : Nat → Int → σ → Outcome (Int × σ)
  | 0, _, _ => .error .diverges
  | fuel + 1, i, s =>
    if toU64 i < count then do
      let (r, s) ← doRead (readDst pt bufva i) (askLen bufva count i) s
      let i' := wrap32 (i + r)
      if toU64 r < askLen bufva count i then return (i', s)
      else readPages pt doRead bufva count fuel i' s
    else .ok (toS64 count, s)

/-- A `do_read` of which only the results are known: `answer k len` is what call `k` returns when
it is asked for `len` bytes. The state is the number of calls. -/
def answering (answer : Nat → Nat → Int) (_ len k : Nat) : Outcome (Int × Nat) :=
  .ok (answer k len, k + 1)

/-- Every call returns -1 or at most what it is asked for, and only those in `F` fail. -/
def Answers (F : Set Nat) (answer : Nat → Nat → Int) : Prop :=
  ∀ k len, (k ∈ F ∧ answer k len = -1) ∨ (0 ≤ answer k len ∧ answer k len ≤ len)

/-! ## What the caller should be told -/

/-- From byte `i` and call `k` on: what was read up to the first read that is short or fails, or
a negative value if the very first one fails. -/
inductive Tells (bufva count : Nat) (answer : Nat → Nat → Int) : Nat → Nat → Int → Prop
  | done {k i : Nat} (h : count ≤ i) : Tells bufva count answer k i i
  | full {k i : Nat} {r : Int} (h : i < count)
      (ha : answer k (pieceLen bufva count i) = pieceLen bufva count i)
      (hr : Tells bufva count answer (k + 1) (i + pieceLen bufva count i) r) :
      Tells bufva count answer k i r
  | short {k i : Nat} (h : i < count) (h0 : 0 ≤ answer k (pieceLen bufva count i))
      (ha : answer k (pieceLen bufva count i) < pieceLen bufva count i) :
      Tells bufva count answer k i (i + answer k (pieceLen bufva count i))
  | failed {k i : Nat} (h : i < count) (hk : k ≠ 0)
      (ha : answer k (pieceLen bufva count i) < 0) : Tells bufva count answer k i i
  | refused {i : Nat} {r : Int} (h : i < count) (ha : answer 0 (pieceLen bufva count i) < 0)
      (hr : r < 0) : Tells bufva count answer 0 i r

/-- The system call returns, and its value is what the caller should be told. -/
def Reports (pt : PageTable) (bufva count : Nat) (answer : Nat → Nat → Int) : Prop :=
  ∃ fuel r k, readPages pt (answering answer) bufva count fuel 0 0 = .ok (r, k) ∧
    Tells bufva count answer 0 0 r

def pieces (bufva count : Nat) : Nat :=
  if count = 0 then 0 else (bufva % PGSIZE + count + PGSIZE - 1) / PGSIZE

def pieceStart (bufva k : Nat) : Nat := k * PGSIZE - bufva % PGSIZE

/-! ## The loop -/

section

variable {σ : Type} {pt : PageTable} {doRead : Nat → Nat → σ → Outcome (Int × σ)}
  {bufva count fuel k n i : Nat} {answer : Nat → Nat → Int} {r : Int}

theorem readPages_fuel {i : Int} {s : σ} {out : Int × σ}
    (h : readPages pt doRead bufva count fuel i s = .ok out) (n : Nat) :
    readPages pt doRead bufva count (fuel + n) i s = .ok out := by
  induction fuel generalizing i s with
  | zero => cases h
  | succ fuel ih =>
    rw [Nat.succ_add, readPages]
    rw [readPages] at h
    split
    · rename_i hlt
      rw [if_pos hlt] at h
      simp only [bind_eq_ok] at h ⊢
      obtain ⟨⟨r, s1⟩, hread, h⟩ := h
      refine ⟨(r, s1), hread, ?_⟩
      split
      · rename_i hshort
        rwa [if_pos hshort] at h
      · rename_i hfull
        rw [if_neg hfull] at h
        exact ih h
    · rename_i hge
      rwa [if_neg hge] at h

theorem readPages_answers {i : Int} {s s' : σ}
    (h : readPages pt doRead bufva count fuel i s = .ok (r, s')) (k : Nat) :
    ∃ rs : List Int, ∀ answer, (∀ j len, j < rs.length → answer (k + j) len = rs.getD j 0) →
      readPages pt (answering answer) bufva count fuel i k = .ok (r, k + rs.length) := by
  induction fuel generalizing i s k with
  | zero => cases h
  | succ fuel ih =>
    rw [readPages] at h
    split at h
    · rename_i hlt
      simp only [bind_eq_ok] at h
      obtain ⟨⟨r1, s1⟩, -, h⟩ := h
      split at h
      · rename_i hshort
        cases h
        refine ⟨[r1], fun answer hans => ?_⟩
        have hr : ∀ len, answer k len = r1 := fun len => hans 0 len Nat.zero_lt_one
        simp only [readPages, if_pos hlt, answering, ok_bind, hr, if_pos hshort]
        rfl
      · rename_i hfull
        obtain ⟨rs, hrs⟩ := ih h (k + 1)
        refine ⟨r1 :: rs, fun answer hans => ?_⟩
        have hr : ∀ len, answer k len = r1 := fun len => hans 0 len (Nat.zero_lt_succ _)
        simp only [readPages, if_pos hlt, answering, ok_bind, hr, if_neg hfull]
        rw [List.length_cons, Nat.add_comm rs.length 1, ← add_assoc]
        refine hrs answer fun j len hj => ?_
        rw [add_assoc, Nat.add_comm 1 j]
        exact hans (j + 1) len (Nat.succ_lt_succ hj)
    · rename_i hge
      simp only [Except.ok.injEq, Prod.mk.injEq] at h
      obtain ⟨rfl, rfl⟩ := h
      refine ⟨[], fun answer _ => ?_⟩
      rw [readPages, if_neg hge]
      rfl

theorem toS64_of_lt {x : Nat} (h : x < 2 ^ 63) : toS64 x = x := by
  unfold toS64
  rw [Int.bmod_def]
  omega

theorem toS64_ne {x : Nat} (h : 2 ^ 31 < x) (hx : x < 2 ^ 64) : toS64 x ≠ 2 ^ 31 := by
  unfold toS64
  rw [Int.bmod_def]
  omega

theorem toU64_zero : toU64 0 = 0 := rfl

theorem readPages_done {i : Int} {s : σ} (h : ¬ toU64 i < count) :
    readPages pt doRead bufva count (fuel + 1) i s = .ok (toS64 count, s) := by
  rw [readPages, if_neg h]

theorem askLen_wrapped (bufva : Nat) (h : 2 ^ 64 - 2 ^ 31 < count) (hcount : count < 2 ^ 64) :
    0 < askLen bufva count (-2 ^ 31) := by
  unfold askLen toU64 ROUNDDOWN PGSIZE
  dsimp only
  split
  · omega
  · omega

theorem readPages_turn (hcount : count < 2 ^ 64) (hi : i < count) :
    readPages pt (answering answer) bufva count (fuel + 1) i k =
      if toU64 (answer k (pieceLen bufva count i)) < pieceLen bufva count i
      then .ok (wrap32 (i + answer k (pieceLen bufva count i)), k + 1)
      else readPages pt (answering answer) bufva count fuel
        (wrap32 (i + answer k (pieceLen bufva count i))) (k + 1) := by
  have hi64 : toU64 i = i := toU64_natCast (by omega)
  have hleft : toU64 ((count : Int) - i) = count - i := by
    rw [← Int.ofNat_sub hi.le]
    exact toU64_natCast (by omega)
  have hoff : toU64 ((bufva : Int) + i) - ROUNDDOWN (toU64 ((bufva : Int) + i)) PGSIZE
      = (bufva + i) % PGSIZE := by
    unfold toU64 ROUNDDOWN PGSIZE
    omega
  have hlen : askLen bufva count i = pieceLen bufva count i := by
    unfold askLen pieceLen
    simp only [hleft, hoff]
    split
    · omega
    · omega
  rw [readPages, hi64, if_pos hi, hlen]
  rfl

theorem pieceLen_add (bufva : Nat) (h : pieceStart bufva k < count) :
    pieceStart bufva k + pieceLen bufva count (pieceStart bufva k)
      = min count (pieceStart bufva (k + 1)) := by
  unfold pieceLen pieceStart PGSIZE at *
  omega

theorem pieceLen_le (bufva count i : Nat) : pieceLen bufva count i ≤ PGSIZE :=
  (Nat.min_le_right ..).trans (Nat.sub_le ..)

theorem pieceStart_mono (bufva : Nat) (h : k ≤ n) : pieceStart bufva k ≤ pieceStart bufva n := by
  exact Nat.sub_le_sub_right (Nat.mul_le_mul_right _ h) _

theorem pieceStart_lt_iff (bufva count k : Nat) :
    pieceStart bufva k < count ↔ k < pieces bufva count := by
  unfold pieceStart pieces PGSIZE
  split <;> omega

theorem Tells.inv (h : Tells bufva count answer k i r) (hi : i < count) :
    (answer k (pieceLen bufva count i) = pieceLen bufva count i ∧
      Tells bufva count answer (k + 1) (i + pieceLen bufva count i) r) ∨
    (0 ≤ answer k (pieceLen bufva count i) ∧
      answer k (pieceLen bufva count i) < pieceLen bufva count i ∧
      r = i + answer k (pieceLen bufva count i)) ∨
    (answer k (pieceLen bufva count i) < 0 ∧ (r = i ∧ k ≠ 0 ∨ r < 0)) := by
  cases h with
  | done hge => omega
  | full _ ha hr => exact .inl ⟨ha, hr⟩
  | short _ h0 ha => exact .inr (.inl ⟨h0, ha, rfl⟩)
  | failed _ hk ha => exact .inr (.inr ⟨ha, .inl ⟨rfl, hk⟩⟩)
  | refused _ ha hr => exact .inr (.inr ⟨ha, .inr hr⟩)

theorem readPages_full (pt : PageTable) (hcount : count < 2 ^ 64)
    (hfull : ∀ j, j < n → pieceStart bufva (j + 1) < count ∧ pieceStart bufva (j + 1) < 2 ^ 31 ∧
      ∀ len : Nat, len ≤ PGSIZE → answer j len = len) (fuel : Nat) :
    readPages pt (answering answer) bufva count (fuel + n) 0 0 =
        readPages pt (answering answer) bufva count fuel (pieceStart bufva n) n ∧
      ∀ r, Tells bufva count answer 0 0 r → Tells bufva count answer n (pieceStart bufva n) r := by
  induction n generalizing fuel with
  | zero =>
    have hzero : pieceStart bufva 0 = 0 := by
      unfold pieceStart
      omega
    rw [hzero]
    exact ⟨rfl, fun r h => h⟩
  | succ n ih =>
    obtain ⟨hrun, htell⟩ := ih (fun j hj => hfull j (by omega)) (fuel + 1)
    obtain ⟨hlt, hfits, hans⟩ := hfull n (by omega)
    have hnow : pieceStart bufva n < count :=
      Nat.lt_of_le_of_lt (pieceStart_mono bufva (Nat.le_succ n)) hlt
    have hadd := pieceLen_add bufva hnow
    rw [Nat.min_eq_right hlt.le] at hadd
    have hle := pieceLen_le bufva count (pieceStart bufva n)
    have hanswer := hans _ hle
    have hlen : ¬ toU64 (pieceLen bufva count (pieceStart bufva n) : Nat)
        < pieceLen bufva count (pieceStart bufva n) := by
      rw [toU64_natCast (by unfold PGSIZE at hle; omega)]
      omega
    have hnext : wrap32 ((pieceStart bufva n : Int) + pieceLen bufva count (pieceStart bufva n))
        = (pieceStart bufva (n + 1) : Nat) := by
      rw [← Int.natCast_add, hadd]
      exact wrap32_of_fits (fits_natCast hfits)
    have hfuel : fuel + (n + 1) = fuel + 1 + n := by omega
    refine ⟨?_, fun r h => ?_⟩
    · rw [hfuel, hrun, readPages_turn hcount hnow, hanswer, if_neg hlen, hnext]
    · rw [← hadd]
      rcases (htell r h).inv hnow with ⟨-, hr⟩ | ⟨-, hshort, -⟩ | ⟨hneg, -⟩
      · exact hr
      · omega
      · omega

theorem readPages_tells (pt : PageTable) (hcount : count ≤ 2 ^ 31)
    (hans : ∀ k, k < pieces bufva count → ∀ len : Nat, 0 ≤ answer k len ∧ answer k len ≤ len)
    (left : Nat) (hleft : pieces bufva count - k ≤ left) :
    ∃ fuel r k', readPages pt (answering answer) bufva count fuel
        (wrap32 (min count (pieceStart bufva k) : Nat)) k = .ok (r, k') ∧
      Tells bufva count answer k (min count (pieceStart bufva k)) r := by
  induction left generalizing k with
  | zero =>
    have hend : ¬ pieceStart bufva k < count := by
      rw [pieceStart_lt_iff]
      omega
    have hstop : ¬ toU64 (wrap32 (count : Nat)) < count := by
      unfold toU64 wrap32
      rw [Int.bmod_def]
      omega
    rw [Nat.min_eq_left (not_lt.mp hend)]
    refine ⟨1, count, k, ?_, .done le_rfl⟩
    rw [readPages_done hstop, toS64_of_lt (by omega)]
  | succ left ih =>
    by_cases hnow : pieceStart bufva k < count
    · have hk := (pieceStart_lt_iff bufva count k).mp hnow
      obtain ⟨h0, hle⟩ := hans k hk (pieceLen bufva count (pieceStart bufva k))
      have hadd := pieceLen_add bufva hnow
      have hcur : wrap32 (pieceStart bufva k : Nat) = (pieceStart bufva k : Nat) :=
        wrap32_of_fits (fits_natCast (by omega))
      have hr : toU64 (answer k (pieceLen bufva count (pieceStart bufva k)))
          = (answer k (pieceLen bufva count (pieceStart bufva k))).toNat := by
        unfold toU64
        omega
      rw [Nat.min_eq_right hnow.le, hcur]
      by_cases hshort : answer k (pieceLen bufva count (pieceStart bufva k))
          < pieceLen bufva count (pieceStart bufva k)
      · refine ⟨1, _, k + 1, ?_, .short hnow h0 hshort⟩
        rw [readPages_turn (by omega) hnow, if_pos (by omega)]
        congr 2
        refine wrap32_of_fits ?_
        unfold Fits32
        omega
      · have hfull : answer k (pieceLen bufva count (pieceStart bufva k))
            = pieceLen bufva count (pieceStart bufva k) := by omega
        obtain ⟨fuel, r, k', hrun, htell⟩ := ih (k := k + 1) (by omega)
        rw [← hadd] at hrun htell
        refine ⟨fuel + 1, r, k', ?_, .full hnow hfull htell⟩
        rwa [readPages_turn (by omega) hnow, if_neg (by omega), hfull, ← Int.natCast_add]
    · rw [pieceStart_lt_iff] at hnow
      exact ih (by omega)

theorem not_reports_of_failure (hcount : count ≤ 2 ^ 31) (hn : n < pieces bufva count) :
    ¬ Reports pt bufva count (fun k len => if k < n then len else if k = n then -1 else 0) := by
  rintro ⟨fuel, r, k, hrun, htell⟩
  have hnow := (pieceStart_lt_iff bufva count n).mpr hn
  have hfits : count < 2 ^ 64 := by omega
  have hbefore : ∀ j, j < n → pieceStart bufva (j + 1) < count ∧
      pieceStart bufva (j + 1) < 2 ^ 31 ∧ ∀ len : Nat, len ≤ PGSIZE →
        (if j < n then (len : Int) else if j = n then -1 else 0) = len := by
    intro j hj
    have hle : pieceStart bufva (j + 1) ≤ pieceStart bufva n := pieceStart_mono bufva hj
    exact ⟨by omega, by omega, fun len _ => if_pos hj⟩
  obtain ⟨hfull, htold⟩ := readPages_full pt hfits hbefore (fuel + 2)
  have hfails : ∀ len : Nat, (if n < n then (len : Int) else if n = n then -1 else 0) = -1 := by
    intro len
    rw [if_neg (lt_irrefl n), if_pos rfl]
  have hneg : ¬ toU64 (-1) < pieceLen bufva count (pieceStart bufva n) := by
    have hle := pieceLen_le bufva count (pieceStart bufva n)
    unfold PGSIZE at hle
    unfold toU64
    omega
  have hback : wrap32 ((pieceStart bufva n : Int) + -1) = pieceStart bufva n - 1 := by
    refine wrap32_of_fits ?_
    unfold Fits32
    omega
  have hfuel : fuel + (n + 2) = fuel + 2 + n := by omega
  have hrun' := readPages_fuel hrun (n + 2)
  rw [hfuel, hfull, readPages_turn hfits hnow, hfails, if_neg hneg, hback] at hrun'
  -- what the caller should be told
  have hsay : r = pieceStart bufva n ∧ n ≠ 0 ∨ r < 0 := by
    have hinv := (htold r htell).inv hnow
    rcases hinv with ⟨hr, -⟩ | ⟨hr, -⟩ | ⟨-, hr⟩
    · omega
    · omega
    · exact hr
  by_cases hzero : n = 0
  · -- the first call: the cursor is -1, and the loop ends as if all was read
    have hstart : pieceStart bufva n = 0 := by
      rw [pieceStart, hzero]
      omega
    have hstop : ¬ toU64 ((pieceStart bufva n : Int) - 1) < count := by
      rw [hstart]
      unfold toU64
      omega
    rw [readPages_done hstop, toS64_of_lt (by omega)] at hrun'
    simp only [Except.ok.injEq, Prod.mk.injEq] at hrun'
    omega
  · -- a later call: the byte before is asked for once more
    have hpos : 0 < pieceStart bufva n := by
      unfold pieceStart PGSIZE
      omega
    have hprev : pieceStart bufva n - 1 < count := by omega
    have hcur : (pieceStart bufva n : Int) - 1 = ((pieceStart bufva n - 1 : Nat) : Int) := by omega
    have hnone : ∀ len : Nat,
        (if n + 1 < n then (len : Int) else if n + 1 = n then -1 else 0) = 0 := by
      intro len
      rw [if_neg (by omega), if_neg (by omega)]
    have hsame : wrap32 (((pieceStart bufva n - 1 : Nat) : Int) + 0)
        = ((pieceStart bufva n - 1 : Nat) : Int) := by
      rw [Int.add_zero]
      exact wrap32_of_fits (fits_natCast (by omega))
    rw [hcur, readPages_turn hfits hprev, hnone, toU64_zero, if_pos (pieceLen_pos bufva hprev),
      hsame] at hrun'
    simp only [Except.ok.injEq, Prod.mk.injEq] at hrun'
    omega

theorem not_reports_of_long (hcount : 2 ^ 31 < count) (hfits : count < 2 ^ 64) :
    ¬ Reports pt bufva count (fun k len => (min len (2 ^ 31 - pieceStart bufva k) : Nat)) := by
  rintro ⟨fuel, r, k, hrun, htell⟩
  -- the last piece that starts before 2^31
  obtain ⟨n, hn, hnext⟩ : ∃ n, pieceStart bufva n < 2 ^ 31 ∧ 2 ^ 31 ≤ pieceStart bufva (n + 1) := by
    refine ⟨(2 ^ 31 + bufva % PGSIZE - 1) / PGSIZE, ?_, ?_⟩
    · unfold pieceStart PGSIZE
      omega
    · unfold pieceStart PGSIZE
      omega
  have hbefore : ∀ j, j < n → pieceStart bufva (j + 1) < count ∧ pieceStart bufva (j + 1) < 2 ^ 31 ∧
      ∀ len : Nat, len ≤ PGSIZE → ((min len (2 ^ 31 - pieceStart bufva j) : Nat) : Int) = len := by
    intro j hj
    have hlt : pieceStart bufva (j + 1) < 2 ^ 31 := (pieceStart_mono bufva hj).trans_lt hn
    refine ⟨by omega, hlt, fun len hle => ?_⟩
    have hroom : pieceStart bufva j + PGSIZE ≤ 2 ^ 31 := by
      unfold pieceStart PGSIZE at hlt ⊢
      omega
    omega
  obtain ⟨hfull, htold⟩ := readPages_full pt hfits hbefore (fuel + 2)
  have hnow : pieceStart bufva n < count := by omega
  have hadd := pieceLen_add bufva hnow
  have hcross : min (pieceLen bufva count (pieceStart bufva n)) (2 ^ 31 - pieceStart bufva n)
      = 2 ^ 31 - pieceStart bufva n := by omega
  have hcur : wrap32 ((pieceStart bufva n : Int) + (2 ^ 31 - pieceStart bufva n : Nat))
      = -2 ^ 31 := by
    rw [wrap32, Int.bmod_def]
    omega
  have hx : toU64 (2 ^ 31 - pieceStart bufva n : Nat) = 2 ^ 31 - pieceStart bufva n :=
    toU64_natCast (by omega)
  have hfuel : fuel + (n + 2) = fuel + 2 + n := by omega
  have hrun' := readPages_fuel hrun (n + 2)
  rw [hfuel, hfull, readPages_turn hfits hnow, hcross, hcur, hx] at hrun'
  have hinv := (htold r htell).inv hnow
  by_cases hshort : 2 ^ 31 - pieceStart bufva n < pieceLen bufva count (pieceStart bufva n)
  · rw [if_pos hshort] at hrun'
    simp only [Except.ok.injEq, Prod.mk.injEq] at hrun'
    omega
  · -- the piece ends at 2^31, and the next call reads nothing
    rw [if_neg hshort] at hrun'
    have hnone : ∀ len : Nat, ((min len (2 ^ 31 - pieceStart bufva (n + 1)) : Nat) : Int) = 0 := by
      intro len
      omega
    have hend : pieceStart bufva n + pieceLen bufva count (pieceStart bufva n) = 2 ^ 31 := by omega
    have hsay : r = 2 ^ 31 := by
      rcases hinv with ⟨-, hrest⟩ | ⟨-, hlt, -⟩ | ⟨hneg, -⟩
      · rw [hend] at hrest
        have hpos := pieceLen_pos bufva hcount
        rcases hrest.inv hcount with ⟨hr, -⟩ | ⟨-, -, hr⟩ | ⟨hneg, -⟩
        · rw [hnone] at hr
          omega
        · rw [hnone] at hr
          omega
        · rw [hnone] at hneg
          omega
      · omega
      · omega
    have hcursor : toU64 (-2 ^ 31) = 2 ^ 64 - 2 ^ 31 := by decide
    by_cases hstop : 2 ^ 64 - 2 ^ 31 < count
    · have hsame : wrap32 (-2 ^ 31 + 0) = -2 ^ 31 := wrap32_of_fits (by unfold Fits32; omega)
      rw [readPages, hcursor, if_pos hstop, answering, ok_bind, hnone] at hrun'
      dsimp only at hrun'
      rw [toU64_zero, if_pos (askLen_wrapped bufva hstop hfits), hsame] at hrun'
      cases hrun'
      cases hsay
    · rw [readPages, hcursor, if_neg hstop] at hrun'
      simp only [Except.ok.injEq, Prod.mk.injEq] at hrun'
      exact toS64_ne hcount hfits (hrun'.1.trans hsay)

end

/-- **When the caller is told what was read.** For every count, and every set of calls of `do_read`
that may fail, `sys_user_read` returns and reports what was read, whatever the calls return, if and
only if the count is at most 2^31 and no call for a piece of the buffer is one that may fail. -/
theorem read_reports_iff (pt : PageTable) (bufva : Nat) {count : Nat} (hcount : count < 2 ^ 64)
    (F : Set Nat) :
    (∀ answer, Answers F answer → Reports pt bufva count answer) ↔
      count ≤ 2 ^ 31 ∧ ∀ n ∈ F, pieces bufva count ≤ n := by
  constructor
  · intro hall
    have hle : count ≤ 2 ^ 31 := by
      by_contra hlong
      refine not_reports_of_long (not_le.mp hlong) hcount (hall _ fun k len => ?_)
      exact .inr ⟨by omega, by omega⟩
    refine ⟨hle, fun n hn => ?_⟩
    by_contra hlt
    refine not_reports_of_failure hle (not_le.mp hlt) (hall _ fun k len => ?_)
    by_cases hk : k = n
    · subst hk
      exact .inl ⟨hn, by rw [if_neg (lt_irrefl k), if_pos rfl]⟩
    · right
      split
      · omega
      · omega
  · rintro ⟨hle, hF⟩ answer hans
    have hreads : ∀ k, k < pieces bufva count → ∀ len : Nat,
        0 ≤ answer k len ∧ answer k len ≤ len := by
      intro k hk len
      refine (hans k len).resolve_left fun hfail => ?_
      exact absurd (hF k hfail.1) (Nat.not_le_of_lt hk)
    have hstart : min count (pieceStart bufva 0) = 0 := by
      unfold pieceStart
      omega
    obtain ⟨fuel, r, k, hrun, htell⟩ :=
      readPages_tells pt (k := 0) hle hreads _ le_rfl
    rw [hstart] at hrun htell
    have hzero : wrap32 (0 : Nat) = 0 := wrap32_of_fits (fits_natCast (by decide))
    rw [hzero] at hrun
    exact ⟨fuel, r, k, hrun, htell⟩

/-- A buffer of three pieces that is read to its end. -/
theorem read_reports_iff_pages : Reports (.empty 0) 0x400010 8192 (fun _ len => len) := by
  have hall : ∀ answer, Answers ∅ answer → Reports (.empty 0) 0x400010 8192 answer :=
    (read_reports_iff (.empty 0) 0x400010 (by decide) ∅).mpr
      ⟨by decide, fun n hn => absurd hn (Set.notMem_empty n)⟩
  exact hall _ fun k len => .inr ⟨Int.natCast_nonneg len, Int.le_refl _⟩

theorem readPages_stuck (pt : PageTable) (fuel k : Nat) :
    readPages pt (answering fun k len => if k % 2 = 1 then -1 else len) 0x400000 4097 fuel
      (4095 + k % 2 : Nat) k = .error .diverges := by
  induction fuel generalizing k with
  | zero => rfl
  | succ fuel ih =>
    have hnext := ih (k + 1)
    rcases Nat.mod_two_eq_zero_or_one k with hk | hk
    · have hlen : pieceLen 0x400000 4097 (4095 + 0) = 1 := by decide
      have hcur : wrap32 ((4095 + 0 : Nat) + (1 : Nat)) = (4095 + (k + 1) % 2 : Nat) := by
        rw [Nat.add_mod, hk]
        exact wrap32_of_fits (fits_natCast (by decide))
      rw [hk, readPages_turn (by decide) (by decide), hlen, hk, if_neg (by decide),
        if_neg (by decide), hcur, hnext]
    · have hlen : pieceLen 0x400000 4097 (4095 + 1) = 1 := by decide
      have hcur : wrap32 ((4095 + 1 : Nat) + -1) = (4095 + (k + 1) % 2 : Nat) := by
        rw [Nat.add_mod, hk]
        exact wrap32_of_fits (fits_natCast (x := 4095) (by decide))
      rw [hk, readPages_turn (by decide) (by decide), hlen, hk, if_pos rfl, if_neg (by decide),
        hcur, hnext]

/-- A `do_read` that fails at once, as for a directory, is reported as ten bytes read. One that
fails in every other call keeps the system call busy forever. -/
theorem failed_read_reported :
    (∀ pt, readPages pt (answering fun _ _ => -1) 0x400000 10 2 0 0 = .ok (10, 1)) ∧
      ∀ pt fuel, readPages pt (answering fun k len => if k % 2 = 1 then -1 else len)
        0x400000 4097 fuel 0 0 = .error .diverges := by
  constructor
  · intro pt
    show readPages pt _ 0x400000 10 2 (0 : Nat) 0 = _
    have hlen : pieceLen 0x400000 10 0 = 10 := by decide
    have hcur : wrap32 ((0 : Nat) + -1) = -1 := wrap32_of_fits (by unfold Fits32; omega)
    rw [readPages_turn (by decide) (by decide), hlen, if_neg (by decide), hcur,
      readPages_done (by decide), toS64_of_lt (by decide)]
    rfl
  · intro pt fuel
    cases fuel with
    | zero => rfl
    | succ fuel =>
      show readPages pt _ 0x400000 4097 (fuel + 1) (0 : Nat) 0 = _
      have hlen : pieceLen 0x400000 4097 0 = 4096 := by decide
      have hcur : wrap32 ((0 : Nat) + (4096 : Nat)) = (4095 + 1 % 2 : Nat) :=
        wrap32_of_fits (fits_natCast (x := 4096) (by decide))
      rw [readPages_turn (by decide) (by decide), hlen, if_neg (by decide), if_neg (by decide),
        hcur]
      exact readPages_stuck pt fuel 1

end CabbagePKE
