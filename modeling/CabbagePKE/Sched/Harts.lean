import CabbagePKE.Sched.Frame

/-!
# Two harts and one ready queue

The kernel takes the number of its hart from the register `tp`. A trap saves it
in the trapframe, nothing loads it anew, and the return to user mode restores
the `tp` of the process that was picked: the loader stores the hart that loads,
`do_fork` copies it, `do_test` stores 1, and `schedule` does not look at it.

A step is what one hart does between two points at which the other may come
first. `do_wait`, the semaphores and the other registers are left out.
-/

namespace CabbagePKE

open Lib Function

def NCPU : Nat := 2

instance : NeZero NCPU := ⟨by decide⟩

inductive HartMode
  /-- before `s_start` -/
  | starting
  /-- in `do_wait_call`, until `child_running` is set -/
  | inWaitCall
  /-- in `sys_user_exit`, until `child_running` is cleared -/
  | inExit
  /-- at the entry of `schedule` -/
  | inSchedule
  /-- in user mode, with the registers of a process -/
  | inUser (p : Nat)
  deriving DecidableEq, Repr

inductive HartOp
  | fork
  | exec
  | yield
  | tick
  | exit
  | test
  deriving DecidableEq, Repr

/-- The scheduler, the `tp` in the trapframes, and the register `tp` and the
place of each hart. -/
structure Harts where
  sched : Sched
  frameTp : Nat → Nat
  tp : Fin NCPU → Nat
  mode : Fin NCPU → HartMode

namespace Harts

def setFrameTp (m : Harts) (p v : Nat) : Harts :=
  { m with frameTp := update m.frameTp p v }

def goTo (m : Harts) (h : Fin NCPU) (place : HartMode) : Harts :=
  { m with mode := update m.mode h place }

def switchTo (m : Harts) (h : Fin NCPU) (proc : Option Nat) : Outcome Harts :=
  match proc with
  | none => .error (.assertion "proc")
  | some p =>
    .ok { m with
      sched := { m.sched with current := update m.sched.current (m.tp h) (some p) }
      -- `restore_all_registers`
      tp := update m.tp h (m.frameTp p)
      mode := update m.mode h (.inUser p) }

def dispatch (m : Harts) (h : Fin NCPU) : Outcome Harts := do
  let s ← CabbagePKE.schedule (m.tp h) m.sched
  switchTo { m with sched := s } h (s.current (m.tp h))

/-- `load_bincode_from_host_elf`, when the file is there. -/
def loadBincode (m : Harts) (h : Fin NCPU) (p : Nat) : Harts := m.setFrameTp p (m.tp h)

/-- `s_start`, up to `schedule` or the spin loop -/
def sStart (m : Harts) (h : Fin NCPU) : Outcome Harts :=
  if m.tp h = 0 then do
    let p ← allocProcess m.sched
    let m := m.loadBincode h p
    let s ← insertToReadyQueue m.sched p
    return { m with sched := s }.goTo h .inSchedule
  else .ok (m.goTo h .inWaitCall)

def sysUserFork (m : Harts) (h : Fin NCPU) (cur : Nat) : Outcome Harts := do
  let child ← allocProcess m.sched
  let (_, s) ← doFork m.sched cur
  -- the trapframe is copied as a whole
  ({ m with sched := s }.setFrameTp child (m.frameTp cur)).switchTo h (s.current (m.tp h))

def yieldCpu (m : Harts) (h : Fin NCPU) (cur : Nat) : Outcome Harts := do
  let s ← insertToReadyQueue (setStatus m.sched cur .ready) cur
  return { m with sched := s }.goTo h .inSchedule

def tick (m : Harts) (h : Fin NCPU) (cur : Nat) : Outcome Harts :=
  let ticks := (m.sched.procs cur).tickCount + 1
  let procs := fun t => setProc m.sched.procs cur { m.sched.procs cur with tickCount := t }
  if TIME_SLICE_LEN ≤ ticks then
    { m with sched := { m.sched with procs := procs 0 } }.yieldCpu h cur
  else
    { m with sched := { m.sched with procs := procs ticks } }.switchTo h
      (m.sched.current (m.tp h))

def exit (m : Harts) (h : Fin NCPU) (cur : Nat) : Outcome Harts := do
  let s ← freeProcess m.sched cur
  if (s.procs cur).isChild then
    return { m with sched := { s with childRunning := false } }.goTo h .inWaitCall
  else
    return { m with sched := s }.goTo h .inExit

def doTest (m : Harts) (h : Fin NCPU) (cur : Nat) : Outcome Harts := do
  let p ← allocProcess m.sched
  let m := (m.loadBincode h p).setFrameTp p 1
  let procs := setProc m.sched.procs p
    { m.sched.procs p with parent := some cur, isChild := true }
  let s ← insertToReadyQueue { m.sched with procs := procs } p
  { m with sched := { s with childRunning := true } }.yieldCpu h cur

/-- `smode_trap_handler` on hart `h`, for process `p`. The system call is taken
from the trapframe of `current`; if that is another process, the run is not
followed. -/
def trap (m : Harts) (h : Fin NCPU) (p : Nat) (op : HartOp) : Outcome Harts :=
  -- `store_all_registers`
  let m := m.setFrameTp p (m.tp h)
  match m.sched.current (m.tp h) with
  | none => .error (.assertion "current[hart_id]")
  | some cur =>
    if cur ≠ p then .error .foreign
    else
      match op with
      | .fork => m.sysUserFork h cur
      | .exec => (m.loadBincode h cur).switchTo h (m.sched.current (m.tp h))
      | .yield => m.yieldCpu h cur
      | .tick => m.tick h cur
      | .exit => m.exit h cur
      | .test => m.doTest h cur

/-- One step of one hart; `op` is what its process does if it is in user mode. -/
def step (m : Harts) : Fin NCPU × HartOp → Outcome Harts
  | (h, op) =>
    match m.mode h with
    | .starting => m.sStart h
    | .inWaitCall => .ok (if m.sched.childRunning then m.goTo h .inSchedule else m)
    | .inExit => .ok (if m.sched.childRunning then m else m.goTo h .inSchedule)
    | .inSchedule => m.dispatch h
    | .inUser p => m.trap h p op

/-- `m_start` leaves the number of the hart in `tp`. -/
def boot : Harts := ⟨initProcPool, fun _ => 0, fun h => h, fun _ => .starting⟩

def Dispatches (m : Harts) (h : Fin NCPU) (p : Nat) : Prop :=
  m.mode h = .inSchedule ∧ ∃ m', m.dispatch h = .ok m' ∧ m'.mode h = .inUser p

/-- The next trap of hart `h` finds its own process in `current[read_tp()]`. -/
def TrapsOwn (m : Harts) (h : Fin NCPU) : Prop :=
  ∀ p, m.mode h = .inUser p → m.tp h = m.frameTp p ∧ m.sched.current (m.tp h) = some p

end Harts

/-! ## The hart of a process -/

/-- The harts, with the hart for which the program in each slot was loaded. -/
structure HomedHarts where
  harts : Harts
  home : Nat → Nat

namespace HomedHarts

/-- The first program is loaded for hart 0, a child stays on the hart of its
parent, and a program started by `do_test` is for hart 1. -/
def homeAfter (t : HomedHarts) (h : Fin NCPU) (op : HartOp) : Nat → Nat :=
  match allocProcess t.harts.sched with
  | .error _ => t.home
  | .ok i =>
    match t.harts.mode h, op with
    | .starting, _ => if h = 0 then update t.home i 0 else t.home
    | .inUser p, .fork => update t.home i (t.home p)
    | .inUser _, .test => update t.home i 1
    | _, _ => t.home

def step (t : HomedHarts) (e : Fin NCPU × HartOp) : Outcome HomedHarts := do
  let m ← t.harts.step e
  return ⟨m, t.homeAfter e.1 e.2⟩

def boot : HomedHarts := ⟨Harts.boot, fun _ => 0⟩

/-- A hart that enters `schedule` finds a process of its own at the head of the
ready queue. -/
def HeadAtHome (t : HomedHarts) (e : Fin NCPU × HartOp) : Prop :=
  t.harts.mode e.1 = .inSchedule → ∀ p, t.harts.sched.readyQueueHead = some p → t.home p = e.1

end HomedHarts

/-! ## Slots in use -/

def Sched.Used (s : Sched) (p : Nat) : Prop := (s.procs p).status ≠ .free

/-- Of the slots only `p` may have come into use, and no hart changed its process. -/
structure Sched.Fills (p : Nat) (s s' : Sched) : Prop where
  keep : ∀ q, s.Used q → s'.Used q
  new : ∀ q, s'.Used q → q = p ∨ s.Used q
  current : s'.current = s.current

section

variable {p x : Nat} {s s' s'' : Sched}

theorem Sched.Fills.refl (p : Nat) (s : Sched) : s.Fills p s :=
  ⟨fun _ h => h, fun _ h => .inr h, rfl⟩

theorem Sched.Fills.trans (h : s.Fills p s') (h' : s'.Fills p s'') : s.Fills p s'' := by
  constructor
  · intro q hq
    exact h'.keep q (h.keep q hq)
  · intro q hq
    rcases h'.new q hq with rfl | hq
    · exact .inl rfl
    · exact h.new q hq
  · rw [h'.current, h.current]

theorem Sched.Fills.set {y : Proc} (hnew : y.status ≠ .free → x = p ∨ s.Used x)
    (hkeep : s.Used x → y.status ≠ .free) :
    s.Fills p { s with procs := setProc s.procs x y } := by
  constructor
  · intro q hq
    by_cases hqx : q = x
    · subst hqx
      simpa [Sched.Used, setProc] using hkeep hq
    · simpa [Sched.Used, setProc, update_of_ne hqx] using hq
  · intro q hq
    by_cases hqx : q = x
    · subst hqx
      exact hnew (by simpa [Sched.Used, setProc] using hq)
    · refine .inr ?_
      simpa [Sched.Used, setProc, update_of_ne hqx] using hq
  · rfl

theorem setStatus_fills {st : Status} (hx : x = p ∨ s.Used x) (hst : st ≠ .free) :
    s.Fills p (setStatus s x st) :=
  .set (fun _ => hx) (fun _ => hst)

theorem insertToReadyQueue_fills (hx : x = p ∨ s.Used x) (h : insertToReadyQueue s x = .ok s') :
    s.Fills p s' := by
  simp only [insertToReadyQueue, bind_eq_ok] at h
  obtain ⟨⟨procs, head⟩, he, ⟨⟩⟩ := h
  have hfill : s.Fills p { s with procs := procs } := by
    rcases enqueue_cases he with rfl | ⟨_, rfl | ⟨z, rfl⟩, rfl⟩
    · exact .refl p s
    · exact .set (fun _ => hx) (fun _ => (by simp))
    · have hlink : s.Fills p
          { s with procs := setProc s.procs z { s.procs z with queueNext := some x } } :=
        .set (fun hz => .inr hz) (fun hz => hz)
      exact hlink.trans (.set (fun _ => hx.imp id (hlink.keep x)) (fun _ => (by simp)))
  exact ⟨hfill.keep, hfill.new, hfill.current⟩

theorem freeProcess_fills (hx : s.Used x) (h : freeProcess s x = .ok s') : s.Fills p s' := by
  have hzombie : s.Fills p (setStatus s x .zombie) := setStatus_fills (.inr hx) (by simp)
  unfold freeProcess wakeup at h
  split at h
  · cases h
    exact hzombie
  · rename_i par _
    split at h
    · rename_i hblocked
      have hpar : (setStatus s x .zombie).Used par := by
        rw [Sched.Used, hblocked]
        simp
      have hready : (setStatus s x .zombie).Fills p
          (setStatus (setStatus s x .zombie) par .ready) := setStatus_fills (.inr hpar) (by simp)
      have hpar' := hready.keep par hpar
      exact (hzombie.trans hready).trans (insertToReadyQueue_fills (.inr hpar') h)
    · cases h
      exact hzombie

theorem doFork_fills {r : Option Int} (hp : allocProcess s = .ok p)
    (h : doFork s x = .ok (r, s')) : s.Fills p s' := by
  simp only [doFork, hp, ok_bind, bind_eq_ok] at h
  obtain ⟨s1, h1, h⟩ := h
  cases h
  refine .trans (.set (fun _ => .inl rfl) (fun _ => ?_)) (insertToReadyQueue_fills (.inl rfl) h1)
  simp

theorem schedule_eq_ok {hart : Nat} (h : schedule hart s = .ok s') :
    ∃ q, s.readyQueueHead = some q ∧ s.Used q ∧ s' = { setStatus s q .running with
        current := update s.current hart (some q)
        readyQueueHead := (s.procs q).queueNext } := by
  unfold schedule at h
  split at h
  · split at h <;> cases h
  · rename_i q hq
    split at h
    · cases h
    · rename_i hready
      cases h
      refine ⟨q, hq, ?_, rfl⟩
      rw [Sched.Used, not_not.mp hready]
      simp

end

/-! ## The invariant -/

/-- Each hart has its own number in `tp`, the processes in use are saved with
the `tp` of their hart, and a hart in user mode runs one of its own. -/
structure HomedHarts.Settled (t : HomedHarts) : Prop where
  tp : ∀ h, t.harts.tp h = h
  home : ∀ p, t.harts.sched.Used p → t.harts.frameTp p = t.home p
  user : ∀ h p, t.harts.mode h = .inUser p →
    t.harts.sched.current h = some p ∧ t.harts.sched.Used p ∧ t.harts.frameTp p = h

namespace HomedHarts

section

variable {t : HomedHarts} {h : Fin NCPU} {p v : Nat} {s' : Sched} {m' : Harts}

theorem Settled.keep (ht : t.Settled) (hp : t.harts.sched.Used p)
    (hfill : t.harts.sched.Fills p s') : Settled ⟨{ t.harts with sched := s' }, t.home⟩ := by
  constructor
  · exact ht.tp
  · intro q hq
    rcases hfill.new q hq with rfl | hq
    · exact ht.home q hp
    · exact ht.home q hq
  · intro k q hk
    obtain ⟨hcur, hused, hframe⟩ := ht.user k q hk
    refine ⟨?_, hfill.keep q hused, hframe⟩
    rwa [hfill.current]

theorem Settled.fill (ht : t.Settled) (hp : ¬ t.harts.sched.Used p)
    (hfill : t.harts.sched.Fills p s') (v : Nat) :
    Settled ⟨{ t.harts with sched := s' }.setFrameTp p v, update t.home p v⟩ := by
  constructor
  · exact ht.tp
  · intro q hq
    by_cases hqp : q = p
    · subst hqp
      simp [Harts.setFrameTp]
    · have hq' : t.harts.sched.Used q := (hfill.new q hq).resolve_left hqp
      simpa [Harts.setFrameTp, update_of_ne hqp] using ht.home q hq'
  · intro k q hk
    obtain ⟨hcur, hused, hframe⟩ := ht.user k q hk
    have hqp : q ≠ p := fun heq => hp (heq ▸ hused)
    refine ⟨?_, hfill.keep q hused, ?_⟩
    · exact hfill.current ▸ hcur
    · simpa [Harts.setFrameTp, update_of_ne hqp] using hframe

theorem Settled.goTo (ht : t.Settled) {place : HartMode} (hplace : ∀ p, place ≠ .inUser p) :
    Settled ⟨t.harts.goTo h place, t.home⟩ := by
  constructor
  · exact ht.tp
  · exact ht.home
  · intro k q hk
    by_cases hkh : k = h
    · subst hkh
      simp only [Harts.goTo, update_self] at hk
      exact absurd hk (hplace q)
    · simp only [Harts.goTo, update_of_ne hkh] at hk
      exact ht.user k q hk

theorem Settled.switchTo (ht : t.Settled) (hp : t.harts.sched.Used p) (hhome : t.home p = h)
    (hs : t.harts.switchTo h (some p) = .ok m') : Settled ⟨m', t.home⟩ := by
  have hframe : t.harts.frameTp p = h := (ht.home p hp).trans hhome
  cases hs
  constructor
  · intro k
    by_cases hkh : k = h
    · subst hkh
      simpa using hframe
    · simpa [update_of_ne hkh] using ht.tp k
  · exact ht.home
  · intro k q hk
    by_cases hkh : k = h
    · subst hkh
      simp only [update_self, HartMode.inUser.injEq] at hk
      subst hk
      exact ⟨by simp [ht.tp], hp, hframe⟩
    · have hne : (k : Nat) ≠ h := fun heq => hkh (Fin.ext heq)
      simp only [update_of_ne hkh] at hk
      obtain ⟨hcur, hused, hq⟩ := ht.user k q hk
      refine ⟨?_, hused, hq⟩
      simpa [ht.tp, update_of_ne hne] using hcur

theorem Settled.yieldCpu (ht : t.Settled) (hp : t.harts.sched.Used p)
    (hs : t.harts.yieldCpu h p = .ok m') : Settled ⟨m', t.home⟩ := by
  simp only [Harts.yieldCpu, bind_eq_ok] at hs
  obtain ⟨s', hins, hs⟩ := hs
  cases hs
  have hready : t.harts.sched.Fills p (setStatus t.harts.sched p .ready) :=
    setStatus_fills (.inl rfl) (by simp)
  have hfill := hready.trans (insertToReadyQueue_fills (.inl rfl) hins)
  exact (ht.keep hp hfill).goTo (by simp)

theorem not_used_of_allocProcess {s : Sched} (hp : allocProcess s = .ok p) : ¬ s.Used p :=
  fun hused => hused (allocProcess_free hp).1

theorem Settled.sysUserFork (ht : t.Settled) (hmode : t.harts.mode h = .inUser p)
    (hs : t.harts.sysUserFork h p = .ok m') : Settled ⟨m', t.homeAfter h .fork⟩ := by
  obtain ⟨hcur, hused, hframe⟩ := ht.user h p hmode
  simp only [Harts.sysUserFork, bind_eq_ok] at hs
  obtain ⟨child, halloc, ⟨r, s'⟩, hfork, hs⟩ := hs
  have hfill := doFork_fills halloc hfork
  have hnew := not_used_of_allocProcess halloc
  have hne : p ≠ child := fun heq => hnew (heq ▸ hused)
  have hafter : t.homeAfter h .fork = update t.home child (t.harts.frameTp p) := by
    simp [homeAfter, halloc, hmode, ht.home p hused]
  rw [hafter]
  rw [hfill.current, ht.tp, hcur] at hs
  have hhome : update t.home child (t.harts.frameTp p) p = h := by
    rw [update_of_ne hne, ← ht.home p hused, hframe]
  exact (ht.fill hnew hfill _).switchTo (hfill.keep p hused) hhome hs

theorem Settled.tick (ht : t.Settled) (hmode : t.harts.mode h = .inUser p)
    (hs : t.harts.tick h p = .ok m') : Settled ⟨m', t.home⟩ := by
  obtain ⟨hcur, hused, hframe⟩ := ht.user h p hmode
  have hcount : ∀ n, t.harts.sched.Fills p { t.harts.sched with
      procs := setProc t.harts.sched.procs p ⟨(t.harts.sched.procs p).status,
        (t.harts.sched.procs p).parent, (t.harts.sched.procs p).queueNext, n,
        (t.harts.sched.procs p).a0, (t.harts.sched.procs p).isChild⟩ } :=
    fun n => .set (fun hp => .inr hp) (fun hp => hp)
  simp only [Harts.tick] at hs
  split at hs
  · exact (ht.keep hused (hcount 0)).yieldCpu ((hcount 0).keep p hused) hs
  · rw [ht.tp, hcur] at hs
    refine (ht.keep hused (hcount _)).switchTo ((hcount _).keep p hused) ?_ hs
    rw [← ht.home p hused, hframe]

theorem Settled.exit (ht : t.Settled) (hmode : t.harts.mode h = .inUser p)
    (hs : t.harts.exit h p = .ok m') : Settled ⟨m', t.home⟩ := by
  obtain ⟨-, hused, -⟩ := ht.user h p hmode
  simp only [Harts.exit, bind_eq_ok] at hs
  obtain ⟨s', hfree, hs⟩ := hs
  have hfill : t.harts.sched.Fills p s' := freeProcess_fills hused hfree
  split at hs
  · cases hs
    have hclear : t.harts.sched.Fills p { s' with childRunning := false } :=
      ⟨hfill.keep, hfill.new, hfill.current⟩
    exact (ht.keep hused hclear).goTo (by simp)
  · cases hs
    exact (ht.keep hused hfill).goTo (by simp)

theorem Settled.doTest (ht : t.Settled) (hmode : t.harts.mode h = .inUser p)
    (hs : t.harts.doTest h p = .ok m') : Settled ⟨m', t.homeAfter h .test⟩ := by
  obtain ⟨-, hused, -⟩ := ht.user h p hmode
  simp only [Harts.doTest, bind_eq_ok] at hs
  obtain ⟨child, halloc, s', hins, hs⟩ := hs
  have hnew := not_used_of_allocProcess halloc
  have hafter : t.homeAfter h .test = update t.home child 1 := by simp [homeAfter, halloc, hmode]
  have hfill : t.harts.sched.Fills child s' := by
    refine .trans (.set (fun _ => .inl rfl) (fun hc => ?_))
      (insertToReadyQueue_fills (.inl rfl) hins)
    exact absurd hc hnew
  have hset : t.harts.sched.Fills child { s' with childRunning := true } :=
    ⟨hfill.keep, hfill.new, hfill.current⟩
  rw [hafter]
  refine (ht.fill hnew hset 1).yieldCpu (h := h) (hset.keep p hused) ?_
  -- the `tp` of the loader is overwritten
  simpa [Harts.loadBincode, Harts.setFrameTp] using hs

theorem Settled.trap (ht : t.Settled) (hmode : t.harts.mode h = .inUser p) {op : HartOp}
    (hs : t.harts.trap h p op = .ok m') : Settled ⟨m', t.homeAfter h op⟩ := by
  obtain ⟨hcur, hused, hframe⟩ := ht.user h p hmode
  have hhome : t.home p = h := by rw [← ht.home p hused, hframe]
  -- the `tp` that is saved is the one that was restored
  have hstore : t.harts.setFrameTp p h = t.harts := by
    rw [← hframe, Harts.setFrameTp, update_eq_self]
  have hstay : ∀ op', op' ≠ .fork → op' ≠ .test → t.homeAfter h op' = t.home := by
    intro op' hfork htest
    unfold homeAfter
    split
    · rfl
    · cases op' <;> simp_all
  simp only [Harts.trap, hstore, ht.tp, hcur, ne_eq, not_true_eq_false, if_false] at hs
  cases op with
  | fork => exact ht.sysUserFork hmode hs
  | exec =>
    rw [hstay .exec (by simp) (by simp)]
    rw [Harts.loadBincode, ht.tp, hstore] at hs
    exact ht.switchTo hused hhome hs
  | yield =>
    rw [hstay .yield (by simp) (by simp)]
    exact ht.yieldCpu hused hs
  | tick =>
    rw [hstay .tick (by simp) (by simp)]
    exact ht.tick hmode hs
  | exit =>
    rw [hstay .exit (by simp) (by simp)]
    exact ht.exit hmode hs
  | test => exact ht.doTest hmode hs

theorem Settled.sStart (ht : t.Settled) (hmode : t.harts.mode h = .starting) {op : HartOp}
    (hs : t.harts.sStart h = .ok m') : Settled ⟨m', t.homeAfter h op⟩ := by
  unfold Harts.sStart at hs
  rw [ht.tp] at hs
  split at hs
  · rename_i h0
    simp only [bind_eq_ok] at hs
    obtain ⟨p, halloc, s', hins, hs⟩ := hs
    cases hs
    have hfill : t.harts.sched.Fills p s' := insertToReadyQueue_fills (.inl rfl) hins
    have hafter : t.homeAfter h op = update t.home p 0 := by
      simp [homeAfter, halloc, hmode, Fin.ext_iff, h0]
    rw [hafter]
    simp only [Harts.loadBincode, ht.tp, h0]
    exact (ht.fill (not_used_of_allocProcess halloc) hfill 0).goTo (by simp)
  · rename_i h0
    cases hs
    have hafter : t.homeAfter h op = t.home := by
      unfold homeAfter
      split
      · rfl
      · simp [hmode, Fin.ext_iff, h0]
    rw [hafter]
    exact ht.goTo (by simp)

theorem dispatch_eq_ok {m m' : Harts} (hs : m.dispatch h = .ok m') :
    ∃ p s', m.sched.readyQueueHead = some p ∧ m.sched.Used p ∧ m.sched.Fills p s' ∧
      { m with sched := s' }.switchTo h (some p) = .ok m' := by
  simp only [Harts.dispatch, bind_eq_ok] at hs
  obtain ⟨s', hsched, hs⟩ := hs
  obtain ⟨p, hhead, hused, rfl⟩ := schedule_eq_ok hsched
  have hfill : m.sched.Fills p (setStatus m.sched p .running) :=
    setStatus_fills (.inl rfl) (by simp)
  refine ⟨p, { setStatus m.sched p .running with readyQueueHead := (m.sched.procs p).queueNext },
    hhead, hused, ⟨hfill.keep, hfill.new, hfill.current⟩, ?_⟩
  -- `schedule` and `switch_to` both store into `current`
  simpa [Harts.switchTo, setStatus] using hs

theorem Settled.dispatch (ht : t.Settled)
    (hhome : ∀ p, t.harts.sched.readyQueueHead = some p → t.home p = h)
    (hs : t.harts.dispatch h = .ok m') : Settled ⟨m', t.home⟩ := by
  obtain ⟨p, s', hhead, hused, hfill, hs⟩ := dispatch_eq_ok hs
  exact (ht.keep hused hfill).switchTo (hfill.keep p hused) (hhome p hhead) hs

theorem settled_boot : boot.Settled := by
  constructor
  · intro h
    rfl
  · intro p hp
    exact absurd rfl hp
  · intro h p hp
    cases hp

theorem Settled.step {e : Fin NCPU × HartOp} {t' : HomedHarts} (ht : t.Settled)
    (hok : t.HeadAtHome e) (hs : t.step e = .ok t') : t'.Settled := by
  obtain ⟨h, op⟩ := e
  simp only [HomedHarts.step, bind_eq_ok] at hs
  obtain ⟨m', hs, hs⟩ := hs
  cases hs
  have hafter : (∀ p, t.harts.mode h ≠ .inUser p) → t.harts.mode h ≠ .starting →
      t.homeAfter h op = t.home := by
    intro huser hstart
    unfold homeAfter
    split
    · rfl
    · split
      · exact absurd ‹_› hstart
      · exact absurd ‹_› (huser _)
      · exact absurd ‹_› (huser _)
      · rfl
  cases hmode : t.harts.mode h with
  | starting =>
    simp only [Harts.step, hmode] at hs
    exact ht.sStart hmode hs
  | inWaitCall =>
    simp only [Harts.step, hmode, Except.ok.injEq] at hs
    rw [hafter (by simp [hmode]) (by simp [hmode]), ← hs]
    split
    · exact ht.goTo (by simp)
    · exact ht
  | inExit =>
    simp only [Harts.step, hmode, Except.ok.injEq] at hs
    rw [hafter (by simp [hmode]) (by simp [hmode]), ← hs]
    split
    · exact ht
    · exact ht.goTo (by simp)
  | inSchedule =>
    simp only [Harts.step, hmode] at hs
    rw [hafter (by simp [hmode]) (by simp [hmode])]
    exact ht.dispatch (hok hmode) hs
  | inUser p =>
    simp only [Harts.step, hmode] at hs
    exact ht.trap hmode hs

end

end HomedHarts

/-! ## Main results -/

/-- As long as each hart finds a process of its own at the head of the ready
queue, it traps into its own process; and the process it dispatches next has
the number of the hart in its trapframe just if it is one of its own. -/
theorem dispatch_own_iff {t : HomedHarts}
    (hrun : Reaches HomedHarts.step HomedHarts.HeadAtHome HomedHarts.boot t) :
    (∀ h p, t.harts.Dispatches h p → (t.harts.frameTp p = h ↔ t.home p = h)) ∧
      ∀ h, t.harts.TrapsOwn h := by
  have ht : t.Settled := hrun.invariant HomedHarts.Settled HomedHarts.settled_boot
    (fun _ _ _ hi hok hs => hi.step hok hs)
  constructor
  · rintro h p ⟨-, m', hdisp, hmode⟩
    obtain ⟨q, s', -, hused, -, hs⟩ := HomedHarts.dispatch_eq_ok hdisp
    have hqp : q = p := by
      cases hs
      simpa using hmode
    rw [← hqp, ht.home q hused]
  · intro h p hp
    obtain ⟨hcur, -, hframe⟩ := ht.user h p hp
    exact ⟨by rw [ht.tp, hframe], by rw [ht.tp, hcur]⟩

instance HomedHarts.HeadAtHome.decidable (t : HomedHarts) (e : Fin NCPU × HartOp) :
    Decidable (t.HeadAtHome e) :=
  inferInstanceAs (Decidable (_ = _ → ∀ p, t.harts.sched.readyQueueHead = some p → _ = _))

/-- A run in which hart 0 forks and then starts a program for hart 1, behind
the child in the ready queue: both harts are in user mode at the end. -/
theorem dispatch_own_iff_test : ∃ t,
    Reaches HomedHarts.step HomedHarts.HeadAtHome HomedHarts.boot t ∧
      (t.harts.mode 0 = .inUser 1 ∧ t.harts.mode 1 = .inUser 2) ∧
      (∀ h p, t.harts.Dispatches h p → (t.harts.frameTp p = h ↔ t.home p = h)) ∧
        ∀ h, t.harts.TrapsOwn h := by
  obtain ⟨t, hrun, ht⟩ : ∃ t, Runs HomedHarts.step HomedHarts.HeadAtHome HomedHarts.boot
      [(0, .yield), (1, .yield), (0, .yield), (0, .fork), (0, .test), (0, .yield),
        (1, .yield), (1, .yield)] t ∧ t.harts.mode 0 = .inUser 1 ∧ t.harts.mode 1 = .inUser 2 := by
    decide +kernel
  exact ⟨t, hrun.reaches .start, ht, dispatch_own_iff (hrun.reaches .start)⟩

/-- The first process starts a program for hart 1. Hart 0 comes to `schedule`
first and takes it. -/
theorem dispatch_foreign : ¬ ∀ m, Reaches Harts.step (fun _ _ => True) Harts.boot m →
    (∀ h p, m.Dispatches h p → m.frameTp p = h) ∧ ∀ h, m.TrapsOwn h := by
  intro hclaim
  obtain ⟨m, hrun, hmode, hframe, m', hdisp, hmode'⟩ :
      ∃ m, Runs Harts.step (fun _ _ => True) Harts.boot [(0, .yield), (0, .yield), (0, .test)] m ∧
      m.mode 0 = .inSchedule ∧ m.frameTp 1 = 1 ∧
      ∃ m', m.dispatch 0 = .ok m' ∧ m'.mode 0 = .inUser 1 := by decide +kernel
  have h10 := (hclaim m (hrun.reaches .start)).1 0 1 ⟨hmode, m', hdisp, hmode'⟩
  simp [hframe] at h10

end CabbagePKE
