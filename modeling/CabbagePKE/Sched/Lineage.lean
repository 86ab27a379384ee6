import CabbagePKE.Sched.Wait

/-!
# Parents and generations

A slot names its process's parent by a pointer to a slot, which is never cleared
and may be given to another process. So a `wait` may block for a slot that was
freed long ago, or reap a process that an earlier process of the same slot
forked. A lineage gives every process a number and remembers its forker's.
-/

namespace CabbagePKE

open Lib Function

def SchedOp.Family : SchedOp → Prop
  | .fork => True
  | .exit => True
  | .wait _ => True
  | .yield => True
  | _ => False

instance SchedOp.decidableFamily (op : SchedOp) : Decidable op.Family :=
  match op with
  | .fork | .exit | .wait _ | .yield => isTrue trivial
  | .tick _ | .semInit _ | .acquire _ | .release _ => isFalse id

/-- The scheduler, with a number for the process in each slot and the number of
the process that forked it. -/
structure Lineage where
  sched : Sched
  number : Nat → Nat
  forker : Nat → Option Nat
  /-- the next number -/
  next : Nat

def Lineage.born (g : Lineage) (cur child : Nat) (s : Sched) : Lineage :=
  { sched := s
    number := update g.number child g.next
    forker := update g.forker child (some (g.number cur))
    next := g.next + 1 }

def Lineage.trap (hart : Nat) (g : Lineage) (op : SchedOp) : Outcome Lineage := do
  let s ← g.sched.trap hart op
  match op, g.sched.current hart, allocProcess g.sched with
  | .fork, some cur, .ok child => return g.born cur child s
  | _, _, _ => return { g with sched := s }

def Lineage.boot (hart : Nat) : Outcome Lineage := do
  let s ← CabbagePKE.boot hart
  return ⟨s, fun _ => 0, fun _ => none, 1⟩

def Lineage.HasChild (g : Lineage) (P : Nat) : Prop :=
  ∃ c, c < NPROC ∧ (g.sched.procs c).status ≠ .free ∧ g.forker c = some (g.number P)

def Sched.WaitFails (hart : Nat) (s : Sched) (P : Nat) (pid : Int) : Prop :=
  ∃ s', s.trap hart (.wait pid) = .ok s' ∧ (s'.procs P).a0 = 2 ^ 64 - 1 ∧
    (s'.procs P).status ≠ .blocked

def Sched.WaitReturns (hart : Nat) (s : Sched) (P : Nat) (pid : Int) (c : Nat) : Prop :=
  s.current hart = some P ∧
    ∃ s', doWait hart (setA0 s P (SchedOp.wait pid).a0) P pid = .ok (some (c : Int), s')

section

variable {hart P cur : Nat} {s s' : Sched} {pid : Int} {op : SchedOp}

theorem SchedOp.Family.noSem (h : op.Family) : op.NoSem := by
  cases op <;> trivial

theorem schedule_status {p : Nat} (h : schedule hart s = .ok s')
    (hp : (s.procs p).status ≠ .ready) : (s'.procs p).status = (s.procs p).status := by
  unfold schedule at h
  split at h
  · split at h <;> cases h
  · rename_i q _
    split at h
    · cases h
    · rename_i hready
      cases h
      have hne : p ≠ q := by
        rintro rfl
        exact hready hp
      simp [setStatus, setProc, update_of_ne hne]

theorem wait_awaited (hcur : s.current hart = some P) (haw : s.awaited P pid ≠ [])
    (h : s.trap hart (.wait pid) = .ok s') :
    (s'.procs P).a0 < NPROC ∨ (s'.procs P).status = .blocked := by
  simp only [Sched.trap, hcur, bind_eq_ok, handle] at h
  obtain ⟨⟨r, s1⟩, h1, h⟩ := h
  rw [doWait_eq, awaited_setA0] at h1
  split at h1
  · rename_i i hfind
    have hi := List.mem_of_find?_eq_some hfind
    have hlt : i < NPROC := List.mem_range.mp (List.mem_filter.mp hi).1
    cases h1
    cases h
    refine .inl ?_
    have ha0 : ((setA0 (setStatus (setA0 s P (SchedOp.wait pid).a0) i .free) P
        ((i : Int) % 2 ^ 64).toNat).procs P).a0 = ((i : Int) % 2 ^ 64).toNat := by
      simp [setA0, setProc]
    rw [ha0]
    omega
  · rw [if_neg haw] at h1
    simp only [blockInWait, bind_eq_ok] at h1
    obtain ⟨s2, h2, h1⟩ := h1
    cases h1
    cases h
    refine .inr ?_
    have hblocked : ((setStatus (setA0 s P (SchedOp.wait pid).a0) P .blocked).procs P).status =
        .blocked := by simp [setStatus, setProc]
    rw [schedule_status h2 (by rw [hblocked]; simp), hblocked]

theorem waitFails_iff (hcur : s.current hart = some P) (hrun : (s.procs P).status = .running) :
    s.WaitFails hart P pid ↔ s.awaited P pid = [] := by
  constructor
  · rintro ⟨s', hs', ha0, hst⟩
    by_contra haw
    rcases wait_awaited hcur haw hs' with hlt | hblocked
    · rw [ha0] at hlt
      exact absurd hlt (by decide)
    · exact hst hblocked
  · intro haw
    have hwait : doWait hart (setA0 s P (SchedOp.wait pid).a0) P pid =
        .ok (some (-1), setA0 s P (SchedOp.wait pid).a0) := by
      rw [doWait_eq, awaited_setA0, haw]
      rfl
    refine ⟨setA0 (setA0 s P (SchedOp.wait pid).a0) P (2 ^ 64 - 1), ?_, ?_, ?_⟩
    · simp only [Sched.trap, hcur, handle, hwait, ok_bind]
      rfl
    · simp [setA0, setProc]
    · rw [setA0_fields, setA0_fields]
      simp [hrun]

theorem trap_keeps (hcur : s.current hart = some cur) (hrun : (s.procs cur).status = .running)
    (hop : op.Family) (hfork : op ≠ .fork) (h : s.trap hart op = .ok s') :
    Keeps s.procs s'.procs := by
  simp only [Sched.trap, hcur, bind_eq_ok] at h
  obtain ⟨⟨r, s1⟩, h1, h⟩ := h
  have hlive : ((setA0 s cur op.a0).procs cur).status ≠ .free := by
    rw [setA0_fields]
    simp [hrun]
  have hhandle : Keeps (setA0 s cur op.a0).procs s1.procs := by
    cases op with
    | exit =>
      simp only [handle, sysUserExit, bind_eq_ok] at h1
      obtain ⟨s2, h2, h1⟩ := h1
      split at h1
      · cases h1
      · simp only [bind_eq_ok] at h1
        obtain ⟨s3, h3, h1⟩ := h1
        cases h1
        exact (freeProcess_keeps hlive h2).trans (schedule_keeps h3)
    | wait pid => exact doWait_keeps hlive h1
    | yield =>
      simp only [handle, sysUserYield, bind_eq_ok] at h1
      obtain ⟨s2, h2, h1⟩ := h1
      cases h1
      exact yieldTo_keeps hlive h2
    | fork => exact absurd rfl hfork
    | _ => exact absurd hop id
  have hs1 := (setA0_keeps op.a0).trans hhandle
  cases r with
  | none =>
    cases h
    exact hs1
  | some v =>
    cases h
    exact hs1.trans (setA0_keeps _)

theorem trap_fork (hcur : s.current hart = some cur) (h : s.trap hart .fork = .ok s') :
    ∃ i, allocProcess s = .ok i ∧ (s'.procs i).parent = some cur ∧
      ∀ c, c ≠ i → (s'.procs c).parent = (s.procs c).parent ∧
        ((s.procs c).status = .free → (s'.procs c).status = .free) := by
  simp only [Sched.trap, hcur, handle, doFork, bind_eq_ok, pure_eq_ok, Except.ok.injEq] at h
  obtain ⟨-, ⟨i, hi, s2, h2, rfl⟩, h⟩ := h
  cases h
  have hst : ∀ q, ((setA0 s cur SchedOp.fork.a0).procs q).status = (s.procs q).status := fun q => by
    rw [setA0_fields]
  have hi' : allocProcess s = .ok i := by simpa only [allocProcess, hst] using hi
  have hkeeps := (insertToReadyQueue_keeps (by simp [setProc]) h2).trans
    (setA0_keeps (s := s2) (p := cur) ((i : Int) % 2 ^ 64).toNat)
  refine ⟨i, hi', ?_, fun c hc => ⟨?_, fun hfree => hkeeps.free c ?_⟩⟩
  · rw [hkeeps.parent]
    simp [setProc]
  · rw [hkeeps.parent]
    simp only [setProc, update_of_ne hc]
    rw [setA0_fields]
  · simp only [setProc, update_of_ne hc, hst, hfree]

end

/-! ## Waiting without children -/

section

variable {hart P : Nat} {pid : Int} {g₀ g g' : Lineage}

theorem lineage_sched {op : SchedOp} (h : g.trap hart op = .ok g') :
    g.sched.trap hart op = .ok g'.sched := by
  simp only [Lineage.trap, bind_eq_ok] at h
  obtain ⟨s, hs, h⟩ := h
  rw [hs]
  split at h
  · cases h
    rfl
  · cases h
    rfl

theorem lineage_runs {ok : Lineage → SchedOp → Prop} (hok : ∀ g op, ok g op → op.Family)
    (h0 : Lineage.boot hart = .ok g₀) (hrun : Reaches (Lineage.trap hart) ok g₀ g) :
    g.sched.Runs hart := by
  simp only [Lineage.boot, bind_eq_ok] at h0
  obtain ⟨s0, hs0, h0⟩ := h0
  cases h0
  exact reachable_runs hs0 (hrun.map Lineage.sched
    (fun g op g' hop hstep => ⟨(hok g op hop).noSem, lineage_sched hstep⟩))

/-- In every run `wait` returns `-1` exactly when no slot that it looks at points
to the caller. A slot that was reaped still does. -/
theorem wait_fails_iff_unawaited (h0 : Lineage.boot hart = .ok g₀)
    (hrun : Reaches (Lineage.trap hart) (fun _ op => op.Family) g₀ g)
    (hcur : g.sched.current hart = some P) :
    g.sched.WaitFails hart P pid ↔ g.sched.awaited P pid = [] := by
  obtain ⟨p, hp, hrunning⟩ := lineage_runs (fun _ _ hop => hop) h0 hrun
  obtain rfl : P = p := by simpa [hcur] using hp
  exact waitFails_iff hcur hrunning

end

/-- A child that has no children of its own waits in vain. -/
theorem wait_fails_iff_unawaited_child : ∃ g₀ g, Lineage.boot 0 = .ok g₀ ∧
    Reaches (Lineage.trap 0) (fun _ op => op.Family) g₀ g ∧ g.sched.current 0 = some 1 ∧
      g.sched.WaitFails 0 1 (-1) := by
  obtain ⟨g₀, h0, g, hrun, hcur, haw⟩ : ∃ g₀, Lineage.boot 0 = .ok g₀ ∧
      ∃ g, Runs (Lineage.trap 0) (fun _ op => op.Family) g₀ [.fork, .yield] g ∧
      g.sched.current 0 = some 1 ∧ g.sched.awaited 1 (-1) = [] := by decide +kernel
  have hreach := hrun.reaches .start
  exact ⟨g₀, g, h0, hreach, hcur, (wait_fails_iff_unawaited h0 hreach hcur).mpr haw⟩

/-- A process that reaped its only child and waits again is not told so: the
slot of the child still points to it. -/
theorem wait_after_reap : ¬ ∀ (hart P : Nat) (pid : Int) (g₀ g : Lineage),
    Lineage.boot hart = .ok g₀ → Reaches (Lineage.trap hart) (fun _ op => op.Family) g₀ g →
      g.sched.current hart = some P → ¬ g.HasChild P → g.sched.WaitFails hart P pid := by
  intro hclaim
  obtain ⟨g₀, h0, g, hrun, hcur, haw, hchild⟩ : ∃ g₀, Lineage.boot 0 = .ok g₀ ∧
      ∃ g, Runs (Lineage.trap 0) (fun _ op => op.Family) g₀ [.fork, .yield, .exit, .wait (-1)] g ∧
      g.sched.current 0 = some 0 ∧ g.sched.awaited 0 (-1) = [1] ∧
      ∀ c, c < NPROC → (g.sched.procs c).status = .free ∨ g.forker c ≠ some (g.number 0) := by
    decide +kernel
  have hreach := hrun.reaches .start
  have hnone : ¬ g.HasChild 0 := by
    rintro ⟨c, hc, hlive, hfork⟩
    exact (hchild c hc).elim hlive (fun hne => hne hfork)
  obtain ⟨p, hp, hrunning⟩ := lineage_runs (fun _ _ hop => hop) h0 hreach
  obtain rfl : 0 = p := by simpa [hcur] using hp
  have hnil := (waitFails_iff hcur hrunning).mp (hclaim 0 0 (-1) g₀ g h0 hreach hcur hnone)
  simp [haw] at hnil

/-! ## Reaping another process's child -/

def Lineage.ForkOk (g : Lineage) : SchedOp → Prop
  | .fork => ∀ child, allocProcess g.sched = .ok child → ∀ c, c < NPROC →
      (g.sched.procs c).status ≠ .free → (g.sched.procs c).parent ≠ some child
  | _ => True

/-- Every process was forked by the process in the slot that it names as its
parent. -/
structure Lineage.Traced (g : Lineage) : Prop where
  slots : ∀ c, (g.sched.procs c).status ≠ .free → c < NPROC
  forked : ∀ c p, (g.sched.procs c).status ≠ .free → (g.sched.procs c).parent = some p →
    g.forker c = some (g.number p)

section

variable {hart P : Nat} {pid : Int} {g₀ g g' : Lineage} {op : SchedOp}

theorem boot_procs (hart : Nat) : ∃ s, boot hart = .ok s ∧
    (∀ c, c ≠ 0 → s.procs c = initProcPool.procs c) ∧ (s.procs 0).parent = none := by
  refine ⟨_, rfl, ?_, rfl⟩
  intro c hc
  simp [setStatus, setProc, update_of_ne hc]

theorem boot_traced (h : Lineage.boot hart = .ok g) : g.Traced := by
  obtain ⟨s, hs, hother, hpar⟩ := boot_procs hart
  simp only [Lineage.boot, hs, ok_bind] at h
  cases h
  constructor
  · intro c hc
    by_cases hc0 : c = 0
    · rw [hc0]
      decide
    · exact absurd (by rw [hother c hc0]; rfl) hc
  · intro c p hc hp
    by_cases hc0 : c = 0
    · simp [hc0, hpar] at hp
    · exact absurd (by rw [hother c hc0]; rfl) hc

theorem Lineage.Traced.trap {cur : Nat} (h : g.Traced) (hcur : g.sched.current hart = some cur)
    (hrun : (g.sched.procs cur).status = .running) (hop : op.Family) (hok : g.ForkOk op)
    (ht : g.trap hart op = .ok g') : g'.Traced := by
  have hs := lineage_sched ht
  by_cases hfork : op = .fork
  · subst hfork
    obtain ⟨i, hi, hpar, hothers⟩ := trap_fork hcur hs
    obtain ⟨hfree, hlt⟩ := allocProcess_free hi
    have hg' : g' = g.born cur i g'.sched := by
      simp only [Lineage.trap, hs, ok_bind, hcur, hi, pure_eq_ok, Except.ok.injEq] at ht
      exact ht.symm
    have hlive : ∀ c, c ≠ i → (g'.sched.procs c).status ≠ .free →
        (g.sched.procs c).status ≠ .free := fun c hc hne hf => hne ((hothers c hc).2 hf)
    constructor
    · intro c hc
      by_cases hci : c = i
      · exact hci ▸ hlt
      · exact h.slots c (hlive c hci hc)
    · intro c p hc hp
      rw [hg']
      by_cases hci : c = i
      · -- the new process names its forker, which has a slot of its own
        subst hci
        cases hpar.symm.trans hp
        have hne : cur ≠ c := by
          rintro rfl
          simp [hrun] at hfree
        simp [Lineage.born, update_of_ne hne]
      · -- no other process names the slot that was taken
        rw [(hothers c hci).1] at hp
        have hcl := hlive c hci hc
        have hne : p ≠ i := by
          rintro rfl
          exact hok p hi c (h.slots c hcl) hcl hp
        simp only [Lineage.born, update_of_ne hci, update_of_ne hne]
        exact h.forked c p hcl hp
  · have hkeeps := trap_keeps hcur hrun hop hfork hs
    have hg' : g' = { g with sched := g'.sched } := by
      simp only [Lineage.trap, hs, ok_bind] at ht
      split at ht
      · exact absurd rfl hfork
      · simpa using ht.symm
    have hlive : ∀ c, (g'.sched.procs c).status ≠ .free → (g.sched.procs c).status ≠ .free :=
      fun c hc hf => hc (hkeeps.free c hf)
    constructor
    · intro c hc
      exact h.slots c (hlive c hc)
    · intro c p hc hp
      rw [hkeeps.parent] at hp
      rw [hg']
      exact h.forked c p (hlive c hc) hp

/-- In every run in which each `fork` takes a slot that no process names as its
parent, `wait` returns only processes that the caller forked itself. -/
theorem wait_reaps_own {c : Nat} (h0 : Lineage.boot hart = .ok g₀)
    (hrun : Reaches (Lineage.trap hart) (fun g op => op.Family ∧ g.ForkOk op) g₀ g)
    (hwait : g.sched.WaitReturns hart P pid c) : g.forker c = some (g.number P) := by
  have htraced : g.sched.Runs hart ∧ g.Traced := by
    refine Reaches.invariant (fun g => g.sched.Runs hart ∧ g.Traced) ?_ ?_ hrun
    · have hstart : Reaches (Lineage.trap hart) (fun _ op => op.Family) g₀ g₀ := .start
      exact ⟨lineage_runs (fun _ _ hop => hop) h0 hstart, boot_traced h0⟩
    · rintro g op g' ⟨hruns, ht⟩ ⟨hop, hok⟩ hstep
      obtain ⟨cur, hcur, hrunning⟩ := id hruns
      exact ⟨trap_runs hruns hop.noSem (lineage_sched hstep),
        ht.trap hcur hrunning hop hok hstep⟩
  obtain ⟨-, s', hs'⟩ := hwait
  rw [doWait_eq, awaited_setA0] at hs'
  split at hs'
  · rename_i i hfind
    have hz : ((setA0 g.sched P (SchedOp.wait pid).a0).procs i).status = .zombie := by
      simpa using List.find?_some hfind
    rw [setA0_fields] at hz
    have hci : c = i := by
      simp only [Except.ok.injEq, Prod.mk.injEq, Option.some.injEq] at hs'
      omega
    subst hci
    exact htraced.2.forked c P (by rw [hz]; simp)
      (parent_of_awaited (List.mem_of_find?_eq_some hfind))
  · split at hs'
    · simp only [Except.ok.injEq, Prod.mk.injEq, Option.some.injEq] at hs'
      omega
    · simp only [blockInWait, bind_eq_ok, pure_eq_ok, Except.ok.injEq, Prod.mk.injEq] at hs'
      obtain ⟨_, -, hr, -⟩ := hs'
      cases hr

end

instance Lineage.ForkOk.decidable (g : Lineage) : ∀ op, Decidable (g.ForkOk op)
  | .fork => inferInstanceAs (Decidable (∀ child, allocProcess g.sched = .ok child → ∀ c, c < NPROC →
      (g.sched.procs c).status ≠ .free → (g.sched.procs c).parent ≠ some child))
  | .exit | .wait _ | .yield | .tick _ | .semInit _ | .acquire _ | .release _ => instDecidableTrue

/-- A process reaps two children, the second in the slot of the first. -/
theorem wait_reaps_own_twice : ∃ g₀ g, Lineage.boot 0 = .ok g₀ ∧
    Reaches (Lineage.trap 0) (fun g op => op.Family ∧ g.ForkOk op) g₀ g ∧
      g.sched.WaitReturns 0 0 (-1) 1 ∧ g.number 1 = 2 ∧ g.forker 1 = some (g.number 0) := by
  obtain ⟨g₀, h0, g, hrun, hcur, hnum, ⟨r, s'⟩, hs', rfl⟩ : ∃ g₀, Lineage.boot 0 = .ok g₀ ∧
      ∃ g, Runs (Lineage.trap 0) (fun g op => op.Family ∧ g.ForkOk op) g₀
        [.fork, .yield, .exit, .wait (-1), .fork, .yield, .exit] g ∧
      g.sched.current 0 = some 0 ∧ g.number 1 = 2 ∧
      ∃ r, doWait 0 (setA0 g.sched 0 (SchedOp.wait (-1)).a0) 0 (-1) = .ok r ∧ r.1 = some 1 := by
    decide +kernel
  have hreach := hrun.reaches .start
  have hret : g.sched.WaitReturns 0 0 (-1) 1 := ⟨hcur, s', hs'⟩
  exact ⟨g₀, g, h0, hreach, hret, hnum, wait_reaps_own h0 hreach hret⟩

/-- A process reaps a zombie that it did not fork: the forker was an earlier
process in its slot. -/
theorem wait_reaps_orphan : ¬ ∀ (hart P c : Nat) (pid : Int) (g₀ g : Lineage),
    Lineage.boot hart = .ok g₀ → Reaches (Lineage.trap hart) (fun _ op => op.Family) g₀ g →
      g.sched.WaitReturns hart P pid c → g.forker c = some (g.number P) := by
  intro hclaim
  obtain ⟨g₀, h0, g, hrun, hcur, hfork, hnum, ⟨r, s'⟩, hs', rfl⟩ : ∃ g₀, Lineage.boot 0 = .ok g₀ ∧
      ∃ g, Runs (Lineage.trap 0) (fun _ op => op.Family) g₀
        [.fork, .yield, .fork, .exit, .wait (-1), .fork, .yield, .exit] g ∧
      g.sched.current 0 = some 1 ∧ g.forker 2 = some 1 ∧ g.number 1 = 3 ∧
      ∃ r, doWait 0 (setA0 g.sched 1 (SchedOp.wait (-1)).a0) 1 (-1) = .ok r ∧ r.1 = some 2 := by
    decide +kernel
  have hown := hclaim 0 1 2 (-1) g₀ g h0 (hrun.reaches .start) ⟨hcur, s', hs'⟩
  simp [hfork, hnum] at hown

end CabbagePKE
