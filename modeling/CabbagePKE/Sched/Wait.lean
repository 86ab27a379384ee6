import CabbagePKE.Sched.Frame

/-!
# A blocked `wait`

`do_wait` blocks by calling `schedule`, which never returns: the code after
it is not run when the process is dispatched again. The process continues
in user mode with the registers it trapped with, so `a0` holds the number
of the call, and no child was reaped.
-/

namespace CabbagePKE

open Lib Function

def SchedOp.NoSem : SchedOp → Prop
  | .semInit _ => False
  | .acquire _ => False
  | .release _ => False
  | _ => True

instance SchedOp.decidableNoSem (op : SchedOp) : Decidable op.NoSem :=
  match op with
  | .fork | .exit | .wait _ | .yield | .tick _ => isTrue trivial
  | .semInit _ | .acquire _ | .release _ => isFalse id

/-- `wait(pid)` by `P`, which has a matching child that has not exited,
leads from `s` to `s₁` and leaves `P` blocked. -/
structure WaitBlocks (hart P : Nat) (pid : Int) (s s₁ : Sched) : Prop where
  current : s.current hart = some P
  child : ∃ c, c < NPROC ∧ (s.procs c).parent = some P ∧ (s.procs c).status.Alive ∧
    (pid = -1 ∨ pid = c)
  call : s.trap hart (.wait pid) = .ok s₁
  blocked : (s₁.procs P).status = .blocked

/-- From the first state to the next one in which `P` runs, by calls
without semaphores. -/
inductive Resumes (hart P : Nat) : Sched → Sched → Prop
  | here {s : Sched} : s.current hart = some P → Resumes hart P s s
  | later {s s' s'' : Sched} {op : SchedOp} : s.current hart ≠ some P → op.NoSem →
      s.trap hart op = .ok s' → Resumes hart P s' s'' → Resumes hart P s s''

/-- In `s₂` the register `a0` of `P` holds the pid of a child that `P` had in
`s₁`, and the child's slot is free. -/
def Delivered (P : Nat) (s₁ s₂ : Sched) : Prop :=
  ∃ c, c < NPROC ∧ (s₁.procs c).parent = some P ∧ (s₁.procs c).status ≠ .free ∧
    (s₂.procs P).a0 = c ∧ (s₂.procs c).status = .free

def Sched.Runs (hart : Nat) (s : Sched) : Prop :=
  ∃ p, s.current hart = some p ∧ (s.procs p).status = .running

section

variable {hart P cur : Nat} {s s' s₁ s₂ : Sched} {pid : Int} {op : SchedOp}

theorem schedule_runs (h : schedule hart s = .ok s') : s'.Runs hart := by
  unfold schedule at h
  split at h
  · split at h <;> cases h
  · rename_i p _
    split at h
    · cases h
    · cases h
      exact ⟨p, update_self _ _ _, by simp [setStatus, setProc]⟩

theorem handle_runs {r : Option Int} (hcur : s.current hart = some cur)
    (hrun : (s.procs cur).status = .running) (hop : op.NoSem)
    (h : handle hart s cur op = .ok (r, s')) :
    s'.Runs hart ∧ (r ≠ none → s'.current hart = some cur) := by
  cases op with
  | fork =>
    simp only [handle, doFork, bind_eq_ok, pure_eq_ok, Except.ok.injEq, Prod.mk.injEq] at h
    obtain ⟨i, hi, s₁, h1, rfl, rfl⟩ := h
    have hfree := (allocProcess_free hi).1
    have hne : cur ≠ i := by
      rintro rfl
      simp [hrun] at hfree
    obtain ⟨hcur', hst⟩ := insertToReadyQueue_other h1
    have hcur1 : s₁.current hart = some cur := by rw [hcur', ← hcur]
    refine ⟨⟨cur, hcur1, ?_⟩, fun _ => hcur1⟩
    simp [hst cur hne, setProc, update_of_ne hne, hrun]
  | exit =>
    simp only [handle, sysUserExit, bind_eq_ok] at h
    obtain ⟨s₁, -, h⟩ := h
    split at h
    · cases h
    · simp only [bind_eq_ok] at h
      obtain ⟨s₂, h2, h⟩ := h
      cases h
      exact ⟨schedule_runs h2, fun hr => absurd rfl hr⟩
  | wait pid =>
    have hblock : ∀ {r s'}, blockInWait hart s cur = .ok (r, s') →
        s'.Runs hart ∧ (r ≠ none → s'.current hart = some cur) := by
      intro r s' hb
      simp only [blockInWait, bind_eq_ok] at hb
      obtain ⟨s₁, h1, hb⟩ := hb
      cases hb
      exact ⟨schedule_runs h1, fun hr => absurd rfl hr⟩
    have hreap : ∀ i, (s.procs i).status = .zombie → (setStatus s i .free).Runs hart := by
      intro i hz
      have hne : cur ≠ i := by
        rintro rfl
        simp [hrun] at hz
      exact ⟨cur, hcur, by simp [setStatus, setProc, update_of_ne hne, hrun]⟩
    rw [handle, doWait_eq] at h
    split at h
    · rename_i i hfind
      cases h
      exact ⟨hreap i (by simpa using List.find?_some hfind), fun _ => hcur⟩
    · split at h
      · cases h
        exact ⟨⟨cur, hcur, hrun⟩, fun _ => hcur⟩
      · exact hblock h
  | yield =>
    simp only [handle, sysUserYield, yieldTo, bind_eq_ok] at h
    obtain ⟨s₁, ⟨s₂, -, h2⟩, h⟩ := h
    cases h
    exact ⟨schedule_runs h2, fun hr => absurd rfl hr⟩
  | tick a0 =>
    simp only [handle, rrsched, yieldTo] at h
    split at h
    · simp only [bind_eq_ok] at h
      obtain ⟨s₁, ⟨s₂, -, h2⟩, h⟩ := h
      cases h
      exact ⟨schedule_runs h2, fun hr => absurd rfl hr⟩
    · cases h
      exact ⟨⟨cur, hcur, by simp [setProc, hrun]⟩, fun hr => absurd rfl hr⟩
  | semInit val => exact absurd hop id
  | acquire sem => exact absurd hop id
  | release sem => exact absurd hop id

theorem setA0_runs {v : Nat} (h : s.Runs hart) : (setA0 s cur v).Runs hart := by
  obtain ⟨p, hp, hs⟩ := h
  refine ⟨p, hp, ?_⟩
  by_cases hpc : p = cur
  · subst hpc
    simpa [setA0, setProc] using hs
  · simpa [setA0, setProc, update_of_ne hpc] using hs

theorem trap_runs (hs : s.Runs hart) (hop : op.NoSem) (h : s.trap hart op = .ok s') :
    s'.Runs hart := by
  obtain ⟨p, hcur, hrun⟩ := hs
  simp only [Sched.trap, hcur, bind_eq_ok] at h
  obtain ⟨⟨r, s₁⟩, h1, h⟩ := h
  have hrun' : ((setA0 s p op.a0).procs p).status = .running := by simp [setA0, setProc, hrun]
  have hres := (handle_runs (s := setA0 s p op.a0) hcur hrun' hop h1).1
  cases r with
  | none =>
    cases h
    exact hres
  | some v =>
    cases h
    exact setA0_runs hres

theorem boot_runs (h : boot hart = .ok s) : s.Runs hart := by
  simp only [boot, bind_eq_ok] at h
  obtain ⟨p, -, s₁, -, h⟩ := h
  exact schedule_runs h

theorem schedule_a0 (h : schedule hart s = .ok s') (p : Nat) :
    (s'.procs p).a0 = (s.procs p).a0 := by
  unfold schedule at h
  split at h
  · split at h <;> cases h
  · rename_i q _
    split at h
    · cases h
    · cases h
      by_cases hp : p = q
      · simp [setStatus, setProc, hp]
      · simp [setStatus, setProc, update_of_ne hp]

theorem doWait_none_a0 (h : doWait hart s cur pid = .ok (none, s')) (p : Nat) :
    (s'.procs p).a0 = (s.procs p).a0 := by
  have hblock : blockInWait hart s cur = .ok (none, s') := by
    rw [doWait_eq] at h
    split at h
    · cases h
    · split at h
      · cases h
      · exact h
  simp only [blockInWait, bind_eq_ok] at hblock
  obtain ⟨s₁, h1, hblock⟩ := hblock
  cases hblock
  rw [schedule_a0 h1]
  by_cases hp : p = cur
  · simp [setStatus, setProc, hp]
  · simp [setStatus, setProc, update_of_ne hp]

theorem WaitBlocks.a0 (hs : s.Runs hart) (h : WaitBlocks hart P pid s s₁) :
    (s₁.procs P).a0 = (SchedOp.wait pid).a0 := by
  obtain ⟨p, hp, hrun⟩ := hs
  obtain rfl : P = p := by simpa [h.current] using hp
  have hcall := h.call
  simp only [Sched.trap, hp, bind_eq_ok] at hcall
  obtain ⟨⟨r, s'⟩, h1, hcall⟩ := hcall
  cases r with
  | none =>
    cases hcall
    rw [doWait_none_a0 h1]
    simp [setA0, setProc]
  | some v =>
    -- a call that returns leaves the process running
    cases hcall
    have hrun' : ((setA0 s P (SchedOp.wait pid).a0).procs P).status = .running := by
      simp [setA0, setProc, hrun]
    have hop : (SchedOp.wait pid).NoSem := trivial
    obtain ⟨⟨q, hq, hqrun⟩, hret⟩ := handle_runs (s := setA0 s P _) hp hrun' hop h1
    have hqP : q = P := by
      rw [hret (by simp)] at hq
      exact (Option.some.inj hq).symm
    have hb := h.blocked
    rw [hqP] at hqrun
    simp [setA0, setProc, hqrun] at hb

theorem Resumes.keeps (h : Resumes hart P s s₂) : s.Runs hart → (s.procs P).status.Alive →
    (s₂.procs P).a0 = (s.procs P).a0 ∧
      ∀ c, (s.procs c).parent = some P → (s.procs c).status ≠ .free →
        (s₂.procs c).status ≠ .free := by
  induction h with
  | here _ => exact fun _ _ => ⟨rfl, fun _ _ hc => hc⟩
  | later hne hop hstep _ ih =>
    intro hruns halive
    obtain ⟨cur, hcur, -⟩ := id hruns
    have hcP : cur ≠ P := fun heq => hne (heq ▸ hcur)
    have hsp := trap_spares hcur hstep
    obtain ⟨halive', ha0⟩ := hsp.alive P (Ne.symm hcP) halive
    obtain ⟨ha0', hchild⟩ := ih (trap_runs hruns hop hstep) halive'
    refine ⟨ha0'.trans ha0, ?_⟩
    intro c hpar hfree
    obtain ⟨hfree', hpar'⟩ := hsp.child c hfree (by
      rw [hpar]
      exact fun heq => hcP (Option.some.inj heq).symm)
    exact hchild c (hpar'.trans hpar) hfree'

theorem reachable_runs {s0 : Sched} (h0 : boot hart = .ok s0)
    (hrun : Reaches (Sched.trap hart) (fun _ op => op.NoSem) s0 s) : s.Runs hart :=
  Reaches.invariant (Sched.Runs hart) (boot_runs h0)
    (fun _ _ _ hs hop hstep => trap_runs hs hop hstep) hrun

theorem WaitBlocks.resumed (hs : s.Runs hart) (hwait : WaitBlocks hart P pid s s₁)
    (hres : Resumes hart P s₁ s₂) :
    (s₂.procs P).a0 = (SchedOp.wait pid).a0 ∧
      ∀ c, (s₁.procs c).parent = some P → (s₁.procs c).status ≠ .free →
        (s₂.procs c).status ≠ .free := by
  have hop : (SchedOp.wait pid).NoSem := trivial
  have hruns1 : s₁.Runs hart := trap_runs hs hop hwait.call
  have halive : (s₁.procs P).status.Alive := hwait.blocked ▸ Status.alive_blocked
  obtain ⟨ha0, hchild⟩ := hres.keeps hruns1 halive
  exact ⟨ha0.trans (hwait.a0 hs), hchild⟩

/-- A `wait` that blocks never delivers: when `P` runs again, `a0` holds the
number of the call, every child still has its slot, and so no pid of a
reaped child is in `a0`. -/
theorem wait_never_delivers {s₀ : Sched} (h0 : boot hart = .ok s₀)
    (hrun : Reaches (Sched.trap hart) (fun _ op => op.NoSem) s₀ s)
    (hwait : WaitBlocks hart P pid s s₁) (hres : Resumes hart P s₁ s₂) :
    (s₂.procs P).a0 = (SchedOp.wait pid).a0 ∧
      (∀ c, (s₁.procs c).parent = some P → (s₁.procs c).status ≠ .free →
        (s₂.procs c).status ≠ .free) ∧
      ¬ Delivered P s₁ s₂ := by
  obtain ⟨ha0, hchild⟩ := hwait.resumed (reachable_runs h0 hrun) hres
  refine ⟨ha0, hchild, ?_⟩
  rintro ⟨c, -, hpar, hfree, -, hgone⟩
  exact hchild c hpar hfree hgone

end

theorem forkWaitExit : ∃ s0 s s₁ s₂, boot 0 = .ok s0 ∧
    Reaches (Sched.trap 0) (fun _ op => op.NoSem) s0 s ∧ WaitBlocks 0 0 (-1) s s₁ ∧
    Resumes 0 0 s₁ s₂ := by
  obtain ⟨s0, h0, s, h1, s₁, h2, s₂, h3, hcur, hpar, hready, hblocked, hcur1, hcur2⟩ :
      ∃ s0, boot 0 = .ok s0 ∧ ∃ s, s0.trap 0 .fork = .ok s ∧
      ∃ s₁, s.trap 0 (.wait (-1)) = .ok s₁ ∧ ∃ s₂, s₁.trap 0 .exit = .ok s₂ ∧
      s.current 0 = some 0 ∧ (s.procs 1).parent = some 0 ∧ (s.procs 1).status = .ready ∧
      (s₁.procs 0).status = .blocked ∧ s₁.current 0 = some 1 ∧ s₂.current 0 = some 0 := by
    decide +kernel
  have hchild : (s.procs 1).status.Alive := hready ▸ Status.alive_ready
  have hfork : SchedOp.fork.NoSem := trivial
  have hexit : SchedOp.exit.NoSem := trivial
  have hne : s₁.current 0 ≠ some 0 := by
    rw [hcur1]
    decide
  exact ⟨s0, s, s₁, s₂, h0, Reaches.start.next hfork h1,
    ⟨hcur, ⟨1, by decide, hpar, hchild, .inl rfl⟩, h2, hblocked⟩,
    .later hne hexit h3 (.here hcur2)⟩

/-- In that run the parent resumes with the number of the call. -/
theorem wait_never_delivers_fork : ∃ s₀ s s₁ s₂, boot 0 = .ok s₀ ∧
    Reaches (Sched.trap 0) (fun _ op => op.NoSem) s₀ s ∧ WaitBlocks 0 0 (-1) s s₁ ∧
    Resumes 0 0 s₁ s₂ ∧ (s₂.procs 0).a0 = 95 ∧ ¬ Delivered 0 s₁ s₂ := by
  obtain ⟨s₀, s, s₁, s₂, h₀, hrun, hwait, hres⟩ := forkWaitExit
  have h := wait_never_delivers h₀ hrun hwait hres
  exact ⟨s₀, s, s₁, s₂, h₀, hrun, hwait, hres, h.1, h.2.2⟩

/-- So a blocked `wait` does not always deliver. -/
theorem wait_undelivered : ¬ ∀ (hart P : Nat) (pid : Int) (s₀ s s₁ s₂ : Sched),
    boot hart = .ok s₀ → Reaches (Sched.trap hart) (fun _ op => op.NoSem) s₀ s →
      WaitBlocks hart P pid s s₁ → Resumes hart P s₁ s₂ → Delivered P s₁ s₂ := by
  intro hclaim
  obtain ⟨s₀, s, s₁, s₂, h₀, hrun, hwait, hres⟩ := forkWaitExit
  obtain ⟨c, hc, -, -, ha0, -⟩ := hclaim 0 0 (-1) s₀ s s₁ s₂ h₀ hrun hwait hres
  rw [(hwait.resumed (reachable_runs h₀ hrun) hres).1] at ha0
  rw [← ha0] at hc
  exact absurd hc (by decide)

end CabbagePKE
