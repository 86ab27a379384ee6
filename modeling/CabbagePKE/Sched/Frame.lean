import CabbagePKE.Sched.Model

/-!
# What a call leaves alone

`Spares cur a b` bounds what a call made by process `cur` can do to the
process table: no other process that is alive ends or loses its registers,
and no slot of another process's child is freed. The relation composes, so
it is proved for each store and then follows for every trap.
-/

namespace CabbagePKE

open Lib Function List

/-! ## The slots that `wait` looks at -/

/-- The slots that `do_wait(pid)` of process `cur` looks at and that name it as
their parent. -/
def Sched.awaited (s : Sched) (cur : Nat) (pid : Int) : List Nat :=
  (List.range NPROC).filter (fun i =>
    (pid = -1 ∨ (0 < pid ∧ pid = i)) ∧ (s.procs i).parent = some cur)

theorem parent_of_awaited {s : Sched} {cur i : Nat} {pid : Int} (h : i ∈ s.awaited cur pid) :
    (s.procs i).parent = some cur := by
  have hi := (mem_filter.mp h).2
  exact (of_decide_eq_true hi).2

/-- `do_wait` reaps a zombie among the slots it looks at, blocks when there are
only others, and returns `-1` when there are none. -/
theorem doWait_eq (hart : Nat) (s : Sched) (cur : Nat) (pid : Int) :
    doWait hart s cur pid =
      match (s.awaited cur pid).find? (fun i => (s.procs i).status = .zombie) with
      | some i => .ok (some i, setStatus s i .free)
      | none => if s.awaited cur pid = [] then .ok (some (-1), s) else blockInWait hart s cur := by
  unfold doWait
  by_cases hpid : pid = -1
  · have hfind : (s.awaited cur pid).find? (fun i => (s.procs i).status = .zombie) =
        (range NPROC).find? (fun i =>
          (s.procs i).parent = some cur ∧ (s.procs i).status = .zombie) := by
      simp [Sched.awaited, find?_filter, hpid]
    have hany : (range NPROC).any (fun i => (s.procs i).parent = some cur) = true ↔
        s.awaited cur pid ≠ [] := by simp [Sched.awaited, hpid, filter_eq_nil_iff]
    rw [if_pos hpid, hfind]
    generalize find? _ (range NPROC) = found
    cases found with
    | some i => rfl
    | none =>
      by_cases hnil : s.awaited cur pid = []
      · rw [if_pos hnil, if_neg (by rw [hany]; exact not_not.mpr hnil)]
      · rw [if_neg hnil, if_pos (hany.mpr hnil)]
  · rw [if_neg hpid]
    -- the one slot to look at is `pid`
    have hmem : ∀ i, i ∈ s.awaited cur pid ↔
        0 < pid ∧ pid < NPROC ∧ i = pid.toNat ∧ (s.procs i).parent = some cur := by
      intro i
      simp only [Sched.awaited, hpid, false_or, Bool.decide_and, mem_filter, mem_range,
        Bool.and_eq_true, decide_eq_true_eq]
      constructor
      · rintro ⟨hi, ⟨h0, hpi⟩, hpar⟩
        exact ⟨h0, by omega, by omega, hpar⟩
      · rintro ⟨h0, hlt, hpi, hpar⟩
        exact ⟨by omega, ⟨h0, by omega⟩, hpar⟩
    by_cases hrange : 0 < pid ∧ pid < NPROC
    · rw [if_pos hrange]
      by_cases hpar : (s.procs pid.toNat).parent = some cur
      · have hin : pid.toNat ∈ s.awaited cur pid := (hmem _).mpr ⟨hrange.1, hrange.2, rfl, hpar⟩
        rw [if_pos hpar]
        split
        · rename_i hz
          split
          · rename_i i hi
            obtain ⟨-, -, rfl, -⟩ := (hmem i).mp (mem_of_find?_eq_some hi)
            rw [Int.toNat_of_nonneg (by omega)]
          · rename_i hnone
            exact absurd hz (by simpa using find?_eq_none.mp hnone _ hin)
        · rename_i hz
          split
          · rename_i i hi
            obtain ⟨-, -, rfl, -⟩ := (hmem i).mp (mem_of_find?_eq_some hi)
            exact absurd (by simpa using find?_some hi) hz
          · rw [if_neg (ne_nil_of_mem hin)]
      · have hnil : s.awaited cur pid = [] := by
          refine eq_nil_iff_forall_not_mem.mpr (fun i hi => hpar ?_)
          obtain ⟨-, -, rfl, hp⟩ := (hmem i).mp hi
          exact hp
        rw [if_neg hpar, hnil]
        rfl
    · have hnil : s.awaited cur pid = [] := by
        refine eq_nil_iff_forall_not_mem.mpr (fun i hi => hrange ?_)
        obtain ⟨h0, hlt, -⟩ := (hmem i).mp hi
        exact ⟨h0, hlt⟩
      rw [if_neg hrange, hnil]
      rfl

theorem setA0_fields (s : Sched) (p v q : Nat) :
    (setA0 s p v).procs q = { s.procs q with a0 := ((setA0 s p v).procs q).a0 } := by
  by_cases hq : q = p
  · simp [setA0, setProc, hq]
  · simp [setA0, setProc, update_of_ne hq]

theorem awaited_setA0 (s : Sched) (p v cur : Nat) (pid : Int) :
    (setA0 s p v).awaited cur pid = s.awaited cur pid := by
  have hpar : ∀ q, ((setA0 s p v).procs q).parent = (s.procs q).parent := fun q => by
    rw [setA0_fields]
  simp only [Sched.awaited, hpar]

/-! ## What a call spares -/

def Status.Alive (st : Status) : Prop := st ≠ .free ∧ st ≠ .zombie

theorem Status.alive_ready : Status.Alive .ready := ⟨by simp, by simp⟩

theorem Status.alive_blocked : Status.Alive .blocked := ⟨by simp, by simp⟩

structure Spares (cur : Nat) (a b : Nat → Proc) : Prop where
  alive : ∀ p, p ≠ cur → (a p).status.Alive → (b p).status.Alive ∧ (b p).a0 = (a p).a0
  child : ∀ p, (a p).status ≠ .free → (a p).parent ≠ some cur →
    (b p).status ≠ .free ∧ (b p).parent = (a p).parent

section

variable {cur p : Nat} {a b c : Nat → Proc} {s s' : Sched}
  {st : Status} {head head' : Option Nat} {hart sem : Nat} {r : Option Int}

theorem Spares.refl (a : Nat → Proc) : Spares cur a a :=
  ⟨fun _ _ h => ⟨h, rfl⟩, fun _ h _ => ⟨h, rfl⟩⟩

theorem Spares.trans (h : Spares cur a b) (h' : Spares cur b c) : Spares cur a c := by
  constructor
  · intro p hp ha
    obtain ⟨hb, hab⟩ := h.alive p hp ha
    obtain ⟨hc, hbc⟩ := h'.alive p hp hb
    exact ⟨hc, hbc.trans hab⟩
  · intro p ha hpar
    obtain ⟨hb, hab⟩ := h.child p ha hpar
    obtain ⟨hc, hbc⟩ := h'.child p hb (hab ▸ hpar)
    exact ⟨hc, hbc.trans hab⟩

theorem Spares.set {x : Proc}
    (halive : p ≠ cur → (a p).status.Alive → x.status.Alive ∧ x.a0 = (a p).a0)
    (hchild : (a p).status ≠ .free → (a p).parent ≠ some cur →
      x.status ≠ .free ∧ x.parent = (a p).parent) :
    Spares cur a (setProc a p x) := by
  constructor
  · intro q hq ha
    by_cases hqp : q = p
    · subst hqp
      rw [setProc, update_self]
      exact halive hq ha
    · rw [setProc, update_of_ne hqp]
      exact ⟨ha, rfl⟩
  · intro q ha hpar
    by_cases hqp : q = p
    · subst hqp
      rw [setProc, update_self]
      exact hchild ha hpar
    · rw [setProc, update_of_ne hqp]
      exact ⟨ha, rfl⟩

theorem Spares.status {q : Option Nat} (h : st.Alive) :
    Spares cur a (setProc a p { a p with status := st, queueNext := q }) :=
  .set (fun _ _ => ⟨h, rfl⟩) (fun _ _ => ⟨h.1, rfl⟩)

/-- What `enqueue` stores: nothing when `p` is on the queue already, and
otherwise a link to `p` in the last process, if there is one, and then `p`. -/
theorem enqueue_cases (h : enqueue a head p st = .ok (b, head')) :
    b = a ∨ ∃ a', (a' = a ∨ ∃ z, a' = setProc a z { a z with queueNext := some p }) ∧
      b = setProc a' p { a' p with status := st, queueNext := none } := by
  cases head with
  | none =>
    cases h
    exact .inr ⟨a, .inl rfl, rfl⟩
  | some q =>
    simp only [enqueue, bind_eq_ok] at h
    obtain ⟨last, -, h⟩ := h
    cases last with
    | none =>
      simp only [pure_eq_ok, Except.ok.injEq, Prod.mk.injEq] at h
      exact .inl h.1.symm
    | some z =>
      cases h
      exact .inr ⟨_, .inr ⟨z, rfl⟩, rfl⟩

theorem enqueue_spares (hst : st.Alive)
    (h : enqueue a head p st = .ok (b, head')) : Spares cur a b := by
  rcases enqueue_cases h with rfl | ⟨_, rfl | ⟨z, rfl⟩, rfl⟩
  · exact .refl _
  · exact .status hst
  · have hlink : Spares cur a (setProc a z { a z with queueNext := some p }) :=
      .set (fun _ ha => ⟨ha, rfl⟩) (fun ha _ => ⟨ha, rfl⟩)
    exact hlink.trans (.status hst)

theorem enqueue_other (h : enqueue a head p st = .ok (b, head')) {q : Nat} (hq : q ≠ p) :
    ∃ n, b q = { a q with queueNext := n } := by
  rcases enqueue_cases h with rfl | ⟨_, rfl | ⟨z, rfl⟩, rfl⟩
  · exact ⟨_, rfl⟩
  · exact ⟨_, by rw [setProc, update_of_ne hq]⟩
  · by_cases hz : q = z
    · subst hz
      exact ⟨_, by rw [setProc, update_of_ne hq, setProc, update_self]⟩
    · exact ⟨_, by rw [setProc, update_of_ne hq, setProc, update_of_ne hz]⟩

theorem insertToReadyQueue_other (h : insertToReadyQueue s p = .ok s') :
    s'.current = s.current ∧ ∀ q, q ≠ p → (s'.procs q).status = (s.procs q).status := by
  simp only [insertToReadyQueue, bind_eq_ok] at h
  obtain ⟨⟨procs, head⟩, he, ⟨⟩⟩ := h
  refine ⟨rfl, ?_⟩
  intro q hq
  obtain ⟨n, hn⟩ := enqueue_other he hq
  dsimp only
  rw [hn]

theorem insertToReadyQueue_spares (h : insertToReadyQueue s p = .ok s') :
    Spares cur s.procs s'.procs := by
  simp only [insertToReadyQueue, bind_eq_ok] at h
  obtain ⟨⟨procs, head⟩, he, ⟨⟩⟩ := h
  exact enqueue_spares Status.alive_ready he

theorem setStatus_spares (h : st.Alive) : Spares cur s.procs (setStatus s p st).procs :=
  .set (fun _ _ => ⟨h, rfl⟩) (fun _ _ => ⟨h.1, rfl⟩)

theorem schedule_spares (h : schedule hart s = .ok s') : Spares cur s.procs s'.procs := by
  unfold schedule at h
  split at h
  · split at h <;> cases h
  · split at h
    · cases h
    · cases h
      exact setStatus_spares ⟨by simp, by simp⟩

theorem yieldTo_spares (h : yieldTo hart s p = .ok s') : Spares cur s.procs s'.procs := by
  simp only [yieldTo, bind_eq_ok] at h
  obtain ⟨s1, h1, h2⟩ := h
  exact ((setStatus_spares Status.alive_ready).trans (insertToReadyQueue_spares h1)).trans
    (schedule_spares h2)

theorem wakeup_spares {q : Option Nat} (h : wakeup s q = .ok s') : Spares cur s.procs s'.procs := by
  cases q with
  | none =>
    cases h
    exact .refl _
  | some q =>
    simp only [wakeup] at h
    split at h
    · exact (setStatus_spares Status.alive_ready).trans (insertToReadyQueue_spares h)
    · cases h
      exact .refl _

theorem blockInWait_spares
    (h : blockInWait hart s cur = .ok (r, s')) : Spares cur s.procs s'.procs := by
  simp only [blockInWait, bind_eq_ok] at h
  obtain ⟨s1, h1, h⟩ := h
  cases h
  exact (setStatus_spares Status.alive_blocked).trans (schedule_spares h1)

theorem doWait_spares {pid : Int}
    (h : doWait hart s cur pid = .ok (r, s')) : Spares cur s.procs s'.procs := by
  rw [doWait_eq] at h
  split at h
  · rename_i i hfind
    cases h
    have hpar := parent_of_awaited (mem_of_find?_eq_some hfind)
    exact .set (fun _ ha => absurd (by simpa using find?_some hfind) ha.2)
      (fun _ hne => absurd hpar hne)
  · split at h
    · cases h
      exact .refl _
    · exact blockInWait_spares h

theorem allocProcess_free {i : Nat} (h : allocProcess s = .ok i) :
    (s.procs i).status = .free ∧ i < NPROC := by
  unfold allocProcess at h
  split at h
  · rename_i j hfind
    cases h
    exact ⟨by simpa using find?_some hfind, mem_range.mp (mem_of_find?_eq_some hfind)⟩
  · cases h

theorem doFork_spares (h : doFork s p = .ok (r, s')) : Spares cur s.procs s'.procs := by
  simp only [doFork, bind_eq_ok] at h
  obtain ⟨i, hi, s1, h1, h⟩ := h
  cases h
  have hfree := (allocProcess_free hi).1
  have hset : Spares cur s.procs (setProc s.procs i
      { s.procs i with status := .ready, a0 := 0, parent := some p }) :=
    .set (fun _ ha => absurd hfree ha.1) (fun ha _ => absurd hfree ha)
  exact hset.trans (insertToReadyQueue_spares h1)

theorem sysUserExit_spares
    (h : sysUserExit hart s cur = .ok (r, s')) : Spares cur s.procs s'.procs := by
  simp only [sysUserExit, freeProcess, bind_eq_ok] at h
  obtain ⟨s1, h1, h⟩ := h
  split at h
  · cases h
  · simp only [bind_eq_ok] at h
    obtain ⟨s2, h2, h⟩ := h
    cases h
    have hset : Spares cur s.procs (setStatus s cur .zombie).procs :=
      .set (fun hne _ => absurd rfl hne) (fun _ _ => ⟨by simp, rfl⟩)
    exact (hset.trans (wakeup_spares h1)).trans (schedule_spares h2)

theorem rrsched_spares (h : rrsched hart s cur = .ok (r, s')) : Spares cur s.procs s'.procs := by
  have hset : ∀ t, Spares cur s.procs (setProc s.procs cur { s.procs cur with tickCount := t }) :=
    fun t => .set (fun _ ha => ⟨ha, rfl⟩) (fun ha _ => ⟨ha, rfl⟩)
  simp only [rrsched] at h
  split at h
  · simp only [bind_eq_ok] at h
    obtain ⟨s1, h1, h⟩ := h
    cases h
    exact (hset 0).trans (yieldTo_spares h1)
  · cases h
    exact hset _

theorem acquire_spares
    (h : acquire hart s cur sem = .ok (r, s')) : Spares cur s.procs s'.procs := by
  unfold acquire at h
  split at h
  · cases h
  · dsimp only at h
    split at h
    · simp only [waitingQueuePush, bind_eq_ok, pure_eq_ok, Except.ok.injEq, Prod.mk.injEq] at h
      obtain ⟨s1, ⟨⟨procs, head⟩, he, rfl⟩, s2, h2, -, rfl⟩ := h
      exact (enqueue_spares Status.alive_blocked he).trans (schedule_spares h2)
    · cases h
      exact .refl _

theorem waitingQueuePop_procs (h : waitingQueuePop s sem = .ok (p, s')) : s'.procs = s.procs := by
  unfold waitingQueuePop at h
  split at h
  · cases h
  · cases h
    rfl

theorem waitingQueuePop_current (h : waitingQueuePop s sem = .ok (p, s')) :
    s'.current = s.current := by
  unfold waitingQueuePop at h
  split at h
  · cases h
  · cases h
    rfl

theorem release_spares (h : release s sem = .ok (r, s')) : Spares cur s.procs s'.procs := by
  unfold release at h
  split at h
  · cases h
  · dsimp only at h
    split at h
    · simp only [bind_eq_ok, pure_eq_ok, Except.ok.injEq, Prod.mk.injEq] at h
      obtain ⟨⟨p, s1⟩, h1, s2, h2, -, rfl⟩ := h
      have hprocs : s1.procs = (setSem s sem (s.sems sem + 1)).procs := waitingQueuePop_procs h1
      change Spares cur (setSem s sem (s.sems sem + 1)).procs s2.procs
      rw [← hprocs]
      exact (setStatus_spares Status.alive_ready).trans (insertToReadyQueue_spares h2)
    · cases h
      exact .refl _

theorem handle_spares {op : SchedOp}
    (h : handle hart s cur op = .ok (r, s')) : Spares cur s.procs s'.procs := by
  cases op with
  | fork => exact doFork_spares h
  | exit => exact sysUserExit_spares h
  | wait pid => exact doWait_spares h
  | yield =>
    simp only [handle, sysUserYield, bind_eq_ok] at h
    obtain ⟨s1, h1, h⟩ := h
    cases h
    exact yieldTo_spares h1
  | tick a0 => exact rrsched_spares h
  | semInit val =>
    simp only [handle, semInit] at h
    split at h
    · cases h
    · cases h
      exact .refl _
  | acquire sem => exact acquire_spares h
  | release sem => exact release_spares h

theorem setA0_spares (v : Nat) : Spares cur s.procs (setA0 s cur v).procs :=
  .set (fun hne _ => absurd rfl hne) (fun ha _ => ⟨ha, rfl⟩)

theorem trap_spares {op : SchedOp} (hcur : s.current hart = some cur)
    (h : s.trap hart op = .ok s') : Spares cur s.procs s'.procs := by
  simp only [Sched.trap, hcur, bind_eq_ok] at h
  obtain ⟨⟨r, s1⟩, h1, h⟩ := h
  have hspare := (setA0_spares op.a0).trans (handle_spares h1)
  cases r with
  | none =>
    cases h
    exact hspare
  | some v =>
    cases h
    exact hspare.trans (setA0_spares _)

end

/-! ## What only `fork` changes -/

structure Keeps (a b : Nat → Proc) : Prop where
  parent : ∀ q, (b q).parent = (a q).parent
  isChild : ∀ q, (b q).isChild = (a q).isChild
  free : ∀ q, (a q).status = .free → (b q).status = .free

section

variable {p : Nat} {a b c : Nat → Proc} {s s' : Sched}

theorem Keeps.refl (a : Nat → Proc) : Keeps a a := ⟨fun _ => rfl, fun _ => rfl, fun _ h => h⟩

theorem Keeps.trans (h : Keeps a b) (h' : Keeps b c) : Keeps a c :=
  ⟨fun q => (h'.parent q).trans (h.parent q), fun q => (h'.isChild q).trans (h.isChild q),
    fun q hq => h'.free q (h.free q hq)⟩

theorem Keeps.set {x : Proc} (hpar : x.parent = (a p).parent)
    (hchild : x.isChild = (a p).isChild) (hfree : (a p).status = .free → x.status = .free) :
    Keeps a (setProc a p x) := by
  have hcases : ∀ q, (q = p ∧ setProc a p x q = x) ∨ setProc a p x q = a q := by
    intro q
    by_cases hq : q = p
    · exact .inl ⟨hq, by rw [hq, setProc, update_self]⟩
    · exact .inr (by rw [setProc, update_of_ne hq])
  refine ⟨fun q => ?_, fun q => ?_, fun q hq => ?_⟩
  all_goals rcases hcases q with ⟨rfl, hx⟩ | hx <;> rw [hx]
  · exact hpar
  · exact hchild
  · exact hfree hq
  · exact hq

theorem enqueue_keeps {head head' : Option Nat} {st : Status} (hp : (a p).status ≠ .free)
    (h : enqueue a head p st = .ok (b, head')) : Keeps a b := by
  rcases enqueue_cases h with rfl | ⟨_, rfl | ⟨z, rfl⟩, rfl⟩
  · exact .refl _
  · exact .set rfl rfl (fun hf => absurd hf hp)
  · have hlink : Keeps a (setProc a z { a z with queueNext := some p }) := .set rfl rfl (fun hf => hf)
    refine hlink.trans (.set rfl rfl (fun hf => absurd ?_ hp))
    by_cases hz : p = z
    · subst hz
      rwa [setProc, update_self] at hf
    · rwa [setProc, update_of_ne hz] at hf

theorem insertToReadyQueue_keeps (hp : (s.procs p).status ≠ .free)
    (h : insertToReadyQueue s p = .ok s') : Keeps s.procs s'.procs := by
  simp only [insertToReadyQueue, bind_eq_ok] at h
  obtain ⟨⟨procs, head⟩, he, ⟨⟩⟩ := h
  exact enqueue_keeps hp he

theorem setStatus_keeps {st : Status} (h : (s.procs p).status = .free → st = .free) :
    Keeps s.procs (setStatus s p st).procs :=
  .set rfl rfl h

theorem setA0_keeps (v : Nat) : Keeps s.procs (setA0 s p v).procs := .set rfl rfl (fun hf => hf)

theorem schedule_keeps {hart : Nat} (h : schedule hart s = .ok s') : Keeps s.procs s'.procs := by
  unfold schedule at h
  split at h
  · split at h <;> cases h
  · rename_i p _
    split at h
    · cases h
    · rename_i hready
      cases h
      exact setStatus_keeps (fun hf => by simp [hf] at hready)

theorem yieldTo_keeps {hart : Nat} (hp : (s.procs p).status ≠ .free)
    (h : yieldTo hart s p = .ok s') : Keeps s.procs s'.procs := by
  simp only [yieldTo, bind_eq_ok] at h
  obtain ⟨s1, h1, h2⟩ := h
  have hset : Keeps s.procs (setStatus s p .ready).procs := setStatus_keeps (fun hf => absurd hf hp)
  exact (hset.trans (insertToReadyQueue_keeps (by simp [setStatus, setProc]) h1)).trans
    (schedule_keeps h2)

theorem freeProcess_keeps (hp : (s.procs p).status ≠ .free) (h : freeProcess s p = .ok s') :
    Keeps s.procs s'.procs := by
  have hzombie : Keeps s.procs (setStatus s p .zombie).procs :=
    setStatus_keeps (fun hf => absurd hf hp)
  unfold freeProcess wakeup at h
  split at h
  · cases h
    exact hzombie
  · split at h
    · rename_i q _ hb
      have hset : Keeps (setStatus s p .zombie).procs
          (setStatus (setStatus s p .zombie) q .ready).procs :=
        setStatus_keeps (fun hf => by rw [hb] at hf; cases hf)
      exact (hzombie.trans hset).trans (insertToReadyQueue_keeps (by simp [setStatus, setProc]) h)
    · cases h
      exact hzombie

theorem doWait_keeps {hart : Nat} {pid : Int} {r : Option Int}
    (hp : (s.procs p).status ≠ .free) (h : doWait hart s p pid = .ok (r, s')) :
    Keeps s.procs s'.procs := by
  rw [doWait_eq] at h
  split at h
  · cases h
    exact setStatus_keeps (fun _ => rfl)
  · split at h
    · cases h
      exact .refl _
    · simp only [blockInWait, bind_eq_ok] at h
      obtain ⟨s1, h1, h⟩ := h
      cases h
      have hblocked : Keeps s.procs (setStatus s p .blocked).procs :=
        setStatus_keeps (fun hf => absurd hf hp)
      exact hblocked.trans (schedule_keeps h1)

end

end CabbagePKE
