import CabbagePKE.Sched.Moves

/-!
# The accounts of a semaphore

A semaphore is a counter and a queue that are changed by different functions. As
long as no process exits they agree: the counter is its initial value plus the
releases minus the acquires, and when it is negative, it counts the processes in
the queue. The ledger of a run also lists the processes that blocked, and the
queue is the end of that list.
-/

namespace CabbagePKE

open Lib Function List

/-- The scheduler, with the initial values of the semaphores, the numbers of
`__acquire` and `__release` so far, and the processes that blocked in an
`__acquire`, in order. -/
structure SemLedger where
  sched : Sched
  initial : Nat → Int
  acquires : Nat → Nat
  releases : Nat → Nat
  blocked : Nat → List Nat

def countUp (f : Nat → Nat) (k : Nat) : Nat → Nat := update f k (f k + 1)

def SemLedger.enter (g : SemLedger) (cur : Nat) (s : Sched) : SchedOp → SemLedger
  | .semInit v => { g with sched := s, initial := update g.initial g.sched.cnt v }
  | .acquire k =>
    { g with
      sched := s
      acquires := countUp g.acquires k
      blocked := if (s.procs cur).status = .blocked then
        update g.blocked k (g.blocked k ++ [cur]) else g.blocked }
  | .release k => { g with sched := s, releases := countUp g.releases k }
  | _ => { g with sched := s }

def SemLedger.trap (hart : Nat) (g : SemLedger) (op : SchedOp) : Outcome SemLedger :=
  match g.sched.current hart with
  | none => .error (.assertion "current[hart_id]")
  | some cur => do
      let s ← g.sched.trap hart op
      return g.enter cur s op

def SemLedger.boot (hart : Nat) : Outcome SemLedger := do
  let s ← CabbagePKE.boot hart
  return ⟨s, fun _ => 0, fun _ => 0, fun _ => 0, fun _ => []⟩

/-- The calls of the runs: no process exits, the initial values are not negative,
and only semaphores that were made are used. -/
def SemLedger.Admits (g : SemLedger) : SchedOp → Prop
  | .exit => False
  | .semInit v => 0 ≤ v
  | .acquire k => k < g.sched.cnt
  | .release k => k < g.sched.cnt
  | _ => True

instance (g : SemLedger) (op : SchedOp) : Decidable (g.Admits op) :=
  match op with
  | .exit => isFalse id
  | .semInit v => inferInstanceAs (Decidable (0 ≤ v))
  | .acquire k => inferInstanceAs (Decidable (k < g.sched.cnt))
  | .release k => inferInstanceAs (Decidable (k < g.sched.cnt))
  | .fork | .wait _ | .yield | .tick _ => isTrue trivial

/-- The queue of semaphore `k` is the list `l`, as long as the counter says. -/
structure Sched.SemQueue (s : Sched) (k : Nat) (l : List Nat) : Prop where
  chain : Chain (queueLinks s.procs) (s.waitingQueue k) l
  length : (l.length : Int) = max 0 (-s.sems k)
  nodup : l.Nodup
  blocked : ∀ p ∈ l, (s.procs p).status = .blocked

/-! ## Counters -/

def Sched.semsAfter (s : Sched) : SchedOp → (Nat → Int) × Nat
  | .semInit v => (update s.sems s.cnt v, s.cnt + 1)
  | .acquire k => (update s.sems k (s.sems k - 1), s.cnt)
  | .release k => (update s.sems k (s.sems k + 1), s.cnt)
  | _ => (s.sems, s.cnt)

section

variable {hart p cur : Nat} {s s' : Sched}

theorem insertToReadyQueue_sems (h : insertToReadyQueue s p = .ok s') :
    (s'.sems, s'.cnt) = (s.sems, s.cnt) := by
  simp only [insertToReadyQueue, bind_eq_ok] at h
  obtain ⟨_, -, h⟩ := h
  cases h
  rfl

theorem schedule_sems (h : schedule hart s = .ok s') : (s'.sems, s'.cnt) = (s.sems, s.cnt) := by
  unfold schedule at h
  split at h
  · split at h <;> cases h
  · split at h
    · cases h
    · cases h
      rfl

theorem yieldTo_sems (h : yieldTo hart s p = .ok s') : (s'.sems, s'.cnt) = (s.sems, s.cnt) := by
  simp only [yieldTo, bind_eq_ok] at h
  obtain ⟨s1, h1, h2⟩ := h
  rw [schedule_sems h2, insertToReadyQueue_sems h1]
  rfl

theorem freeProcess_sems (h : freeProcess s p = .ok s') : (s'.sems, s'.cnt) = (s.sems, s.cnt) := by
  unfold freeProcess wakeup at h
  split at h
  · cases h
    rfl
  · split at h
    · rw [insertToReadyQueue_sems h]
      rfl
    · cases h
      rfl

theorem doWait_sems {pid : Int} {r : Option Int} (h : doWait hart s cur pid = .ok (r, s')) :
    (s'.sems, s'.cnt) = (s.sems, s.cnt) := by
  rw [doWait_eq] at h
  split at h
  · cases h
    rfl
  · split at h
    · cases h
      rfl
    · simp only [blockInWait, bind_eq_ok] at h
      obtain ⟨s1, h1, h⟩ := h
      cases h
      rw [schedule_sems h1]
      rfl

theorem handle_sems {op : SchedOp} {r : Option Int} (h : handle hart s cur op = .ok (r, s')) :
    (s'.sems, s'.cnt) = s.semsAfter op := by
  cases op with
  | fork =>
    simp only [handle, doFork, bind_eq_ok] at h
    obtain ⟨i, -, s1, h1, h⟩ := h
    cases h
    rw [insertToReadyQueue_sems h1]
    rfl
  | exit =>
    simp only [handle, sysUserExit, bind_eq_ok] at h
    obtain ⟨s1, h1, h⟩ := h
    split at h
    · cases h
    · simp only [bind_eq_ok] at h
      obtain ⟨s2, h2, h⟩ := h
      cases h
      exact (schedule_sems h2).trans (freeProcess_sems h1)
  | wait pid => exact doWait_sems h
  | yield =>
    simp only [handle, sysUserYield, bind_eq_ok] at h
    obtain ⟨s1, h1, h⟩ := h
    cases h
    exact yieldTo_sems h1
  | tick a0 =>
    simp only [handle, rrsched] at h
    split at h
    · simp only [bind_eq_ok] at h
      obtain ⟨s1, h1, h⟩ := h
      cases h
      rw [yieldTo_sems h1]
      rfl
    · cases h
      rfl
  | semInit v =>
    simp only [handle, semInit] at h
    split at h
    · cases h
    · cases h
      rfl
  | acquire k =>
    simp only [handle, acquire] at h
    split at h
    · cases h
    · split at h
      · simp only [waitingQueuePush, bind_eq_ok, pure_eq_ok, Except.ok.injEq, Prod.mk.injEq] at h
        obtain ⟨s1, ⟨_, -, rfl⟩, s2, h2, -, rfl⟩ := h
        exact schedule_sems h2
      · cases h
        rfl
  | release k =>
    simp only [handle, release] at h
    split at h
    · cases h
    · split at h
      · simp only [bind_eq_ok] at h
        obtain ⟨⟨p, s1⟩, h1, s2, h2, -, ⟨⟩⟩ := h
        rw [insertToReadyQueue_sems h2]
        unfold waitingQueuePop at h1
        split at h1
        · cases h1
        · cases h1
          rfl
      · cases h
        rfl

theorem trap_sems {op : SchedOp} (h : s.trap hart op = .ok s') :
    (s'.sems, s'.cnt) = s.semsAfter op := by
  unfold Sched.trap at h
  split at h
  · cases h
  · simp only [bind_eq_ok] at h
    obtain ⟨⟨r, s1⟩, h1, h⟩ := h
    have hs : (s1.sems, s1.cnt) = s.semsAfter op := by
      rw [handle_sems h1]
      cases op <;> rfl
    cases r with
    | none =>
      cases h
      exact hs
    | some v =>
      cases h
      exact hs

end

/-! ## Runs -/

section

variable {hart : Nat} {g g' : SemLedger} {op : SchedOp}

/-- The accounts of a ledger whose kernel is in the abstract state `a`. -/
structure SemLedger.Balanced (hart : Nat) (g : SemLedger) (a : Queues) : Prop where
  refines : g.sched.Refines hart a
  cnt_le : g.sched.cnt ≤ SEM_MAX
  unused : ∀ k, g.sched.cnt ≤ k →
    g.acquires k = 0 ∧ g.releases k = 0 ∧ a.lists (.waiting k) = []
  counted : ∀ k, k < g.sched.cnt → g.sched.sems k = g.initial k + g.releases k - g.acquires k
  length : ∀ k, k < g.sched.cnt → (a.lists (.waiting k)).length = (-g.sched.sems k).toNat
  order : ∀ k, a.lists (.waiting k) <:+ g.blocked k

theorem boot_balanced (h : SemLedger.boot hart = .ok g) : g.Balanced hart ⟨fun _ => [], 0⟩ := by
  obtain ⟨s, hs, href⟩ := boot_refines hart
  have hcnt : s.cnt = 0 := by
    simp only [boot, bind_eq_ok] at hs
    obtain ⟨p, -, s1, h1, h2⟩ := hs
    have hsems := (schedule_sems h2).trans (insertToReadyQueue_sems h1)
    exact congrArg Prod.snd hsems
  simp only [SemLedger.boot, hs, ok_bind] at h
  cases h
  refine ⟨href, by simp [hcnt], fun k _ => ⟨rfl, rfl, rfl⟩, fun k hk => ?_, fun k hk => ?_,
    fun k => suffix_refl _⟩
  · simp only [hcnt] at hk
    omega
  · simp only [hcnt] at hk
    omega

theorem SemLedger.Admits.wakeOk (h : g.Admits op) : g.sched.WakeOk hart op := by
  cases op with
  | exit => exact absurd h id
  | _ => trivial

theorem trap_semInit_lt {s s' : Sched} {v : Int} (h : s.trap hart (.semInit v) = .ok s') :
    s.cnt < SEM_MAX := by
  unfold Sched.trap at h
  split at h
  · cases h
  · rename_i cur _
    by_contra hge
    have hge' : SEM_MAX ≤ (setA0 s cur (SchedOp.semInit v).a0).cnt := not_lt.mp hge
    simp only [handle, semInit, if_pos hge', error_bind] at h
    cases h

section

variable {a b : Queues} {s' : Sched}

theorem SemLedger.Balanced.keep (h : g.Balanced hart a) (href : s'.Refines hart b)
    (hsems : (s'.sems, s'.cnt) = (g.sched.sems, g.sched.cnt))
    (hlists : ∀ k, b.lists (.waiting k) = a.lists (.waiting k)) :
    SemLedger.Balanced hart { g with sched := s' } b := by
  obtain ⟨hs, hc⟩ := Prod.mk.inj hsems
  refine ⟨href, hc ▸ h.cnt_le, ?_, ?_, ?_, ?_⟩
  · intro k hk
    rw [hlists]
    exact h.unused k (hc ▸ hk)
  · intro k hk
    rw [hs]
    exact h.counted k (hc ▸ hk)
  · intro k hk
    rw [hlists, hs]
    exact h.length k (hc ▸ hk)
  · intro k
    rw [hlists]
    exact h.order k

theorem SemLedger.Balanced.semInit {v : Int} (h : g.Balanced hart a) (hv : 0 ≤ v)
    (hlt : g.sched.cnt < SEM_MAX) (href : s'.Refines hart a)
    (hsems : (s'.sems, s'.cnt) = g.sched.semsAfter (.semInit v)) :
    SemLedger.Balanced hart (g.enter a.running s' (.semInit v)) a := by
  obtain ⟨hs, hc⟩ := Prod.mk.inj hsems
  refine ⟨href, ?_, ?_, ?_, ?_, h.order⟩
  · show s'.cnt ≤ SEM_MAX
    omega
  · intro k hk
    have hk' : s'.cnt ≤ k := hk
    exact h.unused k (by omega)
  · intro k hk
    have hk' : k < s'.cnt := hk
    show s'.sems k = update g.initial g.sched.cnt v k + _ - _
    rw [hs]
    by_cases hkc : k = g.sched.cnt
    · obtain ⟨hacq, hrel, -⟩ := h.unused k (by omega)
      subst hkc
      simp [SemLedger.enter, hacq, hrel]
    · rw [update_of_ne hkc, update_of_ne hkc]
      exact h.counted k (by omega)
  · intro k hk
    have hk' : k < s'.cnt := hk
    show _ = (-s'.sems k).toNat
    rw [hs]
    by_cases hkc : k = g.sched.cnt
    · obtain ⟨-, -, hnil⟩ := h.unused k (by omega)
      subst hkc
      rw [hnil, update_self, length_nil]
      omega
    · rw [update_of_ne hkc]
      exact h.length k (by omega)

theorem SemLedger.Balanced.use {j : Nat} {v : Int} (h : g.Balanced hart a) (hj : j < g.sched.cnt)
    (href : g'.sched.Refines hart b) (hs : g'.sched.sems = update g.sched.sems j v)
    (hc : g'.sched.cnt = g.sched.cnt) (hinit : g'.initial = g.initial)
    (hsame : ∀ k, k ≠ j → g'.acquires k = g.acquires k ∧ g'.releases k = g.releases k ∧
      g'.blocked k = g.blocked k ∧ b.lists (.waiting k) = a.lists (.waiting k))
    (hcount : v = g.initial j + g'.releases j - g'.acquires j)
    (hlen : (b.lists (.waiting j)).length = (-v).toNat)
    (horder : b.lists (.waiting j) <:+ g'.blocked j) : g'.Balanced hart b := by
  refine ⟨href, hc ▸ h.cnt_le, ?_, ?_, ?_, ?_⟩
  · intro k hk
    obtain ⟨hacq, hrel, -, hl⟩ := hsame k (by omega)
    rw [hacq, hrel, hl]
    exact h.unused k (by omega)
  · intro k hk
    rw [hs, hinit]
    by_cases hkj : k = j
    · rw [hkj, update_self, hcount]
    · obtain ⟨hacq, hrel, -⟩ := hsame k hkj
      rw [update_of_ne hkj, hacq, hrel]
      exact h.counted k (by omega)
  · intro k hk
    rw [hs]
    by_cases hkj : k = j
    · rw [hkj, update_self, hlen]
    · rw [update_of_ne hkj, (hsame k hkj).2.2.2]
      exact h.length k (by omega)
  · intro k
    by_cases hkj : k = j
    · exact hkj ▸ horder
    · rw [(hsame k hkj).2.2.1, (hsame k hkj).2.2.2]
      exact h.order k

theorem SemLedger.Balanced.acquire {j : Nat} (h : g.Balanced hart a) (hj : j < g.sched.cnt)
    (hb : a.Makes (g.sched.moves a.running (.acquire j)) b) (href : s'.Refines hart b)
    (hsems : (s'.sems, s'.cnt) = g.sched.semsAfter (.acquire j)) :
    SemLedger.Balanced hart (g.enter a.running s' (.acquire j)) b := by
  obtain ⟨hs, hc⟩ := Prod.mk.inj hsems
  have hlen := h.length j hj
  have hcount := h.counted j hj
  refine h.use hj href hs hc rfl (fun k hk => ⟨?_, rfl, ?_, ?_⟩) ?_ ?_ ?_
  · exact update_of_ne hk _ _
  · simp only [SemLedger.enter]
    split
    · exact update_of_ne hk _ _
    · rfl
  · exact hb.waiting_eq (fun p hp => hk (SchedOp.acquire.inj (push_mem_moves hp)).symm)
      (fun hw => by cases wake_mem_moves hw)
  · simp only [SemLedger.enter, countUp, update_self]
    push_cast
    omega
  · rcases moves_waiting hb j with ⟨-, hneg, hl⟩ | ⟨hop, -⟩ | ⟨hpos, -, hl⟩
    · rw [hl, length_append, length_singleton, hlen]
      omega
    · cases hop
    · have hpos' := (hpos rfl).1
      rw [hl, hlen]
      omega
  · obtain ⟨old, hold⟩ := h.order j
    rcases moves_waiting hb j with ⟨-, hneg, hl⟩ | ⟨hop, -⟩ | ⟨hpos, -, hl⟩
    · -- the caller is in the queue now
      have hst : (s'.procs a.running).status = .blocked :=
        href.status (.waiting j) a.running (by simp [hl])
      simp only [SemLedger.enter, if_pos hst, update_self, hl]
      exact ⟨old, by rw [← append_assoc, hold]⟩
    · cases hop
    · -- the caller goes on running
      have hba := (hpos rfl).2
      subst hba
      have hst : (s'.procs b.running).status ≠ .blocked := by
        rw [href.status_running]
        simp
      simp only [SemLedger.enter, if_neg hst]
      exact ⟨old, hold⟩

theorem SemLedger.Balanced.release {j : Nat} (h : g.Balanced hart a) (hj : j < g.sched.cnt)
    (hb : a.Makes (g.sched.moves a.running (.release j)) b) (href : s'.Refines hart b)
    (hsems : (s'.sems, s'.cnt) = g.sched.semsAfter (.release j)) :
    SemLedger.Balanced hart (g.enter a.running s' (.release j)) b := by
  obtain ⟨hs, hc⟩ := Prod.mk.inj hsems
  have hlen := h.length j hj
  have hcount := h.counted j hj
  refine h.use hj href hs hc rfl (fun k hk => ⟨rfl, ?_, rfl, ?_⟩) ?_ ?_ ?_
  · exact update_of_ne hk _ _
  · exact hb.waiting_eq (fun p hp => by cases push_mem_moves hp)
      (fun hw => hk (SchedOp.release.inj (wake_mem_moves hw)).symm)
  · simp only [SemLedger.enter, countUp, update_self]
    push_cast
    omega
  · rcases moves_waiting hb j with ⟨hop, -⟩ | ⟨-, hneg, p, hl⟩ | ⟨-, hpos, hl⟩
    · cases hop
    · rw [hl, length_cons] at hlen
      omega
    · have hpos' := hpos rfl
      rw [hl, hlen]
      omega
  · have hsuffix := h.order j
    rcases moves_waiting hb j with ⟨hop, -⟩ | ⟨-, -, p, hl⟩ | ⟨-, -, hl⟩
    · cases hop
    · rw [hl] at hsuffix
      exact (suffix_cons p _).trans hsuffix
    · rwa [hl]

end

theorem SemLedger.Balanced.trap {a : Queues} (h : g.Balanced hart a) (hop : g.Admits op)
    (ht : g.trap hart op = .ok g') : ∃ b, g'.Balanced hart b := by
  simp only [SemLedger.trap, h.refines.current, bind_eq_ok] at ht
  obtain ⟨s', hs', ht⟩ := ht
  cases ht
  obtain ⟨b, hb, href⟩ := (trap_refines h.refines hop.wakeOk).1 s' hs'
  have hsems := trap_sems hs'
  have hkeep : (∀ k, op ≠ .acquire k) → (∀ k, op ≠ .release k) →
      ∀ k, b.lists (.waiting k) = a.lists (.waiting k) := by
    intro hacq hrel k
    exact hb.waiting_eq (fun p hp => hacq k (push_mem_moves hp))
      (fun hw => hrel k (wake_mem_moves hw))
  refine ⟨b, ?_⟩
  cases op with
  | fork => exact h.keep href hsems (hkeep (by simp) (by simp))
  | exit => exact absurd hop id
  | wait pid => exact h.keep href hsems (hkeep (by simp) (by simp))
  | yield => exact h.keep href hsems (hkeep (by simp) (by simp))
  | tick a0 => exact h.keep href hsems (hkeep (by simp) (by simp))
  | semInit v =>
    cases hb
    exact h.semInit hop (trap_semInit_lt hs') href hsems
  | acquire j => exact h.acquire hop hb href hsems
  | release j => exact h.release hop hb href hsems

/-- What `__release` of a semaphore with the first waiting process `p` does. -/
structure Sched.Wakes (s s' : Sched) (k p : Nat) : Prop where
  ready : (s'.procs p).status = .ready
  others : ∀ q, q ≠ p → (s'.procs q).status = (s.procs q).status
  appended : ∃ r, Chain (queueLinks s.procs) s.readyQueueHead r ∧
    Chain (queueLinks s'.procs) s'.readyQueueHead (r ++ [p])
  popped : ∃ l, Chain (queueLinks s.procs) (s.waitingQueue k) (p :: l) ∧
    Chain (queueLinks s'.procs) (s'.waitingQueue k) l

theorem trap_release_wakes {s : Sched} {a : Queues} {k p : Nat} {rest : List Nat}
    (h : s.Refines hart a) (hk : k < SEM_MAX) (hneg : s.sems k + 1 ≤ 0)
    (hl : a.lists (.waiting k) = p :: rest) :
    ∃ s', s.trap hart (.release k) = .ok s' ∧ s.Wakes s' k p := by
  obtain ⟨s1, h1, href, hst⟩ := release_wakes
    (h.setA0 (p := a.running) (v := (SchedOp.release k).a0)) hk hneg hl
  have href' := href.setA0 (p := a.running) (v := 0)
  refine ⟨setA0 s1 a.running 0, ?_, ?_, ?_, ⟨a.lists .ready, h.chain .ready, ?_⟩, ⟨rest, ?_, ?_⟩⟩
  · simp only [Sched.trap, h.current, handle, h1, ok_bind]
    rfl
  · exact href'.status .ready p (by simp)
  · intro q hq
    rw [setA0_fields, hst q hq, setA0_fields]
  · simpa [Sched.head] using href'.chain .ready
  · exact hl ▸ h.chain (.waiting k)
  · simpa [Sched.head] using href'.chain (.waiting k)

/-- In every run without `exit`, with initial values that are not negative: the
counter of a semaphore is its initial value plus the releases minus the
acquires; its queue has as many processes as the counter is below zero, all
`BLOCKED`, in the order in which they blocked; `__release` finds a process to
pop whenever it looks for one, and readies exactly that one. -/
theorem semaphore_accounting {g₀ : SemLedger} {k : Nat} (h0 : SemLedger.boot hart = .ok g₀)
    (hrun : Reaches (SemLedger.trap hart) SemLedger.Admits g₀ g) (hk : k < g.sched.cnt) :
    g.sched.sems k = g.initial k + g.releases k - g.acquires k ∧
      (∃ l, g.sched.SemQueue k l ∧ l <:+ g.blocked k) ∧
      (g.sched.sems k + 1 ≤ 0 → g.sched.waitingQueue k ≠ none) ∧
      ∀ p, g.sched.waitingQueue k = some p →
        ∃ s', g.sched.trap hart (.release k) = .ok s' ∧ g.sched.Wakes s' k p := by
  obtain ⟨a, hbal⟩ := Reaches.invariant (fun g => ∃ a, g.Balanced hart a)
    ⟨_, boot_balanced h0⟩ (fun _ _ _ ⟨_, hg⟩ hop ht => hg.trap hop ht) hrun
  have hlen := hbal.length k hk
  have hchain := hbal.refines.chain (.waiting k)
  refine ⟨hbal.counted k hk, ⟨_, ⟨hchain, ?_, hchain.nodup, ?_⟩, hbal.order k⟩, ?_, ?_⟩
  · omega
  · exact hbal.refines.status (.waiting k)
  · intro hneg hnone
    have hnil : a.lists (.waiting k) = [] := by
      have hc := hchain
      rw [Sched.head, hnone] at hc
      exact hc.eq_nil
    rw [hnil, length_nil] at hlen
    omega
  · intro p hp
    obtain ⟨rest, hl⟩ := hbal.refines.cons_of_head (q := .waiting k) hp
    have hneg : g.sched.sems k + 1 ≤ 0 := by
      rw [hl, length_cons] at hlen
      omega
    have hcnt := hbal.cnt_le
    exact trap_release_wakes hbal.refines (by omega) hneg hl

end

/-- A run in which two processes block and one of them is released. -/
theorem semaphore_accounting_released : ∃ g₀ g, SemLedger.boot 0 = .ok g₀ ∧
    Reaches (SemLedger.trap 0) SemLedger.Admits g₀ g ∧ 0 < g.sched.cnt ∧ g.sched.sems 0 = -1 ∧
      g.sched.sems 0 = g.initial 0 + g.releases 0 - g.acquires 0 ∧
      ∃ l, g.sched.SemQueue 0 l ∧ l <:+ g.blocked 0 := by
  obtain ⟨g₀, h0, g, hrun, hcnt, hsem⟩ : ∃ g₀, SemLedger.boot 0 = .ok g₀ ∧
      ∃ g, Runs (SemLedger.trap 0) SemLedger.Admits g₀
        [.semInit 1, .fork, .fork, .acquire 0, .yield, .acquire 0, .acquire 0, .release 0] g ∧
      0 < g.sched.cnt ∧ g.sched.sems 0 = -1 := by decide +kernel
  have hreach := hrun.reaches .start
  have hacc := semaphore_accounting h0 hreach hcnt
  exact ⟨g₀, g, h0, hreach, hcnt, hsem, hacc.1, hacc.2.1⟩

end CabbagePKE
