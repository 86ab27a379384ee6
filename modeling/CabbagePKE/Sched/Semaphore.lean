import CabbagePKE.Sched.Moves

/-!
# Semaphore queues

A process should leave a semaphore queue only when `__release` pops it. But
`BLOCKED` also marks a process in `wait`, and `exit` readies its parent whenever
the parent is `BLOCKED`: a parent that waits for a semaphore is put on the ready
queue while it stays on the semaphore's. `WakeOk` excludes these exits.
-/

namespace CabbagePKE

open Lib

/-- What one trap may do to the semaphore queues: `__acquire` appends the
caller, `__release` takes the first process off. -/
def WaitStep (op : SchedOp) (cur : Nat) (lists lists' : QueueId → List Nat) : Prop :=
  ∀ k, lists' (.waiting k) = lists (.waiting k) ∨
    (op = .acquire k ∧ k < SEM_MAX ∧ lists' (.waiting k) = lists (.waiting k) ++ [cur]) ∨
    (op = .release k ∧ ∃ p, lists (.waiting k) = p :: lists' (.waiting k))

section

variable {hart : Nat} {s s' : Sched} {a b : Queues}

theorem moves_waitStep {op : SchedOp} (h : a.Makes (s.moves a.running op) b)
    (hlt : ∀ k, SEM_MAX ≤ k → b.lists (.waiting k) = []) :
    WaitStep op a.running a.lists b.lists := by
  intro k
  rcases moves_waiting h k with ⟨hop, -, hl⟩ | ⟨hop, -, p, hl⟩ | ⟨-, -, hl⟩
  · -- the queues past the last semaphore are empty
    have hlt' : k < SEM_MAX := by
      by_contra hge
      rw [hlt k (by omega)] at hl
      simp at hl
    exact .inr (.inl ⟨hop, hlt', hl⟩)
  · exact .inr (.inr ⟨hop, p, hl⟩)
  · exact .inl hl

/-- No process is linked in two queues, and every trap admitted by `ok`
leaves the processes of a semaphore queue blocked in it, except that
`__release` may pop the first. -/
structure Sched.SemSafe (ok : Sched → SchedOp → Prop) (hart : Nat) (s : Sched) : Prop where
  one_queue : ∀ p q q', Linked (queueLinks s.procs) (s.head q) p →
    Linked (queueLinks s.procs) (s.head q') p → q = q'
  kept : ∀ op s', ok s op → s.trap hart op = .ok s' → ∀ k p,
    Linked (queueLinks s.procs) (s.waitingQueue k) p → (s.procs p).status = .blocked ∧
      ((Linked (queueLinks s'.procs) (s'.waitingQueue k) p ∧ (s'.procs p).status = .blocked) ∨
        (op = .release k ∧ s.waitingQueue k = some p))

theorem Sched.Refines.semSafe (h : s.Refines hart a) : s.SemSafe (Sched.WakeOk hart) hart := by
  have hlink : ∀ {q p}, Linked (queueLinks s.procs) (s.head q) p → p ∈ a.lists q :=
    fun {q _} hl => ((h.chain q).linked_iff).mp hl
  constructor
  · intro p q q' hq hq'
    exact h.apart q q' p (hlink hq) (hlink hq')
  · intro op s' hok ht k p hp
    have hmem : p ∈ a.lists (.waiting k) := hlink (q := .waiting k) hp
    refine ⟨h.status (.waiting k) p hmem, ?_⟩
    obtain ⟨b, hb, h'⟩ := (trap_refines h hok).1 s' ht
    have hstay : p ∈ b.lists (.waiting k) →
        Linked (queueLinks s'.procs) (s'.waitingQueue k) p ∧
          (s'.procs p).status = .blocked := by
      intro hp'
      exact ⟨((h'.chain (.waiting k)).linked_iff).mpr hp', h'.status (.waiting k) p hp'⟩
    rcases moves_waitStep hb h'.waiting_lt k with heq | ⟨-, -, heq⟩ | ⟨rfl, z, hz⟩
    · exact .inl (hstay (heq ▸ hmem))
    · exact .inl (hstay (by simp [heq, hmem]))
    · -- the first process is popped, the others stay
      by_cases hpz : p = z
      · have hc := h.chain (.waiting k)
        rw [hz] at hc
        exact .inr ⟨rfl, hpz ▸ hc.1⟩
      · rw [hz] at hmem
        exact .inl (hstay (by simpa [hpz] using hmem))

/-- In every run in which no process exits while its parent is in a
semaphore queue, only `__release` takes a process out of such a queue. -/
theorem sem_blocking_safe {s₀ : Sched} (h0 : boot hart = .ok s₀)
    (hrun : Reaches (Sched.trap hart) (Sched.WakeOk hart) s₀ s) :
    s.SemSafe (Sched.WakeOk hart) hart := by
  obtain ⟨a, href⟩ := reachable_refines h0 hrun
  exact href.semSafe

end

/-- A run in which a process waits, is released, its child exits and
another child waits. -/
theorem sem_blocking_safe_released : ∃ s₀ s, boot 0 = .ok s₀ ∧
    Reaches (Sched.trap 0) (Sched.WakeOk 0) s₀ s ∧ s.waitingQueue 0 = some 2 ∧
      s.SemSafe (Sched.WakeOk 0) 0 := by
  obtain ⟨s₀, h0, s, hrun, hs⟩ : ∃ s₀, boot 0 = .ok s₀ ∧
      ∃ s, Runs (Sched.trap 0) (fun s op => op ≠ .exit ∨ ∀ k, k < SEM_MAX → s.waitingQueue k = none)
        s₀ [.fork, .fork, .semInit 0, .acquire 0, .release 0, .exit, .acquire 0] s ∧
      s.waitingQueue 0 = some 2 := by decide +kernel
  have hreach : Reaches (Sched.trap 0) (Sched.WakeOk 0) s₀ s := by
    refine (hrun.reaches .start).mono fun s op hok => ?_
    cases op with
    | exit =>
      intro cur par _ _ k hk hl
      rw [hok.resolve_left (by simp) k hk] at hl
      cases hl
    | _ => trivial
  exact ⟨s₀, s, h0, hreach, hs, sem_blocking_safe h0 hreach⟩

/-- A child that exits readies its parent although the parent waits for a
semaphore: the parent runs while it is still linked in the queue. -/
theorem sem_blocking_undone : ¬ ∀ (hart : Nat) (s₀ s : Sched), boot hart = .ok s₀ →
    Reaches (Sched.trap hart) (fun _ _ => True) s₀ s →
      s.SemSafe (fun _ _ => True) hart := by
  intro hclaim
  obtain ⟨s₀, h0, s, hrun, hwait, s', hexit, hs'⟩ : ∃ s₀, boot 0 = .ok s₀ ∧
      ∃ s, Runs (Sched.trap 0) (fun _ _ => True) s₀ [.fork, .semInit 0, .acquire 0] s ∧
      s.waitingQueue 0 = some 0 ∧
      ∃ s', s.trap 0 .exit = .ok s' ∧ (s'.procs 0).status = .running := by decide +kernel
  have hl : Linked (queueLinks s.procs) (s.waitingQueue 0) 0 := by
    rw [hwait]
    exact .here
  obtain ⟨-, ⟨-, hb⟩ | ⟨hop, -⟩⟩ :=
    (hclaim 0 s₀ s h0 (hrun.reaches .start)).kept .exit s' trivial hexit 0 0 hl
  · simp [hs'] at hb
  · cases hop

/-! ## The order of waking -/

/-- A run with those who blocked on a semaphore and those who were woken from it, in order. -/
structure SemLog where
  sched : Sched
  blocked : List Nat
  woken : List Nat

def SemLog.trap (hart k : Nat) (g : SemLog) (op : SchedOp) : Outcome SemLog := do
  let s ← g.sched.trap hart op
  let blocks := op = .acquire k ∧ g.sched.sems k - 1 < 0
  let wakes := op = .release k ∧ g.sched.sems k + 1 ≤ 0
  return ⟨s, g.blocked ++ if blocks then (g.sched.current hart).toList else [],
    g.woken ++ if wakes then (g.sched.waitingQueue k).toList else []⟩

def SemLog.Fifo (hart k : Nat) (g : SemLog) : Prop :=
  ∃ a, g.sched.Refines hart a ∧ g.blocked = g.woken ++ a.lists (.waiting k)

theorem SemLog.Fifo.trap {hart k : Nat} {g g' : SemLog} {op : SchedOp} (h : g.Fifo hart k)
    (hok : g.sched.WakeOk hart op) (ht : g.trap hart k op = .ok g') : g'.Fifo hart k := by
  obtain ⟨a, href, hlog⟩ := h
  simp only [SemLog.trap, bind_eq_ok] at ht
  obtain ⟨s', hs', ⟨⟩⟩ := ht
  obtain ⟨b, hb, href'⟩ := (trap_refines href hok).1 s' hs'
  refine ⟨b, href', ?_⟩
  rcases moves_waiting hb k with ⟨rfl, hneg, hl⟩ | ⟨rfl, hneg, p, hl⟩ | ⟨hacq, hrel, hl⟩
  · simp [hlog, hl, hneg, href.current]
  · have hc := href.chain (.waiting k)
    rw [hl] at hc
    have hhead : g.sched.waitingQueue k = some p := hc.1
    simp [hlog, hl, hneg, hhead]
  · have hblocks : ¬ (op = .acquire k ∧ g.sched.sems k - 1 < 0) := by grind
    have hwakes : ¬ (op = .release k ∧ g.sched.sems k + 1 ≤ 0) := by grind
    simp only [hlog, hl, if_neg hblocks, if_neg hwakes, List.append_nil]

/-- **First come, first served.** In every run in which no process exits while its parent is in a
semaphore queue, those who have blocked on a semaphore are those woken so far and then those in its
queue, in this order: no wake-up is lost or given twice. No call fails an assertion or loops. -/
theorem semaphore_fifo {hart k : Nat} {s₀ : Sched} {g : SemLog} (h0 : boot hart = .ok s₀)
    (hrun : Reaches (SemLog.trap hart k) (fun g => g.sched.WakeOk hart) ⟨s₀, [], []⟩ g) :
    (∃ l, Chain (queueLinks g.sched.procs) (g.sched.waitingQueue k) l ∧
      g.blocked = g.woken ++ l) ∧
      ∀ op e, g.sched.WakeOk hart op → g.sched.trap hart op = .error e → ¬ e.Broken := by
  obtain ⟨s, hs, href⟩ := boot_refines hart
  cases h0.symm.trans hs
  obtain ⟨a, href, hlog⟩ := Reaches.invariant (SemLog.Fifo hart k) ⟨_, href, rfl⟩
    (fun _ _ _ hg hok ht => hg.trap hok ht) hrun
  exact ⟨⟨_, href.chain (.waiting k), hlog⟩, fun op e hok => (trap_refines href hok).2 e⟩

/-- Two processes block, and the first is woken. -/
theorem semaphore_fifo_first : ∃ g : SemLog, g.blocked = [0, 1] ∧ g.woken = [0] ∧
    ∃ l, Chain (queueLinks g.sched.procs) (g.sched.waitingQueue 0) l ∧ g.blocked = g.woken ++ l := by
  obtain ⟨s₀, h0, g, hrun, hlog⟩ : ∃ s₀, boot 0 = .ok s₀ ∧
      ∃ g, Runs (SemLog.trap 0 0) (fun _ op => op ≠ .exit) ⟨s₀, [], []⟩
        [.fork, .fork, .semInit 0, .acquire 0, .acquire 0, .release 0] g ∧
      g.blocked = [0, 1] ∧ g.woken = [0] := by decide +kernel
  refine ⟨g, hlog.1, hlog.2, (semaphore_fifo h0 ((hrun.reaches .start).mono fun _ op hop => ?_)).1⟩
  cases op with
  | exit => exact absurd rfl hop
  | _ => trivial

end CabbagePKE
