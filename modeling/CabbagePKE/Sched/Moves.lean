import CabbagePKE.Sched.Queues
import CabbagePKE.Sched.Wait
import CabbagePKE.Lib.Yields
import Mathlib.Data.List.Perm.Subperm

/-!
# What a call does to the queues

An abstract scheduler has its queues as lists and one process that runs, and
knows four moves: a process joins the ready queue or a semaphore's queue, the
first of the ready queue runs, the first of a semaphore's queue becomes ready.
The code refines it (`trap_refines`), as long as no process is readied that is
still in a semaphore's queue (`WakeOk`); no assertion fails on the way and no
loop over a queue runs forever.
-/

namespace CabbagePKE

open Lib Function List

/-! ## The abstract scheduler -/

structure Queues where
  lists : QueueId → List Nat
  running : Nat

inductive QueueMove
  | insert (p : Nat)
  | dispatch
  | push (sem p : Nat)
  | wake (sem : Nat)
  deriving DecidableEq

/-- One move: a queue is taken from at its head and added to at its end. -/
inductive Queues.Moves (a : Queues) : QueueMove → Queues → Prop
  | insert {p : Nat} :
      a.Moves (.insert p) ⟨update a.lists .ready (a.lists .ready ++ [p]), a.running⟩
  | dispatch {p : Nat} {rest : List Nat} (h : a.lists .ready = p :: rest) :
      a.Moves .dispatch ⟨update a.lists .ready rest, p⟩
  | push {sem p : Nat} :
      a.Moves (.push sem p)
        ⟨update a.lists (.waiting sem) (a.lists (.waiting sem) ++ [p]), a.running⟩
  | wake {sem p : Nat} {rest : List Nat} (h : a.lists (.waiting sem) = p :: rest) :
      a.Moves (.wake sem) ⟨update (update a.lists (.waiting sem) rest) .ready
        (a.lists .ready ++ [p]), a.running⟩

inductive Queues.Makes : Queues → List QueueMove → Queues → Prop
  | nil {a : Queues} : Makes a [] a
  | cons {a b c : Queues} {m : QueueMove} {l : List QueueMove} :
      a.Moves m b → Makes b l c → Makes a (m :: l) c

section

variable {a b c : Queues}

theorem Queues.Moves.makes {m : QueueMove} (h : a.Moves m b) : a.Makes [m] b := .cons h .nil

theorem Queues.Makes.append {l l' : List QueueMove} (h : a.Makes l b) (h' : b.Makes l' c) :
    a.Makes (l ++ l') c := by
  induction h with
  | nil => exact h'
  | cons hm _ ih => exact .cons hm (ih h')

theorem Queues.Makes.waiting_eq {k : Nat} {moves : List QueueMove} (h : a.Makes moves b)
    (hpush : ∀ p, .push k p ∉ moves) (hwake : .wake k ∉ moves) :
    b.lists (.waiting k) = a.lists (.waiting k) := by
  induction h with
  | nil => rfl
  | @cons a b c m l hm _ ih =>
    rw [ih (fun p hp => hpush p (by simp [hp])) (fun hw => hwake (by simp [hw]))]
    cases hm with
    | insert => simp
    | dispatch hl => simp
    | @push sem p =>
      have hne : k ≠ sem := by
        rintro rfl
        exact hpush p (by simp)
      simp [hne]
    | @wake sem p rest hl =>
      have hne : k ≠ sem := by
        rintro rfl
        exact hwake (by simp)
      simp [hne]

end

/-! ## The moves of a call -/

/-- `do_wait` blocks: there is a slot to wait for and none to reap. -/
def Sched.waitBlocks (s : Sched) (cur : Nat) (pid : Int) : Bool :=
  !(s.awaited cur pid).isEmpty &&
    ((s.awaited cur pid).find? (fun i => (s.procs i).status = .zombie)).isNone

def Sched.wakes (s : Sched) (cur : Nat) : List Nat :=
  (s.procs cur).parent.toList.filter (fun p => (s.procs p).status = .blocked)

/-- What the call `op` of process `cur` does to the queues, if it returns. -/
def Sched.moves (s : Sched) (cur : Nat) : SchedOp → List QueueMove
  | .fork =>
    match allocProcess s with
    | .ok child => [.insert child]
    | .error _ => []
  | .exit => (s.wakes cur).map .insert ++ [.dispatch]
  | .wait pid => if s.waitBlocks cur pid then [.dispatch] else []
  | .yield => [.insert cur, .dispatch]
  | .tick _ =>
    if TIME_SLICE_LEN ≤ (s.procs cur).tickCount + 1 then [.insert cur, .dispatch] else []
  | .semInit _ => []
  | .acquire sem => if s.sems sem - 1 < 0 then [.push sem cur, .dispatch] else []
  | .release sem => if s.sems sem + 1 ≤ 0 then [.wake sem] else []

theorem push_mem_moves {s : Sched} {cur sem p : Nat} {op : SchedOp}
    (h : .push sem p ∈ s.moves cur op) : op = .acquire sem := by
  cases op <;> simp only [Sched.moves] at h
  all_goals first | split at h | skip
  all_goals simp at h
  exact congrArg SchedOp.acquire h.1.symm

theorem wake_mem_moves {s : Sched} {cur sem : Nat} {op : SchedOp}
    (h : .wake sem ∈ s.moves cur op) : op = .release sem := by
  cases op <;> simp only [Sched.moves] at h
  all_goals first | split at h | skip
  all_goals simp at h
  exact congrArg SchedOp.release h.symm

theorem moves_waiting {s : Sched} {a b : Queues} {op : SchedOp}
    (h : a.Makes (s.moves a.running op) b) (k : Nat) :
    (op = .acquire k ∧ s.sems k - 1 < 0 ∧
      b.lists (.waiting k) = a.lists (.waiting k) ++ [a.running]) ∨
    (op = .release k ∧ s.sems k + 1 ≤ 0 ∧ ∃ p, a.lists (.waiting k) = p :: b.lists (.waiting k)) ∨
    ((op = .acquire k → 0 ≤ s.sems k - 1 ∧ b = a) ∧ (op = .release k → 0 < s.sems k + 1) ∧
      b.lists (.waiting k) = a.lists (.waiting k)) := by
  by_cases hacq : op = .acquire k
  · subst hacq
    simp only [Sched.moves] at h
    split at h
    · rename_i hneg
      cases h with
      | cons hm h =>
        cases hm
        have hlists := h.waiting_eq (k := k) (by simp) (by simp)
        simp only [update_self] at hlists
        exact .inl ⟨rfl, hneg, hlists⟩
    · cases h
      exact .inr (.inr ⟨fun _ => ⟨by omega, rfl⟩, by simp, rfl⟩)
  · by_cases hrel : op = .release k
    · subst hrel
      simp only [Sched.moves] at h
      split at h
      · rename_i hneg
        cases h with
        | cons hm h =>
          cases h
          cases hm with
          | wake hl => exact .inr (.inl ⟨rfl, hneg, _, by simpa using hl⟩)
      · cases h
        exact .inr (.inr ⟨by simp, fun _ => by omega, rfl⟩)
    · refine .inr (.inr ⟨fun heq => absurd heq hacq, fun heq => absurd heq hrel, ?_⟩)
      exact h.waiting_eq (fun p hp => hacq (push_mem_moves hp)) (fun hw => hrel (wake_mem_moves hw))

def Sched.WakeOk (hart : Nat) (s : Sched) : SchedOp → Prop
  | .exit => ∀ cur par, s.current hart = some cur → (s.procs cur).parent = some par →
      ∀ k, k < SEM_MAX → ¬ Linked (queueLinks s.procs) (s.waitingQueue k) par
  | _ => True

/-! ## Refinement -/

def Halt.Broken : Halt → Prop
  | .assertion _ => True
  | .diverges => True
  | _ => False

/-- The queues are `lists`, every `READY` process is on the ready queue, and
`run` is the one `RUNNING` process. No process was started for another hart. -/
structure Sched.Lined (s : Sched) (lists : QueueId → List Nat) (run : Option Nat) : Prop
    extends Sched.Queued s lists where
  ready : ∀ p, (s.procs p).status = .ready → p ∈ lists .ready
  running : ∀ p, (s.procs p).status = .running ↔ run = some p
  slots : ∀ p, (s.procs p).status ≠ .free → p < NPROC
  waiting_lt : ∀ k, SEM_MAX ≤ k → lists (.waiting k) = []
  isChild : ∀ p, (s.procs p).isChild = false
  childRunning : s.childRunning = false

structure Sched.Refines (hart : Nat) (s : Sched) (a : Queues) : Prop
    extends Sched.Lined s a.lists (some a.running) where
  current : s.current hart = some a.running

section

variable {p : Nat} {s s' : Sched} {lists : QueueId → List Nat} {run run' : Option Nat}

theorem Sched.Lined.length_le (h : s.Lined lists run) (q : QueueId) : (lists q).length ≤ NPROC := by
  have hsub : lists q ⊆ range NPROC := by
    intro p hp
    have hst := h.status q p hp
    exact mem_range.mpr (h.slots p (by rw [hst]; cases q <;> simp [QueueId.status]))
  have hle := (subperm_of_subset (h.chain q).nodup hsub).length_le
  rwa [length_range] at hle

theorem Sched.Lined.setProc {x : Proc} (h : s.Lined lists run) (hp : Unqueued lists p)
    (hx : x.status ≠ .ready) (hlt : x.status ≠ .free → p < NPROC) (hc : x.isChild = false)
    (hrun : x.status = .running ↔ run' = some p)
    (hrun' : ∀ q, q ≠ p → (run = some q ↔ run' = some q)) :
    Sched.Lined { s with procs := setProc s.procs p x } lists run' := by
  have hcases : ∀ q, (q = p ∧ CabbagePKE.setProc s.procs p x q = x) ∨
      (q ≠ p ∧ CabbagePKE.setProc s.procs p x q = s.procs q) := by
    intro q
    by_cases hq : q = p
    · exact .inl ⟨hq, by rw [hq, CabbagePKE.setProc, update_self]⟩
    · exact .inr ⟨hq, by rw [CabbagePKE.setProc, update_of_ne hq]⟩
  refine ⟨h.toQueued.setProc hp x, fun q hq => ?_, fun q => ?_, fun q hq => ?_, h.waiting_lt,
    fun q => ?_, h.childRunning⟩
  · rcases hcases q with ⟨-, hqx⟩ | ⟨-, hqs⟩
    · exact absurd (hqx ▸ hq) hx
    · exact h.ready q (hqs ▸ hq)
  · dsimp only
    rcases hcases q with ⟨rfl, hqx⟩ | ⟨hne, hqs⟩
    · rw [hqx, hrun]
    · rw [hqs, h.running, hrun' q hne]
  · rcases hcases q with ⟨rfl, hqx⟩ | ⟨-, hqs⟩
    · exact hlt (hqx ▸ hq)
    · exact h.slots q (hqs ▸ hq)
  · dsimp only
    rcases hcases q with ⟨-, hqx⟩ | ⟨-, hqs⟩
    · rw [hqx, hc]
    · rw [hqs, h.isChild]

theorem Sched.Lined.status_running (h : s.Lined lists (some p)) :
    (s.procs p).status = .running := (h.running p).mpr rfl

theorem Sched.Lined.unqueued (h : s.Lined lists (some p)) : Unqueued lists p :=
  h.toQueued.unqueued (by rw [h.status_running]; simp) (by rw [h.status_running]; simp)

theorem Sched.Lined.running_lt (h : s.Lined lists (some p)) : p < NPROC :=
  h.slots p (by rw [h.status_running]; simp)

theorem Sched.Lined.stop {st : Status} (h : s.Lined lists (some p)) (hr : st ≠ .ready)
    (hrun : st ≠ .running) : (setStatus s p st).Lined lists none := by
  refine h.setProc h.unqueued hr (fun _ => h.running_lt) (h.isChild p) ?_ ?_
  · exact iff_of_false hrun (by simp)
  · intro q hq
    exact iff_of_false (fun heq => hq (Option.some.inj heq).symm) (by simp)

def Leaves (p : Nat) (run run' : Option Nat) : Prop := ∀ z, run' = some z ↔ run = some z ∧ z ≠ p

theorem Leaves.self : Leaves p (some p) none := by
  intro z
  constructor
  · simp
  · rintro ⟨heq, hne⟩
    exact absurd (Option.some.inj heq).symm hne

theorem Leaves.other (h : run ≠ some p) : Leaves p run run := by
  intro z
  constructor
  · intro heq
    refine ⟨heq, ?_⟩
    rintro rfl
    exact h heq
  · exact fun hz => hz.1

theorem Sched.Lined.push {q : QueueId} {x : Proc} (h : s.Lined lists run) (hp : Unqueued lists p)
    (hlt : p < NPROC) (hx : x.isChild = false) (hq : ∀ k, q = .waiting k → k < SEM_MAX)
    (hrun : Leaves p run run') :
    ∃ b head', enqueue (CabbagePKE.setProc s.procs p x) (s.head q) p q.status = .ok (b, head') ∧
      ∀ s' : Sched, s'.procs = b → s'.childRunning = s.childRunning →
        (∀ q', s'.head q' = if q' = q then head' else s.head q') →
        s'.Lined (update lists q (lists q ++ [p])) run' := by
  have hset := h.toQueued.setProc hp x
  have hheads : ∀ q', Sched.head { s with procs := CabbagePKE.setProc s.procs p x } q' =
      s.head q' := fun q' => by cases q' <;> rfl
  have hchain := hset.chain q
  obtain ⟨b, head', he⟩ := enqueue_ok p q.status hchain (h.length_le q)
  obtain ⟨-, hbp, -⟩ := enqueue_spec hchain (hp q) he
  have hother : ∀ z, z ≠ p → ∃ n, b z = { s.procs z with queueNext := n } := by
    intro z hz
    obtain ⟨n, hn⟩ := enqueue_other he hz
    exact ⟨n, by rw [hn]; simp only [CabbagePKE.setProc, update_of_ne hz]⟩
  refine ⟨b, head', he, ?_⟩
  · intro s' hprocs hchild hhead
    have hqueued : s'.Queued (update lists q (lists q ++ [p])) := by
      refine hset.push hp ?_ hprocs (fun q' => by rw [hhead, hheads])
      rwa [hheads]
    refine ⟨hqueued, fun z hz => ?_, fun z => ?_, fun z hz => ?_, fun k hk => ?_, fun z => ?_,
      hchild.trans h.childRunning⟩
    · rw [hprocs] at hz
      by_cases hzp : z = p
      · -- `p` is `READY` only if it was put on the ready queue
        rw [hzp, hbp] at hz
        cases q with
        | ready => simp [hzp]
        | waiting k => cases hz
      · obtain ⟨n, hn⟩ := hother z hzp
        rw [hn] at hz
        have hmem := h.ready z hz
        by_cases hqr : q = .ready
        · subst hqr
          rw [update_self]
          exact mem_append_left _ hmem
        · rwa [update_of_ne (Ne.symm hqr)]
    · rw [hprocs, hrun z]
      by_cases hzp : z = p
      · rw [hzp, hbp]
        exact iff_of_false (by cases q <;> simp [QueueId.status]) (fun hz => hz.2 rfl)
      · obtain ⟨n, hn⟩ := hother z hzp
        rw [hn]
        exact (h.running z).trans ⟨fun heq => ⟨heq, hzp⟩, And.left⟩
    · rw [hprocs] at hz
      by_cases hzp : z = p
      · exact hzp ▸ hlt
      · obtain ⟨n, hn⟩ := hother z hzp
        rw [hn] at hz
        exact h.slots z hz
    · have hne : QueueId.waiting k ≠ q := fun heq => absurd (hq k heq.symm) (by omega)
      rw [update_of_ne hne]
      exact h.waiting_lt k hk
    · rw [hprocs]
      by_cases hzp : z = p
      · rw [hzp, hbp]
        simpa [CabbagePKE.setProc] using hx
      · obtain ⟨n, hn⟩ := hother z hzp
        rw [hn]
        exact h.isChild z

theorem insertToReadyQueue_lined {x : Proc} (h : s.Lined lists run) (hp : Unqueued lists p)
    (hlt : p < NPROC) (hx : x.isChild = false) (hrun : Leaves p run run') :
    ∃ s', insertToReadyQueue { s with procs := setProc s.procs p x } p = .ok s' ∧
      s'.Lined (update lists .ready (lists .ready ++ [p])) run' ∧
      s'.current = s.current := by
  obtain ⟨b, head', he, hs'⟩ := h.push (q := .ready) hp hlt hx (by simp) hrun
  refine ⟨{ s with procs := b, readyQueueHead := head' }, ?_, hs' _ rfl rfl ?_, rfl⟩
  · have he' : enqueue (setProc s.procs p x) s.readyQueueHead p .ready = .ok (b, head') := he
    simp [insertToReadyQueue, he']
  · intro q
    cases q <;> simp [Sched.head]

theorem waitingQueuePush_lined {sem : Nat} (h : s.Lined lists (some p)) (hsem : sem < SEM_MAX) :
    ∃ s', waitingQueuePush s p sem = .ok s' ∧
      s'.Lined (update lists (.waiting sem) (lists (.waiting sem) ++ [p])) none := by
  have hself : setProc s.procs p (s.procs p) = s.procs := update_eq_self p s.procs
  obtain ⟨b, head', he, hs'⟩ := h.push (q := .waiting sem) h.unqueued h.running_lt (h.isChild p) (by
      intro k hk
      cases hk
      exact hsem) Leaves.self
  rw [hself] at he
  refine ⟨{ s with procs := b, waitingQueue := update s.waitingQueue sem head' }, ?_,
    hs' _ rfl rfl ?_⟩
  · have he' : enqueue s.procs (s.waitingQueue sem) p .blocked = .ok (b, head') := he
    simp [waitingQueuePush, he']
  · intro q
    cases q with
    | ready => simp [Sched.head]
    | waiting k =>
      by_cases hk : k = sem
      · simp [Sched.head, hk]
      · simp [Sched.head, hk]

theorem waitingQueuePop_lined {sem : Nat} (h : s.Lined lists run)
    (hpop : waitingQueuePop s sem = .ok (p, s')) :
    ∃ rest, lists (.waiting sem) = p :: rest ∧ s'.Lined (update lists (.waiting sem) rest) run ∧
      Unqueued (update lists (.waiting sem) rest) p := by
  obtain ⟨rest, hl, hq, hun⟩ := waitingQueuePop_queued h.toQueued hpop
  have hprocs := waitingQueuePop_procs hpop
  have hchild : s'.childRunning = s.childRunning := by
    unfold waitingQueuePop at hpop
    split at hpop
    · cases hpop
    · cases hpop
      rfl
  refine ⟨rest, hl, ⟨hq, fun z hz => ?_, fun z => ?_, fun z hz => ?_, fun k hk => ?_, fun z => ?_,
    hchild.trans h.childRunning⟩, hun⟩
  · have hne : QueueId.ready ≠ .waiting sem := (by simp)
    rw [update_of_ne hne]
    exact h.ready z (hprocs ▸ hz)
  · rw [hprocs]
    exact h.running z
  · exact h.slots z (hprocs ▸ hz)
  · have hne : QueueId.waiting k ≠ .waiting sem := by
      intro heq
      cases heq
      simp [h.waiting_lt sem hk] at hl
    rw [update_of_ne hne]
    exact h.waiting_lt k hk
  · rw [hprocs]
    exact h.isChild z

end

/-- The kernel is in a state that the abstract scheduler reaches by `moves`. -/
def Sched.After (hart : Nat) (a : Queues) (moves : List QueueMove) (s : Sched) : Prop :=
  ∃ b, a.Makes moves b ∧ s.Refines hart b

section

variable {hart : Nat} {s s' : Sched} {a b : Queues}

theorem Sched.After.append {l l' : List QueueMove} (h : a.Makes l b)
    (h' : Sched.After hart b l' s) : Sched.After hart a (l ++ l') s := by
  obtain ⟨c, hc, href⟩ := h'
  exact ⟨c, h.append hc, href⟩

theorem schedule_cons {lists : QueueId → List Nat} {p : Nat} {rest : List Nat}
    (h : s.Lined lists none) (hl : lists .ready = p :: rest) :
    ∃ s', schedule hart s = .ok s' ∧ s'.Refines hart ⟨update lists .ready rest, p⟩ := by
  have hhead : s.readyQueueHead = some p := by
    have hc := h.chain .ready
    rw [hl] at hc
    exact hc.1
  have hst : (s.procs p).status = .ready := h.status .ready p (by simp [hl])
  obtain ⟨hq, hun⟩ := h.toQueued.pop { s with
      current := update s.current hart (some p)
      readyQueueHead := (s.procs p).queueNext } hl rfl (by
    intro q
    cases q <;> simp [Sched.head])
  have hkeeps : Keeps s.procs (setStatus s p .running).procs :=
    setStatus_keeps (fun hf => by rw [hst] at hf; cases hf)
  simp only [schedule, hhead, hst, ne_eq, not_true_eq_false, if_false]
  refine ⟨_, rfl, ⟨hq.setProc hun _, fun z hz => ?_, fun z => ?_, fun z hz => ?_, fun k hk => ?_,
    fun z => ?_, h.childRunning⟩, update_self ..⟩
  · dsimp only
    rw [update_self]
    by_cases hzp : z = p
    · simp [setStatus, setProc, hzp] at hz
    · have hmem := h.ready z (by simpa [setStatus, setProc, update_of_ne hzp] using hz)
      rw [hl] at hmem
      exact (mem_cons.mp hmem).resolve_left hzp
  · by_cases hzp : z = p
    · simp [setStatus, setProc, hzp]
    · have hz : (s.procs z).status ≠ .running := fun hz => by cases (h.running z).mp hz
      simp [setStatus, setProc, update_of_ne hzp, hz, Ne.symm hzp]
  · exact h.slots z (fun hf => hz (hkeeps.free z hf))
  · have hne : QueueId.waiting k ≠ .ready := (by simp)
    exact (update_of_ne hne rest lists).trans (h.waiting_lt k hk)
  · exact (hkeeps.isChild z).trans (h.isChild z)

theorem schedule_refines (h : s.Lined a.lists none) :
    Yields Halt.Broken (schedule hart s) (Sched.After hart a [.dispatch]) := by
  cases hl : a.lists .ready with
  | nil =>
    have hhead : s.readyQueueHead = none := by
      have hc := h.chain .ready
      rwa [hl] at hc
    simp only [schedule, hhead]
    split
    · exact .of_error not_false
    · exact .of_error not_false
  | cons p rest =>
    obtain ⟨s', hs', href⟩ := schedule_cons h hl
    exact .of_eq hs' ⟨_, (Queues.Moves.dispatch hl).makes, href⟩

theorem yieldTo_refines (h : s.Lined a.lists (some a.running)) :
    Yields Halt.Broken (yieldTo hart s a.running)
      (Sched.After hart a [.insert a.running, .dispatch]) := by
  obtain ⟨s', hs', hlined, -⟩ := insertToReadyQueue_lined
    (x := { s.procs a.running with status := .ready }) h h.unqueued h.running_lt (h.isChild _)
    Leaves.self
  rw [yieldTo, setStatus, hs', ok_bind]
  exact (schedule_refines hlined).mono (fun _ => Sched.After.append Queues.Moves.insert.makes)

theorem doFork_refines (h : s.Refines hart a) :
    Yields Halt.Broken (doFork s a.running)
      (fun r => Sched.After hart a (s.moves a.running .fork) r.2) := by
  cases hi : allocProcess s with
  | error e =>
    rw [doFork, hi, error_bind]
    unfold allocProcess at hi
    split at hi
    · cases hi
    · cases hi
      exact .of_error not_false
  | ok i =>
    obtain ⟨hfree, hlt⟩ := allocProcess_free hi
    have hun : Unqueued a.lists i := h.toQueued.unqueued (by rw [hfree]; simp) (by rw [hfree]; simp)
    have hne : i ≠ a.running := by
      rintro rfl
      simp [h.status_running] at hfree
    obtain ⟨s', hs', hlined, hcur⟩ := insertToReadyQueue_lined
      (x := { s.procs i with status := .ready, a0 := 0, parent := some a.running }) h.toLined
      hun hlt (h.isChild i) (Leaves.other (fun heq => hne (Option.some.inj heq).symm))
    rw [doFork, hi, ok_bind]
    dsimp only
    rw [hs', ok_bind]
    refine .of_ok ?_
    simp only [Sched.moves, hi]
    exact ⟨_, Queues.Moves.insert.makes, hlined, (congrFun hcur hart).trans h.current⟩

theorem wakeup_lined {par : Option Nat} (h : s.Lined a.lists none)
    (hpar : ∀ q k, par = some q → q ∉ a.lists (.waiting k)) :
    ∃ s' b, wakeup s par = .ok s' ∧ s'.Lined b.lists none ∧ a.Makes
      ((par.toList.filter (fun p => (s.procs p).status = .blocked)).map .insert) b := by
  cases par with
  | none => exact ⟨s, a, rfl, h, .nil⟩
  | some p =>
    by_cases hb : (s.procs p).status = .blocked
    · -- a blocked process outside the semaphore queues is on no queue
      have hun : Unqueued a.lists p := by
        intro i hmem
        cases i with
        | ready =>
          have hst := h.status .ready p hmem
          rw [hb] at hst
          cases hst
        | waiting k => exact hpar p k rfl hmem
      have hlt : p < NPROC := h.slots p (by rw [hb]; simp)
      obtain ⟨s', hs', hlined, -⟩ := insertToReadyQueue_lined
        (x := { s.procs p with status := .ready }) h hun hlt (h.isChild p) (Leaves.other (by simp))
      have hmake := (Queues.Moves.insert (a := a) (p := p)).makes
      exact ⟨s', _, by rw [wakeup, if_pos hb, setStatus, hs'], hlined, by simpa [hb] using hmake⟩
    · refine ⟨s, a, by rw [wakeup, if_neg hb], h, ?_⟩
      simpa [hb] using Queues.Makes.nil (a := a)

theorem sysUserExit_refines (h : s.Refines hart a)
    (hpar : ∀ q k, (s.procs a.running).parent = some q → q ∉ a.lists (.waiting k)) :
    Yields Halt.Broken (sysUserExit hart s a.running)
      (fun r => Sched.After hart a (s.moves a.running .exit) r.2) := by
  have hzombie : (setStatus s a.running .zombie).Lined a.lists none := h.stop (by simp) (by simp)
  obtain ⟨s1, b, h1, hl1, hmake⟩ := wakeup_lined hzombie hpar
  have hwakes : (s.procs a.running).parent.toList.filter (fun p =>
      ((setStatus s a.running .zombie).procs p).status = .blocked) = s.wakes a.running := by
    refine filter_congr (fun p _ => ?_)
    by_cases hp : p = a.running
    · simp [hp, setStatus, setProc, h.status_running]
    · simp [setStatus, setProc, update_of_ne hp]
  have hmake' : a.Makes ((s.wakes a.running).map .insert) b := hwakes ▸ hmake
  rw [sysUserExit, freeProcess, h1, ok_bind, if_neg (by simp [hl1.isChild, hl1.childRunning])]
  exact (schedule_refines hl1).bind (fun s' hs' => .of_ok (hs'.append hmake'))

theorem blockInWait_refines (h : s.Refines hart a) :
    Yields Halt.Broken (blockInWait hart s a.running)
      (fun r => Sched.After hart a [.dispatch] r.2) := by
  have hblocked : (setStatus s a.running .blocked).Lined a.lists none := h.stop (by simp) (by simp)
  exact (schedule_refines hblocked).bind (fun s' hs' => .of_ok hs')

theorem Sched.Refines.reap {i : Nat} (h : s.Refines hart a) (hz : (s.procs i).status = .zombie) :
    (setStatus s i .free).Refines hart a := by
  have hne : a.running ≠ i := by
    rintro rfl
    simp [h.status_running] at hz
  have hun : Unqueued a.lists i := h.toQueued.unqueued (by rw [hz]; simp) (by rw [hz]; simp)
  refine ⟨h.toLined.setProc hun (by simp) (fun hf => absurd rfl hf) (h.isChild i) ?_ ?_, h.current⟩
  · exact iff_of_false (by simp) (fun heq => hne (Option.some.inj heq))
  · exact fun _ _ => Iff.rfl

theorem doWait_refines {pid : Int} (h : s.Refines hart a) :
    Yields Halt.Broken (doWait hart s a.running pid)
      (fun r => Sched.After hart a (s.moves a.running (.wait pid)) r.2) := by
  rw [doWait_eq]
  split
  · rename_i i hi
    refine .of_ok ?_
    have hblocks : s.waitBlocks a.running pid = false := by simp [Sched.waitBlocks, hi]
    simp only [Sched.moves, hblocks]
    exact ⟨a, .nil, h.reap (by simpa using find?_some hi)⟩
  · rename_i hnone
    split
    · rename_i hnil
      refine .of_ok ?_
      have hblocks : s.waitBlocks a.running pid = false := by simp [Sched.waitBlocks, hnil]
      simp only [Sched.moves, hblocks]
      exact ⟨a, .nil, h⟩
    · rename_i hcons
      have hblocks : s.waitBlocks a.running pid = true := by simp [Sched.waitBlocks, hnone, hcons]
      simp only [Sched.moves, hblocks]
      exact blockInWait_refines h

theorem rrsched_refines {a0 : Nat} (h : s.Refines hart a) :
    Yields Halt.Broken (rrsched hart s a.running)
      (fun r => Sched.After hart a (s.moves a.running (.tick a0)) r.2) := by
  have htick : ∀ x : Proc, x.status = .running → x.isChild = false →
      Sched.Lined { s with procs := setProc s.procs a.running x } a.lists (some a.running) := by
    intro x hx hchild
    exact h.toLined.setProc h.unqueued (by rw [hx]; simp) (fun _ => h.running_lt) hchild
      (iff_of_true hx rfl) (fun _ _ => Iff.rfl)
  simp only [rrsched, Sched.moves]
  split
  · have hreset := htick { s.procs a.running with tickCount := 0 } h.status_running (h.isChild _)
    refine (yieldTo_refines hreset).bind ?_
    intro s' hs'
    exact .of_ok hs'
  · exact .of_ok ⟨a, .nil, htick _ h.status_running (h.isChild _), h.current⟩

theorem Sched.Refines.setSem {sem : Nat} {v : Int} (h : s.Refines hart a) :
    (setSem s sem v).Refines hart a :=
  ⟨⟨⟨h.chain, h.status, h.apart⟩, h.ready, h.running, h.slots, h.waiting_lt, h.isChild,
    h.childRunning⟩, h.current⟩

theorem acquire_refines {sem : Nat} (h : s.Refines hart a) :
    Yields Halt.Broken (acquire hart s a.running sem)
      (fun r => Sched.After hart a (s.moves a.running (.acquire sem)) r.2) := by
  have hdown : (setSem s sem (s.sems sem - 1)).Refines hart a := h.setSem
  have hval : (setSem s sem (s.sems sem - 1)).sems sem = s.sems sem - 1 := update_self ..
  unfold acquire
  split
  · exact .of_error not_false
  · rename_i hsem
    simp only [hval, Sched.moves]
    split
    · have hlt : sem < SEM_MAX := by omega
      obtain ⟨s1, h1, hl1⟩ := waitingQueuePush_lined hdown.toLined hlt
      rw [h1, ok_bind]
      exact (schedule_refines hl1).bind (fun s' hs' => .of_ok (hs'.append Queues.Moves.push.makes))
    · exact .of_ok ⟨a, .nil, hdown⟩

theorem release_wakes {sem p : Nat} {rest : List Nat} (h : s.Refines hart a)
    (hsem : sem < SEM_MAX) (hneg : s.sems sem + 1 ≤ 0) (hl : a.lists (.waiting sem) = p :: rest) :
    ∃ s', release s sem = .ok (some 0, s') ∧
      s'.Refines hart ⟨update (update a.lists (.waiting sem) rest) .ready
        (a.lists .ready ++ [p]), a.running⟩ ∧
      ∀ q, q ≠ p → (s'.procs q).status = (s.procs q).status := by
  have hup : (setSem s sem (s.sems sem + 1)).Refines hart a := h.setSem
  have hval : (setSem s sem (s.sems sem + 1)).sems sem = s.sems sem + 1 := update_self ..
  have hhead : s.waitingQueue sem = some p := by
    have hc := h.chain (.waiting sem)
    rw [hl] at hc
    exact hc.1
  obtain ⟨s1, hpop⟩ : ∃ s1, waitingQueuePop (setSem s sem (s.sems sem + 1)) sem = .ok (p, s1) := by
    simp [waitingQueuePop, setSem, hhead]
  obtain ⟨rest', hl', hl1, hun⟩ := waitingQueuePop_lined hup.toLined hpop
  obtain rfl : rest = rest' := by
    rw [hl] at hl'
    exact (cons.inj hl').2
  have hst := h.status (.waiting sem) p (by simp [hl])
  have hne : p ≠ a.running := by
    rintro rfl
    rw [h.status_running] at hst
    cases hst
  have hprocs : s1.procs = (setSem s sem (s.sems sem + 1)).procs := waitingQueuePop_procs hpop
  obtain ⟨s2, h2, hl2, hcur2⟩ := insertToReadyQueue_lined
    (x := { s1.procs p with status := .ready }) hl1 hun
    (h.slots p (by rw [hst]; simp [QueueId.status]))
    (hl1.isChild p) (Leaves.other (fun heq => hne (Option.some.inj heq).symm))
  have hready : update a.lists (.waiting sem) rest .ready = a.lists .ready :=
    update_of_ne (by simp) _ _
  refine ⟨s2, ?_, ⟨hl2, ?_⟩, ?_⟩
  · have hdef : ¬ (SEM_MAX ≤ sem ∨ s.sems sem = 2 ^ 31 - 1) := by omega
    rw [release, if_neg hdef]
    simp only [hval, if_pos hneg, hpop, ok_bind]
    rw [setStatus, h2, ok_bind]
    rfl
  · rw [hcur2]
    exact (congrFun (waitingQueuePop_current hpop) hart).trans h.current
  · intro q hq
    rw [(insertToReadyQueue_other h2).2 q hq]
    simp only [setProc, update_of_ne hq, hprocs]
    rfl

theorem release_refines {sem : Nat} (h : s.Refines hart a) :
    Yields Halt.Broken (release s sem)
      (fun r => Sched.After hart a (s.moves a.running (.release sem)) r.2) := by
  by_cases hdef : SEM_MAX ≤ sem ∨ s.sems sem = 2 ^ 31 - 1
  · rw [release, if_pos hdef]
    exact .of_error not_false
  · simp only [Sched.moves]
    by_cases hneg : s.sems sem + 1 ≤ 0
    · rw [if_pos hneg]
      cases hl : a.lists (.waiting sem) with
      | nil =>
        -- the first process of the queue is read through a null pointer
        have hhead : s.waitingQueue sem = none := by
          have hc := h.chain (.waiting sem)
          rwa [hl] at hc
        have hpop : release s sem = .error .undefined := by
          rw [release, if_neg hdef]
          simp [setSem, hneg, waitingQueuePop, hhead]
        exact .of_eq_error hpop not_false
      | cons p rest =>
        obtain ⟨s', hs', href, -⟩ := release_wakes h (by omega) hneg hl
        exact .of_eq hs' ⟨_, (Queues.Moves.wake hl).makes, href⟩
    · rw [if_neg hneg]
      have hok : release s sem = .ok (some 0, setSem s sem (s.sems sem + 1)) := by
        rw [release, if_neg hdef]
        simp [setSem, hneg]
      exact .of_eq hok ⟨a, .nil, h.setSem⟩

theorem handle_refines {op : SchedOp} (h : s.Refines hart a)
    (hpar : op = .exit → ∀ q k, (s.procs a.running).parent = some q → q ∉ a.lists (.waiting k)) :
    Yields Halt.Broken (handle hart s a.running op)
      (fun r => Sched.After hart a (s.moves a.running op) r.2) := by
  cases op with
  | fork => exact doFork_refines h
  | exit => exact sysUserExit_refines h (hpar rfl)
  | wait pid => exact doWait_refines h
  | yield => exact (yieldTo_refines h.toLined).bind (fun s' hs' => .of_ok hs')
  | tick a0 => exact rrsched_refines h
  | semInit val =>
    simp only [handle, CabbagePKE.semInit]
    split
    · exact .of_error not_false
    · exact .of_ok ⟨a, .nil, ⟨⟨h.chain, h.status, h.apart⟩, h.ready, h.running, h.slots,
        h.waiting_lt, h.isChild, h.childRunning⟩, h.current⟩
  | acquire sem => exact acquire_refines h
  | release sem => exact release_refines h

/-! ## Traps -/

theorem setA0_queued {lists : QueueId → List Nat} {p v : Nat} (h : s.Queued lists) :
    (setA0 s p v).Queued lists := by
  refine ⟨fun q => (h.chain q).congr (fun z _ => ?_), fun q z hz => ?_, h.apart⟩
  · rw [queueLinks, setA0_fields]
    rfl
  · rw [setA0_fields]
    exact h.status q z hz

theorem Sched.Refines.setA0 {p v : Nat} (h : s.Refines hart a) : (setA0 s p v).Refines hart a := by
  refine ⟨⟨setA0_queued h.toQueued, fun z hz => h.ready z ?_, fun z => ?_,
    fun z hz => h.slots z ?_, h.waiting_lt, fun z => ?_, h.childRunning⟩, h.current⟩
  · rwa [setA0_fields] at hz
  · rw [setA0_fields]
    exact h.running z
  · rwa [setA0_fields] at hz
  · rw [setA0_fields]
    exact h.isChild z

theorem moves_setA0 (s : Sched) (p v cur : Nat) (op : SchedOp) :
    (setA0 s p v).moves cur op = s.moves cur op := by
  have hst : ∀ q, ((setA0 s p v).procs q).status = (s.procs q).status := fun q => by
    rw [setA0_fields]
  have hpar : ∀ q, ((setA0 s p v).procs q).parent = (s.procs q).parent := fun q => by
    rw [setA0_fields]
  have htick : ((setA0 s p v).procs cur).tickCount = (s.procs cur).tickCount := by rw [setA0_fields]
  cases op with
  | fork => simp only [Sched.moves, allocProcess, hst]
  | exit => simp only [Sched.moves, Sched.wakes, hst, hpar]
  | wait pid =>
    have hblocks : (setA0 s p v).waitBlocks cur pid = s.waitBlocks cur pid := by
      simp only [Sched.waitBlocks, awaited_setA0, hst]
    rw [Sched.moves, Sched.moves, hblocks]
  | tick a0 => simp only [Sched.moves, htick]
  | _ => rfl

theorem trap_refines {op : SchedOp} (h : s.Refines hart a) (hok : s.WakeOk hart op) :
    Yields Halt.Broken (s.trap hart op) (Sched.After hart a (s.moves a.running op)) := by
  have hpar : op = .exit → ∀ q k, ((setA0 s a.running op.a0).procs a.running).parent = some q →
      q ∉ a.lists (.waiting k) := by
    rintro rfl q k hq hmem
    by_cases hk : k < SEM_MAX
    · have hlink : Linked (queueLinks s.procs) (s.waitingQueue k) q :=
        ((h.chain (.waiting k)).linked_iff).mpr hmem
      rw [setA0_fields] at hq
      exact hok a.running q h.current hq k hk hlink
    · simp [h.waiting_lt k (by omega)] at hmem
  simp only [Sched.trap, h.current]
  refine (handle_refines h.setA0 hpar).bind (fun r hr => ?_)
  rw [moves_setA0] at hr
  obtain ⟨r, s'⟩ := r
  obtain ⟨b, hb, href⟩ := hr
  cases r with
  | none => exact .of_ok ⟨b, hb, href⟩
  | some v => exact .of_ok ⟨b, hb, href.setA0⟩

theorem boot_refines (hart : Nat) : ∃ s, boot hart = .ok s ∧ s.Refines hart ⟨fun _ => [], 0⟩ := by
  have hlined : initProcPool.Lined (fun _ => []) none := by
    refine ⟨⟨fun q => ?_, by simp, by simp⟩, fun p hp => ?_, fun p => ?_, fun p hp => ?_, by simp,
      fun _ => rfl, rfl⟩
    · cases q <;> rfl
    · cases hp
    · exact iff_of_false (by simp [initProcPool]) (by simp)
    · exact absurd rfl hp
  have hself : setProc initProcPool.procs 0 (initProcPool.procs 0) = initProcPool.procs :=
    update_eq_self ..
  have halloc : allocProcess initProcPool = .ok 0 := by decide
  obtain ⟨s1, h1, hl1, -⟩ := insertToReadyQueue_lined (p := 0) (x := initProcPool.procs 0) hlined
    (fun _ => by simp) (by decide) rfl (Leaves.other (by simp))
  rw [hself] at h1
  have hready : update (fun _ => []) QueueId.ready ([] ++ [0]) .ready = [0] := by simp
  obtain ⟨s2, h2, href⟩ : ∃ s2, schedule hart s1 = .ok s2 ∧ _ := schedule_cons hl1 hready
  refine ⟨s2, ?_, ?_⟩
  · rw [boot, halloc, ok_bind, h1, ok_bind, h2]
  · simpa using href

theorem reachable_refines {s0 : Sched} (h0 : boot hart = .ok s0)
    (hrun : Reaches (Sched.trap hart) (Sched.WakeOk hart) s0 s) : ∃ a, s.Refines hart a := by
  refine Reaches.invariant (fun s => ∃ a, s.Refines hart a) ?_ ?_ hrun
  · obtain ⟨s1, h1, href⟩ := boot_refines hart
    cases h0.symm.trans h1
    exact ⟨_, href⟩
  · rintro s op s' ⟨a, href⟩ hok ht
    obtain ⟨b, -, href'⟩ := (trap_refines href hok).1 s' ht
    exact ⟨b, href'⟩

end

end CabbagePKE
