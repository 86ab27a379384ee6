import CabbagePKE.Base

/-!
# Processes and the scheduler

`kernel/sched.c` and the process life cycle of `kernel/process.c` and
`kernel/syscall.c`: the process table, the ready queue and the semaphore queues,
all threaded through `queue_next`, and the system calls that move processes
between them. `schedule` ends in `switch_to` and never returns to its caller. The
address-space half of `fork` is left out here.
-/

namespace CabbagePKE

inductive Status
  | free
  | ready
  | running
  | blocked
  | zombie
  deriving DecidableEq, Repr

/-- What the scheduler uses of `process`; `a0` is the register in the
trapframe. -/
structure Proc where
  status : Status
  parent : Option Nat
  queueNext : Option Nat
  tickCount : Nat
  a0 : Nat
  isChild : Bool
  deriving DecidableEq, Repr

/-- The process table, the queues and the semaphores. A process is named
by its slot, which is also its `pid`. -/
structure Sched where
  procs : Nat → Proc
  readyQueueHead : Option Nat
  /-- `current[hart]` -/
  current : Nat → Option Nat
  sems : Nat → Int
  /-- the number of semaphores made -/
  cnt : Nat
  waitingQueue : Nat → Option Nat
  childRunning : Bool

def SEM_MAX : Nat := 100

def TIME_SLICE_LEN : Nat := 2

def setProc (procs : Nat → Proc) (p : Nat) (x : Proc) : Nat → Proc := Function.update procs p x

/-! ## Queues -/

/-- Browse the queue from `p` on: `none` when `proc` is on it, and its last
element otherwise. A queue of more than `NPROC` elements is a cycle. -/
def lastInQueue (procs : Nat → Proc) (proc : Nat) : Nat → Nat → Outcome (Option Nat)
  | 0, _ => .error .diverges
  | fuel + 1, p =>
    if p = proc then .ok none
    else
      match (procs p).queueNext with
      | none => .ok (some p)
      | some q => lastInQueue procs proc fuel q

/-- Put `proc` at the end of the queue with head `head` and give it the
status `st`, unless it is on the queue already. -/
def enqueue (procs : Nat → Proc) (head : Option Nat) (proc : Nat) (st : Status) :
    Outcome ((Nat → Proc) × Option Nat) :=
  match head with
  | none =>
    .ok (setProc procs proc { procs proc with status := st, queueNext := none }, some proc)
  | some h => do
      match ← lastInQueue procs proc (NPROC + 1) h with
      | none => return (procs, head)
      | some p =>
        let procs := setProc procs p { procs p with queueNext := some proc }
        return (setProc procs proc { procs proc with status := st, queueNext := none }, head)

def insertToReadyQueue (s : Sched) (proc : Nat) : Outcome Sched := do
  let (procs, head) ← enqueue s.procs s.readyQueueHead proc .ready
  return { s with procs := procs, readyQueueHead := head }

def waitingQueuePush (s : Sched) (proc sem : Nat) : Outcome Sched := do
  let (procs, head) ← enqueue s.procs (s.waitingQueue sem) proc .blocked
  return { s with procs := procs, waitingQueue := Function.update s.waitingQueue sem head }

/-- `waiting_queue_pop`; an empty queue is read through a null pointer. -/
def waitingQueuePop (s : Sched) (sem : Nat) : Outcome (Nat × Sched) :=
  match s.waitingQueue sem with
  | none => .error .undefined
  | some p => .ok (p, { s with
      waitingQueue := Function.update s.waitingQueue sem (s.procs p).queueNext })

/-! ## Scheduling -/

def setStatus (s : Sched) (p : Nat) (st : Status) : Sched :=
  { s with procs := setProc s.procs p { s.procs p with status := st } }

def schedule (hart : Nat) (s : Sched) : Outcome Sched :=
  match s.readyQueueHead with
  | none =>
    if (List.range NPROC).all (fun i =>
        (s.procs i).status = .free ∨ (s.procs i).status = .zombie) then
      .error (.shutdown 0)
    else
      .error (.panic "Not handled: we should let system wait for unfinished processes.\n" [])
  | some p =>
    if (s.procs p).status ≠ .ready then
      .error (.assertion "current[hart_id]->status == READY")
    else
      .ok { setStatus s p .running with
        current := Function.update s.current hart (some p)
        readyQueueHead := (s.procs p).queueNext }

/-- Put `p` at the end of the ready queue and dispatch the next process. -/
def yieldTo (hart : Nat) (s : Sched) (p : Nat) : Outcome Sched := do
  let s ← insertToReadyQueue (setStatus s p .ready) p
  schedule hart s

/-! ## System calls

A call returns a value for `a0`, or `none` when it ended in `schedule`. -/

def allocProcess (s : Sched) : Outcome Nat :=
  match (List.range NPROC).find? (fun i => (s.procs i).status = .free) with
  | some i => .ok i
  | none => .error (.panic "cannot find any free process structure.\n" [])

def doFork (s : Sched) (parent : Nat) : Outcome (Option Int × Sched) := do
  let child ← allocProcess s
  let procs := setProc s.procs child
    { s.procs child with status := .ready, a0 := 0, parent := some parent }
  let s ← insertToReadyQueue { s with procs := procs } child
  return (some child, s)

def wakeup (s : Sched) (proc : Option Nat) : Outcome Sched :=
  match proc with
  | none => .ok s
  | some p =>
    if (s.procs p).status = .blocked then insertToReadyQueue (setStatus s p .ready) p
    else .ok s

def freeProcess (s : Sched) (proc : Nat) : Outcome Sched :=
  wakeup (setStatus s proc .zombie) (s.procs proc).parent

/-- `sys_user_exit`: the two spin loops end only by another hart. -/
def sysUserExit (hart : Nat) (s : Sched) (proc : Nat) : Outcome (Option Int × Sched) := do
  let s ← freeProcess s proc
  if (s.procs proc).isChild ∨ s.childRunning then .error .diverges
  else
    let s ← schedule hart s
    return (none, s)

def blockInWait (hart : Nat) (s : Sched) (cur : Nat) : Outcome (Option Int × Sched) := do
  let s ← schedule hart (setStatus s cur .blocked)
  return (none, s)

def doWait (hart : Nat) (s : Sched) (cur : Nat) (pid : Int) : Outcome (Option Int × Sched) :=
  if pid = -1 then
    match (List.range NPROC).find? (fun i =>
        (s.procs i).parent = some cur ∧ (s.procs i).status = .zombie) with
    | some i => .ok (some i, setStatus s i .free)
    | none =>
      if (List.range NPROC).any (fun i => (s.procs i).parent = some cur) then
        blockInWait hart s cur
      else .ok (some (-1), s)
  else if 0 < pid ∧ pid < NPROC then
    let i := pid.toNat
    if (s.procs i).parent = some cur then
      if (s.procs i).status = .zombie then .ok (some pid, setStatus s i .free)
      else blockInWait hart s cur
    else .ok (some (-1), s)
  else .ok (some (-1), s)

def sysUserYield (hart : Nat) (s : Sched) (cur : Nat) : Outcome (Option Int × Sched) := do
  let s ← yieldTo hart s cur
  return (none, s)

def rrsched (hart : Nat) (s : Sched) (cur : Nat) : Outcome (Option Int × Sched) :=
  let ticks := (s.procs cur).tickCount + 1
  let procs := fun t => setProc s.procs cur { s.procs cur with tickCount := t }
  if TIME_SLICE_LEN ≤ ticks then do
    let s ← yieldTo hart { s with procs := procs 0 } cur
    return (none, s)
  else .ok (none, { s with procs := procs ticks })

def setSem (s : Sched) (sem : Nat) (v : Int) : Sched :=
  { s with sems := Function.update s.sems sem v }

def semInit (s : Sched) (val : Int) : Outcome (Option Int × Sched) :=
  if SEM_MAX ≤ s.cnt then .error .undefined
  else .ok (some s.cnt, { setSem s s.cnt val with cnt := s.cnt + 1 })

def acquire (hart : Nat) (s : Sched) (cur sem : Nat) : Outcome (Option Int × Sched) :=
  if SEM_MAX ≤ sem ∨ s.sems sem = -2 ^ 31 then .error .undefined
  else
    let s := setSem s sem (s.sems sem - 1)
    if s.sems sem < 0 then do
      let s ← waitingQueuePush s cur sem
      let s ← schedule hart s
      return (none, s)
    else .ok (some 0, s)

def release (s : Sched) (sem : Nat) : Outcome (Option Int × Sched) :=
  if SEM_MAX ≤ sem ∨ s.sems sem = 2 ^ 31 - 1 then .error .undefined
  else
    let s := setSem s sem (s.sems sem + 1)
    if s.sems sem ≤ 0 then do
      let (p, s) ← waitingQueuePop s sem
      let s ← insertToReadyQueue (setStatus s p .ready) p
      return (some 0, s)
    else .ok (some 0, s)

/-! ## Traps -/

/-- What can bring a running process into the kernel: a system call, or the
timer while its `a0` holds some value. -/
inductive SchedOp
  | fork
  | exit
  | wait (pid : Int)
  | yield
  | tick (a0 : Nat)
  | semInit (val : Int)
  | acquire (sem : Nat)
  | release (sem : Nat)
  deriving DecidableEq, Repr

/-- The value of `a0` when the trap is taken: the number of the call, which
`do_user_call` passes in `a0`, or what the program had in it. -/
def SchedOp.a0 : SchedOp → Nat
  | .exit => 64 + 1
  | .fork => 64 + 4
  | .yield => 64 + 5
  | .wait _ => 64 + 31
  | .semInit _ => 64 + 33
  | .acquire _ => 64 + 34
  | .release _ => 64 + 35
  | .tick a0 => a0

/-- The part of the trap handler for one cause, run by process `cur`. -/
def handle (hart : Nat) (s : Sched) (cur : Nat) : SchedOp → Outcome (Option Int × Sched)
  | .fork => doFork s cur
  | .exit => sysUserExit hart s cur
  | .wait pid => doWait hart s cur pid
  | .yield => sysUserYield hart s cur
  | .tick _ => rrsched hart s cur
  | .semInit val => CabbagePKE.semInit s val
  | .acquire sem => CabbagePKE.acquire hart s cur sem
  | .release sem => CabbagePKE.release s sem

def setA0 (s : Sched) (p v : Nat) : Sched :=
  { s with procs := setProc s.procs p { s.procs p with a0 := v } }

/-- `smode_trap_handler` with `handle_syscall`, which stores the value of a
call that returns. -/
def Sched.trap (hart : Nat) (s : Sched) (op : SchedOp) : Outcome Sched :=
  match s.current hart with
  | none => .error (.assertion "current[hart_id]")
  | some cur => do
      let (r, s) ← handle hart (setA0 s cur op.a0) cur op
      match r with
      | some v => return setA0 s cur (v % 2 ^ 64).toNat
      | none => return s

/-- `init_proc_pool`: every slot is free, and the queues are empty. -/
def initProcPool : Sched :=
  { procs := fun _ => ⟨.free, none, none, 0, 0, false⟩
    readyQueueHead := none
    current := fun _ => none
    sems := fun _ => 0
    cnt := 0
    waitingQueue := fun _ => none
    childRunning := false }

/-- `s_start` on one hart: the loaded program is the first process. -/
def boot (hart : Nat) : Outcome Sched := do
  let p ← allocProcess initProcPool
  let s ← insertToReadyQueue initProcPool p
  schedule hart s

end CabbagePKE
