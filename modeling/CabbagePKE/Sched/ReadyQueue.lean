import CabbagePKE.Sched.Moves

/-!
# The ready queue

Without semaphores there is the ready queue only: a finite list without
repetitions that holds exactly the `READY` processes. A log of the insertions and
of the dispatches of a run says that it is first in, first out: what was inserted
is what was dispatched, followed by what is still queued.
-/

namespace CabbagePKE

open Lib

def QueueMove.inserted : QueueMove → Option Nat
  | .insert p => some p
  | _ => none

/-- The scheduler, with the processes put on the ready queue so far and the
processes dispatched so far, both in order. -/
structure Logged where
  sched : Sched
  inserted : List Nat
  dispatched : List Nat

def Logged.trap (hart : Nat) (g : Logged) (op : SchedOp) : Outcome Logged := do
  let moves := ((g.sched.current hart).map (g.sched.moves · op)).getD []
  let s ← g.sched.trap hart op
  return {
    sched := s
    inserted := g.inserted ++ moves.filterMap QueueMove.inserted
    dispatched := g.dispatched ++ if .dispatch ∈ moves then (s.current hart).toList else [] }

def Logged.boot (hart : Nat) : Outcome Logged := do
  let s ← CabbagePKE.boot hart
  return ⟨s, (s.current hart).toList, (s.current hart).toList⟩

structure Sched.ReadyQueue (hart : Nat) (s : Sched) (l : List Nat) : Prop where
  chain : Chain (queueLinks s.procs) s.readyQueueHead l
  nodup : l.Nodup
  mem_iff : ∀ p, p ∈ l ↔ (s.procs p).status = .ready
  running_iff : ∀ p, (s.procs p).status = .running ↔ s.current hart = some p
  current : ∃ p, s.current hart = some p ∧ (s.procs p).status = .running ∧ p ∉ l

section

variable {cur : Nat} {s : Sched} {a b : Queues} {op : SchedOp}

theorem Queues.Makes.inserts : ∀ {a : Queues} {l : List Nat}, a.Makes (l.map .insert) b →
    b.lists .ready = a.lists .ready ++ l ∧ b.running = a.running := by
  intro a l
  induction l generalizing a with
  | nil =>
    intro h
    cases h
    simp
  | cons p l ih =>
    intro h
    cases h with
    | cons hm h =>
      cases hm
      obtain ⟨hl, hr⟩ := ih h
      exact ⟨by simpa using hl, hr⟩

theorem Queues.Makes.split {l l' : List QueueMove} : ∀ {a c : Queues}, a.Makes (l ++ l') c →
    ∃ b, a.Makes l b ∧ b.Makes l' c := by
  induction l with
  | nil => exact fun h => ⟨_, .nil, h⟩
  | cons m l ih =>
    intro a c h
    cases h with
    | cons hm h =>
      obtain ⟨b, hb, hc⟩ := ih h
      exact ⟨b, .cons hm hb, hc⟩

theorem moves_shape (s : Sched) (cur : Nat) (hop : op.NoSem) : ∃ l : List Nat,
    s.moves cur op = l.map .insert ∨ s.moves cur op = l.map .insert ++ [.dispatch] := by
  cases op with
  | fork =>
    simp only [Sched.moves]
    split
    · exact ⟨[_], .inl rfl⟩
    · exact ⟨[], .inl rfl⟩
  | exit => exact ⟨s.wakes cur, .inr rfl⟩
  | wait pid =>
    simp only [Sched.moves]
    split
    · exact ⟨[], .inr rfl⟩
    · exact ⟨[], .inl rfl⟩
  | yield => exact ⟨[cur], .inr rfl⟩
  | tick a0 =>
    simp only [Sched.moves]
    split
    · exact ⟨[cur], .inr rfl⟩
    · exact ⟨[], .inl rfl⟩
  | semInit val => exact absurd hop id
  | acquire sem => exact absurd hop id
  | release sem => exact absurd hop id

theorem filterMap_inserts (l : List Nat) :
    (l.map QueueMove.insert).filterMap QueueMove.inserted = l := by
  rw [List.filterMap_map]
  exact List.filterMap_some

theorem moves_fifo (hop : op.NoSem) (h : a.Makes (s.moves cur op) b) :
    a.lists .ready ++ (s.moves cur op).filterMap QueueMove.inserted =
      (if .dispatch ∈ s.moves cur op then [b.running] else []) ++ b.lists .ready := by
  obtain ⟨l, hl | hl⟩ := moves_shape s cur hop
  · rw [hl] at h ⊢
    rw [filterMap_inserts, h.inserts.1, if_neg (by simp), List.nil_append]
  · rw [hl] at h ⊢
    obtain ⟨c, hc, hd⟩ := h.split
    rw [List.filterMap_append, filterMap_inserts, if_pos (by simp)]
    cases hd with
    | cons hm hd =>
      cases hd
      cases hm with
      | dispatch hready =>
        rw [hc.inserts.1] at hready
        have hnil : [QueueMove.dispatch].filterMap QueueMove.inserted = [] := rfl
        rw [hnil, List.append_nil, hready]
        rfl

theorem moves_noSem_waiting (hop : op.NoSem) (h : a.Makes (s.moves cur op) b)
    (hwait : ∀ k, a.lists (.waiting k) = []) (k : Nat) : b.lists (.waiting k) = [] := by
  rw [h.waiting_eq, hwait]
  · intro p hp
    rwa [push_mem_moves hp] at hop
  · intro hp
    rwa [wake_mem_moves hp] at hop

end

section

variable {hart : Nat} {s : Sched} {a : Queues} {op : SchedOp}

theorem Sched.Refines.readyQueue (h : s.Refines hart a) : s.ReadyQueue hart (a.lists .ready) where
  chain := h.chain .ready
  nodup := (h.chain .ready).nodup
  mem_iff p := ⟨h.status .ready p, h.ready p⟩
  running_iff p := by rw [h.running, h.current]
  current := ⟨a.running, h.current, h.status_running, h.unqueued .ready⟩

theorem Sched.Refines.wakeOk (h : s.Refines hart a) (hwait : ∀ k, a.lists (.waiting k) = []) :
    s.WakeOk hart op := by
  cases op with
  | exit =>
    intro cur par _ _ k _ hl
    have hmem := ((h.chain (.waiting k)).linked_iff).mp hl
    simp [hwait k] at hmem
  | _ => trivial

def Logged.Fifo (hart : Nat) (g : Logged) : Prop :=
  ∃ a, g.sched.Refines hart a ∧ (∀ k, a.lists (.waiting k) = []) ∧
    g.inserted = g.dispatched ++ a.lists .ready

theorem boot_fifo {g : Logged} (h : Logged.boot hart = .ok g) : g.Fifo hart := by
  obtain ⟨s, hs, href⟩ := boot_refines hart
  simp only [Logged.boot, hs, ok_bind] at h
  cases h
  exact ⟨_, href, fun _ => rfl, by simp⟩

theorem Logged.Fifo.trap {g g' : Logged} (h : g.Fifo hart) (hop : op.NoSem)
    (ht : g.trap hart op = .ok g') : g'.Fifo hart := by
  obtain ⟨a, href, hwait, hlog⟩ := h
  simp only [Logged.trap, bind_eq_ok] at ht
  obtain ⟨s', hs', ht⟩ := ht
  cases ht
  obtain ⟨b, hb, href'⟩ := (trap_refines href (href.wakeOk hwait)).1 s' hs'
  refine ⟨b, href', moves_noSem_waiting hop hb hwait, ?_⟩
  simp only [href.current, href'.current, Option.map_some, Option.getD_some, Option.toList_some]
  rw [hlog, List.append_assoc, moves_fifo hop hb, List.append_assoc]

/-- In every state of a run without semaphores the ready queue is a finite
list without repetitions of exactly the `READY` processes, the process on the
hart is the `RUNNING` one and not on it, and the processes were dispatched in
the order in which they were inserted. No call fails an assertion or loops. -/
theorem ready_queue_integrity {g₀ g : Logged} (h0 : Logged.boot hart = .ok g₀)
    (hrun : Reaches (Logged.trap hart) (fun _ op => op.NoSem) g₀ g) :
    (∃ l, g.sched.ReadyQueue hart l ∧ g.inserted = g.dispatched ++ l) ∧
      ∀ op : SchedOp, op.NoSem → ∀ e, g.sched.trap hart op = .error e → ¬ e.Broken := by
  obtain ⟨a, href, hwait, hlog⟩ := Reaches.invariant (Logged.Fifo hart) (boot_fifo h0)
    (fun _ _ _ hg hop ht => hg.trap hop ht) hrun
  refine ⟨⟨_, href.readyQueue, hlog⟩, ?_⟩
  intro op _ e he
  exact (trap_refines href (href.wakeOk hwait)).2 e he

end

/-- A run in which a slot is reused and a blocked process is woken up. -/
theorem ready_queue_integrity_reused : ∃ g₀ g, Logged.boot 0 = .ok g₀ ∧
    Reaches (Logged.trap 0) (fun _ op => op.NoSem) g₀ g ∧
      g.inserted = [0, 1, 2, 0, 2, 1, 0] ∧ g.dispatched = [0, 1, 2, 0, 2, 1] ∧
      ∃ l, g.sched.ReadyQueue 0 l ∧ g.inserted = g.dispatched ++ l := by
  obtain ⟨g₀, h0, g, hrun, hins, hdisp⟩ : ∃ g₀, Logged.boot 0 = .ok g₀ ∧
      ∃ g, Runs (Logged.trap 0) (fun _ op => op.NoSem) g₀
        [.fork, .fork, .yield, .exit, .yield, .wait (-1), .fork, .wait 2, .exit] g ∧
      g.inserted = [0, 1, 2, 0, 2, 1, 0] ∧ g.dispatched = [0, 1, 2, 0, 2, 1] := by decide +kernel
  have hreach := hrun.reaches .start
  exact ⟨g₀, g, h0, hreach, hins, hdisp, (ready_queue_integrity h0 hreach).1⟩

end CabbagePKE
