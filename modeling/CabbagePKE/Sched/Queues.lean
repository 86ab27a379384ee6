import CabbagePKE.Sched.Frame
import CabbagePKE.Lib.Chain

/-!
# The queues as lists

All queues are threaded through `queue_next`. `Queued s lists` says that
they are the lists `lists`, that a process is on at most one of them and
that its status says which kind. Under it the queue operations are `++`
and `tail`.
-/

namespace CabbagePKE

open Lib Function

inductive QueueId
  | ready
  | waiting (sem : Nat)
  deriving DecidableEq

def QueueId.status : QueueId → Status
  | .ready => .ready
  | .waiting _ => .blocked

def Sched.head (s : Sched) : QueueId → Option Nat
  | .ready => s.readyQueueHead
  | .waiting sem => s.waitingQueue sem

def queueLinks (procs : Nat → Proc) (p : Nat) : Option Nat := (procs p).queueNext

/-- The queues are the lists `lists`, and they have no process in common. -/
structure Sched.Queued (s : Sched) (lists : QueueId → List Nat) : Prop where
  chain : ∀ q, Chain (queueLinks s.procs) (s.head q) (lists q)
  status : ∀ q p, p ∈ lists q → (s.procs p).status = q.status
  apart : ∀ q q' p, p ∈ lists q → p ∈ lists q' → q = q'

section

variable {a b : Nat → Proc} {p : Nat} {l : List Nat} {head head' : Option Nat}

theorem lastInQueue_spec : ∀ (fuel h : Nat) (l : List Nat) (r : Option Nat),
    Chain (queueLinks a) (some h) l → p ∉ l → lastInQueue a p fuel h = .ok r →
    ∃ l0 z, l = l0 ++ [z] ∧ r = some z := by
  intro fuel
  induction fuel with
  | zero =>
    intro h l r _ _ hr
    cases hr
  | succ fuel ih =>
    intro h l r hc hp hr
    cases l with
    | nil => cases hc
    | cons x l =>
      obtain ⟨hx, hc⟩ := hc
      cases hx
      have hne : h ≠ p := fun heq => hp (by simp [heq])
      rw [lastInQueue, if_neg hne] at hr
      cases hn : (a h).queueNext with
      | none =>
        rw [hn] at hr
        cases hr
        rw [queueLinks, hn] at hc
        exact ⟨[], h, by rw [hc.eq_nil]; rfl, rfl⟩
      | some q =>
        rw [hn] at hr
        rw [queueLinks, hn] at hc
        obtain ⟨l0, z, rfl, hz⟩ := ih q l r hc (fun hm => hp (by simp [hm])) hr
        exact ⟨h :: l0, z, rfl, hz⟩

theorem enqueue_spec {st : Status} (hc : Chain (queueLinks a) head l) (hp : p ∉ l)
    (h : enqueue a head p st = .ok (b, head')) :
    Chain (queueLinks b) head' (l ++ [p]) ∧
      b p = { a p with status := st, queueNext := none } ∧ ∀ q, q ≠ p → q ∉ l → b q = a q := by
  cases head with
  | none =>
    cases h
    obtain rfl : l = [] := hc.eq_nil
    refine ⟨⟨rfl, ?_⟩, ?_, ?_⟩
    · simp [queueLinks, setProc]
    · simp [setProc]
    · intro q hq _
      rw [setProc, update_of_ne hq]
  | some i =>
    simp only [enqueue, bind_eq_ok] at h
    obtain ⟨last, hlast, h⟩ := h
    obtain ⟨l0, z, rfl, rfl⟩ := lastInQueue_spec _ i l last hc hp hlast
    cases h
    have hzp : z ≠ p := fun heq => hp (by simp [heq])
    have hz : z ∉ l0 := fun hm => by simpa using List.disjoint_of_nodup_append hc.nodup hm
    refine ⟨?_, ?_, ?_⟩
    · rw [List.append_assoc]
      apply hc.relink
      · intro x hx
        have hxp : x ≠ p := fun heq => hp (by simp [← heq, hx])
        have hxz : x ≠ z := fun heq => hz (heq ▸ hx)
        simp [queueLinks, setProc, update_of_ne hxp, update_of_ne hxz]
      · simp [queueLinks, setProc, update_of_ne hzp]
    · simp [setProc, update_of_ne hzp.symm]
    · intro q hq hql
      have hqz : q ≠ z := fun heq => hql (by simp [heq])
      simp [setProc, update_of_ne hq, update_of_ne hqz]

theorem lastInQueue_ok : ∀ (fuel h : Nat) (l : List Nat), Chain (queueLinks a) (some h) l →
    l.length ≤ fuel → ∃ r, lastInQueue a p fuel h = .ok r := by
  intro fuel
  induction fuel with
  | zero =>
    intro h l hc hl
    obtain rfl : l = [] := List.length_eq_zero_iff.mp (by omega)
    cases hc
  | succ fuel ih =>
    intro h l hc hl
    rw [lastInQueue]
    split
    · exact ⟨none, rfl⟩
    · split
      · exact ⟨some h, rfl⟩
      · rename_i q hn
        cases l with
        | nil => cases hc
        | cons x l =>
          obtain ⟨hx, hc⟩ := hc
          cases hx
          rw [queueLinks, hn] at hc
          exact ih q l hc (by simpa using hl)

theorem enqueue_ok (p : Nat) (st : Status)
    (hc : Chain (queueLinks a) head l) (hl : l.length ≤ NPROC) :
    ∃ b head', enqueue a head p st = .ok (b, head') := by
  cases head with
  | none => exact ⟨_, _, rfl⟩
  | some i =>
    obtain ⟨r, hr⟩ := lastInQueue_ok (NPROC + 1) i l hc (by omega)
    rw [enqueue, hr, ok_bind]
    cases r with
    | none => exact ⟨_, _, rfl⟩
    | some z => exact ⟨_, _, rfl⟩

theorem lastInQueue_congr (h : ∀ q, q ≠ p → b q = a q) :
    ∀ fuel x, lastInQueue b p fuel x = lastInQueue a p fuel x := by
  intro fuel
  induction fuel with
  | zero => exact fun _ => rfl
  | succ fuel ih =>
    intro x
    rw [lastInQueue, lastInQueue]
    by_cases hx : x = p
    · rw [if_pos hx, if_pos hx]
    · rw [if_neg hx, if_neg hx, h x hx]
      split
      · rfl
      · exact ih _

theorem lastInQueue_linked : ∀ (fuel x : Nat) (r : Option Nat), lastInQueue a p fuel x = .ok r →
    (Linked (queueLinks a) (some x) p ∧ r = none) ∨
      (¬ Linked (queueLinks a) (some x) p ∧ ∃ z, z ≠ p ∧ r = some z) := by
  intro fuel
  induction fuel with
  | zero =>
    intro x r h
    cases h
  | succ fuel ih =>
    intro x r h
    rw [lastInQueue] at h
    split at h
    · rename_i hx
      cases h
      exact .inl ⟨hx ▸ .here, rfl⟩
    · rename_i hx
      have hnext : Linked (queueLinks a) (some x) p ↔ Linked (queueLinks a) (a x).queueNext p := by
        constructor
        · intro hl
          cases hl with
          | here => exact absurd rfl hx
          | further hl => exact hl
        · exact .further
      rw [hnext]
      split at h
      · rename_i hnone
        cases h
        rw [hnone]
        exact .inr ⟨not_linked_none _ _, x, hx, rfl⟩
      · rename_i q hq
        rw [hq]
        exact ih q r h

theorem enqueue_self {st : Status} (h : enqueue a head p st = .ok (b, head')) :
    (Linked (queueLinks a) head p ∧ b p = a p) ∨
      (¬ Linked (queueLinks a) head p ∧ b p = { a p with status := st, queueNext := none }) := by
  cases head with
  | none =>
    cases h
    exact .inr ⟨not_linked_none _ _, by simp [setProc]⟩
  | some x =>
    simp only [enqueue, bind_eq_ok] at h
    obtain ⟨r, hr, h⟩ := h
    rcases lastInQueue_linked _ x r hr with ⟨hl, rfl⟩ | ⟨hl, z, hz, rfl⟩
    · cases h
      exact .inl ⟨hl, rfl⟩
    · cases h
      exact .inr ⟨hl, by simp [setProc, update_of_ne hz.symm]⟩

theorem enqueue_congr {a' : Nat → Proc} {st : Status}
    (ha : ∀ q, q ≠ p → a' q = a q) (h : enqueue a head p st = .ok (b, head')) :
    ∃ b', enqueue a' head p st = .ok (b', head') := by
  cases head with
  | none =>
    cases h
    exact ⟨_, rfl⟩
  | some x =>
    simp only [enqueue, bind_eq_ok] at h
    obtain ⟨r, hr, h⟩ := h
    rw [enqueue, lastInQueue_congr ha, hr, ok_bind]
    cases r with
    | none =>
      cases h
      exact ⟨_, rfl⟩
    | some z =>
      cases h
      exact ⟨_, rfl⟩

end

section

variable {s s' : Sched} {lists : QueueId → List Nat} {p sem : Nat}

def Unqueued (lists : QueueId → List Nat) (p : Nat) : Prop := ∀ q, p ∉ lists q

theorem Sched.Queued.unqueued (h : s.Queued lists) (hr : (s.procs p).status ≠ .ready)
    (hb : (s.procs p).status ≠ .blocked) : Unqueued lists p := by
  intro q hp
  have hst := h.status q p hp
  cases q with
  | ready => exact hr hst
  | waiting sem => exact hb hst

theorem Sched.Queued.setProc (h : s.Queued lists) (hp : Unqueued lists p) (x : Proc) :
    Sched.Queued { s with procs := setProc s.procs p x } lists := by
  have hkeep : ∀ q, ∀ z ∈ lists q, CabbagePKE.setProc s.procs p x z = s.procs z := by
    intro q z hz
    have hne : z ≠ p := fun heq => hp q (heq ▸ hz)
    rw [CabbagePKE.setProc, update_of_ne hne]
  refine ⟨?_, ?_, h.apart⟩
  · intro q
    refine (h.chain q).congr ?_
    intro z hz
    show (CabbagePKE.setProc s.procs p x z).queueNext = _
    rw [hkeep q z hz]
    rfl
  · intro q z hz
    dsimp only
    rw [hkeep q z hz]
    exact h.status q z hz

theorem Sched.Queued.push {q : QueueId} {b : Nat → Proc} {head' : Option Nat}
    (h : s.Queued lists) (hp : Unqueued lists p)
    (he : enqueue s.procs (s.head q) p q.status = .ok (b, head')) (hprocs : s'.procs = b)
    (hhead : ∀ q', s'.head q' = if q' = q then head' else s.head q') :
    s'.Queued (update lists q (lists q ++ [p])) := by
  obtain ⟨hc, hbp, hother⟩ := enqueue_spec (h.chain q) (hp q) he
  subst hprocs
  refine ⟨?_, ?_, ?_⟩
  · intro q'
    rw [hhead]
    by_cases hq : q' = q
    · subst hq
      rwa [if_pos rfl, update_self]
    · rw [if_neg hq, update_of_ne hq]
      refine (h.chain q').congr ?_
      intro z hz
      have hzp : z ≠ p := fun heq => hp q' (heq ▸ hz)
      have hzl : z ∉ lists q := fun hm => hq (h.apart q' q z hz hm)
      rw [queueLinks, queueLinks, hother z hzp hzl]
  · intro q' z hz
    by_cases hzp : z = p
    · subst hzp
      by_cases hq : q' = q
      · rw [hq, hbp]
      · rw [update_of_ne hq] at hz
        exact absurd hz (hp q')
    · obtain ⟨n, hn⟩ := enqueue_other he hzp
      rw [hn]
      by_cases hq : q' = q
      · subst hq
        exact h.status q' z (by simpa [hzp] using hz)
      · rw [update_of_ne hq] at hz
        exact h.status q' z hz
  · intro q1 q2 z h1 h2
    have hmem : ∀ q', z ∈ update lists q (lists q ++ [p]) q' → (z = p ∧ q' = q) ∨ z ∈ lists q' := by
      intro q' hz
      by_cases hq : q' = q
      · subst hq
        rw [update_self] at hz
        rcases List.mem_append.mp hz with hz | hz
        · exact .inr hz
        · exact .inl ⟨by simpa using hz, rfl⟩
      · rw [update_of_ne hq] at hz
        exact .inr hz
    rcases hmem q1 h1 with ⟨hz, hq1⟩ | hz1
    · rcases hmem q2 h2 with ⟨-, hq2⟩ | hz2
      · rw [hq1, hq2]
      · exact absurd (hz ▸ hz2) (hp q2)
    · rcases hmem q2 h2 with ⟨hz, -⟩ | hz2
      · exact absurd (hz ▸ hz1) (hp q1)
      · exact h.apart q1 q2 z hz1 hz2

theorem Sched.Queued.cons_of_head {q : QueueId} (h : s.Queued lists)
    (hp : s.head q = some p) : ∃ rest, lists q = p :: rest := by
  have hc := h.chain q
  rw [hp] at hc
  cases hl : lists q with
  | nil => simp [hl] at hc
  | cons x rest =>
    rw [hl] at hc
    obtain ⟨hx, -⟩ := hc
    cases hx
    exact ⟨rest, rfl⟩

theorem Sched.Queued.pop (s' : Sched) {q : QueueId} {rest : List Nat} (h : s.Queued lists)
    (hl : lists q = p :: rest) (hprocs : s'.procs = s.procs)
    (hhead : ∀ q', s'.head q' = if q' = q then (s.procs p).queueNext else s.head q') :
    s'.Queued (update lists q rest) ∧ Unqueued (update lists q rest) p := by
  have hc := h.chain q
  rw [hl] at hc
  have hsub : ∀ q' z, z ∈ update lists q rest q' → z ∈ lists q' := by
    intro q' z hz
    by_cases hq : q' = q
    · subst hq
      rw [update_self] at hz
      simp [hl, hz]
    · rwa [update_of_ne hq] at hz
  refine ⟨⟨?_, ?_, ?_⟩, ?_⟩
  · intro q'
    rw [hhead, hprocs]
    by_cases hq : q' = q
    · subst hq
      rw [if_pos rfl, update_self]
      exact hc.2
    · rw [if_neg hq, update_of_ne hq]
      exact h.chain q'
  · intro q' z hz
    rw [hprocs]
    exact h.status q' z (hsub q' z hz)
  · intro q1 q2 z h1 h2
    exact h.apart q1 q2 z (hsub q1 z h1) (hsub q2 z h2)
  · intro q' hz
    obtain rfl : q' = q := h.apart q' q p (hsub q' p hz) (by simp [hl])
    rw [update_self] at hz
    exact (List.nodup_cons.mp hc.nodup).1 hz

theorem waitingQueuePop_queued (h : s.Queued lists) (hp : waitingQueuePop s sem = .ok (p, s')) :
    ∃ rest, lists (.waiting sem) = p :: rest ∧ s'.Queued (update lists (.waiting sem) rest) ∧
      Unqueued (update lists (.waiting sem) rest) p := by
  unfold waitingQueuePop at hp
  split at hp
  · cases hp
  · rename_i hhead
    cases hp
    obtain ⟨rest, hl⟩ := h.cons_of_head (q := .waiting sem) hhead
    refine ⟨rest, hl, h.pop _ hl rfl ?_⟩
    intro q
    cases q with
    | ready => simp [Sched.head]
    | waiting k =>
      by_cases hk : k = sem
      · simp [Sched.head, hk]
      · simp [Sched.head, hk]

end

end CabbagePKE
