/-
  The coroutine scheduler and its workers, as threads that interleave.

  One action is one critical section, or one call, of `Worker::run`, `Scheduler::post`,
  `Scheduler::cancel` or `~Scheduler`. A post is two: the round-robin counter gives it a worker,
  and then it enters that worker's queue. Handles are opaque values that may be posted any
  number of times, also while an earlier entry of the same value runs. An action that is not
  enabled leaves the state as it is.

  `Stepped` says once what an action can do; every invariant of the scheduler is derived from
  it. The bookkeeping here, that what was posted to a worker is what it handled, what it holds
  and what it has queued, in that order, holds along every run (`after_accounts`).
-/
import NeuroVerse.Lib.Run
import Mathlib.Data.Finset.Insert
import Mathlib.Data.Finset.Erase
import Mathlib.Logic.Function.Basic

namespace NeuroVerse.Sched

open Lib

/-- A queued handle, and the moment of the post that queued it. -/
structure Entry (η : Type*) where
  time : Nat
  handle : η
deriving DecidableEq

inductive Fate where
  | resumed
  | destroyed
deriving DecidableEq

/-- What became of an entry, and whether its handle was cancelled between its post and its
    check. -/
structure Record (η : Type*) where
  entry : Entry η
  fate : Fate
  called : Bool
deriving DecidableEq

/-- Where a worker stands in `run`. -/
inductive Phase (η : Type*) where
  /-- At the head of the loop. -/
  | top
  /-- Counted idle, before the wait or in it. -/
  | waiting
  /-- An entry is popped, and not yet checked for cancellation. -/
  | popped (e : Entry η)
  /-- The check found the entry cancelled, when `called` was the truth about it. -/
  | doomed (e : Entry η) (called : Bool)
  /-- The entry's handle has been resumed. -/
  | running (e : Entry η)
  | returned

/-- A worker, with all that was ever posted to it and all it ever handled, in order. -/
structure Worker (η : Type*) where
  queue : List (Entry η) := []
  done : Bool := false
  idle : Int := 0
  busy : Int := 0
  completed : Nat := 0
  phase : Phase η := .top
  posted : List (Entry η) := []
  handled : List (Record η) := []

/-- How far `~Scheduler` is: it stops the workers one by one, and joins each before the next. -/
inductive Shutdown where
  | alive
  | stopping (i : Nat)
  | joining (i : Nat)
  | finished
deriving DecidableEq

/-- A post under way, by an outside thread or by the coroutine that a worker runs. -/
structure Ticket (η : Type*) where
  poster : Option Nat
  target : Nat
  handle : η

/-- The scheduler, a clock of the posts and cancels made, and the cancels with their times. -/
structure Scheduler (η : Type*) where
  count : Nat
  count_pos : 0 < count
  worker : Nat → Worker η := fun _ => {}
  next : BitVec 64 := 0
  cancelled : Finset η := ∅
  shutdown : Shutdown := .alive
  tickets : List (Ticket η) := []
  clock : Nat := 0
  cancels : List (η × Nat) := []

inductive Action (η : Type*) where
  /-- `next_++ % workers_.size()`. -/
  | take (poster : Option Nat) (h : η)
  /-- `Worker::post` of the `k`-th post under way. -/
  | push (k : Nat)
  | cancel (h : η)
  | enter (w : Nat)
  | wake (w : Nat)
  | check (w : Nat)
  | drop (w : Nat)
  | finish (w : Nat)
  | destroy
  | stop
  | join

namespace Worker

variable {η : Type*}

def push (x : Worker η) (e : Entry η) : Worker η :=
  { x with queue := x.queue ++ [e], posted := x.posted ++ [e] }

/-- The first critical section of the loop. -/
def enter (x : Worker η) : Option (Worker η) :=
  match x.phase with
  | .top => some { x with phase := .waiting, idle := x.idle + 1 }
  | _ => none

/-- The second critical section, once the wait is over. -/
def wake (x : Worker η) : Option (Worker η) :=
  match x.phase, x.queue with
  | .waiting, e :: queue =>
    some { x with
      phase := .popped e, queue := queue, idle := x.idle - 1, busy := x.busy + 1 }
  | .waiting, [] =>
    if x.done then some { x with phase := .returned, idle := x.idle - 1 } else none
  | _, _ => none

/-- The cancellation check, and the call of `resume` when it fails. -/
def check [DecidableEq η] (cancelled : Finset η) (called : Entry η → Bool) (x : Worker η) :
    Option (Worker η) :=
  match x.phase with
  | .popped e =>
    if e.handle ∈ cancelled then some { x with phase := .doomed e (called e) }
    else some { x with
      phase := .running e, handled := x.handled ++ [⟨e, .resumed, called e⟩] }
  | _ => none

/-- `clear_cancel` and `destroy` of a cancelled entry: the handle to clear, and the worker. -/
def drop (x : Worker η) : Option (η × Worker η) :=
  match x.phase with
  | .doomed e called =>
    some (e.handle, { x with
      phase := .top, busy := x.busy - 1, completed := x.completed + 1
      handled := x.handled ++ [⟨e, .destroyed, called⟩] })
  | _ => none

/-- The return of `resume`, and `clear_cancel`: the handle to clear, and the worker. -/
def finish (x : Worker η) : Option (η × Worker η) :=
  match x.phase with
  | .running e =>
    some (e.handle, { x with phase := .top, busy := x.busy - 1, completed := x.completed + 1 })
  | _ => none

def isRunning (x : Worker η) : Bool :=
  match x.phase with
  | .running _ => true
  | _ => false

def isReturned (x : Worker η) : Bool :=
  match x.phase with
  | .returned => true
  | _ => false

/-- The entry popped and neither resumed nor destroyed yet. -/
def hand (x : Worker η) : List (Entry η) :=
  match x.phase with
  | .popped e => [e]
  | .doomed e _ => [e]
  | _ => []

/-- The entries whose check is still to come. -/
def unchecked (x : Worker η) : List (Entry η) :=
  match x.phase with
  | .popped e => e :: x.queue
  | _ => x.queue

end Worker

namespace Scheduler

variable {η : Type*}

/-- The constructor: at least one worker. -/
def new (threads : Nat) : Scheduler η :=
  { count := if threads = 0 then 1 else threads
    count_pos := by split <;> omega }

def setWorker (s : Scheduler η) (w : Nat) (x : Worker η) : Scheduler η :=
  { s with worker := Function.update s.worker w x }

theorem setWorker_self (s : Scheduler η) (w : Nat) (x : Worker η) :
    (s.setWorker w x).worker w = x := by
  simp only [setWorker, Function.update_self]

theorem setWorker_ne (s : Scheduler η) {w w' : Nat} (x : Worker η) (h : w' ≠ w) :
    (s.setWorker w x).worker w' = s.worker w' := by
  simp only [setWorker, Function.update_of_ne h]

/-- What holds of one worker after a step held of it before, or is said of the worker set. -/
theorem forall_setWorker {s : Scheduler η} {w : Nat} {x : Worker η} {P : Nat → Worker η → Prop}
    (hx : P w x) (h : ∀ w', P w' (s.worker w')) (w' : Nat) :
    P w' ((s.setWorker w x).worker w') := by
  by_cases hw : w' = w
  · rw [hw, setWorker_self]
    exact hx
  · rw [setWorker_ne s x hw]
    exact h w'

/-- The handle of the entry was cancelled after the entry was posted. -/
def called [DecidableEq η] (s : Scheduler η) (e : Entry η) : Bool :=
  s.cancels.any fun c => decide (c.1 = e.handle ∧ e.time ≤ c.2)

/-- No post by the coroutine on worker `w` is under way. -/
def settled (s : Scheduler η) (w : Nat) : Bool := s.tickets.all fun t => t.poster ≠ some w

/-- Outside threads post before `~Scheduler` begins; a worker's coroutine while it runs. -/
def mayPost (s : Scheduler η) : Option Nat → Bool
  | none => s.shutdown = .alive
  | some w => w < s.count ∧ (s.worker w).isRunning ∧ s.settled w

def work (s : Scheduler η) (w : Nat) (f : Worker η → Option (Worker η)) : Scheduler η :=
  if w < s.count then
    match f (s.worker w) with
    | none => s
    | some x => s.setWorker w x
  else s

/-! ## Bookkeeping -/

/-- Every worker has handled, holds and has queued what was posted to it, in that order, no
    two posts of the scheduler were made at one time, and those under way go to a worker. -/
structure Accounts (s : Scheduler η) : Prop where
  order : ∀ w, (s.worker w).posted =
    (s.worker w).handled.map Record.entry ++ (s.worker w).hand ++ (s.worker w).queue
  time_lt : ∀ w, ∀ e ∈ (s.worker w).posted, e.time < s.clock
  sorted : ∀ w, (s.worker w).posted.Pairwise fun e e' => e.time < e'.time
  apart : ∀ w w', ∀ e ∈ (s.worker w).posted, ∀ e' ∈ (s.worker w').posted,
    e.time = e'.time → w = w'
  target_lt : ∀ t ∈ s.tickets, t.target < s.count

/-- A step that replaces a worker by one with the same posts keeps the bookkeeping. -/
theorem Accounts.setWorker {s : Scheduler η} (h : Accounts s) {w : Nat} {x : Worker η}
    (hposted : x.posted = (s.worker w).posted)
    (horder : x.handled.map Record.entry ++ x.hand ++ x.queue =
      (s.worker w).handled.map Record.entry ++ (s.worker w).hand ++ (s.worker w).queue) :
    Accounts (s.setWorker w x) := by
  have hsame : ∀ w', ((s.setWorker w x).worker w').posted = (s.worker w').posted :=
    forall_setWorker (P := fun w' y => y.posted = (s.worker w').posted) hposted fun _ => rfl
  refine ⟨?_, ?_, ?_, ?_, ?_⟩
  · refine forall_setWorker (P := fun _ y =>
      y.posted = y.handled.map Record.entry ++ y.hand ++ y.queue) ?_ h.order
    rw [hposted, horder]
    exact h.order w
  · intro w' e he
    rw [hsame] at he
    exact h.time_lt w' e he
  · intro w'
    rw [hsame]
    exact h.sorted w'
  · intro w₁ w₂ e he e' he'
    rw [hsame] at he he'
    exact h.apart w₁ w₂ e he e' he'
  · exact h.target_lt

/-- A posted entry is the last of its worker and later than all others. -/
theorem Accounts.push {s : Scheduler η} (h : Accounts s) (w : Nat) (handle : η) :
    Accounts { s.setWorker w ((s.worker w).push ⟨s.clock, handle⟩) with
      clock := s.clock + 1 } := by
  have hposted : ∀ w', ∀ e ∈ ((s.setWorker w ((s.worker w).push ⟨s.clock, handle⟩)).worker
      w').posted, e ∈ (s.worker w').posted ∨ (w' = w ∧ e.time = s.clock) := by
    intro w' e he
    by_cases hw : w' = w
    · rw [hw, setWorker_self] at he
      rcases List.mem_append.mp he with he | he
      · exact Or.inl (hw ▸ he)
      · rw [List.mem_singleton.mp he]
        exact Or.inr ⟨hw, rfl⟩
    · rw [setWorker_ne s _ hw] at he
      exact Or.inl he
  refine ⟨?_, ?_, ?_, ?_, h.target_lt⟩
  · refine forall_setWorker (P := fun _ y =>
      y.posted = y.handled.map Record.entry ++ y.hand ++ y.queue) ?_ h.order
    show (s.worker w).posted ++ [_] =
      (s.worker w).handled.map Record.entry ++ (s.worker w).hand ++ ((s.worker w).queue ++ [_])
    rw [h.order w, List.append_assoc]
  · intro w' e he
    rcases hposted w' e he with hold | ⟨-, htime⟩
    · exact Nat.lt_succ_of_lt (h.time_lt w' e hold)
    · rw [htime]
      exact Nat.lt_succ_self s.clock
  · refine forall_setWorker (P := fun _ y => y.posted.Pairwise fun e e' => e.time < e'.time) ?_
      h.sorted
    refine List.pairwise_append.mpr ⟨h.sorted w, List.pairwise_singleton _ _, ?_⟩
    intro e he e' he'
    rw [List.mem_singleton.mp he']
    exact h.time_lt w e he
  · intro w₁ w₂ e he e' he' heq
    rcases hposted w₁ e he with hold | ⟨rfl, htime⟩
    · rcases hposted w₂ e' he' with hold' | ⟨-, htime'⟩
      · exact h.apart w₁ w₂ e hold e' hold' heq
      · have hlt := h.time_lt w₁ e hold
        omega
    · rcases hposted w₂ e' he' with hold' | ⟨rfl, -⟩
      · have hlt := h.time_lt w₂ e' hold'
        omega
      · rfl

/-- No entry is handled twice. -/
theorem Accounts.once {s : Scheduler η} (h : Accounts s) (w : Nat) :
    ((s.worker w).handled.map Record.entry).Nodup := by
  have hsorted := h.sorted w
  rw [h.order w, List.append_assoc] at hsorted
  refine (List.pairwise_append.mp hsorted).1.imp fun {a b} hlt heq => ?_
  rw [heq] at hlt
  exact Nat.lt_irrefl _ hlt

theorem new_accounts (threads : Nat) : Accounts (new threads : Scheduler η) where
  order _ := rfl
  time_lt _ _ he := absurd he List.not_mem_nil
  sorted _ := List.Pairwise.nil
  apart _ _ _ he := absurd he List.not_mem_nil
  target_lt _ ht := absurd ht List.not_mem_nil

/-! ## The actions -/

variable [DecidableEq η]

/-- A worker's move that ends with `clear_cancel`. -/
def workClear (s : Scheduler η) (w : Nat) (f : Worker η → Option (η × Worker η)) : Scheduler η :=
  if w < s.count then
    match f (s.worker w) with
    | none => s
    | some (h, x) => { s.setWorker w x with cancelled := s.cancelled.erase h }
  else s

def step (s : Scheduler η) : Action η → Scheduler η
  | .take poster h =>
    if s.mayPost poster then
      { s with
        next := s.next + 1
        tickets := s.tickets ++ [⟨poster, s.next.toNat % s.count, h⟩] }
    else s
  | .push k =>
    match s.tickets[k]? with
    | none => s
    | some t =>
      { s.setWorker t.target ((s.worker t.target).push ⟨s.clock, t.handle⟩) with
        tickets := s.tickets.eraseIdx k
        clock := s.clock + 1 }
  | .cancel h =>
    { s with
      cancelled := insert h s.cancelled
      cancels := (h, s.clock) :: s.cancels
      clock := s.clock + 1 }
  | .enter w => s.work w Worker.enter
  | .wake w => s.work w Worker.wake
  | .check w => s.work w (Worker.check s.cancelled s.called)
  | .drop w => s.workClear w Worker.drop
  | .finish w => if s.settled w then s.workClear w Worker.finish else s
  | .destroy =>
    if s.shutdown = .alive ∧ s.tickets.all fun t => t.poster.isSome then
      { s with shutdown := .stopping 0 }
    else s
  | .stop =>
    match s.shutdown with
    | .stopping i =>
      { s.setWorker i { s.worker i with done := true } with shutdown := .joining i }
    | _ => s
  | .join =>
    match s.shutdown with
    | .joining i =>
      if (s.worker i).isReturned then
        { s with shutdown := if i + 1 < s.count then .stopping (i + 1) else .finished }
      else s
    | _ => s

abbrev after (threads : Nat) (ops : List (Action η)) : Scheduler η :=
  run step (new threads) ops

/-! ## What an action can do -/

/-- What a move of worker `w` can make of it and of the set of cancelled handles. -/
inductive Worked (s : Scheduler η) (w : Nat) : Action η → Worker η → Finset η → Prop
  | entered (hp : (s.worker w).phase = .top) :
    Worked s w (.enter w) { s.worker w with phase := .waiting, idle := (s.worker w).idle + 1 }
      s.cancelled
  | woke (e : Entry η) (queue : List (Entry η)) (hp : (s.worker w).phase = .waiting)
      (hq : (s.worker w).queue = e :: queue) :
    Worked s w (.wake w)
      { s.worker w with
        phase := .popped e, queue := queue
        idle := (s.worker w).idle - 1, busy := (s.worker w).busy + 1 }
      s.cancelled
  | left (hp : (s.worker w).phase = .waiting) (hq : (s.worker w).queue = [])
      (hd : (s.worker w).done = true) :
    Worked s w (.wake w)
      { s.worker w with phase := .returned, idle := (s.worker w).idle - 1 } s.cancelled
  | doomed (e : Entry η) (hp : (s.worker w).phase = .popped e) (hc : e.handle ∈ s.cancelled) :
    Worked s w (.check w) { s.worker w with phase := .doomed e (s.called e) } s.cancelled
  | resumed (e : Entry η) (hp : (s.worker w).phase = .popped e) (hc : e.handle ∉ s.cancelled) :
    Worked s w (.check w)
      { s.worker w with
        phase := .running e
        handled := (s.worker w).handled ++ [⟨e, .resumed, s.called e⟩] }
      s.cancelled
  | dropped (e : Entry η) (called : Bool) (hp : (s.worker w).phase = .doomed e called) :
    Worked s w (.drop w)
      { s.worker w with
        phase := .top, busy := (s.worker w).busy - 1
        completed := (s.worker w).completed + 1
        handled := (s.worker w).handled ++ [⟨e, .destroyed, called⟩] }
      (s.cancelled.erase e.handle)
  | finished (e : Entry η) (hp : (s.worker w).phase = .running e)
      (hs : s.settled w = true) :
    Worked s w (.finish w)
      { s.worker w with
        phase := .top, busy := (s.worker w).busy - 1
        completed := (s.worker w).completed + 1 }
      (s.cancelled.erase e.handle)

/-- What an action can do. -/
inductive Stepped (s : Scheduler η) : Action η → Scheduler η → Prop
  | idle (a : Action η) : Stepped s a s
  | took (poster : Option Nat) (h : η) (hmay : s.mayPost poster = true) :
    Stepped s (.take poster h)
      { s with
        next := s.next + 1
        tickets := s.tickets ++ [⟨poster, s.next.toNat % s.count, h⟩] }
  | pushed (k : Nat) (t : Ticket η) (ht : s.tickets[k]? = some t) :
    Stepped s (.push k)
      { s.setWorker t.target ((s.worker t.target).push ⟨s.clock, t.handle⟩) with
        tickets := s.tickets.eraseIdx k
        clock := s.clock + 1 }
  | cancelled (h : η) :
    Stepped s (.cancel h)
      { s with
        cancelled := insert h s.cancelled
        cancels := (h, s.clock) :: s.cancels
        clock := s.clock + 1 }
  | worked (w : Nat) (a : Action η) (x : Worker η) (cancelled : Finset η) (hw : w < s.count)
      (h : Worked s w a x cancelled) :
    Stepped s a { s.setWorker w x with cancelled := cancelled }
  | destroying (ha : s.shutdown = .alive)
      (ht : s.tickets.all (fun t => t.poster.isSome) = true) :
    Stepped s .destroy { s with shutdown := .stopping 0 }
  | stopped (i : Nat) (hi : s.shutdown = .stopping i) :
    Stepped s .stop { s.setWorker i { s.worker i with done := true } with shutdown := .joining i }
  | joined (i : Nat) (hi : s.shutdown = .joining i) (hr : (s.worker i).isReturned = true) :
    Stepped s .join
      { s with shutdown := if i + 1 < s.count then .stopping (i + 1) else .finished }

theorem work_stepped {s : Scheduler η} {w : Nat} {a : Action η} {f : Worker η → Option (Worker η)}
    (hf : ∀ x, f (s.worker w) = some x → Worked s w a x s.cancelled) :
    Stepped s a (s.work w f) := by
  unfold work
  split
  · next hw =>
    cases hx : f (s.worker w) with
    | none => exact .idle a
    | some x => exact .worked w a x s.cancelled hw (hf x hx)
  · exact .idle a

theorem workClear_stepped {s : Scheduler η} {w : Nat} {a : Action η}
    {f : Worker η → Option (η × Worker η)}
    (hf : ∀ h x, f (s.worker w) = some (h, x) → Worked s w a x (s.cancelled.erase h)) :
    Stepped s a (s.workClear w f) := by
  unfold workClear
  split
  · next hw =>
    cases hx : f (s.worker w) with
    | none => exact .idle a
    | some r => exact .worked w a r.2 _ hw (hf r.1 r.2 hx)
  · exact .idle a

theorem enter_worked {s : Scheduler η} {w : Nat} {x : Worker η}
    (h : (s.worker w).enter = some x) : Worked s w (.enter w) x s.cancelled := by
  unfold Worker.enter at h
  split at h
  · next hp =>
    obtain rfl := Option.some.inj h
    exact .entered hp
  · cases h

theorem wake_worked {s : Scheduler η} {w : Nat} {x : Worker η}
    (h : (s.worker w).wake = some x) : Worked s w (.wake w) x s.cancelled := by
  unfold Worker.wake at h
  split at h
  · next e queue hp hq =>
    obtain rfl := Option.some.inj h
    exact .woke e queue hp hq
  · next hp hq =>
    split at h
    · next hd =>
      obtain rfl := Option.some.inj h
      exact .left hp hq hd
    · cases h
  · cases h

theorem check_worked {s : Scheduler η} {w : Nat} {x : Worker η}
    (h : (s.worker w).check s.cancelled s.called = some x) :
    Worked s w (.check w) x s.cancelled := by
  unfold Worker.check at h
  split at h
  · next e hp =>
    split at h
    · next hc =>
      obtain rfl := Option.some.inj h
      exact .doomed e hp hc
    · next hc =>
      obtain rfl := Option.some.inj h
      exact .resumed e hp hc
  · cases h

theorem drop_worked {s : Scheduler η} {w : Nat} {h : η} {x : Worker η}
    (hd : (s.worker w).drop = some (h, x)) :
    Worked s w (.drop w) x (s.cancelled.erase h) := by
  unfold Worker.drop at hd
  split at hd
  · next e called hp =>
    obtain ⟨rfl, rfl⟩ := Prod.mk.inj (Option.some.inj hd)
    exact .dropped e called hp
  · cases hd

theorem finish_worked {s : Scheduler η} {w : Nat} {h : η} {x : Worker η}
    (hs : s.settled w = true) (hd : (s.worker w).finish = some (h, x)) :
    Worked s w (.finish w) x (s.cancelled.erase h) := by
  unfold Worker.finish at hd
  split at hd
  · next e hp =>
    obtain ⟨rfl, rfl⟩ := Prod.mk.inj (Option.some.inj hd)
    exact .finished e hp hs
  · cases hd

theorem step_stepped (s : Scheduler η) (a : Action η) : Stepped s a (s.step a) := by
  cases a with
  | take poster h =>
    simp only [step]
    split
    · next hmay => exact .took poster h hmay
    · exact .idle _
  | push k =>
    simp only [step]
    cases ht : s.tickets[k]? with
    | none => exact .idle _
    | some t => exact .pushed k t ht
  | cancel h => exact .cancelled h
  | enter w => exact work_stepped fun _ => enter_worked
  | wake w => exact work_stepped fun _ => wake_worked
  | check w => exact work_stepped fun _ => check_worked
  | drop w => exact workClear_stepped fun _ _ => drop_worked
  | finish w =>
    simp only [step]
    split
    · next hs => exact workClear_stepped fun _ _ => finish_worked hs
    · exact .idle _
  | destroy =>
    simp only [step]
    split
    · next h => exact .destroying h.1 h.2
    · exact .idle _
  | stop =>
    simp only [step]
    split
    · next i hi => exact .stopped i hi
    · exact .idle _
  | join =>
    simp only [step]
    split
    · next i hi =>
      split
      · next hr => exact .joined i hi hr
      · exact .idle _
    · exact .idle _

/-- What holds of every worker before a step holds of it after, when a post, a move of the worker
    and a stop keep it. -/
theorem forall_worker_step {s : Scheduler η} {a : Action η} {P : Nat → Worker η → Prop}
    (h : ∀ w, P w (s.worker w))
    (hpush : ∀ k t, a = .push k → s.tickets[k]? = some t →
      P t.target ((s.worker t.target).push ⟨s.clock, t.handle⟩))
    (hmove : ∀ w x cancelled, w < s.count → Worked s w a x cancelled → P w x)
    (hstop : ∀ i, P i { s.worker i with done := true }) (w : Nat) :
    P w ((s.step a).worker w) := by
  have hs := step_stepped s a
  generalize s.step a = s' at hs
  cases hs with
  | pushed k t ht => exact forall_setWorker (hpush k t rfl ht) h w
  | worked w' a x cancelled hw hx => exact forall_setWorker (hmove w' x cancelled hw hx) h w
  | stopped i hi => exact forall_setWorker (hstop i) h w
  | _ => exact h w

/-- No move of a worker changes what was posted to it, or the order in which it goes on. -/
theorem Worked.order {s : Scheduler η} {w : Nat} {a : Action η} {x : Worker η}
    {cancelled : Finset η} (h : Worked s w a x cancelled) :
    x.posted = (s.worker w).posted ∧ x.handled.map Record.entry ++ x.hand ++ x.queue =
      (s.worker w).handled.map Record.entry ++ (s.worker w).hand ++ (s.worker w).queue := by
  cases h with
  | entered hp => exact ⟨rfl, by simp [Worker.hand, hp]⟩
  | woke e queue hp hq => exact ⟨rfl, by simp [Worker.hand, hp, hq]⟩
  | left hp hq hd => exact ⟨rfl, by simp [Worker.hand, hp]⟩
  | doomed e hp hc => exact ⟨rfl, by simp [Worker.hand, hp]⟩
  | resumed e hp hc => exact ⟨rfl, by simp [Worker.hand, hp]⟩
  | dropped e called hp => exact ⟨rfl, by simp [Worker.hand, hp]⟩
  | finished e hp hs => exact ⟨rfl, by simp [Worker.hand, hp]⟩

theorem step_accounts (s : Scheduler η) (a : Action η) (h : Accounts s) :
    Accounts (s.step a) := by
  have hs := step_stepped s a
  generalize s.step a = s' at hs
  cases hs with
  | idle a => exact h
  | took poster handle hmay =>
    refine ⟨h.order, h.time_lt, h.sorted, h.apart, fun t ht => ?_⟩
    rcases List.mem_append.mp ht with ht | ht
    · exact h.target_lt t ht
    · rw [List.mem_singleton.mp ht]
      exact Nat.mod_lt _ s.count_pos
  | pushed k t ht =>
    obtain ⟨h1, h2, h3, h4, h5⟩ := h.push t.target t.handle
    exact ⟨h1, h2, h3, h4, fun t' ht' => h5 t' (List.eraseIdx_subset ht')⟩
  | cancelled handle =>
    exact ⟨h.order, fun w e he => Nat.lt_succ_of_lt (h.time_lt w e he), h.sorted, h.apart,
      h.target_lt⟩
  | worked w a x cancelled hw hx =>
    obtain ⟨h1, h2, h3, h4, h5⟩ := h.setWorker hx.order.1 hx.order.2
    exact ⟨h1, h2, h3, h4, h5⟩
  | destroying ha ht => exact ⟨h.order, h.time_lt, h.sorted, h.apart, h.target_lt⟩
  | stopped i hi =>
    obtain ⟨h1, h2, h3, h4, h5⟩ := h.setWorker (w := i)
      (x := { s.worker i with done := true }) rfl rfl
    exact ⟨h1, h2, h3, h4, h5⟩
  | joined i hi hr => exact ⟨h.order, h.time_lt, h.sorted, h.apart, h.target_lt⟩

theorem after_accounts (threads : Nat) (ops : List (Action η)) : Accounts (after threads ops) :=
  run_invariant (new_accounts threads) step_accounts ops

/-! ## Progress

A worker that has not returned can always work off what is posted to it: its own moves, once the
posts under way are made, lower `effort` until nothing waits.
-/

/-- The entries a worker still has to handle. -/
def waiting (s : Scheduler η) (w : Nat) : List (Entry η) := (s.worker w).hand ++ (s.worker w).queue

def effort (s : Scheduler η) (w : Nat) : Nat :=
  10 * s.tickets.length + 5 * (s.worker w).queue.length +
    match (s.worker w).phase with
    | .waiting | .returned => 0
    | .top => 1
    | .doomed _ _ | .running _ => 2
    | .popped _ => 3

theorem posted_grows (s : Scheduler η) (a : Action η) (w : Nat) :
    (s.worker w).posted <+: ((s.step a).worker w).posted :=
  forall_worker_step (P := fun w y => (s.worker w).posted <+: y.posted)
    (fun _ => List.prefix_refl _) (fun _ _ _ _ => List.prefix_append _ _)
    (fun _ _ _ _ hx => hx.order.1 ▸ List.prefix_refl _) (fun _ => List.prefix_refl _) w

/-- A post under way can be made, which costs its worker one more entry at most. -/
theorem push_helps {s : Scheduler η} {w : Nat} {t : Ticket η} {ts : List (Ticket η)}
    (ht : s.tickets = t :: ts) :
    (s.step (.push 0)).count = s.count ∧
      ((s.step (.push 0)).worker w).phase = (s.worker w).phase ∧
      (s.step (.push 0)).effort w < s.effort w := by
  have hstep : s.step (.push 0) =
      { s.setWorker t.target ((s.worker t.target).push ⟨s.clock, t.handle⟩) with
        tickets := ts, clock := s.clock + 1 } := by
    simp [step, ht]
  rw [hstep]
  refine ⟨rfl, ?_⟩
  have hlen : s.tickets.length = ts.length + 1 := by rw [ht, List.length_cons]
  by_cases hw : w = t.target
  · subst hw
    simp only [effort, setWorker, Function.update_self, Worker.push, List.length_append,
      List.length_singleton, hlen]
    exact ⟨trivial, by omega⟩
  · simp only [effort, setWorker, Function.update_of_ne hw, hlen]
    exact ⟨trivial, by omega⟩

/-- With no post under way, the worker has a move of its own. -/
theorem move_helps {s : Scheduler η} {w : Nat} (hw : w < s.count) (ht : s.tickets = [])
    (hr : (s.worker w).isReturned = false) (hn : s.waiting w ≠ []) :
    ∃ a, (s.step a).count = s.count ∧ ((s.step a).worker w).isReturned = false ∧
      (s.step a).effort w < s.effort w := by
  have hs : s.settled w = true := by simp [settled, ht]
  cases hp : (s.worker w).phase with
  | top =>
    refine ⟨.enter w, ?_⟩
    simp [step, work, hw, Worker.enter, hp, setWorker, Worker.isReturned, effort]
  | waiting =>
    cases hq : (s.worker w).queue with
    | nil => exact absurd (by simp [waiting, Worker.hand, hp, hq]) hn
    | cons e queue =>
      refine ⟨.wake w, ?_⟩
      simp [step, work, hw, Worker.wake, hp, hq, setWorker, Worker.isReturned, effort]
      omega
  | popped e =>
    refine ⟨.check w, ?_⟩
    by_cases hc : e.handle ∈ s.cancelled <;>
      simp [step, work, hw, Worker.check, hp, hc, setWorker, Worker.isReturned, effort]
  | doomed e called =>
    refine ⟨.drop w, ?_⟩
    simp [step, workClear, hw, Worker.drop, hp, setWorker, Worker.isReturned, effort]
  | running e =>
    refine ⟨.finish w, ?_⟩
    simp [step, workClear, hw, hs, Worker.finish, hp, setWorker, Worker.isReturned, effort]
  | returned => simp [Worker.isReturned, hp] at hr

/-- Whatever is posted to a worker that has not returned can still be handled. -/
theorem can_drain {s : Scheduler η} (hs : Accounts s) {w : Nat} (hw : w < s.count)
    (hr : (s.worker w).isReturned = false) :
    ∃ more, ∀ e ∈ (s.worker w).posted,
      e ∈ ((run step s more).worker w).handled.map Record.entry := by
  let I := fun t : Scheduler η => w < t.count ∧ (t.worker w).isReturned = false ∧
    (s.worker w).posted <+: (t.worker w).posted ∧ Accounts t
  have hkeep : ∀ t a, I t → (t.step a).count = t.count →
      ((t.step a).worker w).isReturned = false → I (t.step a) := by
    rintro t a ⟨hw, -, hp, ht⟩ hc hr
    exact ⟨hc ▸ hw, hr, hp.trans (posted_grows t a w), step_accounts t a ht⟩
  have hhelp : ∀ t, I t → ¬ t.waiting w = [] →
      ∃ a, I (t.step a) ∧ (t.step a).effort w < t.effort w := by
    intro t hI hn
    cases htk : t.tickets with
    | nil =>
      obtain ⟨a, hc, hr, hlt⟩ := move_helps hI.1 htk hI.2.1 hn
      exact ⟨a, hkeep t a hI hc hr, hlt⟩
    | cons tk ts =>
      obtain ⟨hc, hp, hlt⟩ := push_helps (w := w) htk
      refine ⟨.push 0, hkeep t _ hI hc ?_, hlt⟩
      rw [Worker.isReturned, hp]
      exact hI.2.1
  obtain ⟨more, ⟨-, -, hposted, hacc⟩, hdone⟩ := run_reaches step I (fun t => t.waiting w = [])
    (fun t => t.effort w) hhelp ⟨hw, hr, List.prefix_refl _, hs⟩
  refine ⟨more, fun e he => ?_⟩
  have hall := hacc.order w
  obtain ⟨hhand, hqueue⟩ := List.append_eq_nil_iff.mp hdone
  rw [hhand, hqueue, List.append_nil, List.append_nil] at hall
  exact hall ▸ hposted.subset he

end Scheduler

end NeuroVerse.Sched
