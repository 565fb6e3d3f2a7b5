/-
  Shutdown: what `~Scheduler` leaves behind.

  The destructor stops and joins the workers one after the other, and a worker drains its queue
  before it returns. Along every run each worker handles what was posted to it once and in the
  order of the posts, and its counters say what it does. When the destructor is through, nothing
  is left in the queues exactly when no post came to a worker that had returned: a coroutine on a
  later worker can still make such a post (`posted_after_join_lost`).
-/
import NeuroVerse.Sched.Scheduler
import Mathlib.Algebra.BigOperators.Group.Finset.Basic

namespace NeuroVerse.Sched

open Lib

variable {η : Type*}

/-! ## Counters -/

namespace Phase

def idle : Phase η → Int
  | .waiting => 1
  | _ => 0

def busy : Phase η → Int
  | .popped _ | .doomed _ _ | .running _ => 1
  | _ => 0

/-- Resumed coroutines that have not come back. -/
def resumed : Phase η → Nat
  | .running _ => 1
  | _ => 0

theorem idle_nonneg (p : Phase η) : 0 ≤ p.idle := by cases p <;> simp [idle]

theorem busy_nonneg (p : Phase η) : 0 ≤ p.busy := by cases p <;> simp [busy]

end Phase

/-- The counters of a worker say where it stands. -/
structure Worker.Counted (x : Worker η) : Prop where
  idle : x.idle = x.phase.idle
  busy : x.busy = x.phase.busy
  completed : x.completed + x.phase.resumed = x.handled.length

/-- A move that changes the counters as it changes the phase. -/
theorem Worker.Counted.moved {x y : Worker η} {p : Phase η} (h : x.Counted) (hp : x.phase = p)
    (hidle : y.idle = x.idle + (y.phase.idle - p.idle))
    (hbusy : y.busy = x.busy + (y.phase.busy - p.busy))
    (hcompleted : y.completed + y.phase.resumed + x.handled.length =
      x.completed + p.resumed + y.handled.length) : y.Counted := by
  obtain ⟨h1, h2, h3⟩ := h
  rw [hp] at h1 h2 h3
  exact ⟨by omega, by omega, by omega⟩

namespace Scheduler

/-- What holds of the workers at any time, also with the destructor under way. -/
structure Orderly (s : Scheduler η) : Prop where
  /-- The entries of a queue are handled in the order of their posts, -/
  order : ∀ w, (s.worker w).posted = (s.worker w).handled.map Record.entry ++ s.waiting w
  /-- each of them once. -/
  once : ∀ w, ((s.worker w).handled.map Record.entry).Nodup
  idle_nonneg : ∀ w, 0 ≤ (s.worker w).idle
  busy_nonneg : ∀ w, 0 ≤ (s.worker w).busy
  /-- All entries handled are counted, but for the coroutines that run. -/
  completed : ∑ w ∈ Finset.range s.count, (s.worker w).completed +
      ∑ w ∈ Finset.range s.count, (s.worker w).phase.resumed =
    ∑ w ∈ Finset.range s.count, (s.worker w).handled.length

theorem Accounts.orderly {s : Scheduler η} (h : Accounts s)
    (hc : ∀ w, (s.worker w).Counted) : Orderly s where
  order w := by rw [h.order w, List.append_assoc, waiting]
  once := h.once
  idle_nonneg w := (hc w).idle ▸ Phase.idle_nonneg _
  busy_nonneg w := (hc w).busy ▸ Phase.busy_nonneg _
  completed := by
    rw [← Finset.sum_add_distrib]
    exact Finset.sum_congr rfl fun w _ => (hc w).completed

/-- The worker the action queues an entry at. -/
def enters (s : Scheduler η) : Action η → Option Nat
  | .push k => s.tickets[k]?.map Ticket.target
  | _ => none

/-- No entry is queued at a worker that has returned. -/
def Timely (s : Scheduler η) (a : Action η) : Prop :=
  ∀ w ∈ s.enters a, (s.worker w).isReturned = false

instance (s : Scheduler η) (a : Action η) : Decidable (s.Timely a) :=
  inferInstanceAs (Decidable (∀ w ∈ s.enters a, _))

/-- The workers joined so far have returned. -/
def Joined (s : Scheduler η) : Prop :=
  match s.shutdown with
  | .alive => True
  | .stopping i | .joining i => ∀ w < i, (s.worker w).isReturned = true
  | .finished => ∀ w < s.count, (s.worker w).isReturned = true

theorem Joined.mono {s s' : Scheduler η} (h : Joined s) (hs : s'.shutdown = s.shutdown)
    (hc : s'.count = s.count)
    (hret : ∀ w, (s.worker w).isReturned = true → (s'.worker w).isReturned = true) :
    Joined s' := by
  unfold Joined at h ⊢
  rw [hs, hc]
  cases hsh : s.shutdown with
  | alive => trivial
  | _ =>
    simp only [hsh] at h
    exact fun w hw => hret w (h w hw)

theorem isReturned_iff (x : Worker η) : x.isReturned = true ↔ x.phase = .returned := by
  cases hp : x.phase <;> simp [Worker.isReturned, hp]

variable [DecidableEq η]

theorem Worked.counted {s : Scheduler η} {w : Nat} {a : Action η} {x : Worker η}
    {cancelled : Finset η} (h : (s.worker w).Counted) (hx : Worked s w a x cancelled) :
    x.Counted := by
  cases hx with
  | entered hp => exact h.moved hp rfl (by simp [Phase.busy]) rfl
  | woke e queue hp hq => exact h.moved hp rfl rfl rfl
  | left hp hq hd => exact h.moved hp rfl (by simp [Phase.busy]) rfl
  | doomed e hp hc => exact h.moved hp (by simp [Phase.idle]) (by simp [Phase.busy]) rfl
  | resumed e hp hc =>
    refine h.moved hp (by simp [Phase.idle]) (by simp [Phase.busy]) ?_
    simp only [Phase.resumed, List.length_append, List.length_singleton]
    omega
  | dropped e called hp =>
    refine h.moved hp (by simp [Phase.idle]) rfl ?_
    simp only [Phase.resumed, List.length_append, List.length_singleton]
    omega
  | finished e hp hs => exact h.moved hp (by simp [Phase.idle]) rfl rfl

theorem after_count (threads : Nat) (ops : List (Action η)) :
    (after threads ops).count = (new threads : Scheduler η).count := by
  refine run_invariant (I := fun s : Scheduler η => s.count = (new threads : Scheduler η).count) rfl
    (fun s a h => ?_) ops
  have hs := step_stepped s a
  generalize s.step a = s' at hs
  cases hs with
  | _ => exact h

theorem after_counted (threads : Nat) (ops : List (Action η)) (w : Nat) :
    ((after threads ops).worker w).Counted := by
  refine run_invariant (I := fun s : Scheduler η => ∀ w, (s.worker w).Counted)
    (fun _ => ⟨rfl, rfl, rfl⟩) (fun s a h => ?_) ops w
  exact forall_worker_step (P := fun _ y => y.Counted) h
    (fun _ t _ _ => ⟨(h t.target).idle, (h t.target).busy, (h t.target).completed⟩)
    (fun w _ _ _ hx => hx.counted (h w)) fun i => ⟨(h i).idle, (h i).busy, (h i).completed⟩

/-! ## Workers that have returned -/

/-- A worker that has returned makes no move. -/
theorem Worked.not_returned {s : Scheduler η} {w : Nat} {a : Action η} {x : Worker η}
    {cancelled : Finset η} (h : Worked s w a x cancelled) : (s.worker w).isReturned = false := by
  cases h with
  | entered hp | woke _ _ hp | left hp | doomed _ hp | resumed _ hp | dropped _ _ hp
  | finished _ hp => simp [Worker.isReturned, hp]

theorem returned_step (s : Scheduler η) (a : Action η) {w : Nat}
    (h : (s.worker w).isReturned = true) : ((s.step a).worker w).isReturned = true := by
  refine forall_worker_step (s := s) (a := a)
    (P := fun w y => (s.worker w).isReturned = true → y.isReturned = true) (fun _ h => h)
    (fun _ _ _ _ h => h) (fun w x _ _ hx h => ?_) (fun _ h => h) w h
  exact absurd h (Bool.eq_false_iff.mp hx.not_returned)

/-- What is queued at a worker that has returned stays there. -/
def Stuck (s : Scheduler η) (w : Nat) : Prop :=
  (s.worker w).isReturned = true ∧ (s.worker w).queue ≠ []

theorem stuck_step {w : Nat} (s : Scheduler η) (a : Action η) (h : Stuck s w) :
    Stuck (s.step a) w := by
  refine forall_worker_step (s := s) (a := a)
    (P := fun w y => Stuck s w → y.isReturned = true ∧ y.queue ≠ []) (fun _ h => h)
    (fun _ _ _ _ h => ⟨h.1, List.append_ne_nil_of_right_ne_nil _ (List.cons_ne_nil _ _)⟩)
    (fun w x _ _ hx h => ?_) (fun _ h => h) w h
  exact absurd h.1 (Bool.eq_false_iff.mp hx.not_returned)

theorem late_push {s : Scheduler η} {a : Action η} {w : Nat} (hs : Accounts s)
    (hw : w ∈ s.enters a) (hr : (s.worker w).isReturned = true) :
    w < s.count ∧ Stuck (s.step a) w := by
  cases a with
  | push k =>
    obtain ⟨t, ht, rfl⟩ := Option.map_eq_some_iff.mp hw
    refine ⟨hs.target_lt t (List.mem_of_getElem? ht), ?_⟩
    simp only [step, ht, Stuck, setWorker_self]
    exact ⟨hr, List.append_ne_nil_of_right_ne_nil _ (List.cons_ne_nil _ _)⟩
  | _ => cases hw

/-- A worker returns with an empty queue, which a timely post leaves empty. -/
theorem empty_step {s : Scheduler η} {a : Action η} (ht : s.Timely a)
    (h : ∀ w, (s.worker w).isReturned = true → (s.worker w).queue = []) (w : Nat) :
    ((s.step a).worker w).isReturned = true → ((s.step a).worker w).queue = [] := by
  refine forall_worker_step (P := fun _ y => y.isReturned = true → y.queue = []) h
    (fun k t ha htk hr => ?_) (fun w x _ _ hx hr => ?_) h w
  · subst ha
    have hfalse := ht t.target (by simp [enters, htk])
    exact absurd hr (Bool.eq_false_iff.mp hfalse)
  · cases hx with
    | left hp hq hd => exact hq
    | _ => cases hr

theorem joined_step (s : Scheduler η) (a : Action η) (h : Joined s) : Joined (s.step a) := by
  have hret : ∀ w, (s.worker w).isReturned = true → ((s.step a).worker w).isReturned = true :=
    fun _ => returned_step s a
  have hs := step_stepped s a
  generalize s.step a = s' at hs hret
  cases hs with
  | destroying ha ht => exact fun w hw => absurd hw (Nat.not_lt_zero w)
  | stopped i hi =>
    simp only [Joined, hi] at h
    exact fun w hw => hret w (h w hw)
  | joined i hi hr =>
    simp only [Joined, hi] at h
    have hall : ∀ w < i + 1, (s.worker w).isReturned = true := by
      intro w hw
      rcases Nat.lt_succ_iff_lt_or_eq.mp hw with hw | rfl
      · exact h w hw
      · exact hr
    by_cases hlt : i + 1 < s.count
    · simpa only [Joined, if_pos hlt] using hall
    · simp only [Joined, if_neg hlt]
      exact fun w hw => hall w (by omega)
  | worked w a x cancelled hw hx => exact h.mono rfl rfl hret
  | pushed k t ht => exact h.mono rfl rfl hret
  | _ => exact h

/-- At the end of the destructor every worker has returned. -/
theorem finished_returned {threads : Nat} {ops : List (Action η)}
    (hf : (after threads ops).shutdown = .finished) {w : Nat}
    (hw : w < (after threads ops).count) : ((after threads ops).worker w).phase = .returned := by
  have h : Joined (after threads ops) := run_invariant trivial joined_step ops
  simp only [Joined, hf] at h
  exact (isReturned_iff _).mp (h w hw)

/-- The workers have nothing left to handle just when nothing was queued at one that had
    returned. -/
theorem queues_empty_iff {threads : Nat} {ops : List (Action η)}
    (hf : (after threads ops).shutdown = .finished) :
    StepsMeet step Timely (new threads) ops ↔
      ∀ w < (after threads ops).count, ((after threads ops).worker w).queue = [] := by
  constructor
  · intro h w hw
    have hinv := run_invariant_of_meet
      (I := fun s : Scheduler η => ∀ w, (s.worker w).isReturned = true → (s.worker w).queue = [])
      (fun _ _ => rfl) (fun s a h ht => empty_step ht h) h
    exact hinv w ((isReturned_iff _).mpr (finished_returned hf hw))
  · intro h pre a hp w hw
    refine Bool.eq_false_iff.mpr fun hr => ?_
    obtain ⟨hlt, hstuck⟩ := late_push (after_accounts threads pre) hw hr
    obtain ⟨rest, rfl⟩ := hp
    have hend : Stuck (after threads (pre ++ [a] ++ rest)) w := by
      rw [after, run_append, run_snoc]
      exact run_invariant (I := fun s => Stuck s w) hstuck stuck_step rest
    rw [after_count] at hlt
    exact hend.2 (h w (after_count threads (pre ++ [a] ++ rest) ▸ hlt))

/-- Along every run the workers handle what was posted to them once, in the order of the posts,
    and their counters are right. When `~Scheduler` is through, all entries handled are counted
    as completed, and they are all that was posted exactly when no post came to a worker that
    had returned. -/
theorem shutdown_loses_nothing_iff (threads : Nat) (ops : List (Action η)) :
    (∀ pre, pre <+: ops → Orderly (after threads pre)) ∧
    ((after threads ops).shutdown = .finished →
      ∑ w ∈ Finset.range (after threads ops).count, ((after threads ops).worker w).completed =
        ∑ w ∈ Finset.range (after threads ops).count,
          ((after threads ops).worker w).handled.length ∧
      (StepsMeet step Timely (new threads) ops ↔
        ∀ w < (after threads ops).count, ((after threads ops).worker w).handled.map Record.entry =
          ((after threads ops).worker w).posted)) := by
  refine ⟨fun pre _ => (after_accounts threads pre).orderly (after_counted threads pre),
    fun hf => ⟨?_, ?_⟩⟩
  · refine Finset.sum_congr rfl fun w hw => ?_
    have hcount := (after_counted threads ops w).completed
    rw [finished_returned hf (Finset.mem_range.mp hw)] at hcount
    exact hcount
  · rw [queues_empty_iff hf]
    refine forall₂_congr fun w hw => ?_
    have horder := (after_accounts threads ops).order w
    have hhand : ((after threads ops).worker w).hand = [] := by
      rw [Worker.hand, finished_returned hf hw]
    rw [horder, hhand, List.append_nil]
    exact List.self_eq_append_right.symm

/-- A coroutine on the second worker posts to the first one, which is still to drain its queue. -/
example : StepsMeet step Timely (new 2)
    [.take none (10 : Nat), .push 0, .take none 11, .push 0, .enter 1, .wake 1, .check 1,
      .destroy, .stop, .take (some 1) 12, .push 0, .finish 1] := by
  decide

/-- The first worker is joined when the coroutine on the second posts to it. -/
theorem posted_after_join_lost :
    ¬ ∀ (threads : Nat) (ops : List (Action Nat)), (after threads ops).shutdown = .finished →
      ∀ w < (after threads ops).count, ((after threads ops).worker w).handled.map Record.entry =
        ((after threads ops).worker w).posted := by
  intro h
  have hlost := h 2 [.take none 10, .push 0, .take none 11, .push 0, .enter 1, .wake 1, .check 1,
    .enter 0, .wake 0, .check 0, .finish 0, .destroy, .stop, .enter 0, .wake 0, .join,
    .take (some 1) 12, .push 0, .finish 1, .stop, .enter 1, .wake 1, .join] (by decide) 0
    (by decide)
  exact absurd hlost (by decide)

end Scheduler

end NeuroVerse.Sched
