/-
  The asynchronous endpoint: a queue of messages, and the receivers parked on it.

  A message reaches a receiver by one of three ways: it is popped by a poll, popped by one of the
  two critical sections of `co_await recv()`, or handed to a parked receiver by the send itself.
  One action is one critical section. A send or a close also leaves behind the coroutines it has
  to resume, which run afterwards (`resumes`).

  Sends, deliveries, parkings and resumptions are logged. `Stepped` says what an action can do.
-/
import NeuroVerse.Lib.Run
import Mathlib.Logic.Function.Basic

namespace NeuroVerse.Ipc

open Lib

namespace Endpoint

/-- Where a coroutine stands in its `co_await recv()`. -/
inductive Phase (μ : Type*) where
  /-- The awaiter is made, `await_ready` comes next. -/
  | created
  /-- `await_ready` found nothing. -/
  | suspending
  /-- Suspended. -/
  | parked
  /-- `await_resume` comes next. -/
  | ready
  | returned (m : μ)
deriving DecidableEq

/-- An awaiter, with the number of times it was parked and its coroutine resumed. The coroutine
    goes by the name of the awaiter it waits with. -/
structure RecvAwaiter (ρ μ : Type*) where
  result : Option μ := none
  continuation : Option ρ := none
  phase : Phase μ := .created
  parked : Nat := 0
  resumed : Nat := 0

/-- A message that left the endpoint, for an awaiter or, without one, by a poll. -/
structure Delivery (ρ μ : Type*) where
  receiver : Option ρ
  message : μ

end Endpoint

open Endpoint in
/-- An endpoint and its receivers, with what was sent before the close and what was delivered. -/
structure Endpoint (ρ μ : Type*) where
  queue : List μ := []
  waiters : List ρ := []
  closed : Bool := false
  awaiter : ρ → RecvAwaiter ρ μ := fun _ => {}
  /-- The coroutines that a send or a close has still to resume. -/
  resumes : List ρ := []
  sent : List μ := []
  delivered : List (Delivery ρ μ) := []

namespace Endpoint

inductive Action (ρ μ : Type*) where
  /-- `send_nowait`, by itself or as the `await_resume` of `co_await send(m)`. -/
  | send (m : μ)
  | poll
  | ready (r : ρ)
  | suspend (r : ρ)
  /-- The coroutine that stands at place `k` of those to be resumed runs on. -/
  | resume (k : Nat)
  | finish (r : ρ)
  | close

variable {ρ μ : Type*} [DecidableEq ρ]

/-- The messages delivered to one awaiter. -/
def deliveredTo (log : List (Delivery ρ μ)) (r : ρ) : List μ :=
  (log.filter fun d => d.receiver = some r).map Delivery.message

theorem deliveredTo_snoc_self (log : List (Delivery ρ μ)) (r : ρ) (m : μ) :
    deliveredTo (log ++ [⟨some r, m⟩]) r = deliveredTo log r ++ [m] := by
  simp [deliveredTo]

theorem deliveredTo_snoc_other (log : List (Delivery ρ μ)) {r w : ρ} (m : μ) (h : r ≠ w) :
    deliveredTo (log ++ [⟨some w, m⟩]) r = deliveredTo log r := by
  simp [deliveredTo, h.symm]

theorem deliveredTo_snoc_poll (log : List (Delivery ρ μ)) (r : ρ) (m : μ) :
    deliveredTo (log ++ [⟨none, m⟩]) r = deliveredTo log r := by
  simp [deliveredTo]

def setAwaiter (s : Endpoint ρ μ) (r : ρ) (x : RecvAwaiter ρ μ) : Endpoint ρ μ :=
  { s with awaiter := Function.update s.awaiter r x }

section
variable (s : Endpoint ρ μ) (r : ρ) (x : RecvAwaiter ρ μ)

@[simp] theorem setAwaiter_queue : (s.setAwaiter r x).queue = s.queue := rfl

@[simp] theorem setAwaiter_waiters : (s.setAwaiter r x).waiters = s.waiters := rfl

@[simp] theorem setAwaiter_closed : (s.setAwaiter r x).closed = s.closed := rfl

@[simp] theorem setAwaiter_resumes : (s.setAwaiter r x).resumes = s.resumes := rfl

@[simp] theorem setAwaiter_delivered : (s.setAwaiter r x).delivered = s.delivered := rfl

end

/-- The front of the queue, for the receiver. -/
def pop (s : Endpoint ρ μ) (receiver : Option ρ) : Option (μ × Endpoint ρ μ) :=
  match s.queue with
  | [] => none
  | m :: queue =>
    some (m, { s with queue := queue, delivered := s.delivered ++ [⟨receiver, m⟩] })

def sendNowait (s : Endpoint ρ μ) (m : μ) : Endpoint ρ μ :=
  match s.waiters with
  | w :: waiters =>
    { s.setAwaiter w { s.awaiter w with result := some m } with
      waiters := waiters
      resumes := s.resumes ++ (s.awaiter w).continuation.toList
      delivered := s.delivered ++ [⟨some w, m⟩] }
  | [] => if s.closed then s else { s with queue := s.queue ++ [m] }

def tryRecv (s : Endpoint ρ μ) : Option μ × Endpoint ρ μ :=
  match s.pop none with
  | none => (none, s)
  | some (m, s) => (some m, s)

def awaitReady (s : Endpoint ρ μ) (r : ρ) : Bool × Endpoint ρ μ :=
  match s.pop (some r) with
  | none => (false, s.setAwaiter r { s.awaiter r with phase := .suspending })
  | some (m, s) =>
    (true, s.setAwaiter r { s.awaiter r with result := some m, phase := .ready })

theorem sendNowait_cons {s : Endpoint ρ μ} {w : ρ} {waiters : List ρ} (m : μ)
    (hw : s.waiters = w :: waiters) :
    s.sendNowait m = { s.setAwaiter w { s.awaiter w with result := some m } with
      waiters := waiters
      resumes := s.resumes ++ (s.awaiter w).continuation.toList
      delivered := s.delivered ++ [⟨some w, m⟩] } := by
  simp only [sendNowait, hw]

theorem sendNowait_nil {s : Endpoint ρ μ} (m : μ) (hw : s.waiters = []) :
    s.sendNowait m = if s.closed then s else { s with queue := s.queue ++ [m] } := by
  simp only [sendNowait, hw]

variable [Inhabited μ]

/-- `Message{}` is the default message. -/
def awaitSuspend (s : Endpoint ρ μ) (r : ρ) : Bool × Endpoint ρ μ :=
  match s.pop (some r) with
  | some (m, s) =>
    (false, s.setAwaiter r { s.awaiter r with result := some m, phase := .ready })
  | none =>
    if s.closed then
      (false, s.setAwaiter r { s.awaiter r with result := some default, phase := .ready })
    else
      (true, { s.setAwaiter r { s.awaiter r with
                continuation := some r, phase := .parked
                parked := (s.awaiter r).parked + 1 } with
              waiters := s.waiters ++ [r] })

def awaitResume (s : Endpoint ρ μ) (r : ρ) : μ × Endpoint ρ μ :=
  let m := (s.awaiter r).result.getD default
  (m, s.setAwaiter r { s.awaiter r with phase := .returned m })

def close (s : Endpoint ρ μ) : Endpoint ρ μ :=
  { s with
    closed := true
    awaiter := fun r =>
      if r ∈ s.waiters then { s.awaiter r with result := none } else s.awaiter r
    resumes := s.resumes ++ s.waiters.filterMap fun w => (s.awaiter w).continuation
    waiters := [] }

def resume (s : Endpoint ρ μ) (k : Nat) : Endpoint ρ μ :=
  match s.resumes[k]? with
  | none => s
  | some r =>
    { s.setAwaiter r { s.awaiter r with
        phase := .ready, resumed := (s.awaiter r).resumed + 1 } with
      resumes := s.resumes.eraseIdx k }

/-- One critical section, with the sends before the close logged. -/
def step (s : Endpoint ρ μ) : Action ρ μ → Endpoint ρ μ
  | .send m => { s.sendNowait m with sent := if s.closed then s.sent else s.sent ++ [m] }
  | .poll => s.tryRecv.2
  | .ready r =>
    match (s.awaiter r).phase with
    | .created => (s.awaitReady r).2
    | _ => s
  | .suspend r =>
    match (s.awaiter r).phase with
    | .suspending => (s.awaitSuspend r).2
    | _ => s
  | .resume k => s.resume k
  | .finish r =>
    match (s.awaiter r).phase with
    | .ready => (s.awaitResume r).2
    | _ => s
  | .close => s.close

abbrev after (ops : List (Action ρ μ)) : Endpoint ρ μ := run step {} ops

/-! ## What an action can do -/

inductive Stepped (s : Endpoint ρ μ) : Action ρ μ → Endpoint ρ μ → Prop
  | idle (a : Action ρ μ) : Stepped s a s
  | handed (m : μ) (w : ρ) (waiters : List ρ) (hw : s.waiters = w :: waiters) :
    Stepped s (.send m)
      { s.setAwaiter w { s.awaiter w with result := some m } with
        waiters := waiters
        resumes := s.resumes ++ (s.awaiter w).continuation.toList
        delivered := s.delivered ++ [⟨some w, m⟩]
        sent := if s.closed then s.sent else s.sent ++ [m] }
  | queued (m : μ) (hw : s.waiters = []) (hc : s.closed = false) :
    Stepped s (.send m) { s with queue := s.queue ++ [m], sent := s.sent ++ [m] }
  | polled (m : μ) (queue : List μ) (hq : s.queue = m :: queue) :
    Stepped s .poll { s with queue := queue, delivered := s.delivered ++ [⟨none, m⟩] }
  /-- `await_ready`, or the second look at the queue, finds a message. -/
  | took (a : Action ρ μ) (r : ρ) (m : μ) (queue : List μ) (hq : s.queue = m :: queue)
      (hp : (s.awaiter r).phase = .created ∨ (s.awaiter r).phase = .suspending) :
    Stepped s a
      { s.setAwaiter r { s.awaiter r with result := some m, phase := .ready } with
        queue := queue, delivered := s.delivered ++ [⟨some r, m⟩] }
  | missed (r : ρ) (hp : (s.awaiter r).phase = .created) :
    Stepped s (.ready r) (s.setAwaiter r { s.awaiter r with phase := .suspending })
  | refused (r : ρ) (hp : (s.awaiter r).phase = .suspending) (hc : s.closed = true) :
    Stepped s (.suspend r)
      (s.setAwaiter r { s.awaiter r with result := some default, phase := .ready })
  | parked (r : ρ) (hp : (s.awaiter r).phase = .suspending) (hq : s.queue = [])
      (hc : s.closed = false) :
    Stepped s (.suspend r)
      { s.setAwaiter r { s.awaiter r with
          continuation := some r, phase := .parked, parked := (s.awaiter r).parked + 1 } with
        waiters := s.waiters ++ [r] }
  | resumed (k : Nat) (r : ρ) (hr : s.resumes[k]? = some r) :
    Stepped s (.resume k)
      { s.setAwaiter r { s.awaiter r with
          phase := .ready, resumed := (s.awaiter r).resumed + 1 } with
        resumes := s.resumes.eraseIdx k }
  | returned (r : ρ) (hp : (s.awaiter r).phase = .ready) :
    Stepped s (.finish r)
      (s.setAwaiter r { s.awaiter r with phase := .returned ((s.awaiter r).result.getD default) })
  | closing : Stepped s .close s.close

theorem step_stepped (s : Endpoint ρ μ) (a : Action ρ μ) : Stepped s a (s.step a) := by
  cases a with
  | send m =>
    simp only [step]
    cases hw : s.waiters with
    | cons w waiters =>
      rw [sendNowait_cons m hw]
      exact .handed m w waiters hw
    | nil =>
      rw [sendNowait_nil m hw]
      split
      · exact .idle _
      · next hc => exact .queued m hw (Bool.eq_false_iff.mpr hc)
  | poll =>
    simp only [step, tryRecv, pop]
    cases hq : s.queue with
    | nil => exact .idle _
    | cons m queue => exact .polled m queue hq
  | ready r =>
    simp only [step]
    split
    · next hp =>
      simp only [awaitReady, pop]
      cases hq : s.queue with
      | nil => exact .missed r hp
      | cons m queue => exact .took _ r m queue hq (Or.inl hp)
    · exact .idle _
  | suspend r =>
    simp only [step]
    split
    · next hp =>
      simp only [awaitSuspend, pop]
      cases hq : s.queue with
      | nil =>
        cases hc : s.closed with
        | true => exact .refused r hp hc
        | false => exact .parked r hp hq hc
      | cons m queue => exact .took _ r m queue hq (Or.inr hp)
    · exact .idle _
  | resume k =>
    simp only [step, resume]
    split
    · exact .idle _
    · next r hr => exact .resumed k r hr
  | finish r =>
    simp only [step]
    split
    · next hp => exact .returned r hp
    · exact .idle _
  | close => exact .closing

end Endpoint

end NeuroVerse.Ipc
