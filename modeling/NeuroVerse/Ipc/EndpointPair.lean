/-
  The endpoint pair: two bounded queues, cross-wired to two sides, with synchronous, timed and
  awaited operations on each side.

  One action is one critical section of a call. A timed send that found its queue open waits
  (`calls`) until it ends, by its predicate or by its deadline; a timed receive has only its end.
  An awaiter lives through a ready check, a suspension and a resumption. A coroutine is resumed
  by whoever keeps the handle that `await_suspend` is given, and here nobody keeps it: neither
  await_suspend stores it, and both return `void`, so that the coroutine stays suspended.

  Each queue logs what it accepted and what was removed from it.
-/
import NeuroVerse.Lib.Run
import Mathlib.Logic.Function.Basic

namespace NeuroVerse.Ipc

open Lib

namespace EndpointPair

/-- One direction of the pair, with what it accepted and what was removed from it. -/
structure Queue (μ : Type*) where
  capacity : Nat
  q : List μ := []
  closed : Bool := false
  accepted : List μ := []
  removed : List μ := []

inductive Side where
  | a
  | b
deriving DecidableEq

/-- Where a coroutine stands in its `co_await side.recv()`. -/
inductive RecvPhase (μ : Type*) where
  | created
  /-- `await_ready` said true, `await_resume` comes next. -/
  | ready
  /-- `await_suspend` waits for the queue. -/
  | suspending
  | suspended
  /-- `await_resume` ran, with nothing when the result was not set. -/
  | returned (out : Option μ)
deriving DecidableEq

/-- A receiving awaiter, with the messages it removed from its queue. -/
structure RecvAwaiter (μ : Type*) where
  side : Side := .a
  out : Option μ := none
  phase : RecvPhase μ := .created
  taken : List μ := []

inductive SendPhase where
  | created
  | ready
  | suspending
  | suspended
  | returned
deriving DecidableEq

/-- A sending awaiter, with the number of times its message was accepted. -/
structure SendAwaiter (μ : Type*) where
  side : Side := .a
  msg : μ
  phase : SendPhase := .created
  accepted : Nat := 0

end EndpointPair

open EndpointPair in
/-- The pair, its awaiters, and the timed sends that wait. -/
structure EndpointPair (ρ κ μ : Type*) where
  fwd : Queue μ
  back : Queue μ
  recvs : ρ → RecvAwaiter μ := fun _ => {}
  sends : κ → Option (SendAwaiter μ) := fun _ => none
  calls : List (Side × μ) := []

namespace EndpointPair

inductive Action (ρ κ μ : Type*) where
  | sendNowait (side : Side) (m : μ)
  | trySendFor (side : Side) (m : μ)
  /-- The `k`-th timed send under way ends. -/
  | endSendFor (k : Nat)
  | tryRecv (side : Side)
  | tryRecvFor (side : Side)
  /-- `close` of the queue that the side sends into. -/
  | close (side : Side)
  | recvReady (side : Side) (r : ρ)
  | recvSuspend (r : ρ)
  | recvResume (r : ρ)
  | sendReady (side : Side) (m : μ) (w : κ)
  | sendSuspend (w : κ)
  | sendResume (w : κ)

/-! ## The queues -/

namespace Queue

variable {μ : Type*}

def push (x : Queue μ) (m : μ) : Queue μ :=
  { x with q := x.q ++ [m], accepted := x.accepted ++ [m] }

def sendNowait (x : Queue μ) (m : μ) : Bool × Queue μ :=
  if x.closed then (false, x)
  else if x.q.length ≥ x.capacity then (false, x)
  else (true, x.push m)

/-- The end of a timed send: `ok` is the value of its predicate then. -/
def endSendFor (x : Queue μ) (m : μ) : Bool × Queue μ :=
  let ok := x.closed || decide (x.q.length < x.capacity)
  if !ok || x.closed then (false, x) else (true, x.push m)

def tryRecv (x : Queue μ) : Option μ × Queue μ :=
  match x.q with
  | [] => (none, x)
  | m :: q => (some m, { x with q := q, removed := x.removed ++ [m] })

/-- The end of a timed receive. -/
def tryRecvFor (x : Queue μ) : Option μ × Queue μ :=
  if x.closed || !x.q.isEmpty then x.tryRecv else (none, x)

def close (x : Queue μ) : Queue μ := { x with closed := true }

/-- `send_nowait` accepts a message now. -/
def HasRoom (x : Queue μ) : Prop := x.closed = false ∧ x.q.length < x.capacity

instance (x : Queue μ) : Decidable x.HasRoom := inferInstanceAs (Decidable (_ ∧ _))

theorem sendNowait_room {x : Queue μ} (h : x.HasRoom) (m : μ) :
    x.sendNowait m = (true, x.push m) := by
  simp only [sendNowait, h.1, Bool.false_eq_true, if_false]
  rw [if_neg (Nat.not_le_of_lt h.2)]

theorem sendNowait_noRoom {x : Queue μ} (h : ¬ x.HasRoom) (m : μ) :
    x.sendNowait m = (false, x) := by
  simp only [sendNowait]
  split
  · rfl
  · next hc =>
    rw [if_pos (Nat.le_of_not_lt fun hlt => h ⟨Bool.eq_false_iff.mpr hc, hlt⟩)]

theorem sendNowait_refused {x : Queue μ} {m : μ} (h : (x.sendNowait m).1 = false) :
    (x.sendNowait m).2 = x := by
  by_cases hroom : x.HasRoom
  · rw [sendNowait_room hroom] at h
    cases h
  · rw [sendNowait_noRoom hroom]

theorem tryRecv_none {x : Queue μ} (h : x.tryRecv.1 = none) : x.tryRecv.2 = x := by
  simp only [tryRecv] at h ⊢
  split at h
  · rfl
  · cases h

/-- One critical section on a queue. -/
inductive Stepped (x : Queue μ) : Queue μ → Prop
  | same : Stepped x x
  | pushed (m : μ) (hc : x.closed = false) (hroom : x.q.length < x.capacity) :
    Stepped x (x.push m)
  | popped (m : μ) (q : List μ) (hq : x.q = m :: q) :
    Stepped x { x with q := q, removed := x.removed ++ [m] }
  | closing : Stepped x x.close

theorem sendNowait_stepped (x : Queue μ) (m : μ) : x.Stepped (x.sendNowait m).2 := by
  simp only [sendNowait]
  split
  · exact .same
  · next hc =>
    split
    · exact .same
    · next hfull => exact .pushed m (Bool.eq_false_iff.mpr hc) (Nat.lt_of_not_ge hfull)

theorem endSendFor_stepped (x : Queue μ) (m : μ) : x.Stepped (x.endSendFor m).2 := by
  simp only [endSendFor]
  split
  · exact .same
  · next h =>
    simp only [Bool.or_eq_true, Bool.not_eq_true', not_or, Bool.not_eq_true] at h
    exact .pushed m h.2 (by simpa [h.2] using h.1)

theorem tryRecv_stepped (x : Queue μ) : x.Stepped x.tryRecv.2 := by
  simp only [tryRecv]
  split
  · exact .same
  · next m q hq => exact .popped m q hq

theorem tryRecvFor_stepped (x : Queue μ) : x.Stepped x.tryRecvFor.2 := by
  simp only [tryRecvFor]
  split
  · exact x.tryRecv_stepped
  · exact .same

end Queue

/-! ## The pair -/

variable {ρ κ μ : Type*}

def new (capacity : Nat) : EndpointPair ρ κ μ := { fwd := { capacity }, back := { capacity } }

/-- `a()` sends into `fwd_` and `b()` into `back_`. -/
def sendQueue (s : EndpointPair ρ κ μ) : Side → Queue μ
  | .a => s.fwd
  | .b => s.back

/-- `a()` receives from `back_` and `b()` from `fwd_`. -/
def recvQueue (s : EndpointPair ρ κ μ) : Side → Queue μ
  | .a => s.back
  | .b => s.fwd

def setSendQueue (s : EndpointPair ρ κ μ) (side : Side) (x : Queue μ) : EndpointPair ρ κ μ :=
  match side with
  | .a => { s with fwd := x }
  | .b => { s with back := x }

def setRecvQueue (s : EndpointPair ρ κ μ) (side : Side) (x : Queue μ) : EndpointPair ρ κ μ :=
  match side with
  | .a => { s with back := x }
  | .b => { s with fwd := x }

@[simp] theorem setSendQueue_recvs (s : EndpointPair ρ κ μ) (side : Side) (x : Queue μ) :
    (s.setSendQueue side x).recvs = s.recvs := by
  cases side <;> rfl

@[simp] theorem setRecvQueue_recvs (s : EndpointPair ρ κ μ) (side : Side) (x : Queue μ) :
    (s.setRecvQueue side x).recvs = s.recvs := by
  cases side <;> rfl

/-- A side receives from the queue that the other side sends into. -/
def Side.peer : Side → Side
  | .a => .b
  | .b => .a

theorem recvQueue_eq (s : EndpointPair ρ κ μ) (side : Side) :
    s.recvQueue side = s.sendQueue side.peer := by
  cases side <;> rfl

theorem setRecvQueue_eq (s : EndpointPair ρ κ μ) (side : Side) (x : Queue μ) :
    s.setRecvQueue side x = s.setSendQueue side.peer x := by
  cases side <;> rfl

theorem sendQueue_setSendQueue (s : EndpointPair ρ κ μ) (side d : Side) (x : Queue μ) :
    (s.setSendQueue side x).sendQueue d = if d = side then x else s.sendQueue d := by
  cases side <;> cases d <;> rfl

theorem setSendQueue_stepped {s : EndpointPair ρ κ μ} {side : Side} {x : Queue μ}
    (h : (s.sendQueue side).Stepped x) (d : Side) :
    (s.sendQueue d).Stepped ((s.setSendQueue side x).sendQueue d) := by
  rw [sendQueue_setSendQueue]
  split
  · next hd => exact hd ▸ h
  · exact .same

theorem setRecvQueue_stepped {s : EndpointPair ρ κ μ} {side : Side} {x : Queue μ}
    (h : (s.recvQueue side).Stepped x) (d : Side) :
    (s.sendQueue d).Stepped ((s.setRecvQueue side x).sendQueue d) := by
  rw [setRecvQueue_eq]
  rw [recvQueue_eq] at h
  exact setSendQueue_stepped h d

section Recv

variable [DecidableEq ρ] [Inhabited μ]

def setRecv (s : EndpointPair ρ κ μ) (r : ρ) (x : RecvAwaiter μ) : EndpointPair ρ κ μ :=
  { s with recvs := Function.update s.recvs r x }

/-- `recv_awaiter::await_ready` of a new awaiter: it looks, and takes nothing. -/
def recvReady (s : EndpointPair ρ κ μ) (side : Side) (r : ρ) : EndpointPair ρ κ μ :=
  let x := s.recvQueue side
  s.setRecv r { s.recvs r with
    side := side
    phase := if x.closed || !x.q.isEmpty then .ready else .suspending }

/-- `recv_awaiter::await_suspend`, once its wait is over. `Message{}` is the default message. -/
def recvSuspend (s : EndpointPair ρ κ μ) (r : ρ) : EndpointPair ρ κ μ :=
  let x := s.recvQueue (s.recvs r).side
  match x.tryRecv with
  | (none, _) =>
    if x.closed then s.setRecv r { s.recvs r with out := some default, phase := .suspended }
    else s
  | (some m, x) =>
    (s.setRecvQueue (s.recvs r).side x).setRecv r { s.recvs r with
      out := some m, phase := .suspended, taken := (s.recvs r).taken ++ [m] }

theorem recvSuspend_nil {s : EndpointPair ρ κ μ} {r : ρ}
    (hq : (s.recvQueue (s.recvs r).side).q = []) :
    s.recvSuspend r = if (s.recvQueue (s.recvs r).side).closed then
      s.setRecv r { s.recvs r with out := some default, phase := .suspended } else s := by
  simp only [recvSuspend, Queue.tryRecv, hq]

theorem recvSuspend_cons {s : EndpointPair ρ κ μ} {r : ρ} {m : μ} {q : List μ}
    (hq : (s.recvQueue (s.recvs r).side).q = m :: q) :
    s.recvSuspend r = (s.setRecvQueue (s.recvs r).side
      (s.recvQueue (s.recvs r).side).tryRecv.2).setRecv r { s.recvs r with
        out := some m, phase := .suspended, taken := (s.recvs r).taken ++ [m] } := by
  simp only [recvSuspend, Queue.tryRecv, hq]

theorem recvSuspend_stepped (s : EndpointPair ρ κ μ) (r : ρ) (d : Side) :
    (s.sendQueue d).Stepped ((s.recvSuspend r).sendQueue d) := by
  cases hq : (s.recvQueue (s.recvs r).side).q with
  | nil =>
    rw [recvSuspend_nil hq]
    split <;> exact .same
  | cons m q =>
    rw [recvSuspend_cons hq]
    exact setRecvQueue_stepped (Queue.tryRecv_stepped _) d

/-- `recv_awaiter::await_resume`: it dereferences `out`. -/
def recvResume (s : EndpointPair ρ κ μ) (r : ρ) : EndpointPair ρ κ μ :=
  s.setRecv r { s.recvs r with phase := .returned (s.recvs r).out }

end Recv

section Send

variable [DecidableEq κ]

def setSend (s : EndpointPair ρ κ μ) (w : κ) (x : SendAwaiter μ) : EndpointPair ρ κ μ :=
  { s with sends := Function.update s.sends w (some x) }

/-- `send_awaiter::await_ready` of a new awaiter. -/
def sendReady (s : EndpointPair ρ κ μ) (side : Side) (m : μ) (w : κ) : EndpointPair ρ κ μ :=
  let x := s.sendQueue side
  s.setSend w
    { side := side, msg := m
      phase := if x.closed || decide (x.q.length < x.capacity) then .ready else .suspending }

/-- `send_nowait` by an awaiter, which goes on to `phase` whatever the result. -/
def awaiterSend (s : EndpointPair ρ κ μ) (w : κ) (x : SendAwaiter μ) (phase : SendPhase) :
    EndpointPair ρ κ μ :=
  let (ok, queue) := (s.sendQueue x.side).sendNowait x.msg
  (s.setSendQueue x.side queue).setSend w { x with
    phase := phase, accepted := if ok then x.accepted + 1 else x.accepted }

@[simp] theorem awaiterSend_recvs (s : EndpointPair ρ κ μ) (w : κ) (x : SendAwaiter μ)
    (phase : SendPhase) : (s.awaiterSend w x phase).recvs = s.recvs :=
  setSendQueue_recvs s x.side _

theorem awaiterSend_stepped (s : EndpointPair ρ κ μ) (w : κ) (x : SendAwaiter μ)
    (phase : SendPhase) (d : Side) :
    (s.sendQueue d).Stepped ((s.awaiterSend w x phase).sendQueue d) :=
  setSendQueue_stepped (Queue.sendNowait_stepped _ _) d

end Send

variable [DecidableEq ρ] [DecidableEq κ] [Inhabited μ]

def step (s : EndpointPair ρ κ μ) : Action ρ κ μ → EndpointPair ρ κ μ
  | .sendNowait side m => s.setSendQueue side ((s.sendQueue side).sendNowait m).2
  | .trySendFor side m =>
    if (s.sendQueue side).closed then s else { s with calls := s.calls ++ [(side, m)] }
  | .endSendFor k =>
    match s.calls[k]? with
    | none => s
    | some (side, m) =>
      { s.setSendQueue side ((s.sendQueue side).endSendFor m).2 with calls := s.calls.eraseIdx k }
  | .tryRecv side => s.setRecvQueue side (s.recvQueue side).tryRecv.2
  | .tryRecvFor side => s.setRecvQueue side (s.recvQueue side).tryRecvFor.2
  | .close side => s.setSendQueue side (s.sendQueue side).close
  | .recvReady side r =>
    match (s.recvs r).phase with
    | .created => s.recvReady side r
    | _ => s
  | .recvSuspend r =>
    match (s.recvs r).phase with
    | .suspending => s.recvSuspend r
    | _ => s
  | .recvResume r =>
    match (s.recvs r).phase with
    | .ready => s.recvResume r
    | _ => s
  | .sendReady side m w =>
    match s.sends w with
    | none => s.sendReady side m w
    | some _ => s
  | .sendSuspend w =>
    match s.sends w with
    | some x => if x.phase = .suspending then s.awaiterSend w x .suspended else s
    | none => s
  | .sendResume w =>
    match s.sends w with
    | some x => if x.phase = .ready then s.awaiterSend w x .returned else s
    | none => s

abbrev after (capacity : Nat) (ops : List (Action ρ κ μ)) : EndpointPair ρ κ μ :=
  run step (new capacity) ops

/-! ## What an action can do to a queue -/

theorem step_queue (s : EndpointPair ρ κ μ) (a : Action ρ κ μ) (d : Side) :
    (s.sendQueue d).Stepped ((s.step a).sendQueue d) := by
  cases a with
  | sendNowait side m => exact setSendQueue_stepped (Queue.sendNowait_stepped _ m) d
  | tryRecv side => exact setRecvQueue_stepped (Queue.tryRecv_stepped _) d
  | tryRecvFor side => exact setRecvQueue_stepped (Queue.tryRecvFor_stepped _) d
  | close side => exact setSendQueue_stepped .closing d
  | trySendFor side m =>
    simp only [step]
    split <;> exact .same
  | endSendFor k =>
    simp only [step]
    split
    · exact .same
    · next side m _ => exact setSendQueue_stepped (Queue.endSendFor_stepped _ m) d
  | recvReady side r =>
    simp only [step]
    split <;> exact .same
  | recvSuspend r =>
    simp only [step]
    split
    · exact recvSuspend_stepped s r d
    · exact .same
  | recvResume r =>
    simp only [step]
    split <;> exact .same
  | sendReady side m w =>
    simp only [step]
    split <;> exact .same
  | sendSuspend w | sendResume w =>
    simp only [step]
    split
    · next x _ =>
      split
      · exact awaiterSend_stepped s w x _ d
      · exact .same
    · exact .same

theorem step_closed (s : EndpointPair ρ κ μ) (a : Action ρ κ μ) (d : Side)
    (h : (s.sendQueue d).closed = true) : ((s.step a).sendQueue d).closed = true := by
  have hq := step_queue s a d
  generalize (s.step a).sendQueue d = x at hq
  cases hq with
  | same | pushed | popped => exact h
  | closing => rfl

end EndpointPair

end NeuroVerse.Ipc
