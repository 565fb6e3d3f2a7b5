/-
  The channel of the net stack: an unbounded queue that any number of threads send to and receive
  from, with blocking and timed receives.

  Every call does its work in one critical section of the channel's mutex, so that a step is one
  critical section. A receive that finds nothing waits on the condition variable, which unlocks
  the mutex, and looks again when it wakes. Who is notified is left out: a condition variable may
  wake a waiter at any time, and so a waiter here may look again at any time.

  The calls return in the order of their steps. Read in this order, they are what a sequential
  queue with a closing mark would return (`channel_linearised`).
-/
import NeuroVerse.Lib.Since
import NeuroVerse.Lib.Threads
import Mathlib.Data.List.ReduceOption

namespace NeuroVerse.Net

open Lib

structure Channel (τ : Type*) where
  queue : List τ := []
  closed : Bool := false

namespace Channel

variable {τ : Type*} (ch : Channel τ)

/-! ## The critical sections -/

def send (value : τ) : Except String Unit × Channel τ :=
  if ch.closed then (.error "send: channel closed", ch)
  else (.ok (), { ch with queue := ch.queue ++ [value] })

def tryRecv : Option τ × Channel τ :=
  match ch.queue with
  | [] => (none, ch)
  | v :: queue => (some v, { ch with queue := queue })

/-- What the receives wait for. -/
def ready : Bool := !ch.queue.isEmpty || ch.closed

/-- The rest of a receive after its wait. -/
def receive (what : String) : Except String τ × Channel τ :=
  match ch.queue with
  | [] => (.error (what ++ ": channel closed"), ch)
  | v :: queue => (.ok v, { ch with queue := queue })

/-- One look at the channel: `recv` returns, or it waits. -/
def recv : Option (Except String τ) × Channel τ :=
  if ch.ready then
    let r := ch.receive "recv"
    (some r.1, r.2)
  else (none, ch)

/-- One look of `recv_for`. At the end of its time it looks once more. -/
def recvFor (expired : Bool) : Option (Except String τ) × Channel τ :=
  if ch.ready then
    let r := ch.receive "recv_for"
    (some r.1, r.2)
  else if expired then (some (.error "recv_for: timeout"), ch)
  else (none, ch)

def close : Channel τ := { ch with closed := true }

end Channel

/-! ## The threads -/

inductive Call (τ : Type*) where
  | send (value : τ)
  | tryRecv
  | recv
  | recvFor
  | close

/-- A call and what it returned or threw. -/
inductive Return (τ : Type*) where
  | send (value : τ) (out : Except String Unit)
  | tryRecv (out : Option τ)
  | recv (out : Except String τ)
  | recvFor (out : Except String τ)
  | close

/-- The places of a call. -/
inductive Pc (τ : Type*) where
  /-- It has not come to its critical section, or waits to enter it again. -/
  | pending (c : Call τ) (waiting : Bool)
  | returned (r : Return τ)

inductive Action (τ : Type*) where
  | call (c : Call τ)
  /-- Thread `k` enters its critical section. -/
  | go (k : Nat)
  /-- The time of the waiting `recv_for` of thread `k` is over. -/
  | timeout (k : Nat)

/-- A call enters its critical section. It may come out with nothing to return. -/
def Call.attempt {τ : Type*} (c : Call τ) (ch : Channel τ) (expired : Bool) :
    Option (Return τ) × Channel τ :=
  match c with
  | .send value =>
    let r := ch.send value
    (some (.send value r.1), r.2)
  | .tryRecv =>
    let r := ch.tryRecv
    (some (.tryRecv r.1), r.2)
  | .recv =>
    let r := ch.recv
    (r.1.map .recv, r.2)
  | .recvFor =>
    let r := ch.recvFor expired
    (r.1.map .recvFor, r.2)
  | .close => (some .close, ch.close)

/-- A channel and the calls on it, each a thread of its own. -/
structure System (τ : Type*) where
  chan : Channel τ := {}
  threads : List (Pc τ) := []

namespace System

variable {τ : Type*}

def attempt (s : System τ) (k : Nat) (c : Call τ) (expired : Bool) :
    Option (Return τ) × System τ :=
  let r := c.attempt s.chan expired
  let pc := match r.1 with
    | some out => .returned out
    | none => .pending c true
  (r.1, { chan := r.2, threads := s.threads.set k pc })

/-- One step, and the call that it completes. -/
def step (s : System τ) : Action τ → Option (Return τ) × System τ
  | .call c => (none, { s with threads := s.threads ++ [.pending c false] })
  | .go k =>
    match s.threads[k]? with
    | some (.pending c _) => s.attempt k c false
    | _ => (none, s)
  | .timeout k =>
    match s.threads[k]? with
    | some (.pending .recvFor true) => s.attempt k .recvFor true
    | _ => (none, s)

/-- The completed calls, in the order of their steps. -/
def returns (acts : List (Action τ)) : List (Return τ) := (results step {} acts).reduceOption

end System

/-! ## What the calls have returned -/

section

variable {τ : Type*}

namespace Return

/-- The value that the call has put into the channel. -/
def accepted : Return τ → Option τ
  | .send value (.ok _) => some value
  | _ => none

/-- The value that the call has taken out of it. -/
def delivered : Return τ → Option τ
  | .tryRecv out => out
  | .recv (.ok v) | .recvFor (.ok v) => some v
  | _ => none

/-- The call reports the channel as closed. -/
def ReportsClosed : Return τ → Prop
  | .recv out => out = .error "recv: channel closed"
  | .recvFor out => out = .error "recv_for: channel closed"
  | _ => False

end Return

def accepted (log : List (Return τ)) : List τ := log.filterMap Return.accepted

def delivered (log : List (Return τ)) : List τ := log.filterMap Return.delivered

/-- What a call may return after the calls `pre` have returned. -/
structure Lawful (pre : List (Return τ)) (r : Return τ) : Prop where
  send : ∀ value out, r = .send value out → (out = .ok () ↔ Return.close ∉ pre)
  reports : r.ReportsClosed → Return.close ∈ pre ∧ accepted pre = delivered pre

def Pc.result : Pc τ → Option (Return τ)
  | .returned r => some r
  | .pending _ _ => none

/-- The threads have returned what is in the log, each once. What was accepted is what was
    delivered followed by what is queued, and every call returned what it may return. -/
structure Linearised (log : List (Return τ)) (s : System τ) : Prop where
  calls : (s.threads.filterMap Pc.result).Perm log
  fifo : accepted log = delivered log ++ s.chan.queue
  lawful : Always Lawful log

/-! ## One critical section -/

/-- What a critical section can do. -/
inductive Attempted (ch : Channel τ) : Option (Return τ) → Channel τ → Prop
  | waited : Attempted ch none ch
  | put (value : τ) (hopen : ch.closed = false) :
    Attempted ch (some (.send value (.ok ()))) { ch with queue := ch.queue ++ [value] }
  | took (r : Return τ) (v : τ) (queue : List τ) (hr : r.delivered = some v)
      (hqueue : ch.queue = v :: queue) : Attempted ch (some r) { ch with queue := queue }
  | left (r : Return τ) (hr : r.accepted = none ∧ r.delivered = none ∧ r ≠ .close)
      (hsend : ∀ value out, r = .send value out → out ≠ .ok () ∧ ch.closed = true)
      (hreports : r.ReportsClosed → ch.closed = true ∧ ch.queue = []) :
    Attempted ch (some r) ch
  | closed : Attempted ch (some .close) ch.close

/-- What both receives do after their wait. -/
theorem receive_attempted {ch : Channel τ} (hready : ch.ready = true) (what : String)
    {wrap : Except String τ → Return τ} (hwrap : wrap = .recv ∨ wrap = .recvFor) :
    Attempted ch (some (wrap (ch.receive what).1)) (ch.receive what).2 := by
  unfold Channel.ready at hready
  unfold Channel.receive
  split
  · next hqueue =>
    rw [hqueue] at hready
    rcases hwrap with rfl | rfl
    · exact .left _ ⟨rfl, rfl, nofun⟩ nofun fun _ => ⟨hready, hqueue⟩
    · exact .left _ ⟨rfl, rfl, nofun⟩ nofun fun _ => ⟨hready, hqueue⟩
  · next v queue hqueue =>
    rcases hwrap with rfl | rfl
    · exact .took _ v queue rfl hqueue
    · exact .took _ v queue rfl hqueue

theorem recv_attempted (ch : Channel τ) : Attempted ch (ch.recv.1.map .recv) ch.recv.2 := by
  unfold Channel.recv
  split
  · next hready => exact receive_attempted hready "recv" (Or.inl rfl)
  · exact .waited

theorem recvFor_attempted (ch : Channel τ) (expired : Bool) :
    Attempted ch ((ch.recvFor expired).1.map .recvFor) (ch.recvFor expired).2 := by
  unfold Channel.recvFor
  split
  · next hready => exact receive_attempted hready "recv_for" (Or.inr rfl)
  · split
    · refine .left _ ⟨rfl, rfl, nofun⟩ nofun fun hreports => ?_
      -- a timeout is not reported as a closed channel
      exact absurd (Except.error.inj hreports) (by decide)
    · exact .waited

theorem attempt_attempted (c : Call τ) (ch : Channel τ) (expired : Bool) :
    Attempted ch (c.attempt ch expired).1 (c.attempt ch expired).2 := by
  cases c with
  | send value =>
    unfold Call.attempt Channel.send
    dsimp only
    split
    · next hclosed =>
      refine .left _ ⟨rfl, rfl, nofun⟩ (fun v out heq => ?_) False.elim
      cases heq
      exact ⟨nofun, hclosed⟩
    · next hopen => exact .put value (Bool.eq_false_iff.mpr hopen)
  | tryRecv =>
    unfold Call.attempt Channel.tryRecv
    dsimp only
    split
    · exact .left _ ⟨rfl, rfl, nofun⟩ nofun False.elim
    · next v queue hqueue => exact .took _ v queue rfl hqueue
  | recv => exact recv_attempted ch
  | recvFor => exact recvFor_attempted ch expired
  | close => exact .closed

/-- The channel stands as the log says. -/
structure Tracks (log : List (Return τ)) (ch : Channel τ) : Prop where
  fifo : accepted log = delivered log ++ ch.queue
  closed : ch.closed = true ↔ Return.close ∈ log

variable {log : List (Return τ)} {ch ch' : Channel τ} {r : Return τ}

theorem accepted_snoc : accepted (log ++ [r]) = accepted log ++ r.accepted.toList := by
  unfold accepted
  rw [List.filterMap_append]
  cases h : r.accepted <;> simp [h]

theorem delivered_snoc : delivered (log ++ [r]) = delivered log ++ r.delivered.toList := by
  unfold delivered
  rw [List.filterMap_append]
  cases h : r.delivered <;> simp [h]

/-- A call that takes a value out neither puts one in nor closes the channel nor reports it. -/
theorem Return.of_delivered {v : τ} (h : r.delivered = some v) :
    r.accepted = none ∧ r ≠ .close ∧ ¬ r.ReportsClosed ∧ ∀ value out, r ≠ .send value out := by
  cases r with
  | send value out => cases h
  | close => cases h
  | tryRecv out => exact ⟨rfl, nofun, id, nofun⟩
  | recv out | recvFor out =>
    cases out with
    | error what => cases h
    | ok v => exact ⟨rfl, nofun, nofun, nofun⟩

theorem Attempted.tracks (h : Attempted ch (some r) ch') (ht : Tracks log ch) :
    Tracks (log ++ [r]) ch' := by
  obtain ⟨hfifo, hclosed⟩ := ht
  have hmem : Return.close ∈ log ++ [r] ↔ Return.close ∈ log ∨ r = .close := by
    rw [List.mem_append, List.mem_singleton, eq_comm (a := r)]
  constructor
  · rw [accepted_snoc, delivered_snoc, hfifo]
    cases h with
    | put value hopen => simp [Return.accepted, Return.delivered]
    | took _ v queue hr hqueue => simp [(Return.of_delivered hr).1, hr, hqueue]
    | left _ hr => simp [hr.1, hr.2.1]
    | closed => simp [Return.accepted, Return.delivered, Channel.close]
  · rw [hmem]
    cases h with
    | put value hopen => simpa using hclosed
    | took _ v queue hr => simpa [(Return.of_delivered hr).2.1] using hclosed
    | left _ hr => simpa [hr.2.2] using hclosed
    | closed => simp [Channel.close]

theorem Attempted.lawful (h : Attempted ch (some r) ch') (ht : Tracks log ch) : Lawful log r := by
  obtain ⟨hfifo, hclosed⟩ := ht
  cases h with
  | put value hopen =>
    refine ⟨fun v out heq => ?_, False.elim⟩
    cases heq
    rw [← hclosed, hopen]
    exact iff_of_true rfl Bool.false_ne_true
  | took _ v queue hr =>
    obtain ⟨-, -, hreports, hsend⟩ := Return.of_delivered hr
    exact ⟨fun value out heq => absurd heq (hsend value out), fun h => absurd h hreports⟩
  | left _ hr hsend hreports =>
    constructor
    · intro value out heq
      obtain ⟨hout, hshut⟩ := hsend value out heq
      exact iff_of_false hout fun hnone => hnone (hclosed.mp hshut)
    · intro h
      obtain ⟨hshut, hempty⟩ := hreports h
      rw [hempty, List.append_nil] at hfifo
      exact ⟨hclosed.mp hshut, hfifo⟩
  | closed => exact ⟨nofun, False.elim⟩

/-! ## Every interleaving -/

namespace System

theorem returns_snoc (acts : List (Action τ)) (a : Action τ) :
    returns (acts ++ [a]) = returns acts ++ ((finalState step {} acts).step a).1.toList := by
  unfold returns
  rw [results_snoc, List.reduceOption_append]
  cases ((finalState step {} acts).step a).1 <;> rfl

/-- What a step can do: a call begins or looks in vain, or it returns. -/
inductive Stepped (s : System τ) : Option (Return τ) → System τ → Prop
  | quiet (s' : System τ) (hchan : s'.chan = s.chan)
      (hthreads : (s'.threads.filterMap Pc.result).Perm (s.threads.filterMap Pc.result)) :
    Stepped s none s'
  | returned (k : Nat) (c : Call τ) (waiting : Bool) (r : Return τ) (ch : Channel τ)
      (hk : s.threads[k]? = some (.pending c waiting)) (h : Attempted s.chan (some r) ch) :
    Stepped s (some r) { chan := ch, threads := s.threads.set k (.returned r) }

theorem attempt_stepped {s : System τ} {k : Nat} {c : Call τ} {waiting : Bool}
    (hk : s.threads[k]? = some (.pending c waiting)) (expired : Bool) :
    Stepped s (s.attempt k c expired).1 (s.attempt k c expired).2 := by
  have h := attempt_attempted c s.chan expired
  unfold attempt
  dsimp only
  generalize c.attempt s.chan expired = r at h
  obtain ⟨out, ch⟩ := r
  cases out with
  | none =>
    cases h
    have hmoved := filterMap_moved Pc.result (.pending c true) hk rfl
    exact .quiet _ rfl (hmoved.trans (List.Perm.of_eq (List.append_nil _)))
  | some r => exact .returned k c waiting r ch hk h

theorem step_stepped (s : System τ) (a : Action τ) : Stepped s (s.step a).1 (s.step a).2 := by
  cases a with
  | call c =>
    refine .quiet _ rfl (List.Perm.of_eq ?_)
    unfold step
    rw [List.filterMap_append]
    exact List.append_nil _
  | go k =>
    simp only [step]
    split
    · next c waiting hk => exact attempt_stepped hk false
    · exact .quiet s rfl (.refl _)
  | timeout k =>
    simp only [step]
    split
    · next hk => exact attempt_stepped hk true
    · exact .quiet s rfl (.refl _)

/-- The invariant: the channel stands as the log says, and so do the threads. -/
structure Inv (log : List (Return τ)) (s : System τ) : Prop where
  tracks : Tracks log s.chan
  linearised : Linearised log s

theorem step_inv {log : List (Return τ)} {s s' : System τ} {out : Option (Return τ)}
    (h : Inv log s) (hs : Stepped s out s') : Inv (log ++ out.toList) s' := by
  obtain ⟨htracks, hcalls, hfifo, hlawful⟩ := h
  cases hs with
  | quiet _ hchan hthreads =>
    rw [Option.toList_none, List.append_nil]
    exact ⟨hchan ▸ htracks, hthreads.trans hcalls, hchan ▸ hfifo, hlawful⟩
  | returned k c waiting r ch hk hattempt =>
    have htracks' := hattempt.tracks htracks
    have hmoved := filterMap_moved Pc.result (.returned r) hk rfl
    have hlawful' := always_snoc.mpr ⟨hlawful, hattempt.lawful htracks⟩
    exact ⟨htracks', hmoved.trans (hcalls.append_right [r]), htracks'.fifo, hlawful'⟩

theorem run_inv (acts : List (Action τ)) : Inv (returns acts) (finalState step {} acts) := by
  induction acts using List.reverseRecOn with
  | nil =>
    exact ⟨⟨rfl, iff_of_false Bool.false_ne_true List.not_mem_nil⟩, .nil, rfl, always_nil⟩
  | append_singleton acts a ih =>
    rw [returns_snoc, finalState_append]
    exact step_inv ih (step_stepped _ a)

/-- However the critical sections are interleaved, the calls return, in the order of their steps,
    what one queue would return: a send is accepted exactly before the first close, what was
    accepted is what was delivered followed by what is queued, and the closed channel is reported
    only when everything accepted was delivered. -/
theorem channel_linearised (acts : List (Action τ)) :
    Linearised (returns acts) (finalState step {} acts) :=
  (run_inv acts).linearised

/-- A receiver waits while the last value and the close arrive: it still gets the value. -/
example : returns [.call .recv, .call (.send 7), .call .close, .call .recv, .go 0, .go 1, .go 2,
    .go 0, .go 3] = [.send 7 (.ok ()), .close, .recv (.ok 7),
      .recv (.error "recv: channel closed")] := rfl

end System

end

end NeuroVerse.Net
