/-
  The synchronous operations of an endpoint pair are two bounded channels.

  The abstract pair has one channel for each side to send into. The end of a timed send is a send,
  and the end of a timed receive is a receive, so that the pair gives the results of the abstract
  one whatever the order of the calls (`Represents.run`). What the senders were told was accepted
  and what the receivers were given is read off those results alone.
-/
import NeuroVerse.Ipc.EndpointPair
import NeuroVerse.Lib.Fifo

namespace NeuroVerse.Ipc

open Lib

namespace EndpointPair

variable {ρ κ μ : Type*}

/-- The critical sections of the synchronous calls, on any copies of the two sides. Destroying the
    pair closes both queues. -/
inductive SyncOp (μ : Type*) where
  | sendNowait (side : Side) (m : μ)
  | trySendFor (side : Side) (m : μ)
  | endSendFor (k : Nat)
  | tryRecv (side : Side)
  | tryRecvFor (side : Side)
  | close (side : Side)

def SyncOp.action : SyncOp μ → Action ρ κ μ
  | .sendNowait side m => .sendNowait side m
  | .trySendFor side m => .trySendFor side m
  | .endSendFor k => .endSendFor k
  | .tryRecv side => .tryRecv side
  | .tryRecvFor side => .tryRecvFor side
  | .close side => .close side

/-- What a caller sees of a critical section. -/
inductive Outcome (μ : Type*) where
  /-- A send returned. -/
  | sent (side : Side) (m : μ) (ok : Bool)
  /-- A receive returned. -/
  | received (side : Side) (out : Option μ)
  /-- A timed send waits, or there was nothing to do. -/
  | silent

def outcome (s : EndpointPair ρ κ μ) : SyncOp μ → Outcome μ
  | .sendNowait side m => .sent side m ((s.sendQueue side).sendNowait m).1
  | .trySendFor side m => if (s.sendQueue side).closed then .sent side m false else .silent
  | .endSendFor k =>
    match s.calls[k]? with
    | none => .silent
    | some (side, m) => .sent side m ((s.sendQueue side).endSendFor m).1
  | .tryRecv side => .received side (s.recvQueue side).tryRecv.1
  | .tryRecvFor side => .received side (s.recvQueue side).tryRecvFor.1
  | .close _ => .silent

variable [DecidableEq ρ] [DecidableEq κ] [Inhabited μ] in
def perform (s : EndpointPair ρ κ μ) (op : SyncOp μ) : Outcome μ × EndpointPair ρ κ μ :=
  (s.outcome op, s.step op.action)

/-- The messages whose senders on a side were told that they were accepted, in order. -/
def acceptedFrom (side : Side) (h : List (Outcome μ)) : List μ :=
  h.filterMap fun
    | .sent d m true => if d = side then some m else none
    | _ => none

/-- The messages returned by the receives on a side, in order. -/
def returnedOn (side : Side) (h : List (Outcome μ)) : List μ :=
  h.filterMap fun
    | .received d (some m) => if d = side then some m else none
    | _ => none

/-- The outcome tells of a failure, or of no message. -/
def Outcome.Failed : Outcome μ → Prop
  | .sent _ _ ok => ok = false
  | .received _ out => out = none
  | .silent => False

/-! ## A queue and a channel -/

theorem Queue.endSendFor_eq (x : Queue μ) (m : μ) : x.endSendFor m = x.sendNowait m := by
  simp only [Queue.endSendFor, Queue.sendNowait]
  cases x.closed with
  | true => simp
  | false =>
    by_cases h : x.q.length < x.capacity
    · simp [h]
    · simp [h, Nat.le_of_not_lt h]

theorem Queue.tryRecvFor_eq (x : Queue μ) : x.tryRecvFor = x.tryRecv := by
  simp only [Queue.tryRecvFor, Queue.tryRecv]
  cases hq : x.q with
  | nil => simp
  | cons m q => simp

/-- The queue holds what the channel holds. -/
structure Queue.Represents {n : Nat} (x : Queue μ) (f : Fifo μ n) : Prop where
  q : x.q = f.held
  closed : x.closed = f.shut
  capacity : x.capacity = n

namespace Queue.Represents

variable {n : Nat} {x : Queue μ} {f : Fifo μ n}

theorem hasRoom_iff (h : x.Represents f) : x.HasRoom ↔ f.HasRoom := by
  rw [Queue.HasRoom, Fifo.HasRoom, h.q, h.closed, h.capacity]

theorem send (h : x.Represents f) (m : μ) :
    (x.sendNowait m).1 = (f.offer m).1 ∧ (x.sendNowait m).2.Represents (f.offer m).2 := by
  by_cases hroom : f.HasRoom
  · rw [Queue.sendNowait_room (h.hasRoom_iff.mpr hroom)]
    refine ⟨(Fifo.offer_room hroom m).1.symm, ?_, ?_, h.capacity⟩
    · rw [Fifo.offer_held hroom, ← h.q]
      rfl
    · rw [Fifo.offer_shut]
      exact h.closed
  · rw [Queue.sendNowait_noRoom (fun hx => hroom (h.hasRoom_iff.mp hx)), Fifo.offer_noRoom hroom]
    exact ⟨rfl, h⟩

theorem recv (h : x.Represents f) :
    x.tryRecv.1 = f.take.1 ∧ x.tryRecv.2.Represents f.take.2 := by
  cases hq : x.q with
  | nil =>
    rw [Fifo.take_nil (h.q.symm.trans hq)]
    simp only [Queue.tryRecv, hq]
    exact ⟨trivial, h⟩
  | cons m q =>
    obtain ⟨hout, hheld, -, -, hshut⟩ := Fifo.take_cons (h.q.symm.trans hq)
    simp only [Queue.tryRecv, hq]
    exact ⟨hout.symm, hheld.symm, h.closed.trans hshut.symm, h.capacity⟩

theorem close (h : x.Represents f) : x.close.Represents f.close := ⟨h.q, rfl, h.capacity⟩

end Queue.Represents

/-! ## The abstract pair -/

/-- One channel for each side to send into, and the timed sends that wait. -/
structure Channels (μ : Type*) (n : Nat) where
  chan : Side → Fifo μ n
  calls : List (Side × μ)

namespace Channels

variable {n : Nat}

def new : Channels μ n := ⟨fun _ => .empty, []⟩

def set (c : Channels μ n) (side : Side) (f : Fifo μ n) : Channels μ n :=
  { c with chan := Function.update c.chan side f }

def send (c : Channels μ n) (side : Side) (m : μ) : Outcome μ × Channels μ n :=
  (.sent side m ((c.chan side).offer m).1, c.set side ((c.chan side).offer m).2)

def recv (c : Channels μ n) (side : Side) : Outcome μ × Channels μ n :=
  (.received side (c.chan side.peer).take.1, c.set side.peer (c.chan side.peer).take.2)

/-- The operations on the channels: a timed one ends as the other one does. -/
def perform (c : Channels μ n) : SyncOp μ → Outcome μ × Channels μ n
  | .sendNowait side m => c.send side m
  | .trySendFor side m =>
    if (c.chan side).shut then (.sent side m false, c)
    else (.silent, { c with calls := c.calls ++ [(side, m)] })
  | .endSendFor k =>
    match c.calls[k]? with
    | none => (.silent, c)
    | some (side, m) => ((c.send side m).1, { (c.send side m).2 with calls := c.calls.eraseIdx k })
  | .tryRecv side => c.recv side
  | .tryRecvFor side => c.recv side
  | .close side => (.silent, c.set side (c.chan side).close)

/-! ## The channels along a run -/

theorem acceptedFrom_append (side : Side) (h h' : List (Outcome μ)) :
    acceptedFrom side (h ++ h') = acceptedFrom side h ++ acceptedFrom side h' :=
  List.filterMap_append

theorem returnedOn_append (side : Side) (h h' : List (Outcome μ)) :
    returnedOn side (h ++ h') = returnedOn side h ++ returnedOn side h' :=
  List.filterMap_append

theorem acceptedFrom_sent (side d : Side) (m : μ) (ok : Bool) :
    acceptedFrom side [.sent d m ok] = if d = side then (if ok then [m] else []) else [] := by
  cases ok <;> by_cases h : d = side <;> simp [acceptedFrom, h]

theorem returnedOn_received (side d : Side) (out : Option μ) :
    returnedOn side [.received d out] = if d = side then out.toList else [] := by
  cases out <;> by_cases h : d = side <;> simp [returnedOn, h]

theorem peer_inj {d side : Side} : d.peer = side.peer ↔ d = side := by
  cases d <;> cases side <;> decide

/-- A stretch of the run, from its outcomes: the channel of each side accepted what the senders
    were told it accepted, which is nothing if it was shut, and gave what the other side's
    receives returned. -/
structure Ran (c c' : Channels μ n) (h : List (Outcome μ)) : Prop where
  accepted : ∀ side, (c'.chan side).accepted = (c.chan side).accepted ++ acceptedFrom side h
  given : ∀ side, (c'.chan side).given = (c.chan side).given ++ returnedOn side.peer h
  shut : ∀ side, (c.chan side).shut = true →
    (c'.chan side).shut = true ∧ acceptedFrom side h = []

theorem Ran.silent {c c' : Channels μ n} (h : c'.chan = c.chan) : Ran c c' [.silent] := by
  refine ⟨fun side => ?_, fun side => ?_, fun side hs => ⟨by rw [h, hs], rfl⟩⟩
  · rw [h]
    exact (List.append_nil _).symm
  · rw [h]
    exact (List.append_nil _).symm

theorem Ran.trans {c c' c'' : Channels μ n} {h h' : List (Outcome μ)} (h1 : Ran c c' h)
    (h2 : Ran c' c'' h') : Ran c c'' (h ++ h') := by
  refine ⟨fun side => ?_, fun side => ?_, fun side hs => ?_⟩
  · rw [h2.accepted, h1.accepted, acceptedFrom_append, List.append_assoc]
  · rw [h2.given, h1.given, returnedOn_append, List.append_assoc]
  · obtain ⟨hs', hnil⟩ := h1.shut side hs
    obtain ⟨hs'', hnil'⟩ := h2.shut side hs'
    exact ⟨hs'', by rw [acceptedFrom_append, hnil, hnil']; rfl⟩

theorem send_ran (c : Channels μ n) (d : Side) (m : μ) :
    Ran c (c.send d m).2 [(c.send d m).1] := by
  refine ⟨fun side => ?_, fun side => ?_, fun side hs => ?_⟩
  all_goals
    simp only [send, set, Function.update_apply, acceptedFrom_sent]
  · by_cases hd : side = d
    · subst hd
      rw [if_pos rfl, if_pos rfl, Fifo.offer_accepted]
    · rw [if_neg hd, if_neg (Ne.symm hd), List.append_nil]
  · have hnil : returnedOn side.peer [Outcome.sent d m ((c.chan d).offer m).1] = [] := rfl
    rw [hnil, List.append_nil]
    split
    · next hd => rw [Fifo.offer_given, hd]
    · rfl
  · by_cases hd : side = d
    · subst hd
      have hno : ¬ (c.chan side).HasRoom := fun hroom => by simp [hroom.1] at hs
      rw [if_pos rfl, if_pos rfl, Fifo.offer_noRoom hno]
      exact ⟨hs, rfl⟩
    · rw [if_neg hd, if_neg (Ne.symm hd)]
      exact ⟨hs, rfl⟩

theorem recv_ran (c : Channels μ n) (d : Side) : Ran c (c.recv d).2 [(c.recv d).1] := by
  refine ⟨fun side => ?_, fun side => ?_, fun side hs => ?_⟩
  all_goals
    simp only [recv, set, Function.update_apply, returnedOn_received]
  · have hnil : acceptedFrom side [Outcome.received d (c.chan d.peer).take.1] = [] := rfl
    rw [hnil, List.append_nil]
    split
    · next hd => rw [Fifo.take_accepted, hd]
    · rfl
  · by_cases hd : side = d.peer
    · subst hd
      rw [if_pos rfl, if_pos (peer_inj.mp (by cases d <;> rfl)), Fifo.take_given]
    · have hd' : d ≠ side.peer := fun h => hd (by rw [h]; cases side <;> rfl)
      rw [if_neg hd, if_neg hd', List.append_nil]
  · refine ⟨?_, rfl⟩
    split
    · next hd => rw [Fifo.take_shut, ← hd, hs]
    · exact hs

theorem close_ran (c : Channels μ n) (d : Side) :
    Ran c (c.set d (c.chan d).close) [.silent] := by
  refine ⟨fun side => ?_, fun side => ?_, fun side hs => ?_⟩
  all_goals
    simp only [set, Function.update_apply]
  · show _ = _ ++ []
    rw [List.append_nil]
    split
    · next hd => rw [hd]; rfl
    · rfl
  · show _ = _ ++ []
    rw [List.append_nil]
    split
    · next hd => rw [hd]; rfl
    · rfl
  · refine ⟨?_, rfl⟩
    split
    · rfl
    · exact hs

theorem perform_ran (c : Channels μ n) (op : SyncOp μ) :
    Ran c (c.perform op).2 [(c.perform op).1] := by
  cases op with
  | sendNowait side m => exact c.send_ran side m
  | tryRecv side | tryRecvFor side => exact c.recv_ran side
  | close side => exact c.close_ran side
  | trySendFor side m =>
    simp only [perform]
    split
    · exact ⟨fun d => (List.append_nil _).symm, fun d => (List.append_nil _).symm,
        fun d hs => ⟨hs, rfl⟩⟩
    · exact .silent rfl
  | endSendFor k =>
    simp only [perform]
    split
    · exact .silent rfl
    · next side m _ =>
      have h := c.send_ran side m
      exact ⟨h.accepted, h.given, h.shut⟩

theorem run_ran (c : Channels μ n) (ops : List (SyncOp μ)) :
    Ran c (finalState perform c ops) (results perform c ops) := by
  induction ops generalizing c with
  | nil => exact ⟨fun _ => (List.append_nil _).symm, fun _ => (List.append_nil _).symm,
      fun _ hs => ⟨hs, rfl⟩⟩
  | cons op ops ih => exact (c.perform_ran op).trans (ih (c.perform op).2)

theorem shut_of_close (c : Channels μ n) {side : Side} {ops : List (SyncOp μ)}
    (h : .close side ∈ ops) : ((finalState perform c ops).chan side).shut = true := by
  obtain ⟨pre, post, rfl⟩ := List.mem_iff_append.mp h
  have hclose : (((finalState perform c pre).perform (.close side)).2.chan side).shut = true := by
    simp only [perform, set, Function.update_self, Fifo.close]
  rw [finalState_append]
  exact ((run_ran _ post).shut side hclose).1

/-- Receives on the other side of a channel take its front again and again. -/
theorem drain_given (c : Channels μ n) (side : Side) (drain : List (SyncOp μ))
    (h : ∀ op ∈ drain, op = .tryRecv side.peer ∨ op = .tryRecvFor side.peer) :
    ((finalState perform c drain).chan side).given =
      (c.chan side).accepted.take ((c.chan side).taken + drain.length) := by
  induction drain generalizing c with
  | nil => rfl
  | cons op drain ih =>
    have hop : (c.perform op).2.chan side = (c.chan side).take.2 := by
      have hrecv : c.perform op = c.recv side.peer := by
        rcases h op List.mem_cons_self with rfl | rfl <;> rfl
      have hpeer : side.peer.peer = side := by cases side <;> rfl
      rw [hrecv, recv, hpeer]
      exact Function.update_self _ _ _
    have := ih (c.perform op).2 fun op' hop' => h op' (List.mem_cons_of_mem op hop')
    rw [hop, Fifo.take_taken, Fifo.take_accepted] at this
    refine this.trans ?_
    rw [List.length_cons, List.take_eq_take_min,
      List.take_eq_take_min (i := (c.chan side).taken + (drain.length + 1))]
    congr 1
    omega

end Channels

/-! ## The pair is the abstract one -/

/-- Each queue of the pair holds what its channel holds, and the same timed sends wait. -/
structure Represents {n : Nat} (s : EndpointPair ρ κ μ) (c : Channels μ n) : Prop where
  queue : ∀ side, (s.sendQueue side).Represents (c.chan side)
  calls : s.calls = c.calls

theorem represents_new (capacity : Nat) :
    (new capacity : EndpointPair ρ κ μ).Represents (Channels.new : Channels μ capacity) :=
  ⟨fun side => by cases side <;> exact ⟨rfl, rfl, rfl⟩, rfl⟩

theorem setSendQueue_calls (s : EndpointPair ρ κ μ) (side : Side) (x : Queue μ) :
    (s.setSendQueue side x).calls = s.calls := by
  cases side <;> rfl

theorem Represents.set {n : Nat} {s : EndpointPair ρ κ μ} {c : Channels μ n}
    (h : s.Represents c) {side : Side} {x : Queue μ} {f : Fifo μ n} (hx : x.Represents f) :
    (s.setSendQueue side x).Represents (c.set side f) := by
  refine ⟨fun d => ?_, (setSendQueue_calls s side x).trans h.calls⟩
  show ((s.setSendQueue side x).sendQueue d).Represents (Function.update c.chan side f d)
  rw [sendQueue_setSendQueue, Function.update_apply]
  split
  · exact hx
  · exact h.queue d

variable [DecidableEq ρ] [DecidableEq κ] [Inhabited μ]

theorem perform_represents {n : Nat} (s : EndpointPair ρ κ μ) (c : Channels μ n) (op : SyncOp μ)
    (h : s.Represents c) :
    (perform s op).1 = (c.perform op).1 ∧ (perform s op).2.Represents (c.perform op).2 := by
  cases op with
  | sendNowait side m =>
    obtain ⟨hout, hq⟩ := (h.queue side).send m
    exact ⟨congrArg (Outcome.sent side m) hout, h.set hq⟩
  | trySendFor side m =>
    simp only [perform, outcome, SyncOp.action, step, Channels.perform, (h.queue side).closed]
    split
    · exact ⟨rfl, h⟩
    · exact ⟨rfl, h.queue, congrArg (· ++ [(side, m)]) h.calls⟩
  | endSendFor k =>
    cases hk : s.calls[k]? with
    | none =>
      simp only [perform, outcome, SyncOp.action, step, Channels.perform, ← h.calls, hk]
      exact ⟨trivial, h⟩
    | some call =>
      obtain ⟨hout, hq⟩ := (h.queue call.1).send call.2
      simp only [perform, outcome, SyncOp.action, step, Channels.perform, ← h.calls, hk,
        Queue.endSendFor_eq]
      exact ⟨congrArg (Outcome.sent call.1 call.2) hout, (h.set hq).queue, rfl⟩
  | tryRecv side | tryRecvFor side =>
    simp only [perform, outcome, SyncOp.action, step, Channels.perform, Queue.tryRecvFor_eq,
      recvQueue_eq, setRecvQueue_eq]
    obtain ⟨hout, hq⟩ := (h.queue side.peer).recv
    exact ⟨congrArg (Outcome.received side) hout, h.set hq⟩
  | close side => exact ⟨rfl, h.set (h.queue side).close⟩

/-- The pair gives the results of the two channels, and ends up holding what they hold. -/
theorem Represents.run {n : Nat} {s : EndpointPair ρ κ μ} {c : Channels μ n}
    (h : s.Represents c) (ops : List (SyncOp μ)) :
    results perform s ops = results Channels.perform c ops ∧
      (finalState perform s ops).Represents (finalState Channels.perform c ops) := by
  have hok : StepsMeet (fun c op => (Channels.perform c op).2) (fun _ _ => True) c ops :=
    fun _ _ _ => trivial
  exact refinement perform Channels.perform (fun s c op h _ => perform_represents s c op h) h hok

/-- A failed operation leaves both queues as they were. -/
theorem failed_unchanged (s : EndpointPair ρ κ μ) (op : SyncOp μ) (h : (perform s op).1.Failed)
    (d : Side) : (perform s op).2.sendQueue d = s.sendQueue d := by
  have hset : ∀ side x, x = s.sendQueue side →
      (s.setSendQueue side x).sendQueue d = s.sendQueue d := by
    rintro side x rfl
    rw [sendQueue_setSendQueue]
    split
    · next hd => rw [hd]
    · rfl
  have hrecv : ∀ side, (s.recvQueue side).tryRecv.1 = none →
      (s.setRecvQueue side (s.recvQueue side).tryRecv.2).sendQueue d = s.sendQueue d := by
    intro side hnone
    rw [setRecvQueue_eq]
    apply hset
    rw [Queue.tryRecv_none hnone, recvQueue_eq]
  cases op with
  | sendNowait side m => exact hset side _ (Queue.sendNowait_refused h)
  | tryRecv side => exact hrecv side h
  | tryRecvFor side =>
    simp only [perform, outcome, Outcome.Failed, Queue.tryRecvFor_eq] at h
    simp only [perform, SyncOp.action, step, Queue.tryRecvFor_eq]
    exact hrecv side h
  | close side => exact absurd h id
  | trySendFor side m =>
    simp only [perform, SyncOp.action, step]
    split
    · rfl
    · cases d <;> rfl
  | endSendFor k =>
    cases hk : s.calls[k]? with
    | none => simp only [perform, SyncOp.action, step, hk]
    | some call =>
      simp only [perform, outcome, Outcome.Failed, hk, Queue.endSendFor_eq] at h
      simp only [perform, SyncOp.action, step, hk, Queue.endSendFor_eq]
      exact hset call.1 _ (Queue.sendNowait_refused h)

/-- An open queue with room accepts a message, at its end. -/
theorem sendNowait_accepted {s : EndpointPair ρ κ μ} {side : Side}
    (h : (s.sendQueue side).HasRoom) (m : μ) :
    (perform s (.sendNowait side m)).1 = .sent side m true ∧
      ((perform s (.sendNowait side m)).2.sendQueue side).q = (s.sendQueue side).q ++ [m] := by
  simp only [perform, outcome, SyncOp.action, step, Queue.sendNowait_room h, sendQueue_setSendQueue]
  exact ⟨trivial, rfl⟩

/-- The synchronous operations on one direction of a pair are those of a bounded channel, with its
    results: it never holds more than its capacity, and while it is open and holds less it accepts
    what it is sent; what was returned on the other side is what was accepted, in order, but for
    the messages that it still holds; a failed operation leaves both queues as they were; once it
    is closed nothing more is accepted; and receives give what it holds, from the front, closed or
    not. -/
theorem sync_ops_bounded_fifos (capacity : Nat) (ops : List (SyncOp μ)) (side : Side) :
    let s := finalState perform (new capacity : EndpointPair ρ κ μ) ops
    let h := results perform (new capacity : EndpointPair ρ κ μ) ops
    h = results Channels.perform (Channels.new : Channels μ capacity) ops ∧
    (s.sendQueue side).q.length ≤ capacity ∧
    ((s.sendQueue side).closed = false → (s.sendQueue side).q.length < capacity →
      ∀ m, (perform s (.sendNowait side m)).1 = .sent side m true ∧
        ((perform s (.sendNowait side m)).2.sendQueue side).q = (s.sendQueue side).q ++ [m]) ∧
    acceptedFrom side h = returnedOn side.peer h ++ (s.sendQueue side).q ∧
    (∀ op, (perform s op).1.Failed → ∀ d, (perform s op).2.sendQueue d = s.sendQueue d) ∧
    (.close side ∈ ops → ∀ more, acceptedFrom side (results perform s more) = []) ∧
    ∀ drain : List (SyncOp μ),
      (∀ op ∈ drain, op = .tryRecv side.peer ∨ op = .tryRecvFor side.peer) →
      returnedOn side.peer (results perform s drain) =
        (s.sendQueue side).q.take drain.length := by
  intro s h
  obtain ⟨hres, hrep⟩ := (represents_new (ρ := ρ) (κ := κ) (μ := μ) capacity).run ops
  have hran := Channels.run_ran (Channels.new : Channels μ capacity) ops
  generalize hc : finalState Channels.perform (Channels.new : Channels μ capacity) ops = c
    at hrep hran
  have hacc : (c.chan side).accepted = acceptedFrom side h :=
    (hran.accepted side).trans (by rw [← hres]; rfl)
  have hgiven : (c.chan side).given = returnedOn side.peer h :=
    (hran.given side).trans (by rw [← hres]; rfl)
  have hq : (s.sendQueue side).q = (c.chan side).held := (hrep.queue side).q
  refine ⟨hres, ?_, fun hopen hlen m => ?_, ?_, failed_unchanged s, fun hclose more => ?_,
    fun drain hdrain => ?_⟩
  · rw [hq]
    exact (c.chan side).length_held_le
  · exact sendNowait_accepted ⟨hopen, (hrep.queue side).capacity.symm ▸ hlen⟩ m
  · rw [hq, ← hacc, ← hgiven, Fifo.given_append_held]
  · have hshut := hc ▸ Channels.shut_of_close (Channels.new : Channels μ capacity) hclose
    rw [(hrep.run more).1]
    exact ((Channels.run_ran c more).shut side hshut).2
  · rw [(hrep.run drain).1, hq]
    apply (List.append_right_inj (c.chan side).given).mp
    rw [← (Channels.run_ran c drain).given, Channels.drain_given c side drain hdrain,
      List.take_add]
    rfl

end EndpointPair

end NeuroVerse.Ipc
