/-
  Messages, and what is known of the messages in an endpoint pair.

  A queue only keeps and hands out messages that some send brought to it: `Carries P` says that
  every message a side has sent, or is about to send, has the property `P`, and it is kept by the
  actions whose own messages have it (`step_carries`). What came out of a queue is the front of
  what it accepted (`step_order`) and what the receives gave their callers (`step_removed`), so
  that the property reaches the receiver, whichever of the sends and receives were used.
-/
import NeuroVerse.Ipc.AwaitSend
import NeuroVerse.Ipc.BoundedFifos

namespace NeuroVerse.Ipc

open Lib

/-- The family of a protocol, and a call in it. -/
structure Tag where
  ns : BitVec 16 := 0
  op : BitVec 16 := 0
deriving DecidableEq

structure CapRef where
  handle : BitVec 64
deriving DecidableEq

structure Message where
  tag : Tag := {}
  payload : List (BitVec 8) := []
  cap : Option CapRef := none
deriving DecidableEq

instance : Inhabited Message := ⟨{}⟩

namespace Message

def withCap (t : Tag) (c : CapRef) : Message := { tag := t, cap := some c }

end Message

namespace EndpointPair

variable {ρ κ μ : Type*}

/-- The action is the start of a call that sends the message on the side. -/
inductive Offers : Action ρ κ μ → Side → μ → Prop
  | sendNowait (side : Side) (m : μ) : Offers (.sendNowait side m) side m
  | trySendFor (side : Side) (m : μ) : Offers (.trySendFor side m) side m
  | sendReady (side : Side) (m : μ) (w : κ) : Offers (.sendReady side m w) side m

/-- What each side has sent, and what its sends under way hold, has the property. -/
structure Carries (P : Side → μ → Prop) (s : EndpointPair ρ κ μ) : Prop where
  accepted : ∀ d, ∀ m ∈ (s.sendQueue d).accepted, P d m
  calls : ∀ x ∈ s.calls, P x.1 x.2
  sends : ∀ w x, s.sends w = some x → P x.side x.msg

theorem Carries.imp {P Q : Side → μ → Prop} {s : EndpointPair ρ κ μ} (h : s.Carries P)
    (hPQ : ∀ d m, P d m → Q d m) : s.Carries Q :=
  ⟨fun d m hm => hPQ d m (h.accepted d m hm), fun x hx => hPQ x.1 x.2 (h.calls x hx),
    fun w x hx => hPQ x.side x.msg (h.sends w x hx)⟩

theorem carries_new (P : Side → μ → Prop) (capacity : Nat) :
    (new capacity : EndpointPair ρ κ μ).Carries P := by
  refine ⟨fun d m hm => ?_, fun x hx => ?_, fun w x hx => ?_⟩
  · cases d <;> cases hm
  · cases hx
  · cases hx

/-! ## The queues -/

theorem Queue.accepted_sendNowait {x : Queue μ} {m m' : μ}
    (h : m' ∈ (x.sendNowait m).2.accepted) : m' ∈ x.accepted ∨ m' = m := by
  by_cases hroom : x.HasRoom
  · rw [Queue.sendNowait_room hroom] at h
    exact (List.mem_append.mp h).imp_right List.mem_singleton.mp
  · rw [Queue.sendNowait_noRoom hroom] at h
    exact Or.inl h

theorem Queue.accepted_tryRecv (x : Queue μ) : x.tryRecv.2.accepted = x.accepted := by
  simp only [Queue.tryRecv]
  split <;> rfl

theorem accepted_send {s : EndpointPair ρ κ μ} {side d : Side} {m m' : μ}
    (h : m' ∈ ((s.setSendQueue side ((s.sendQueue side).sendNowait m).2).sendQueue d).accepted) :
    m' ∈ (s.sendQueue d).accepted ∨ (d = side ∧ m' = m) := by
  rw [sendQueue_setSendQueue] at h
  split at h
  · next hd =>
    subst hd
    exact (Queue.accepted_sendNowait h).imp_right fun hm => ⟨rfl, hm⟩
  · exact Or.inl h

theorem accepted_recv {s : EndpointPair ρ κ μ} {side d : Side} {m : μ}
    (h : m ∈ ((s.setRecvQueue side (s.recvQueue side).tryRecv.2).sendQueue d).accepted) :
    m ∈ (s.sendQueue d).accepted := by
  rw [setRecvQueue_eq, sendQueue_setSendQueue] at h
  split at h
  · next hd => rwa [Queue.accepted_tryRecv, recvQueue_eq, ← hd] at h
  · exact h

section

variable [DecidableEq κ]

theorem accepted_awaiterSend {s : EndpointPair ρ κ μ} {w : κ} {x : SendAwaiter μ}
    {phase : SendPhase} {d : Side} {m : μ}
    (h : m ∈ ((s.awaiterSend w x phase).sendQueue d).accepted) :
    m ∈ (s.sendQueue d).accepted ∨ (d = x.side ∧ m = x.msg) :=
  accepted_send h

end

variable [DecidableEq ρ] [DecidableEq κ] [Inhabited μ]

/-- A queue accepts what the action offers, or what a send under way holds. -/
theorem step_accepted {s : EndpointPair ρ κ μ} {a : Action ρ κ μ} {d : Side} {m : μ}
    (h : m ∈ ((s.step a).sendQueue d).accepted) :
    m ∈ (s.sendQueue d).accepted ∨ Offers a d m ∨ (d, m) ∈ s.calls ∨
      ∃ w x, s.sends w = some x ∧ d = x.side ∧ m = x.msg := by
  cases a with
  | sendNowait side m' =>
    rcases accepted_send h with h | ⟨rfl, rfl⟩
    · exact Or.inl h
    · exact Or.inr (Or.inl (.sendNowait d m))
  | trySendFor side m' =>
    simp only [step] at h
    split at h <;> exact Or.inl h
  | endSendFor k =>
    simp only [step] at h
    split at h
    · exact Or.inl h
    · next side m' hk =>
      rw [Queue.endSendFor_eq] at h
      rcases accepted_send h with h | ⟨rfl, rfl⟩
      · exact Or.inl h
      · exact Or.inr (Or.inr (Or.inl (List.mem_of_getElem? hk)))
  | tryRecv side => exact Or.inl (accepted_recv h)
  | tryRecvFor side =>
    simp only [step, Queue.tryRecvFor_eq] at h
    exact Or.inl (accepted_recv h)
  | close side =>
    simp only [step, sendQueue_setSendQueue] at h
    split at h
    · next hd => exact Or.inl (hd ▸ h)
    · exact Or.inl h
  | recvReady side r | recvResume r | sendReady side m' w =>
    simp only [step] at h
    split at h <;> exact Or.inl h
  | recvSuspend r =>
    simp only [step] at h
    split at h
    · cases hq : (s.recvQueue (s.recvs r).side).q with
      | nil =>
        rw [recvSuspend_nil hq] at h
        split at h <;> exact Or.inl h
      | cons m' q =>
        rw [recvSuspend_cons hq] at h
        exact Or.inl (accepted_recv h)
    · exact Or.inl h
  | sendSuspend w | sendResume w =>
    simp only [step] at h
    split at h
    · next x hx =>
      split at h
      · rcases accepted_awaiterSend h with h | hm
        · exact Or.inl h
        · exact Or.inr (Or.inr (Or.inr ⟨w, x, hx, hm⟩))
      · exact Or.inl h
    · exact Or.inl h

theorem step_calls {s : EndpointPair ρ κ μ} {a : Action ρ κ μ} {x : Side × μ}
    (h : x ∈ (s.step a).calls) : x ∈ s.calls ∨ Offers a x.1 x.2 := by
  cases a with
  | trySendFor side m =>
    simp only [step] at h
    split at h
    · exact Or.inl h
    · rcases List.mem_append.mp h with h | h
      · exact Or.inl h
      · obtain rfl := List.mem_singleton.mp h
        exact Or.inr (.trySendFor side m)
  | endSendFor k =>
    simp only [step] at h
    split at h
    · exact Or.inl h
    · exact Or.inl (List.mem_of_mem_eraseIdx h)
  | sendNowait side m | close side =>
    exact Or.inl (setSendQueue_calls s side _ ▸ h)
  | tryRecv side | tryRecvFor side =>
    simp only [step, setRecvQueue_eq, setSendQueue_calls] at h
    exact Or.inl h
  | recvReady side r | recvResume r | sendReady side m w =>
    simp only [step] at h
    split at h <;> exact Or.inl h
  | recvSuspend r =>
    simp only [step] at h
    split at h
    · cases hq : (s.recvQueue (s.recvs r).side).q with
      | nil =>
        rw [recvSuspend_nil hq] at h
        split at h <;> exact Or.inl h
      | cons m q =>
        rw [recvSuspend_cons hq, setRecvQueue_eq] at h
        exact Or.inl (setSendQueue_calls s _ _ ▸ h)
    · exact Or.inl h
  | sendSuspend w | sendResume w =>
    simp only [step] at h
    split at h
    · next x _ =>
      split at h
      · exact Or.inl (setSendQueue_calls s x.side _ ▸ h)
      · exact Or.inl h
    · exact Or.inl h

theorem step_carries {P : Side → μ → Prop} {s : EndpointPair ρ κ μ} {a : Action ρ κ μ}
    (h : s.Carries P) (ha : ∀ d m, Offers a d m → P d m) : (s.step a).Carries P := by
  refine ⟨fun d m hm => ?_, fun x hx => ?_, fun w x hx => ?_⟩
  · rcases step_accepted hm with hm | hm | hm | ⟨w, x, hx, rfl, rfl⟩
    · exact h.accepted d m hm
    · exact ha d m hm
    · exact h.calls (d, m) hm
    · exact h.sends w x hx
  · rcases step_calls hx with hx | hx
    · exact h.calls x hx
    · exact ha x.1 x.2 hx
  · have hm := step_sendMoved s a w
    rw [hx] at hm
    generalize hy : some x = y at hm
    cases hm with
    | same => exact h.sends w x hy.symm
    | began side m phase =>
      obtain rfl := Option.some.inj hy
      exact ha side m (.sendReady side m w)
    | suspended x' hx' | resumed x' hx' =>
      obtain rfl := Option.some.inj hy
      exact h.sends w x' hx'

/-- What came out of a queue, followed by what it holds, is what it accepted. -/
theorem step_order {s : EndpointPair ρ κ μ} {a : Action ρ κ μ} {d : Side}
    (h : (s.sendQueue d).accepted = (s.sendQueue d).removed ++ (s.sendQueue d).q) :
    ((s.step a).sendQueue d).accepted =
      ((s.step a).sendQueue d).removed ++ ((s.step a).sendQueue d).q := by
  have hq := step_queue s a d
  generalize (s.step a).sendQueue d = x at hq
  cases hq with
  | same | closing => exact h
  | pushed m =>
    simp only [Queue.push, h, List.append_assoc]
  | popped m q hm =>
    simp only [h, hm, List.append_assoc, List.singleton_append]

/-! ## What the receives return -/

/-- The message that a call gives its receiver, of those that side `d` sends: a plain or a timed
    receive returns it, and the suspension of an awaiter puts it into `out`. The empty message
    that stands there for a queue closed and empty comes from no sender. -/
def received (s : EndpointPair ρ κ μ) (d : Side) : Action ρ κ μ → Option μ
  | .tryRecv side => if d = side.peer then (s.recvQueue side).tryRecv.1 else none
  | .tryRecvFor side => if d = side.peer then (s.recvQueue side).tryRecvFor.1 else none
  | .recvSuspend r =>
    match (s.recvs r).phase with
    | .suspending =>
      if d = (s.recvs r).side.peer ∧ (s.recvQueue (s.recvs r).side).q.isEmpty = false then
        ((s.recvSuspend r).recvs r).out
      else none
    | _ => none
  | _ => none

omit [DecidableEq ρ] [DecidableEq κ] [Inhabited μ] in
theorem removed_send (s : EndpointPair ρ κ μ) (side d : Side) (m : μ) :
    ((s.setSendQueue side ((s.sendQueue side).sendNowait m).2).sendQueue d).removed =
      (s.sendQueue d).removed := by
  rw [sendQueue_setSendQueue]
  split
  · next hd =>
    subst hd
    by_cases hroom : (s.sendQueue d).HasRoom
    · rw [Queue.sendNowait_room hroom]
      rfl
    · rw [Queue.sendNowait_noRoom hroom]
  · rfl

omit [DecidableEq ρ] [DecidableEq κ] [Inhabited μ] in
theorem removed_recv (s : EndpointPair ρ κ μ) (side d : Side) :
    ((s.setRecvQueue side (s.recvQueue side).tryRecv.2).sendQueue d).removed =
      (s.sendQueue d).removed ++
        (if d = side.peer then (s.recvQueue side).tryRecv.1 else none).toList := by
  rw [setRecvQueue_eq, sendQueue_setSendQueue, recvQueue_eq]
  split
  · next hd =>
    rw [← hd]
    simp only [Queue.tryRecv]
    split <;> simp
  · exact (List.append_nil _).symm

/-- What is removed from a queue is what the call gives its receiver. -/
theorem step_removed (s : EndpointPair ρ κ μ) (a : Action ρ κ μ) (d : Side) :
    ((s.step a).sendQueue d).removed = (s.sendQueue d).removed ++ (s.received d a).toList := by
  cases a with
  | tryRecv side => exact removed_recv s side d
  | tryRecvFor side =>
    simp only [step, received, Queue.tryRecvFor_eq]
    exact removed_recv s side d
  | recvSuspend r =>
    simp only [step, received]
    cases (s.recvs r).phase with
    | suspending =>
      cases hq : (s.recvQueue (s.recvs r).side).q with
      | nil =>
        have hnone : ¬ (d = (s.recvs r).side.peer ∧ ([] : List μ).isEmpty = false) := by simp
        rw [if_neg hnone, recvSuspend_nil hq]
        simp only [Option.toList_none, List.append_nil]
        split <;> rfl
      | cons m q =>
        have hout : (s.recvQueue (s.recvs r).side).tryRecv.1 = some m := by
          simp only [Queue.tryRecv, hq]
        have htaken := removed_recv s (s.recvs r).side d
        rw [hout] at htaken
        rw [recvSuspend_cons hq]
        refine htaken.trans ?_
        simp [setRecv]
    | created | ready | suspended | returned _ => exact (List.append_nil _).symm
  | sendNowait side m => exact (removed_send s side d m).trans (List.append_nil _).symm
  | trySendFor side m =>
    simp only [step, received, Option.toList_none, List.append_nil]
    split <;> rfl
  | endSendFor k =>
    simp only [step, received, Option.toList_none, List.append_nil]
    split
    · rfl
    · next side m _ =>
      rw [Queue.endSendFor_eq]
      exact removed_send s side d m
  | close side =>
    simp only [step, received, sendQueue_setSendQueue, Option.toList_none, List.append_nil]
    split
    · next hd => rw [hd]; rfl
    · rfl
  | recvReady side r | recvResume r | sendReady side m w =>
    simp only [step, received, Option.toList_none, List.append_nil]
    split <;> rfl
  | sendSuspend w | sendResume w =>
    simp only [step, received, Option.toList_none, List.append_nil]
    split
    · next x _ =>
      split
      · exact removed_send s x.side d x.msg
      · rfl
    · rfl

end EndpointPair

end NeuroVerse.Ipc
