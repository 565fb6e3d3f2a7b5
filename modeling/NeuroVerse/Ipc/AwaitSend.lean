/-
  `co_await side.send(m)` on an endpoint pair.

  The message is offered to the queue once, in the step that ends the wait, and the result of
  that offer is ignored. After a ready check the queue may have filled up by then, and the
  message is dropped. Without one the queue was full, so that the offer fails unless the peer
  has drained it meanwhile, and the coroutine is left suspended with nobody who could resume it.
  The runs in which every send keeps its message are those in which no send is suspended and each
  one that found room still finds it (`await_send_keeps_iff`).
-/
import NeuroVerse.Ipc.EndpointPair

namespace NeuroVerse.Ipc

open Lib

namespace EndpointPair

variable {ρ κ μ : Type*}

@[simp] theorem setSendQueue_sends (s : EndpointPair ρ κ μ) (side : Side) (x : Queue μ) :
    (s.setSendQueue side x).sends = s.sends := by
  cases side <;> rfl

@[simp] theorem setRecvQueue_sends (s : EndpointPair ρ κ μ) (side : Side) (x : Queue μ) :
    (s.setRecvQueue side x).sends = s.sends := by
  cases side <;> rfl

/-! ## The offer -/

/-- The awaiter once it has made its offer. -/
def SendAwaiter.offered (x : SendAwaiter μ) (queue : Queue μ) (phase : SendPhase) :
    SendAwaiter μ :=
  { x with phase := phase, accepted := if queue.HasRoom then x.accepted + 1 else x.accepted }

/-- The counter of an awaiter goes up exactly when the queue it sends into accepts its message. -/
theorem offered_accepted (x : SendAwaiter μ) (queue : Queue μ) (phase : SendPhase) :
    ((x.offered queue phase).accepted = x.accepted + 1 ∧
      (queue.sendNowait x.msg).2.accepted = queue.accepted ++ [x.msg]) ∨
    ((x.offered queue phase).accepted = x.accepted ∧
      (queue.sendNowait x.msg).2.accepted = queue.accepted) := by
  by_cases h : queue.HasRoom
  · rw [Queue.sendNowait_room h]
    exact Or.inl ⟨if_pos h, rfl⟩
  · rw [Queue.sendNowait_noRoom h]
    exact Or.inr ⟨if_neg h, rfl⟩

variable [DecidableEq κ]

theorem awaiterSend_sends (s : EndpointPair ρ κ μ) (w : κ) (x : SendAwaiter μ)
    (phase : SendPhase) :
    (s.awaiterSend w x phase).sends =
      Function.update s.sends w (some (x.offered (s.sendQueue x.side) phase)) := by
  by_cases h : (s.sendQueue x.side).HasRoom
  · simp only [awaiterSend, Queue.sendNowait_room h, setSend, setSendQueue_sends,
      SendAwaiter.offered, if_pos h, if_true]
  · simp only [awaiterSend, Queue.sendNowait_noRoom h, setSend, setSendQueue_sends,
      SendAwaiter.offered, if_neg h, Bool.false_eq_true, if_false]

/-! ## What an action can do to a send -/

/-- What an action can do to a sending awaiter. -/
inductive SendMoved (s : EndpointPair ρ κ μ) (w : κ) : Action ρ κ μ → Option (SendAwaiter μ) → Prop
  | same (a : Action ρ κ μ) : SendMoved s w a (s.sends w)
  | began (side : Side) (m : μ) (phase : SendPhase) (hnew : s.sends w = none)
      (hphase : phase = .ready ∨ phase = .suspending) :
    SendMoved s w (.sendReady side m w) (some { side := side, msg := m, phase := phase })
  | suspended (x : SendAwaiter μ) (hx : s.sends w = some x) (hp : x.phase = .suspending) :
    SendMoved s w (.sendSuspend w) (some (x.offered (s.sendQueue x.side) .suspended))
  | resumed (x : SendAwaiter μ) (hx : s.sends w = some x) (hp : x.phase = .ready) :
    SendMoved s w (.sendResume w) (some (x.offered (s.sendQueue x.side) .returned))

theorem sendMoved_update {s : EndpointPair ρ κ μ} {a : Action ρ κ μ} {w w' : κ}
    {x : SendAwaiter μ} (h : w = w' → SendMoved s w a (some x)) :
    SendMoved s w a (Function.update s.sends w' (some x) w) := by
  by_cases hw : w = w'
  · subst hw
    rw [Function.update_self]
    exact h rfl
  · rw [Function.update_of_ne hw]
    exact .same a

theorem sendReady_moved {s : EndpointPair ρ κ μ} {w' : κ} (hnew : s.sends w' = none) (side : Side)
    (m : μ) (w : κ) : SendMoved s w (.sendReady side m w') ((s.sendReady side m w').sends w) := by
  apply sendMoved_update
  rintro rfl
  refine .began side m _ hnew ?_
  split
  · exact Or.inl rfl
  · exact Or.inr rfl

theorem awaiterSend_moved {s : EndpointPair ρ κ μ} {a : Action ρ κ μ} {w w' : κ}
    {x : SendAwaiter μ} {phase : SendPhase}
    (h : w = w' → SendMoved s w a (some (x.offered (s.sendQueue x.side) phase))) :
    SendMoved s w a ((s.awaiterSend w' x phase).sends w) := by
  rw [awaiterSend_sends]
  exact sendMoved_update h

variable [DecidableEq ρ] [Inhabited μ]

omit [DecidableEq κ] in
@[simp] theorem recvSuspend_sends (s : EndpointPair ρ κ μ) (r : ρ) :
    (s.recvSuspend r).sends = s.sends := by
  cases hq : (s.recvQueue (s.recvs r).side).q with
  | nil =>
    rw [recvSuspend_nil hq]
    split <;> rfl
  | cons m q =>
    rw [recvSuspend_cons hq]
    exact setRecvQueue_sends _ _ _

theorem step_sendMoved (s : EndpointPair ρ κ μ) (a : Action ρ κ μ) (w : κ) :
    SendMoved s w a ((s.step a).sends w) := by
  have hsame : ∀ t : EndpointPair ρ κ μ, t.sends = s.sends → SendMoved s w a (t.sends w) := by
    intro t ht
    rw [ht]
    exact .same a
  cases a with
  | sendReady side m w' =>
    simp only [step]
    split
    · next hnew => exact sendReady_moved hnew side m w
    · exact .same _
  | sendSuspend w' =>
    simp only [step]
    split
    · next x hx =>
      split
      · next hp =>
        apply awaiterSend_moved
        rintro rfl
        exact .suspended x hx hp
      · exact .same _
    · exact .same _
  | sendResume w' =>
    simp only [step]
    split
    · next x hx =>
      split
      · next hp =>
        apply awaiterSend_moved
        rintro rfl
        exact .resumed x hx hp
      · exact .same _
    · exact .same _
  | sendNowait side m => exact hsame _ (setSendQueue_sends _ _ _)
  | tryRecv side => exact hsame _ (setRecvQueue_sends _ _ _)
  | tryRecvFor side => exact hsame _ (setRecvQueue_sends _ _ _)
  | close side => exact hsame _ (setSendQueue_sends _ _ _)
  | trySendFor side m =>
    simp only [step]
    split <;> exact .same _
  | endSendFor k =>
    simp only [step]
    split
    · exact .same _
    · exact hsame _ (setSendQueue_sends _ _ _)
  | recvReady side r | recvResume r =>
    simp only [step]
    split <;> exact .same _
  | recvSuspend r =>
    simp only [step]
    split
    · exact hsame _ (recvSuspend_sends s r)
    · exact .same _

/-! ## What becomes of a send -/

/-- The message is offered by the step that ends the wait, and not before. -/
def Unoffered (x : SendAwaiter μ) : Prop :=
  match x.phase with
  | .suspended | .returned => True
  | _ => x.accepted = 0

theorem step_unoffered (s : EndpointPair ρ κ μ) (a : Action ρ κ μ)
    (h : ∀ w x, s.sends w = some x → Unoffered x) (w : κ) (x : SendAwaiter μ)
    (hx : (s.step a).sends w = some x) : Unoffered x := by
  have hm := step_sendMoved s a w
  rw [hx] at hm
  generalize hy : some x = y at hm
  cases hm with
  | same => exact h w x hy.symm
  | began side m phase _ hphase =>
    obtain rfl := Option.some.inj hy
    rcases hphase with rfl | rfl <;> rfl
  | suspended | resumed =>
    obtain rfl := Option.some.inj hy
    trivial

/-- A coroutine that `await_suspend` left suspended is never resumed, and its message is not
    offered again. -/
theorem send_suspended_forever {s : EndpointPair ρ κ μ} {w : κ} {x : SendAwaiter μ}
    (hx : s.sends w = some x) (hp : x.phase = .suspended) (more : List (Action ρ κ μ)) :
    (run step s more).sends w = some x := by
  refine run_invariant (I := fun s : EndpointPair ρ κ μ => s.sends w = some x) hx
    (fun s a h => ?_) more
  have hm := step_sendMoved s a w
  generalize (s.step a).sends w = y at hm
  cases hm with
  | same => exact h
  | began _ _ _ hnew => simp [h] at hnew
  | suspended z hz hp' | resumed z hz hp' =>
    obtain rfl := Option.some.inj (h.symm.trans hz)
    simp [hp] at hp'

/-- What a send should come to. -/
structure Keeps (s : EndpointPair ρ κ μ) : Prop where
  /-- When the await is over and the queue is open, the message was accepted once. -/
  enqueued : ∀ w x, s.sends w = some x → x.phase = .returned →
    (s.sendQueue x.side).closed = false → x.accepted = 1
  /-- The message of a suspended coroutine is accepted, already or later. -/
  kept : ∀ w x, s.sends w = some x → x.phase = .suspended →
    ∃ more y, (run step s more).sends w = some y ∧ y.accepted = 1
  /-- A suspended coroutine can be resumed. -/
  held : ∀ w x, s.sends w = some x → x.phase = .suspended →
    ∃ more y, (run step s more).sends w = some y ∧ y.phase ≠ .suspended

/-- The action suspends no send, and a send that found room still finds it when it resumes,
    unless the queue is closed. -/
def Unhindered (s : EndpointPair ρ κ μ) : Action ρ κ μ → Prop
  | .sendSuspend w => ∀ x, s.sends w = some x → x.phase ≠ .suspending
  | .sendResume w => ∀ x, s.sends w = some x → x.phase = .ready →
    (s.sendQueue x.side).closed = true ∨ (s.sendQueue x.side).HasRoom
  | _ => True

/-- The invariant of the runs whose actions are unhindered. -/
def Settled (s : EndpointPair ρ κ μ) (x : SendAwaiter μ) : Prop :=
  match x.phase with
  | .suspended => False
  | .returned => x.accepted = 1 ∨ (s.sendQueue x.side).closed = true
  | _ => x.accepted = 0

theorem Settled.step {s : EndpointPair ρ κ μ} {x : SendAwaiter μ} (h : Settled s x)
    (a : Action ρ κ μ) : Settled (s.step a) x := by
  unfold Settled at h ⊢
  split at h
  · exact h
  · exact h.imp_right (step_closed s a x.side)
  · exact h

theorem step_settled {s : EndpointPair ρ κ μ} {a : Action ρ κ μ} (ha : Unhindered s a)
    (h : ∀ w x, s.sends w = some x → Settled s x) (w : κ) (x : SendAwaiter μ)
    (hx : (s.step a).sends w = some x) : Settled (s.step a) x := by
  have hm := step_sendMoved s a w
  rw [hx] at hm
  generalize hy : some x = y at hm
  cases hm with
  | same => exact (h w x hy.symm).step a
  | began side m phase _ hphase =>
    obtain rfl := Option.some.inj hy
    rcases hphase with rfl | rfl <;> rfl
  | suspended z hz hp => exact absurd hp (ha z hz)
  | resumed z hz hp =>
    obtain rfl := Option.some.inj hy
    have hz0 := h w z hz
    simp only [Settled, hp] at hz0
    rcases ha z hz hp with hc | hroom
    · exact Or.inr (step_closed s _ z.side hc)
    · refine Or.inl ?_
      rw [SendAwaiter.offered, if_pos hroom, hz0]

theorem keeps_of_settled {s : EndpointPair ρ κ μ}
    (h : ∀ w x, s.sends w = some x → Settled s x) : Keeps s := by
  refine ⟨fun w x hx hp hopen => ?_, fun w x hx hp => ?_, fun w x hx hp => ?_⟩
  all_goals
    have hw := h w x hx
    simp only [Settled, hp] at hw
  rcases hw with hw | hw
  · exact hw
  · rw [hw] at hopen
    cases hopen

/-- A send that is suspended stays so, and one that finds no room is dropped. -/
theorem unhindered_of_keeps {s : EndpointPair ρ κ μ} {a : Action ρ κ μ}
    (hs : ∀ w x, s.sends w = some x → Unoffered x) (h : Keeps (s.step a)) : Unhindered s a := by
  cases a with
  | sendSuspend w =>
    intro x hx hp
    have hstep : (s.step (.sendSuspend w)).sends w =
        some (x.offered (s.sendQueue x.side) .suspended) := by
      simp only [step, hx, hp, if_true, awaiterSend_sends, Function.update_self]
    obtain ⟨more, y, hy, hne⟩ := h.held w _ hstep rfl
    rw [send_suspended_forever hstep rfl more] at hy
    obtain rfl := Option.some.inj hy
    exact hne rfl
  | sendResume w =>
    intro x hx hp
    by_contra hcon
    rw [not_or] at hcon
    have hzero := hs w x hx
    simp only [Unoffered, hp] at hzero
    have hstep : s.step (.sendResume w) = s.awaiterSend w x .returned := by
      simp only [step, hx, hp, if_true]
    have hsend : (s.step (.sendResume w)).sends w =
        some (x.offered (s.sendQueue x.side) .returned) := by
      rw [hstep, awaiterSend_sends, Function.update_self]
    have hopen : ((s.step (.sendResume w)).sendQueue x.side).closed = false := by
      rw [hstep, awaiterSend, Queue.sendNowait_noRoom hcon.2]
      have : (s.setSendQueue x.side (s.sendQueue x.side)).sendQueue x.side =
          s.sendQueue x.side := by
        rw [sendQueue_setSendQueue, if_pos rfl]
      exact (congrArg Queue.closed this).trans (Bool.eq_false_iff.mpr hcon.1)
    have hone := h.enqueued w _ hsend rfl hopen
    rw [SendAwaiter.offered, if_neg hcon.2, hzero] at hone
    cases hone
  | _ => trivial

/-- The states of a run are as the sends want them exactly when no send of the run is suspended
    and none that found room has lost it by the time it resumes. A suspended send is never
    resumed, and what became of its message does not change any more. -/
theorem await_send_keeps_iff (capacity : Nat) (ops : List (Action ρ κ μ)) :
    ((∀ pre, pre <+: ops → Keeps (after capacity pre)) ↔
      StepsMeet step Unhindered (new capacity) ops) ∧
    ∀ w x, (after capacity ops).sends w = some x → x.phase = .suspended → ∀ more,
      (after capacity (ops ++ more)).sends w = some x := by
  constructor
  · exact holds_iff_meet
      (I := fun s : EndpointPair ρ κ μ => ∀ w x, s.sends w = some x → Settled s x)
      (J := fun s : EndpointPair ρ κ μ => ∀ w x, s.sends w = some x → Unoffered x)
      (s := new capacity) (fun _ _ h => nomatch h) (fun _ _ hs ha => step_settled ha hs)
      (fun _ => keeps_of_settled) (fun _ _ h => nomatch h) step_unoffered
      (fun _ _ => unhindered_of_keeps) ops
  · intro w x hx hp more
    rw [after, run_append]
    exact send_suspended_forever hx hp more

/-- Two senders find the one free place: the second to resume drops its message. -/
theorem awaited_send_dropped :
    ¬ ∀ (capacity : Nat) (ops : List (Action Nat Nat Nat)), 1 ≤ capacity →
      Keeps (after capacity ops) := by
  intro h
  have hlost := (h 1 [.sendReady .a 10 0, .sendReady .a 11 1, .sendResume 0, .sendResume 1]
    (by decide)).enqueued 1 { side := .a, msg := 11, phase := .returned, accepted := 0 }
    (by rfl) rfl (by rfl)
  cases hlost

end EndpointPair

end NeuroVerse.Ipc
