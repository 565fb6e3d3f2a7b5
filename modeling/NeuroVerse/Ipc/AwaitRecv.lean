/-
  `co_await side.recv()` on an endpoint pair.

  `await_ready` looks at the queue without taking anything, so when it says true `await_resume`
  runs with no result set. When it says false, `await_suspend` takes the message itself and leaves
  the coroutine suspended, with nobody who could resume it. No receive ends with its message:
  the runs in which nothing goes wrong are those in which no receive gets so far
  (`await_recv_yields_iff`).
-/
import NeuroVerse.Ipc.EndpointPair

namespace NeuroVerse.Ipc

open Lib

namespace EndpointPair

variable {ρ κ μ : Type*} [DecidableEq ρ] [Inhabited μ]

/-- What an action can do to a receiving awaiter. -/
inductive Moved (s : EndpointPair ρ κ μ) (r : ρ) : Action ρ κ μ → RecvAwaiter μ → Prop
  | same (a : Action ρ κ μ) : Moved s r a (s.recvs r)
  | began (side : Side) (phase : RecvPhase μ) (hp : (s.recvs r).phase = .created)
      (hphase : phase = .ready ∨ phase = .suspending) :
    Moved s r (.recvReady side r) { s.recvs r with side := side, phase := phase }
  | emptied (hp : (s.recvs r).phase = .suspending)
      (hq : (s.recvQueue (s.recvs r).side).q = []) :
    Moved s r (.recvSuspend r) { s.recvs r with out := some default, phase := .suspended }
  | took (m : μ) (q : List μ) (hp : (s.recvs r).phase = .suspending)
      (hq : (s.recvQueue (s.recvs r).side).q = m :: q) :
    Moved s r (.recvSuspend r)
      { s.recvs r with out := some m, phase := .suspended, taken := (s.recvs r).taken ++ [m] }
  | resumed (hp : (s.recvs r).phase = .ready) :
    Moved s r (.recvResume r) { s.recvs r with phase := .returned (s.recvs r).out }

theorem setRecv_moved {s t : EndpointPair ρ κ μ} {a : Action ρ κ μ} {r r' : ρ}
    {x : RecvAwaiter μ} (ht : t.recvs = s.recvs) (h : r = r' → Moved s r a x) :
    Moved s r a ((t.setRecv r' x).recvs r) := by
  by_cases hr : r = r'
  · subst hr
    simpa only [setRecv, Function.update_self] using h rfl
  · simp only [setRecv, Function.update_of_ne hr, ht]
    exact .same a

theorem recvReady_moved {s : EndpointPair ρ κ μ} {side : Side} {r' : ρ}
    (hp : (s.recvs r').phase = .created) (r : ρ) :
    Moved s r (.recvReady side r') ((s.recvReady side r').recvs r) := by
  refine setRecv_moved rfl ?_
  rintro rfl
  refine .began side _ hp ?_
  split
  · exact Or.inl rfl
  · exact Or.inr rfl

theorem recvSuspend_moved {s : EndpointPair ρ κ μ} {r' : ρ}
    (hp : (s.recvs r').phase = .suspending) (r : ρ) :
    Moved s r (.recvSuspend r') ((s.recvSuspend r').recvs r) := by
  cases hq : (s.recvQueue (s.recvs r').side).q with
  | nil =>
    rw [recvSuspend_nil hq]
    split
    · refine setRecv_moved rfl ?_
      rintro rfl
      exact .emptied hp hq
    · exact .same _
  | cons m q =>
    rw [recvSuspend_cons hq]
    refine setRecv_moved (setRecvQueue_recvs _ _ _) ?_
    rintro rfl
    exact .took m q hp hq

variable [DecidableEq κ]

theorem step_moved (s : EndpointPair ρ κ μ) (a : Action ρ κ μ) (r : ρ) :
    Moved s r a ((s.step a).recvs r) := by
  have hsame : ∀ t : EndpointPair ρ κ μ, t.recvs = s.recvs → Moved s r a (t.recvs r) := by
    intro t ht
    rw [ht]
    exact .same a
  cases a with
  | recvReady side r' =>
    simp only [step]
    split
    · next hp => exact recvReady_moved hp r
    · exact .same _
  | recvSuspend r' =>
    simp only [step]
    split
    · next hp => exact recvSuspend_moved hp r
    · exact .same _
  | recvResume r' =>
    simp only [step]
    split
    · next hp =>
      refine setRecv_moved rfl ?_
      rintro rfl
      exact .resumed hp
    · exact .same _
  | sendNowait side m => exact hsame _ (setSendQueue_recvs _ _ _)
  | tryRecv side => exact hsame _ (setRecvQueue_recvs _ _ _)
  | tryRecvFor side => exact hsame _ (setRecvQueue_recvs _ _ _)
  | close side => exact hsame _ (setSendQueue_recvs _ _ _)
  | trySendFor side m =>
    simp only [step]
    split <;> exact .same _
  | endSendFor k =>
    simp only [step]
    split
    · exact .same _
    · exact hsame _ (setSendQueue_recvs _ _ _)
  | sendReady side m w =>
    simp only [step]
    split <;> exact .same _
  | sendSuspend w | sendResume w =>
    simp only [step]
    split
    · split
      · exact hsame _ (awaiterSend_recvs _ _ _ _)
      · exact .same _
    · exact .same _

/-! ## What becomes of a receive -/

/-- No message is in the awaiter's hands before the end of its wait, nor when it has returned. -/
def Unset (x : RecvAwaiter μ) : Prop :=
  match x.phase with
  | .suspended => True
  | .returned v => v = none ∧ x.taken = []
  | _ => x.out = none ∧ x.taken = []

theorem step_unset (s : EndpointPair ρ κ μ) (a : Action ρ κ μ)
    (h : ∀ r, Unset (s.recvs r)) (r : ρ) : Unset ((s.step a).recvs r) := by
  have hr := h r
  have hm := step_moved s a r
  generalize (s.step a).recvs r = x at hm
  cases hm with
  | same => exact hr
  | began side phase hp hphase =>
    simp only [Unset, hp] at hr
    rcases hphase with rfl | rfl <;> exact hr
  | emptied | took => trivial
  | resumed hp =>
    simp only [Unset, hp] at hr
    exact hr

theorem after_unset (capacity : Nat) (ops : List (Action ρ κ μ)) (r : ρ) :
    Unset ((after capacity ops).recvs r) :=
  run_invariant (I := fun s : EndpointPair ρ κ μ => ∀ r, Unset (s.recvs r)) (s := new capacity)
    (fun _ => ⟨rfl, rfl⟩) step_unset ops r

/-- A coroutine that `await_suspend` left suspended is never resumed. -/
theorem suspended_forever {s : EndpointPair ρ κ μ} {r : ρ} (h : (s.recvs r).phase = .suspended)
    (more : List (Action ρ κ μ)) : ((run step s more).recvs r).phase = .suspended := by
  refine run_invariant (I := fun s : EndpointPair ρ κ μ => (s.recvs r).phase = .suspended) h
    (fun s a h => ?_) more
  have hm := step_moved s a r
  generalize (s.step a).recvs r = x at hm
  cases hm with
  | same => exact h
  | began _ _ hp | emptied hp | took _ _ hp | resumed hp => simp [h] at hp

/-- What a receive should come to. -/
structure Yields (s : EndpointPair ρ κ μ) : Prop where
  /-- `await_resume` gives the one message that this receive removed from the front of its queue,
      or an empty one if it removed none and the queue is closed. -/
  resumed : ∀ r v, (s.recvs r).phase = .returned v →
    (∃ m, v = some m ∧ (s.recvs r).taken = [m]) ∨
      (v = some default ∧ (s.recvs r).taken = [] ∧ (s.recvQueue (s.recvs r).side).closed = true)
  /-- A coroutine suspended with its message taken can be resumed. -/
  held : ∀ r, (s.recvs r).phase = .suspended → (s.recvs r).taken ≠ [] →
    ∃ more, ((run step s more).recvs r).phase ≠ .suspended

/-- The action brings no receive to its end: no `await_resume` runs, and no wait of
    `await_suspend` ends with a message. -/
def Fruitless (s : EndpointPair ρ κ μ) : Action ρ κ μ → Prop
  | .recvSuspend r => (s.recvs r).phase = .suspending → (s.recvQueue (s.recvs r).side).q = []
  | .recvResume r => (s.recvs r).phase ≠ .ready
  | _ => True

/-- The invariant of the runs whose actions are fruitless. -/
def Unserved (x : RecvAwaiter μ) : Prop :=
  match x.phase with
  | .returned _ => False
  | _ => x.taken = []

theorem step_unserved {s : EndpointPair ρ κ μ} {a : Action ρ κ μ} (ha : Fruitless s a)
    (h : ∀ r, Unserved (s.recvs r)) (r : ρ) : Unserved ((s.step a).recvs r) := by
  have hr := h r
  have hm := step_moved s a r
  generalize (s.step a).recvs r = x at hm
  cases hm with
  | same => exact hr
  | began side phase hp hphase =>
    simp only [Unserved, hp] at hr
    rcases hphase with rfl | rfl <;> exact hr
  | emptied hp =>
    simp only [Unserved, hp] at hr
    exact hr
  | took m q hp hq => exact absurd (ha hp) (hq ▸ List.cons_ne_nil m q)
  | resumed hp => exact absurd hp ha

/-- As long as no receive comes to its end, nothing is wrong. -/
theorem yields_of_unserved {s : EndpointPair ρ κ μ} (h : ∀ r, Unserved (s.recvs r)) :
    Yields s := by
  refine ⟨fun r v hv => ?_, fun r hp htaken => ?_⟩
  · have hr := h r
    simp only [Unserved, hv] at hr
  · have hr := h r
    simp only [Unserved, hp] at hr
    exact absurd hr htaken

/-- A receive that comes to its end goes wrong: it returns nothing, or takes its message and is
    suspended for good. -/
theorem fruitless_of_yields {s : EndpointPair ρ κ μ} {a : Action ρ κ μ}
    (hs : ∀ r, Unset (s.recvs r)) (h : Yields (s.step a)) : Fruitless s a := by
  cases a with
  | recvSuspend r =>
    intro hp
    cases hq : (s.recvQueue (s.recvs r).side).q with
    | nil => rfl
    | cons m q =>
      have hstep : ((s.step (.recvSuspend r)).recvs r) = { s.recvs r with
          out := some m, phase := .suspended, taken := (s.recvs r).taken ++ [m] } := by
        simp only [step, hp, recvSuspend_cons hq, setRecv, Function.update_self]
      obtain ⟨more, hmore⟩ := h.held r (by rw [hstep]) (by rw [hstep]; simp)
      exact absurd (suspended_forever (by rw [hstep]) more) hmore
  | recvResume r =>
    intro hp
    have hr := hs r
    simp only [Unset, hp] at hr
    have hstep : ((s.step (.recvResume r)).recvs r) = { s.recvs r with
        phase := .returned (s.recvs r).out } := by
      simp only [step, hp, recvResume, setRecv, Function.update_self]
    rcases h.resumed r none (by rw [hstep, hr.1]) with ⟨m, hm, -⟩ | ⟨hm, -⟩
    · cases hm
    · cases hm
  | _ => trivial

/-- No receive awaited on a side ends as it should: `await_resume` never has a result, and a
    coroutine left suspended is never resumed. So the states of a run are as they should be
    exactly when no receive of the run comes to its end. -/
theorem await_recv_yields_iff (capacity : Nat) (ops : List (Action ρ κ μ)) :
    ((∀ pre, pre <+: ops → Yields (after capacity pre)) ↔
      StepsMeet step Fruitless (new capacity) ops) ∧
    (∀ r, ((after capacity ops).recvs r).phase = .ready →
      ((after capacity ops).recvs r).out = none) ∧
    ∀ r, ((after capacity ops).recvs r).phase = .suspended → ∀ more,
      ((after capacity (ops ++ more)).recvs r).phase = .suspended := by
  refine ⟨?_, fun r hp => ?_, fun r hp more => ?_⟩
  · exact holds_iff_meet (I := fun s : EndpointPair ρ κ μ => ∀ r, Unserved (s.recvs r))
      (J := fun s : EndpointPair ρ κ μ => ∀ r, Unset (s.recvs r)) (s := new capacity)
      (fun _ => rfl) (fun _ _ hr ha => step_unserved ha hr) (fun _ => yields_of_unserved)
      (fun _ => ⟨rfl, rfl⟩) step_unset (fun _ _ => fruitless_of_yields) ops
  · have hr := after_unset capacity ops r
    simp only [Unset, hp] at hr
    exact hr.1
  · rw [after, run_append]
    exact suspended_forever hp more

/-- A message is there when the receive is awaited: it stays in the queue, and `await_resume`
    has nothing to give. -/
theorem awaited_recv_empty :
    ¬ ∀ (capacity : Nat) (ops : List (Action Nat Nat Nat)), Yields (after capacity ops) := by
  intro h
  have hlost := (h 64 [.sendNowait .a 10, .recvReady .b 0, .recvResume 0]).resumed 0 none
    (by decide)
  rcases hlost with ⟨m, hm, -⟩ | ⟨hm, -⟩
  · cases hm
  · cases hm

end EndpointPair

end NeuroVerse.Ipc
