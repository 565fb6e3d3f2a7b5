/-
  What the endpoint promises its senders and receivers.

  Whenever receivers are parked the queue is empty and open, and each awaiter stands at one of
  five stages (`Stands`). So what was sent before the close is what was delivered followed by what
  is queued, in that order, and a coroutine that was parked is either still parked, due to be
  resumed, or resumed, once. What the calls return to their callers is what was delivered to them
  (`endpoint_delivers`).
-/
import NeuroVerse.Ipc.Endpoint
import Mathlib.Data.List.Perm.Basic

namespace NeuroVerse.Ipc

open Lib

namespace Endpoint

variable {ρ μ : Type*} [Inhabited μ]

/-! ## The life of an awaiter -/

/-- What an awaiter gives: the one message delivered to it, or an empty one if there is none and
    the endpoint was closed. -/
def Gives (got : List μ) (closed : Bool) (v : μ) : Prop :=
  got = [v] ∨ v = default ∧ closed = true ∧ got = []

/-- An awaiter at each stage of its life, by the number of its places among the parked and among
    those to be resumed, and what was delivered to it. -/
inductive Stands (r : ρ) (x : RecvAwaiter ρ μ) (waiting due : Nat) (got : List μ)
    (closed : Bool) : Prop
  | fresh (hp : x.phase = .created ∨ x.phase = .suspending) (hn : x.parked = 0 ∧ x.resumed = 0)
      (hw : waiting = 0) (hr : due = 0) (hg : got = [])
  | parked (hp : x.phase = .parked) (hc : x.continuation = some r)
      (hn : x.parked = 1 ∧ x.resumed = 0) (hw : waiting = 1) (hr : due = 0) (hg : got = [])
  | due (hp : x.phase = .parked) (hn : x.parked = 1 ∧ x.resumed = 0) (hw : waiting = 0)
      (hr : due = 1) (hg : Gives got closed (x.result.getD default))
  | ready (hp : x.phase = .ready) (hn : x.parked = x.resumed ∧ x.resumed ≤ 1) (hw : waiting = 0)
      (hr : due = 0) (hg : Gives got closed (x.result.getD default))
  | returned (v : μ) (hp : x.phase = .returned v) (hn : x.parked = x.resumed ∧ x.resumed ≤ 1)
      (hw : waiting = 0) (hr : due = 0) (hg : Gives got closed v)

variable {r : ρ} {x : RecvAwaiter ρ μ} {waiting due : Nat} {got : List μ} {closed : Bool}

theorem Gives.close {v : μ} (h : Gives got closed v) : Gives got true v :=
  h.imp_right fun ⟨hv, _, hg⟩ => ⟨hv, rfl, hg⟩

theorem Stands.close (h : Stands r x waiting due got closed) : Stands r x waiting due got true := by
  cases h with
  | fresh hp hn hw hr hg => exact .fresh hp hn hw hr hg
  | parked hp hc hn hw hr hg => exact .parked hp hc hn hw hr hg
  | due hp hn hw hr hg => exact .due hp hn hw hr hg.close
  | ready hp hn hw hr hg => exact .ready hp hn hw hr hg.close
  | returned v hp hn hw hr hg => exact .returned v hp hn hw hr hg.close

theorem Stands.of_fresh (h : Stands r x waiting due got closed)
    (hp : x.phase = .created ∨ x.phase = .suspending) :
    (x.parked = 0 ∧ x.resumed = 0) ∧ waiting = 0 ∧ due = 0 ∧ got = [] := by
  cases h with
  | fresh _ hn hw hr hg => exact ⟨hn, hw, hr, hg⟩
  | parked hp' | due hp' | ready hp' | returned _ hp' => simp [hp'] at hp

theorem Stands.of_waiting (h : Stands r x waiting due got closed) (hw : 0 < waiting) :
    (x.phase = .parked ∧ x.continuation = some r ∧ x.parked = 1 ∧ x.resumed = 0) ∧
      waiting = 1 ∧ due = 0 ∧ got = [] := by
  cases h with
  | parked hp hc hn hw hr hg => exact ⟨⟨hp, hc, hn⟩, hw, hr, hg⟩
  | fresh _ _ hw | due _ _ hw | ready _ _ hw | returned _ _ _ hw => omega

theorem Stands.of_due (h : Stands r x waiting due got closed) (hr : 0 < due) :
    (x.phase = .parked ∧ x.parked = 1 ∧ x.resumed = 0) ∧ waiting = 0 ∧ due = 1 ∧
      Gives got closed (x.result.getD default) := by
  cases h with
  | due hp hn hw hr hg => exact ⟨⟨hp, hn⟩, hw, hr, hg⟩
  | fresh _ _ _ hr | parked _ _ _ _ hr | ready _ _ _ hr | returned _ _ _ _ hr => omega

theorem Stands.of_ready (h : Stands r x waiting due got closed) (hp : x.phase = .ready) :
    (x.parked = x.resumed ∧ x.resumed ≤ 1) ∧ waiting = 0 ∧ due = 0 ∧
      Gives got closed (x.result.getD default) := by
  cases h with
  | ready _ hn hw hr hg => exact ⟨hn, hw, hr, hg⟩
  | fresh hp' | parked hp' | due hp' | returned _ hp' => simp [hp] at hp'

theorem Stands.of_parked (h : Stands r x waiting due got closed) (hp : x.phase = .parked)
    (hw : waiting = 0) : due = 1 := by
  cases h with
  | due _ _ _ hr => exact hr
  | parked _ _ _ hw' => omega
  | fresh hp' | ready hp' | returned _ hp' => simp [hp] at hp'

/-! ## The endpoint along a run -/

variable [DecidableEq ρ]

/-- The invariant of the endpoint. -/
structure Sound (s : Endpoint ρ μ) : Prop where
  parked : s.waiters ≠ [] → s.queue = [] ∧ s.closed = false
  order : s.sent = s.delivered.map Delivery.message ++ s.queue
  stands : ∀ r, Stands r (s.awaiter r) (s.waiters.count r) (s.resumes.count r)
    (deliveredTo s.delivered r) s.closed

/-- A step of awaiter `w` leaves the others where they stand. -/
theorem stands_setAwaiter {s : Endpoint ρ μ} {w : ρ} {x : RecvAwaiter ρ μ}
    {waiters resumes : List ρ} {delivered : List (Delivery ρ μ)} {closed : Bool}
    (hw : Stands w x (waiters.count w) (resumes.count w) (deliveredTo delivered w) closed)
    (h : ∀ r ≠ w, Stands r (s.awaiter r) (waiters.count r) (resumes.count r)
      (deliveredTo delivered r) closed) (r : ρ) :
    Stands r ((s.setAwaiter w x).awaiter r) (waiters.count r) (resumes.count r)
      (deliveredTo delivered r) closed := by
  by_cases hr : r = w
  · subst hr
    simpa only [setAwaiter, Function.update_self] using hw
  · simpa only [setAwaiter, Function.update_of_ne hr] using h r hr

theorem handed_sound {s : Endpoint ρ μ} (h : Sound s) {m : μ} {w : ρ} {waiters : List ρ}
    (hw : s.waiters = w :: waiters) :
    Sound { s.setAwaiter w { s.awaiter w with result := some m } with
      waiters := waiters
      resumes := s.resumes ++ (s.awaiter w).continuation.toList
      delivered := s.delivered ++ [⟨some w, m⟩]
      sent := if s.closed then s.sent else s.sent ++ [m] } := by
  have hne : s.waiters ≠ [] := hw ▸ List.cons_ne_nil w waiters
  obtain ⟨hqueue, hopen⟩ := h.parked hne
  obtain ⟨⟨hp, hc, hn⟩, hcount, hdue, hgot⟩ :=
    (h.stands w).of_waiting (List.count_pos_iff.mpr (hw ▸ List.mem_cons_self))
  have hrest : waiters.count w = 0 := by
    rw [hw, List.count_cons_self] at hcount
    omega
  refine ⟨fun _ => ⟨hqueue, hopen⟩, ?_, stands_setAwaiter ?_ fun r hr => ?_⟩
  · simp [hopen, h.order, hqueue]
  · refine .due hp hn hrest ?_ (Or.inl ?_)
    · rw [hc, List.count_append, hdue]
      simp
    · rw [deliveredTo_snoc_self, hgot]
      rfl
  · have hr' := h.stands r
    rw [hw, List.count_cons_of_ne (Ne.symm hr)] at hr'
    rw [hc, List.count_append, deliveredTo_snoc_other _ m hr]
    simpa [Ne.symm hr] using hr'

theorem took_sound {s : Endpoint ρ μ} (h : Sound s) {r : ρ} {m : μ} {queue : List μ}
    (hq : s.queue = m :: queue)
    (hp : (s.awaiter r).phase = .created ∨ (s.awaiter r).phase = .suspending) :
    Sound { s.setAwaiter r { s.awaiter r with result := some m, phase := .ready } with
      queue := queue, delivered := s.delivered ++ [⟨some r, m⟩] } := by
  obtain ⟨hn, hw, hdue, hgot⟩ := (h.stands r).of_fresh hp
  refine ⟨fun hne => ?_, ?_, stands_setAwaiter ?_ fun r' hr => ?_⟩
  · exact absurd (h.parked hne).1 (hq ▸ List.cons_ne_nil m queue)
  · simp [h.order, hq, setAwaiter]
  · refine .ready rfl ⟨hn.1.trans hn.2.symm, hn.2 ▸ Nat.zero_le 1⟩ hw hdue (Or.inl ?_)
    rw [deliveredTo_snoc_self, hgot]
    rfl
  · rw [deliveredTo_snoc_other _ m hr]
    exact h.stands r'

theorem parked_sound {s : Endpoint ρ μ} (h : Sound s) {r : ρ}
    (hp : (s.awaiter r).phase = .suspending) (hq : s.queue = []) (hc : s.closed = false) :
    Sound { s.setAwaiter r { s.awaiter r with
        continuation := some r, phase := .parked, parked := (s.awaiter r).parked + 1 } with
      waiters := s.waiters ++ [r] } := by
  obtain ⟨hn, hw, hdue, hgot⟩ := (h.stands r).of_fresh (Or.inr hp)
  refine ⟨fun _ => ⟨hq, hc⟩, h.order, stands_setAwaiter ?_ fun r' hr => ?_⟩
  · refine .parked rfl rfl ⟨congrArg Nat.succ hn.1, hn.2⟩ ?_ hdue hgot
    rw [List.count_append, hw]
    simp
  · rw [List.count_append]
    simpa [Ne.symm hr] using h.stands r'

theorem resumed_sound {s : Endpoint ρ μ} (h : Sound s) {k : Nat} {r : ρ}
    (hr : s.resumes[k]? = some r) :
    Sound { s.setAwaiter r { s.awaiter r with
        phase := .ready, resumed := (s.awaiter r).resumed + 1 } with
      resumes := s.resumes.eraseIdx k } := by
  obtain ⟨hk, hget⟩ := List.getElem?_eq_some_iff.mp hr
  have hperm := List.getElem_cons_eraseIdx_perm hk
  rw [hget] at hperm
  obtain ⟨⟨-, hn⟩, hw, hdue, hgives⟩ :=
    (h.stands r).of_due (List.count_pos_iff.mpr (List.mem_of_getElem? hr))
  have hself : (s.resumes.eraseIdx k).count r = 0 := by
    have hcount := hperm.count_eq r
    rw [List.count_cons_self, hdue] at hcount
    omega
  have hsucc : (s.awaiter r).resumed + 1 = 1 := congrArg Nat.succ hn.2
  refine ⟨h.parked, h.order, stands_setAwaiter ?_ fun r' hr' => ?_⟩
  · exact .ready rfl ⟨hn.1.trans hsucc.symm, Nat.le_of_eq hsucc⟩ hw hself hgives
  · have hcount := hperm.count_eq r'
    rw [List.count_cons_of_ne (Ne.symm hr')] at hcount
    rw [hcount]
    exact h.stands r'

theorem closing_sound {s : Endpoint ρ μ} (h : Sound s) : Sound s.close := by
  have hall : (s.waiters.filterMap fun w => (s.awaiter w).continuation) = s.waiters := by
    rw [List.filterMap_congr (g := some), List.filterMap_some]
    exact fun w hw => ((h.stands w).of_waiting (List.count_pos_iff.mpr hw)).1.2.1
  refine ⟨fun hne => absurd rfl hne, h.order, fun r => ?_⟩
  simp only [close, hall, List.count_append, List.count_nil]
  by_cases hr : r ∈ s.waiters
  · obtain ⟨⟨hp, -, hn⟩, hw, hdue, hgot⟩ := (h.stands r).of_waiting (List.count_pos_iff.mpr hr)
    rw [if_pos hr]
    exact .due hp hn rfl (by rw [hdue, hw]) (Or.inr ⟨rfl, rfl, hgot⟩)
  · have hstands := (h.stands r).close
    rw [List.count_eq_zero.mpr hr] at hstands
    rw [if_neg hr, List.count_eq_zero.mpr hr]
    exact hstands

theorem step_sound (s : Endpoint ρ μ) (a : Action ρ μ) (h : Sound s) : Sound (s.step a) := by
  have hs := step_stepped s a
  generalize s.step a = s' at hs
  cases hs with
  | idle a => exact h
  | handed m w waiters hw => exact handed_sound h hw
  | queued m hw hc =>
    refine ⟨fun hne => absurd hw hne, ?_, h.stands⟩
    simp only [h.order, List.append_assoc]
  | polled m queue hq =>
    refine ⟨fun hne => ?_, ?_, fun r => ?_⟩
    · exact absurd (h.parked hne).1 (hq ▸ List.cons_ne_nil m queue)
    · simp [h.order, hq]
    · rw [deliveredTo_snoc_poll]
      exact h.stands r
  | took a r m queue hq hp => exact took_sound h hq hp
  | missed r hp =>
    obtain ⟨hn, hw, hdue, hgot⟩ := (h.stands r).of_fresh (Or.inl hp)
    exact ⟨h.parked, h.order, stands_setAwaiter (.fresh (Or.inr rfl) hn hw hdue hgot)
      fun r' _ => h.stands r'⟩
  | refused r hp hc =>
    obtain ⟨hn, hw, hdue, hgot⟩ := (h.stands r).of_fresh (Or.inr hp)
    exact ⟨h.parked, h.order, stands_setAwaiter (.ready rfl ⟨hn.1.trans hn.2.symm,
      hn.2 ▸ Nat.zero_le 1⟩ hw hdue (Or.inr ⟨rfl, hc, hgot⟩)) fun r' _ => h.stands r'⟩
  | parked r hp hq hc => exact parked_sound h hp hq hc
  | resumed k r hr => exact resumed_sound h hr
  | returned r hp =>
    obtain ⟨hn, hw, hdue, hgives⟩ := (h.stands r).of_ready hp
    exact ⟨h.parked, h.order, stands_setAwaiter (.returned _ rfl hn hw hdue hgives)
      fun r' _ => h.stands r'⟩
  | closing => exact closing_sound h

theorem after_sound (ops : List (Action ρ μ)) : Sound (after ops) :=
  run_invariant ⟨fun hne => absurd rfl hne, rfl,
    fun _ => .fresh (Or.inl rfl) ⟨rfl, rfl⟩ rfl rfl rfl⟩ step_sound ops

/-- What the endpoint promises. -/
structure Delivers (s : Endpoint ρ μ) : Prop where
  parked_empty : s.waiters ≠ [] → s.queue = []
  /-- What was sent before the close was delivered, in the order it was sent and no message
      twice, or is still in the queue; nothing else was delivered. -/
  order : s.sent = s.delivered.map Delivery.message ++ s.queue
  /-- No awaiter is given two messages, -/
  once : ∀ r, (deliveredTo s.delivered r).length ≤ 1
  /-- and `await_resume` returns the one it was given, or an empty one after a close. -/
  received : ∀ r v, (s.awaiter r).phase = .returned v →
    Gives (deliveredTo s.delivered r) s.closed v
  /-- A coroutine that was parked is parked, due to be resumed, or resumed, once. -/
  resumed : ∀ r, s.waiters.count r + s.resumes.count r + (s.awaiter r).resumed =
    (s.awaiter r).parked ∧ (s.awaiter r).parked ≤ 1

theorem Gives.length_le {got : List μ} {closed : Bool} {v : μ} (h : Gives got closed v) :
    got.length ≤ 1 := by
  rcases h with rfl | ⟨-, -, rfl⟩ <;> simp

theorem Sound.delivers {s : Endpoint ρ μ} (h : Sound s) : Delivers s where
  parked_empty hne := (h.parked hne).1
  order := h.order
  once r := by
    cases h.stands r with
    | fresh _ _ _ _ hg | parked _ _ _ _ _ hg => simp [hg]
    | due _ _ _ _ hg | ready _ _ _ _ hg | returned _ _ _ _ _ hg => exact hg.length_le
  received r v hv := by
    cases h.stands r with
    | returned v' hp _ _ _ hg =>
      obtain rfl := Phase.returned.inj (hp.symm.trans hv)
      exact hg
    | fresh hp | parked hp | due hp | ready hp => simp [hv] at hp
  resumed r := by
    cases h.stands r with
    | fresh _ hn hw hr | parked _ _ hn hw hr | due _ hn hw hr | ready _ hn hw hr
    | returned _ _ hn hw hr => omega

/-! ## What the calls answer -/

/-- What the calls return is what they did. -/
structure Answers (s : Endpoint ρ μ) : Prop where
  /-- `try_recv` returns the message that is delivered by the poll, and none when none is, -/
  polled : (s.step .poll).delivered = s.delivered ++ (s.tryRecv.1.map (Delivery.mk none)).toList
  /-- which is when the queue is empty. -/
  missed : s.tryRecv.1 = none ↔ s.queue = []
  /-- `await_ready` says whether a message was delivered to the awaiter, -/
  ready : ∀ r, (s.awaiter r).phase = .created → ((s.awaitReady r).1 = true ↔
    ∃ m, (s.step (.ready r)).delivered = s.delivered ++ [⟨some r, m⟩])
  /-- `await_suspend` whether the awaiter was parked, -/
  suspended : ∀ r, (s.awaiter r).phase = .suspending → ((s.awaitSuspend r).1 = true ↔
    (s.step (.suspend r)).waiters = s.waiters ++ [r])
  /-- and `await_resume` returns what the coroutine gets. -/
  returned : ∀ r, (s.awaiter r).phase = .ready →
    ((s.step (.finish r)).awaiter r).phase = .returned (s.awaitResume r).1

omit [Inhabited μ] [DecidableEq ρ] in
theorem tryRecv_logged (s : Endpoint ρ μ) :
    s.tryRecv.2.delivered = s.delivered ++ (s.tryRecv.1.map (Delivery.mk none)).toList ∧
      (s.tryRecv.1 = none ↔ s.queue = []) := by
  simp only [tryRecv, pop]
  cases hq : s.queue with
  | nil => exact ⟨(List.append_nil _).symm, iff_of_true rfl rfl⟩
  | cons m queue =>
    exact ⟨rfl, iff_of_false (Option.some_ne_none m) (List.cons_ne_nil m queue)⟩

theorem awaitReady_logged (s : Endpoint ρ μ) (r : ρ) : (s.awaitReady r).1 = true ↔
    ∃ m, (s.awaitReady r).2.delivered = s.delivered ++ [⟨some r, m⟩] := by
  simp only [awaitReady, pop]
  cases hq : s.queue with
  | nil => simp
  | cons m queue => exact iff_of_true rfl ⟨m, rfl⟩

theorem awaitSuspend_parks (s : Endpoint ρ μ) (r : ρ) : (s.awaitSuspend r).1 = true ↔
    (s.awaitSuspend r).2.waiters = s.waiters ++ [r] := by
  simp only [awaitSuspend, pop]
  cases hq : s.queue with
  | nil => cases hc : s.closed <;> simp
  | cons m queue => simp

theorem answers (s : Endpoint ρ μ) : Answers s where
  polled := (tryRecv_logged s).1
  missed := (tryRecv_logged s).2
  ready r hp := by
    simp only [step, hp]
    exact awaitReady_logged s r
  suspended r hp := by
    simp only [step, hp]
    exact awaitSuspend_parks s r
  returned r hp := by
    simp only [step, hp, awaitResume, setAwaiter, Function.update_self]

/-- A receiver leaves the parked ones by being handed a message or by a close, and is then due to
    be resumed. -/
theorem leaves_parked {s : Endpoint ρ μ} (h : Sound s) {a : Action ρ μ} {r : ρ}
    (hr : r ∈ s.waiters) (hgone : r ∉ (s.step a).waiters) :
    ((∃ m, a = .send m ∧ (s.step a).delivered = s.delivered ++ [⟨some r, m⟩]) ∨ a = .close) ∧
      (s.step a).resumes.count r = 1 := by
  have hafter := (step_sound s a h).stands r
  have hs := step_stepped s a
  generalize s.step a = s' at hs hgone hafter
  have hparked := ((h.stands r).of_waiting (List.count_pos_iff.mpr hr)).1.1
  have hzero := List.count_eq_zero.mpr hgone
  cases hs with
  | handed m w waiters hw =>
    obtain rfl : r = w := by
      rw [hw] at hr
      exact (List.mem_cons.mp hr).resolve_right hgone
    refine ⟨Or.inl ⟨m, rfl, rfl⟩, hafter.of_parked ?_ hzero⟩
    simpa only [setAwaiter, Function.update_self] using hparked
  | closing =>
    refine ⟨Or.inr rfl, hafter.of_parked ?_ hzero⟩
    simpa only [close, if_pos hr] using hparked
  | parked => exact absurd (List.mem_append_left _ hr) hgone
  | _ => exact absurd hr hgone

/-- After every run the endpoint keeps its promises, its calls return what they deliver, and no
    step but a hand-off or a close takes a receiver from the parked ones. -/
theorem endpoint_delivers (ops : List (Action ρ μ)) :
    Delivers (after ops) ∧ Answers (after ops) ∧
    ∀ a r, r ∈ (after ops).waiters → r ∉ ((after ops).step a).waiters →
      ((∃ m, a = .send m ∧
          ((after ops).step a).delivered = (after ops).delivered ++ [⟨some r, m⟩]) ∨
        a = .close) ∧ ((after ops).step a).resumes.count r = 1 :=
  ⟨(after_sound ops).delivers, answers _, fun _ _ => leaves_parked (after_sound ops)⟩

/-- A hand-off to the parked receiver, then a message for a poll. -/
example : (after [.ready 0, .suspend 0, .send 10, .send 11, .poll, .resume 0, .finish 0] :
    Endpoint Nat Nat).delivered.map Delivery.message = [10, 11] := by
  decide

end Endpoint

end NeuroVerse.Ipc
