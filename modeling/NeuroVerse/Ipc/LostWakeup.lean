/-
  Lost wakeups in `recv_blocking`.

  Between the look at the queue in `try_recv` and the wait the mutex is free. A message pushed
  there is announced to nobody, and so is a close; the receiver then waits without another look.
  That is the only way: the runs without a lost wakeup are those in which every wait starts with
  the queue open and each of its messages covered by a receiver that was notified or a sender
  that has still to notify (`no_lost_wakeup_iff`).
-/
import NeuroVerse.Ipc.Blocking

namespace NeuroVerse.Ipc

open Lib

namespace Blocking

variable {μ : Type*}

/-- A receiver is parked, and neither was it notified nor is a `notify_all` to come, while the
    queue is closed or holds a message that no other receiver has been notified for and no sender
    has still to notify for. -/
def LostWakeup (s : Blocking μ) : Prop :=
  .parked ∈ s.threads ∧ .closeNotify ∉ s.threads ∧
    (s.closed = true ∨ s.threads.countP Pc.covers < s.q.length)

/-- A receiver whose wait starts finds its queue open, and no more messages there than there are
    receivers notified and senders that have still to notify. -/
def WaitsCovered (s : Blocking μ) : Action μ → Prop
  | .go k => s.threads[k]? = some .recvWait →
    s.closed = false ∧ s.q.length ≤ s.threads.countP Pc.covers
  | _ => True

/-- The invariant: what a parked receiver can count on. -/
def Guarded (s : Blocking μ) : Prop :=
  .parked ∈ s.threads →
    .closeNotify ∈ s.threads ∨ (s.closed = false ∧ s.q.length ≤ s.threads.countP Pc.covers)

theorem Guarded.not_lost {s : Blocking μ} (h : s.Guarded) : ¬ s.LostWakeup := by
  rintro ⟨hparked, hnone, hlost⟩
  rcases h hparked with hclose | ⟨hopen, hle⟩
  · exact hnone hclose
  · rcases hlost with hclosed | hlt
    · rw [hopen] at hclosed
      cases hclosed
    · omega

/-- Nobody is between setting `closed` and notifying while a receiver starts its wait: both hold
    the mutex. -/
theorem Exclusive.notClosing {s : Blocking μ} (h : s.Exclusive) {k : Nat}
    (hk : s.threads[k]? = some .recvWait) : .closeNotify ∉ s.threads := by
  intro hmem
  obtain ⟨j, hj⟩ := List.mem_iff_getElem?.mp hmem
  have hjk := Option.some.inj ((h j _ hj rfl).symm.trans (h k _ hk rfl))
  rw [hjk, hk] at hj
  cases hj

variable {s : Blocking μ} {k : Nat} {pc pc' : Pc μ}

/-- A move of thread `k` that parks nobody keeps what parked receivers can count on, if what it
    takes away from the cover it takes away from the messages, too. -/
theorem Guarded.moved (h : s.Guarded) {t : Blocking μ} (hk : s.threads[k]? = some pc)
    (ht : t.threads = s.threads.set k pc') (hclosed : t.closed = s.closed) (hp : pc' ≠ .parked)
    (hpc : pc ≠ .closeNotify)
    (hle : t.q.length + (if pc.covers then 1 else 0) ≤ s.q.length + (if pc'.covers then 1 else 0) ∨
      t.q = []) : t.Guarded := by
  intro hparked
  rw [ht] at hparked ⊢
  have hcount := countP_moved Pc.covers pc' hk
  rcases h (mem_of_mem_moved hparked (Ne.symm hp)) with hclose | ⟨hopen, hcov⟩
  · exact Or.inl (mem_moved_of_mem hk hclose (Ne.symm hpc))
  · refine Or.inr ⟨hclosed.trans hopen, ?_⟩
    rcases hle with hle | hnil
    · omega
    · rw [hnil]
      exact Nat.zero_le _

theorem Guarded.quiet (h : s.Guarded) {t : Blocking μ} (hk : s.threads[k]? = some pc)
    (hq : Quiet pc pc') (ht : t.threads = s.threads.set k pc') (hclosed : t.closed = s.closed)
    (hqueue : t.q = s.q) : t.Guarded :=
  h.moved hk ht hclosed hq.2.1 hq.2.2.1 (Or.inl (Nat.le_of_eq (by rw [hqueue, hq.1])))

/-- The one notified takes the place of its notifier. -/
theorem Guarded.notified (h : s.Guarded) {w : Nat} (hk : s.threads[k]? = some .sendNotify)
    (hw : s.threads[w]? = some .parked) : ((s.goto w .woken).goto k (.sent true)).Guarded := by
  intro hparked
  have hk' := notify_getElem? hk hw
  rcases h (mem_of_mem_moved (mem_of_mem_moved hparked nofun) nofun) with hclose | ⟨hopen, hcov⟩
  · exact Or.inl (mem_moved_of_mem hk' (mem_moved_of_mem hw hclose nofun) nofun)
  · refine Or.inr ⟨hopen, ?_⟩
    have hw' : (s.threads.set w .woken).countP Pc.covers = s.threads.countP Pc.covers + 1 :=
      countP_moved Pc.covers _ hw
    have hsent : ((s.threads.set w .woken).set k (.sent true)).countP Pc.covers + 1 =
        (s.threads.set w .woken).countP Pc.covers := countP_moved Pc.covers _ hk'
    show s.q.length ≤ ((s.threads.set w .woken).set k (.sent true)).countP Pc.covers
    omega

/-- A new thread is neither parked nor one that the parked count on. -/
theorem Guarded.called (h : s.Guarded) (c : Call μ) :
    Guarded { s with threads := s.threads ++ [c.start] } := by
  have hnew : c.start ≠ .parked ∧ c.start.covers = false := by
    cases c <;> exact ⟨nofun, rfl⟩
  intro hparked
  rcases List.mem_append.mp hparked with hold | hstart
  · refine (h hold).imp (List.mem_append_left _) fun hcov => ⟨hcov.1, ?_⟩
    rw [List.countP_append]
    exact Nat.le_add_right_of_le hcov.2
  · exact absurd (List.mem_singleton.mp hstart).symm hnew.1

variable [DecidableEq μ]

theorem step_guarded (s : Blocking μ) (a : Action μ) (h : s.Guarded) (ha : s.WaitsCovered a) :
    (s.step a).Guarded := by
  have hs := step_stepped s a
  generalize s.step a = s' at hs
  cases hs with
  | idle => exact h
  | called c => exact h.called c
  | locked _ k pc pc' hk _ hq => exact h.quiet hk hq rfl rfl rfl
  | unlocked _ k pc pc' hk _ hq => exact h.quiet hk hq rfl rfl rfl
  | moved _ k pc pc' hk _ hq => exact h.quiet hk hq rfl rfl rfl
  | missed k notified hk hempty =>
    exact h.moved hk rfl rfl nofun nofun (Or.inr hempty)
  | popped k notified m q hk hm =>
    refine h.moved hk rfl rfl nofun nofun (Or.inl ?_)
    rw [hm, List.length_cons]
    show q.length + _ ≤ q.length + 1 + 0
    split <;> omega
  | waited k hk =>
    intro _
    obtain ⟨hopen, hle⟩ := ha hk
    have hcount : (s.threads.set k .parked).countP Pc.covers = s.threads.countP Pc.covers :=
      countP_moved Pc.covers _ hk
    exact Or.inr ⟨hopen, Nat.le_trans hle (Nat.le_of_eq hcount.symm)⟩
  | pushed _ k m pc hk hpc =>
    refine h.moved hk rfl rfl nofun hpc.2.2 (Or.inl ?_)
    rw [hpc.2.1]
    exact Nat.le_of_eq List.length_append
  | unheard k hk hnone =>
    intro hparked
    exact absurd (mem_of_mem_moved hparked nofun) hnone
  | notified k w hk hw => exact h.notified hk hw
  | closing k hk =>
    intro _
    exact Or.inl (mem_moved hk)
  | wokeAll k hk =>
    intro hparked
    exact absurd (mem_of_mem_moved hparked nofun) (notParked_wake s.threads)

/-- A wait that is not covered is a wakeup lost. -/
theorem waitsCovered_of_not_lost {s : Blocking μ} {a : Action μ} (hs : s.Exclusive)
    (h : ¬ (s.step a).LostWakeup) : s.WaitsCovered a := by
  cases a with
  | go k =>
    intro hk
    have hstep : s.step (.go k) = s.unlock k .parked := by simp only [step, hk, advance]
    have hcount : (s.threads.set k .parked).countP Pc.covers = s.threads.countP Pc.covers :=
      countP_moved Pc.covers _ hk
    have hnone : .closeNotify ∉ (s.unlock k .parked).threads := fun hmem =>
      hs.notClosing hk (mem_of_mem_moved hmem (by simp))
    rw [hstep] at h
    by_contra hcon
    refine h ⟨mem_moved hk, hnone, ?_⟩
    show s.closed = true ∨ (s.threads.set k .parked).countP Pc.covers < s.q.length
    rw [hcount]
    rw [not_and_or, Bool.not_eq_false, Nat.not_le] at hcon
    exact hcon
  | _ => trivial

/-- A run loses no wakeup exactly when each receiver that starts to wait finds its queue open, and
    its messages covered. -/
theorem no_lost_wakeup_iff (capacity : Nat) (ops : List (Action μ)) :
    (∀ pre, pre <+: ops → ¬ (after capacity pre).LostWakeup) ↔
      StepsMeet step WaitsCovered { capacity := capacity } ops := by
  exact holds_iff_meet (I := Guarded) (J := Exclusive) (fun hmem => by simp at hmem) step_guarded
    (fun _ hs => hs.not_lost) (exclusive_start capacity) step_exclusive
    (fun _ _ => waitsCovered_of_not_lost) ops

/-- A message is pushed and announced between the look at the queue and the wait. -/
theorem wakeup_lost :
    ¬ ∀ (capacity : Nat) (ops : List (Action Nat)), ¬ (after capacity ops).LostWakeup := by
  intro h
  refine h 64 [.call .recvBlocking, .go 0, .go 0, .go 0, .call (.sendNowait 10), .go 1, .go 1,
    .go 1, .go 1, .go 0, .go 0] ?_
  unfold LostWakeup
  decide

end Blocking

end NeuroVerse.Ipc
