/-
  Cancellation: which of the queued entries are destroyed instead of resumed.

  `cancel` puts a handle in a set of its own, the check of a popped entry looks the handle up
  there, and two places take it out again. An entry should be destroyed exactly when its handle
  was cancelled between its post and its check. The set says so of every entry that is still to
  be checked (`Faithful`) as long as no handle is queued while it is in the set, and none is
  taken out while an entry of it that was cancelled still waits for its check (`Clean`).
-/
import NeuroVerse.Sched.Scheduler

namespace NeuroVerse.Sched

open Lib

variable {η : Type*}

namespace Scheduler

/-- What is to be said of the entries handled so far. -/
structure Exact (s : Scheduler η) : Prop where
  /-- An entry is destroyed just when its handle was cancelled between its post and its check,
      and resumed otherwise. -/
  fate : ∀ w, ∀ r ∈ (s.worker w).handled, r.fate = .destroyed ↔ r.called = true
  /-- No entry is handled twice, by one worker or by two. -/
  once : ∀ w, ((s.worker w).handled.map Record.entry).Nodup
  apart : ∀ w w', ∀ r ∈ (s.worker w).handled, ∀ r' ∈ (s.worker w').handled,
    r.entry = r'.entry → w = w'
  /-- What was posted and is not handled is still there. -/
  kept : ∀ w, ∀ e ∈ (s.worker w).posted,
    e ∈ (s.worker w).handled.map Record.entry ∨ e ∈ s.waiting w

/-- The bookkeeping leaves only the fates to be shown. -/
theorem Accounts.exact {s : Scheduler η} (h : Accounts s)
    (hfate : ∀ w, ∀ r ∈ (s.worker w).handled, r.fate = .destroyed ↔ r.called = true) :
    Exact s := by
  have hsub : ∀ w, ∀ r ∈ (s.worker w).handled, r.entry ∈ (s.worker w).posted := by
    intro w r hr
    rw [h.order w, List.append_assoc]
    exact List.mem_append_left _ (List.mem_map_of_mem hr)
  refine ⟨hfate, h.once, fun w w' r hr r' hr' heq => ?_, fun w e he => ?_⟩
  · exact h.apart w w' _ (hsub w r hr) _ (hsub w' r' hr') (congrArg Entry.time heq)
  · rw [h.order w, List.append_assoc] at he
    exact List.mem_append.mp he

theorem mem_posted_of_unchecked {s : Scheduler η} (h : Accounts s) {w : Nat} {e : Entry η}
    (he : e ∈ (s.worker w).unchecked) : e ∈ (s.worker w).posted := by
  rw [h.order w, List.append_assoc]
  refine List.mem_append_right _ ?_
  unfold Worker.unchecked at he
  unfold Worker.hand
  split at he
  · next e' hp => simpa [hp] using he
  · exact List.mem_append_right _ he

theorem drop_unchecked {x : Worker η} {r : η × Worker η} (h : x.drop = some r) :
    r.2.unchecked = x.unchecked := by
  unfold Worker.drop at h
  split at h
  · next e called hp =>
    obtain rfl := Option.some.inj h
    simp [Worker.unchecked, hp]
  · cases h

theorem finish_unchecked {x : Worker η} {r : η × Worker η} (h : x.finish = some r) :
    r.2.unchecked = x.unchecked := by
  unfold Worker.finish at h
  split at h
  · next e hp =>
    obtain rfl := Option.some.inj h
    simp [Worker.unchecked, hp]
  · cases h

variable [DecidableEq η]

/-- The set of cancelled handles tells of every entry to be checked whether its handle was
    cancelled since its post. -/
def Faithful (s : Scheduler η) : Prop :=
  ∀ w < s.count, ∀ e ∈ (s.worker w).unchecked, e.handle ∈ s.cancelled ↔ s.called e = true

/-- The handle the action puts in a queue. -/
def queues (s : Scheduler η) : Action η → Option η
  | .push k => s.tickets[k]?.map Ticket.handle
  | _ => none

/-- The handle the action takes out of the set. -/
def clears (s : Scheduler η) : Action η → Option η
  | .drop w => if w < s.count then (s.worker w).drop.map Prod.fst else none
  | .finish w => if w < s.count ∧ s.settled w then (s.worker w).finish.map Prod.fst else none
  | _ => none

/-- No handle is queued while it is in the set, and none is taken out while an entry of it that
    was cancelled still waits for its check. -/
def Clean (s : Scheduler η) (a : Action η) : Prop :=
  (∀ h ∈ s.queues a, h ∉ s.cancelled) ∧
    ∀ h ∈ s.clears a, ∀ w < s.count, ∀ e ∈ (s.worker w).unchecked,
      e.handle = h → s.called e = false

instance (s : Scheduler η) (a : Action η) : Decidable (s.Clean a) :=
  inferInstanceAs (Decidable (_ ∧ _))

/-! ## What the actions do to the set -/

theorem Worked.unchecked {s : Scheduler η} {w : Nat} {a : Action η} {x : Worker η}
    {cancelled : Finset η} (h : Worked s w a x cancelled) :
    x.unchecked ⊆ (s.worker w).unchecked := by
  cases h with
  | entered hp => simp [Worker.unchecked, hp]
  | woke e queue hp hq => simp [Worker.unchecked, hp, hq]
  | left hp hq hd => simp [Worker.unchecked, hp]
  | doomed e hp hc => simp [Worker.unchecked, hp]
  | resumed e hp hc => simp [Worker.unchecked, hp]
  | dropped e called hp => simp [Worker.unchecked, hp]
  | finished e hp hs => simp [Worker.unchecked, hp]

/-- A worker's move leaves the set as it was, or takes out the handle it clears. -/
theorem Worked.cancelled {s : Scheduler η} {w : Nat} {a : Action η} {x : Worker η}
    {cancelled : Finset η} (hw : w < s.count) (h : Worked s w a x cancelled) :
    cancelled = s.cancelled ∨ ∃ e, e ∈ s.clears a ∧ cancelled = s.cancelled.erase e := by
  cases h with
  | dropped e called hp =>
    exact Or.inr ⟨e.handle, by simp [clears, hw, Worker.drop, hp], rfl⟩
  | finished e hp hs =>
    exact Or.inr ⟨e.handle, by simp [clears, hw, hs, Worker.finish, hp], rfl⟩
  | _ => exact Or.inl rfl

/-- An action that clears a handle leaves the entries to be checked as they were. -/
theorem clears_step {s : Scheduler η} {a : Action η} {h : η} (hc : h ∈ s.clears a) :
    ∃ w x, s.step a = { s.setWorker w x with cancelled := s.cancelled.erase h } ∧
      x.unchecked = (s.worker w).unchecked := by
  cases a with
  | drop w =>
    simp only [clears, Option.mem_def] at hc
    split at hc
    · next hw =>
      obtain ⟨r, hr, rfl⟩ := Option.map_eq_some_iff.mp hc
      exact ⟨w, r.2, by simp only [step, workClear, if_pos hw, hr], drop_unchecked hr⟩
    · cases hc
  | finish w =>
    simp only [clears, Option.mem_def] at hc
    split at hc
    · next hw =>
      obtain ⟨r, hr, rfl⟩ := Option.map_eq_some_iff.mp hc
      exact ⟨w, r.2, by simp only [step, workClear, if_pos hw.1, if_pos hw.2, hr],
        finish_unchecked hr⟩
    · cases hc
  | _ => cases hc

/-- No cancel is later than the clock. -/
def Stamped (s : Scheduler η) : Prop := ∀ c ∈ s.cancels, c.2 < s.clock

theorem step_stamped (s : Scheduler η) (a : Action η) (h : Stamped s) : Stamped (s.step a) := by
  have hs := step_stepped s a
  generalize s.step a = s' at hs
  cases hs with
  | pushed k t ht => exact fun c hc => Nat.lt_succ_of_lt (h c hc)
  | cancelled handle =>
    intro c hc
    rcases List.mem_cons.mp hc with rfl | hc
    · exact Nat.lt_succ_self s.clock
    · exact Nat.lt_succ_of_lt (h c hc)
  | _ => exact h

/-- What is posted now was not cancelled since. -/
theorem Stamped.called_now {s : Scheduler η} (h : Stamped s) (handle : η) :
    s.called ⟨s.clock, handle⟩ = false := by
  refine Bool.eq_false_iff.mpr fun hc => ?_
  obtain ⟨c, hmem, hc⟩ := List.any_eq_true.mp hc
  have hlt := h c hmem
  have hle := (of_decide_eq_true hc).2
  simp only at hle
  omega

/-! ## The set along a run -/

/-- A worker's move that leaves it no new entry to check. -/
theorem faithful_setWorker {s : Scheduler η} {w : Nat} {x : Worker η} {cancelled : Finset η}
    (hsub : x.unchecked ⊆ (s.worker w).unchecked)
    (hc : ∀ w < s.count, ∀ e ∈ (s.worker w).unchecked,
      e.handle ∈ cancelled ↔ s.called e = true) :
    Faithful { s.setWorker w x with cancelled := cancelled } := by
  intro w' hw'
  exact forall_setWorker (s := s) (w := w) (x := x)
    (P := fun w' y => w' < s.count → ∀ e ∈ y.unchecked, e.handle ∈ cancelled ↔ s.called e = true)
    (fun hw e he => hc w hw e (hsub he)) hc w' hw'

theorem faithful_step {s : Scheduler η} {a : Action η} (hacc : Accounts s) (hst : Stamped s)
    (h : Faithful s) (hclean : s.Clean a) : Faithful (s.step a) := by
  have hs := step_stepped s a
  generalize s.step a = s' at hs
  cases hs with
  | pushed k t ht =>
    have hfresh : t.handle ∉ s.cancelled := hclean.1 t.handle (by simp [queues, ht])
    intro w hw
    refine forall_setWorker (s := s) (P := fun w y => w < s.count →
      ∀ e ∈ y.unchecked, e.handle ∈ s.cancelled ↔ s.called e = true) ?_ h w hw
    intro hw e he
    have hnew : e ∈ (s.worker t.target).unchecked ∨ e = ⟨s.clock, t.handle⟩ := by
      unfold Worker.unchecked Worker.push at he
      unfold Worker.unchecked
      split at he <;> simp_all [or_assoc]
    rcases hnew with he | rfl
    · exact h _ hw e he
    · rw [hst.called_now]
      simpa using hfresh
  | cancelled handle =>
    intro w hw e he
    have htime := hacc.time_lt w e (mem_posted_of_unchecked hacc he)
    show e.handle ∈ insert handle s.cancelled ↔
      (decide (handle = e.handle ∧ e.time ≤ s.clock) || s.called e) = true
    rw [Finset.mem_insert, h w hw e he, Bool.or_eq_true, decide_eq_true_iff]
    exact or_congr ⟨fun heq => ⟨heq.symm, htime.le⟩, fun hp => hp.1.symm⟩ Iff.rfl
  | worked w a x cancelled hw hx =>
    refine faithful_setWorker hx.unchecked fun w' hw' e he => ?_
    rcases hx.cancelled hw with rfl | ⟨handle, hclears, rfl⟩
    · exact h w' hw' e he
    · by_cases heq : e.handle = handle
      · rw [hclean.2 handle hclears w' hw' e he heq, heq]
        simp
      · rw [Finset.mem_erase, h w' hw' e he]
        exact and_iff_right heq
  | stopped i hi =>
    exact faithful_setWorker (x := { s.worker i with done := true }) (List.Subset.refl _) h
  | _ => exact h

/-- An action that is not clean leaves an entry of which the set does not tell the truth. -/
theorem clean_of_faithful_step {s : Scheduler η} {a : Action η} (hacc : Accounts s)
    (hst : Stamped s) (h : Faithful (s.step a)) : s.Clean a := by
  constructor
  · intro handle hq
    cases a with
    | push k =>
      obtain ⟨t, ht, rfl⟩ := Option.map_eq_some_iff.mp hq
      have htarget := hacc.target_lt t (List.mem_of_getElem? ht)
      simp only [step, ht] at h
      have hnew := h t.target htarget ⟨s.clock, t.handle⟩ (by
        rw [setWorker_self]
        unfold Worker.unchecked Worker.push
        split <;> simp)
      intro hmem
      have hcalled := hst.called_now t.handle
      exact Bool.eq_false_iff.mp hcalled (hnew.mp hmem)
    | _ => cases hq
  · intro handle hc w hw e he heq
    obtain ⟨w', x, hstep, hsame⟩ := clears_step hc
    rw [hstep] at h
    have he' : e ∈ ((s.setWorker w' x).worker w).unchecked :=
      forall_setWorker (s := s) (w := w') (x := x)
        (P := fun w y => e ∈ (s.worker w).unchecked → e ∈ y.unchecked)
        (fun he => hsame ▸ he) (fun _ he => he) w he
    refine Bool.eq_false_iff.mpr fun hcalled => ?_
    have hmem := (h w hw e he').mpr hcalled
    exact Finset.notMem_erase _ _ (heq ▸ hmem)

/-- The invariant of the runs whose actions are clean. -/
structure Tracked (s : Scheduler η) : Prop where
  faithful : Faithful s
  doomed : ∀ w e called, (s.worker w).phase = .doomed e called → called = true
  fate : ∀ w, ∀ r ∈ (s.worker w).handled, r.fate = .destroyed ↔ r.called = true

/-- What a move makes of a worker whose entries met the fates they should: one entry more at
    most, which met its own. -/
theorem Worked.fates {s : Scheduler η} {w : Nat} {a : Action η} {x : Worker η}
    {cancelled : Finset η} (hw : w < s.count) (h : Tracked s) (hx : Worked s w a x cancelled) :
    (∀ e called, x.phase = .doomed e called → called = true) ∧
      ∀ r ∈ x.handled, r.fate = .destroyed ↔ r.called = true := by
  have hpopped : ∀ e, (s.worker w).phase = .popped e →
      (e.handle ∈ s.cancelled ↔ s.called e = true) := by
    intro e hp
    refine h.faithful w hw e ?_
    simp [Worker.unchecked, hp]
  have hsnoc : ∀ r : Record η, (r.fate = .destroyed ↔ r.called = true) →
      ∀ r' ∈ (s.worker w).handled ++ [r], r'.fate = .destroyed ↔ r'.called = true := by
    intro r hr r' hr'
    rcases List.mem_append.mp hr' with hr' | hr'
    · exact h.fate w r' hr'
    · exact List.mem_singleton.mp hr' ▸ hr
  cases hx with
  | entered hp => exact ⟨nofun, h.fate w⟩
  | woke e queue hp hq => exact ⟨nofun, h.fate w⟩
  | left hp hq hd => exact ⟨nofun, h.fate w⟩
  | doomed e hp hc =>
    refine ⟨fun e' called heq => ?_, h.fate w⟩
    obtain ⟨-, rfl⟩ := Phase.doomed.inj heq
    exact (hpopped e hp).mp hc
  | resumed e hp hc =>
    refine ⟨nofun, hsnoc _ ⟨nofun, fun hcalled => ?_⟩⟩
    exact absurd ((hpopped e hp).mpr hcalled) hc
  | dropped e called hp => exact ⟨nofun, hsnoc _ ⟨fun _ => h.doomed w e called hp, fun _ => rfl⟩⟩
  | finished e hp hs => exact ⟨nofun, h.fate w⟩

theorem tracked_step {s : Scheduler η} {a : Action η} (hacc : Accounts s) (hst : Stamped s)
    (h : Tracked s) (hclean : s.Clean a) : Tracked (s.step a) where
  faithful := faithful_step hacc hst h.faithful hclean
  doomed := forall_worker_step (P := fun _ y => ∀ e called, y.phase = .doomed e called →
      called = true) h.doomed (fun _ t _ _ => h.doomed t.target)
    (fun _ _ _ hw hx => (hx.fates hw h).1) h.doomed
  fate := forall_worker_step (P := fun _ y => ∀ r ∈ y.handled, r.fate = .destroyed ↔
      r.called = true) h.fate (fun _ t _ _ => h.fate t.target)
    (fun _ _ _ hw hx => (hx.fates hw h).2) h.fate

theorem after_stamped (threads : Nat) (ops : List (Action η)) : Stamped (after threads ops) :=
  run_invariant (fun _ hc => absurd hc List.not_mem_nil) step_stamped ops

theorem new_tracked (threads : Nat) : Tracked (new threads : Scheduler η) where
  faithful _ _ _ he := absurd he List.not_mem_nil
  doomed _ _ _ hp := nomatch hp
  fate _ _ hr := absurd hr List.not_mem_nil

theorem after_tracked {threads : Nat} {ops : List (Action η)}
    (h : StepsMeet step Clean (new threads) ops) : Tracked (after threads ops) :=
  (run_invariant_of_meet (I := fun s => Accounts s ∧ Stamped s ∧ Tracked s)
    ⟨new_accounts threads, after_stamped threads [], new_tracked threads⟩
    (fun s a ⟨hacc, hst, ht⟩ hclean =>
      ⟨step_accounts s a hacc, step_stamped s a hst, tracked_step hacc hst ht hclean⟩) h).2.2

/-- The set tells the truth all along a run exactly when every action of it is clean, and then
    every entry meets its fate exactly once: in all states of the run, what was posted is handled
    once or still there, and destroyed just when it was cancelled in time. In any run, what is
    still there at a worker that has not returned can be handled. -/
theorem cancellation_exact_iff (threads : Nat) (ops : List (Action η)) :
    (StepsMeet step Clean (new threads) ops ↔
      ∀ pre, pre <+: ops → Faithful (after threads pre)) ∧
    (StepsMeet step Clean (new threads) ops → ∀ pre, pre <+: ops → Exact (after threads pre)) ∧
    ∀ w < (after threads ops).count, ((after threads ops).worker w).isReturned = false →
      ∃ more, ∀ e ∈ ((after threads ops).worker w).posted,
        e ∈ ((after threads (ops ++ more)).worker w).handled.map Record.entry := by
  refine ⟨⟨fun h pre hp => (after_tracked (h.restrict hp)).faithful, fun h pre a hp => ?_⟩,
    fun h pre hp => (after_accounts threads pre).exact (after_tracked (h.restrict hp)).fate,
    fun w hw hr => ?_⟩
  · have hnext := h (pre ++ [a]) hp
    rw [after, run_snoc] at hnext
    exact clean_of_faithful_step (after_accounts threads pre) (after_stamped threads pre) hnext
  · obtain ⟨more, hmore⟩ := can_drain (after_accounts threads ops) hw hr
    refine ⟨more, ?_⟩
    rw [show after threads (ops ++ more) = run step (after threads ops) more from
      run_append step _ ops more]
    exact hmore

/-- A cancel between the post and the check, and one that comes too late. -/
example : StepsMeet step Clean (new 2)
    [.take none 7, .push 0, .cancel (7 : Nat), .enter 0, .wake 0, .check 0, .drop 0,
      .take none 8, .push 0, .enter 1, .wake 1, .check 1, .cancel 8, .finish 1] := by
  decide

/-- A coroutine posts its own handle while it runs, and the handle is cancelled before `resume`
    returns: `clear_cancel` then wipes the cancel of the queued entry, which is resumed. -/
theorem reposted_cancel_lost :
    ¬ ∀ (threads : Nat) (ops : List (Action Nat)), Exact (after threads ops) := by
  intro h
  have hfate := (h 1 [.take none 7, .push 0, .enter 0, .wake 0, .check 0, .take (some 0) 7, .push 0,
    .cancel 7, .finish 0, .enter 0, .wake 0, .check 0]).fate 0 ⟨⟨1, 7⟩, .resumed, true⟩ (by decide)
  exact nomatch hfate.mpr rfl

end Scheduler

end NeuroVerse.Sched
