/-
  The life of a thread.

  `after_rule`: in every interleaving the entry is called once, after `start`; the state only
  moves up and is never `Waiting`; and what `join` and `join_for` say about the entry is so.
  `after_returns`: once the entry has returned, the owner's call can return. What is left of it
  goes down with every step of the OS thread, of the waker that it waits for and of the owner
  (`Steady.nearer`).
-/
import NeuroVerse.Proc.Thread

namespace NeuroVerse.Proc

open Lib

namespace Thread

variable {t : Thread}

/-! ## What is seen of a thread -/

/-- The values of the enumeration. -/
def value : ThreadState → Nat
  | .ready => 0
  | .running => 1
  | .waiting => 2
  | .zombie => 3
  | .terminated => 4

theorem value_le_terminated (s : ThreadState) : value s ≤ value .terminated := by
  cases s <;> decide

theorem runLoop_state (h : Consistent t) {p : Place} (hp : t.osThread = some p) :
    value t.state ≤ value (t.runLoop p).state := by
  cases p with
  | storing =>
    rw [h.running hp (by decide)]
    exact (show 1 ≤ 3 by decide)
  | locking =>
    rw [Thread.runLoop]
    split <;> exact Nat.le_refl _
  | _ => exact Nat.le_refl _

theorem ownerStep_state (t : Thread) (expired : Bool) (c : Call) :
    value t.state ≤ value (t.ownerStep expired c).state := by
  cases c with
  | storing => exact value_le_terminated t.state
  | joining =>
    rw [Thread.ownerStep]
    split <;> exact Nat.le_refl _
  | polling =>
    rw [Thread.ownerStep]
    split <;> exact Nat.le_refl _
  | _ => exact Nat.le_refl _

theorem begin_state (t : Thread) (a : Action) : value t.state ≤ value (t.begin a).state := by
  cases a with
  | start =>
    rw [Thread.begin]
    split
    · next hr =>
      rw [hr]
      exact Nat.zero_le _
    · exact Nat.le_refl _
  | join =>
    rw [Thread.begin]
    split <;> exact Nat.le_refl _
  | joinFor =>
    rw [Thread.begin]
    split <;> exact Nat.le_refl _
  | _ => exact Nat.le_refl _

theorem wakeStep_state (h : Steady t) {k : Nat} {w : Waker} (hk : t.wakers[k]? = some w) :
    (t.wakeStep k w).state = t.state := by
  cases w with
  | storing => exact absurd rfl (h.wakers .storing (List.mem_of_getElem? hk))
  | calling =>
    rw [Thread.wakeStep]
    split <;> rfl
  | _ => rfl

/-- No step moves the state down. -/
theorem Steady.value_le (h : Steady t) (a : Action) : value t.state ≤ value (t.step a).state := by
  rw [Thread.step]
  split
  · exact Nat.le_refl _
  · unfold act
    split
    · exact ownerStep_state t _ t.call
    · exact Nat.le_refl _
    · cases hp : t.osThread with
      | none => exact Nat.le_refl _
      | some p => exact runLoop_state h.toConsistent hp
    · split <;> exact Nat.le_refl _
    · exact Nat.le_refl _
    · next k =>
      cases hk : t.wakers[k]? with
      | none => exact Nat.le_refl _
      | some w => exact Nat.le_of_eq (congrArg value (wakeStep_state h hk).symm)
    · split
      · exact begin_state t _
      · exact Nat.le_refl _

/-- In every run: what is seen of the thread follows `rule`. The entry is called once, after
    `start`; `join` returns when the entry has, unless the thread was not started, and so does
    `join_for` with `true`; and a state that was left is not seen again. -/
theorem after_rule (actions : List Action) :
    Always rule (run step {} actions).events ∧
      ∀ pre, pre <+: actions →
        value (run step {} pre).state ≤ value (run step {} actions).state := by
  refine ⟨(steady_run actions).rule, ?_⟩
  induction actions using List.reverseRecOn with
  | nil =>
    intro pre hp
    obtain rfl := List.prefix_nil.mp hp
    exact Nat.le_refl _
  | append_singleton actions a ih =>
    intro pre hp
    rcases List.prefix_concat_iff.mp hp with rfl | hp
    · exact Nat.le_refl _
    · rw [run_snoc]
      exact Nat.le_trans (ih pre hp) ((steady_run actions).value_le a)

/-! ## A waiting owner -/

/-- The steps that the holder of the mutex has left. -/
def holding (t : Thread) : Nat :=
  match t.mutex with
  | some (.waker k) => if t.wakers[k]? = some .loading then 2 else 1
  | _ => 0

/-- The steps that the owner's call has left. -/
def Call.left : Call → Nat
  | .idle => 0
  | .assigning => 1
  | .joining => 2
  | .storing => 1
  | .polling => 2
  | .reading => 1

/-- What is left until the owner's call returns. -/
def left (t : Thread) : Nat := 3 * (7 - rank t.osThread) + holding t + Call.left t.call

theorem step_of_running {a : Action} (hrun : t.aborted = false) : t.step a = t.act a := by
  rw [Thread.step, hrun]
  rfl

/-- The entry has returned, the process is there, and less is left than before. -/
def Nearer (t t' : Thread) : Prop :=
  t'.aborted = false ∧ 3 ≤ rank t'.osThread ∧ left t' < left t

/-- The owner's next step, where it is one. -/
theorem nearer_owner (hrun : t.aborted = false) (hreturned : 3 ≤ rank t.osThread) (t' : Thread)
    (ht' : t.ownerStep true t.call = t') (hos : t'.osThread = t.osThread)
    (habort : t'.aborted = t.aborted) (hmutex : t'.mutex = t.mutex)
    (hwakers : t'.wakers = t.wakers) (hleft : Call.left t'.call < Call.left t.call) :
    Nearer t (t.step (.owner true)) := by
  rw [step_of_running hrun, act, ht']
  refine ⟨habort.trans hrun, by rwa [hos], ?_⟩
  rw [left, left, holding, holding, hos, hmutex, hwakers]
  omega

/-- The next step of the OS thread, where it is one. -/
theorem nearer_run (hrun : t.aborted = false) {p : Place} (hp : t.osThread = some p)
    (hreturned : 3 ≤ rank (some p)) (t' : Thread) (ht' : t.runLoop p = t')
    (habort : t'.aborted = t.aborted) (hrank : rank t'.osThread = rank (some p) + 1)
    (hseven : rank (some p) < 7) (hholding : holding t' ≤ holding t) (hcall : t'.call = t.call) :
    Nearer t (t.step .run) := by
  rw [step_of_running hrun, act, hp]
  dsimp only
  rw [ht']
  refine ⟨habort.trans hrun, by omega, ?_⟩
  rw [left, left, hp, hrank, hcall]
  omega

/-- The next step of the waker that holds the mutex. -/
theorem Steady.nearer_wake (h : Steady t) (hrun : t.aborted = false)
    (hreturned : 3 ≤ rank t.osThread) {k : Nat} (hm : t.mutex = some (.waker k)) :
    Nearer t (t.step (.wake k)) := by
  rw [step_of_running hrun, act]
  rcases h.byWaker k hm with hk | hk
  · have hmoved : (t.wakers.set k Waker.unlocking)[k]? = some Waker.unlocking :=
      getElem?_moved_self hk
    rw [hk]
    dsimp only
    rw [Thread.wakeStep, if_neg h.waiting]
    refine ⟨hrun, hreturned, ?_⟩
    simp [left, holding, setWaker, hm, hk, hmoved]
  · rw [hk]
    refine ⟨hrun, hreturned, ?_⟩
    simp [left, holding, Thread.wakeStep, setWaker, hm, hk]

/-- While the owner waits for the OS thread, that thread moves, or the waker moves that it waits
    for. -/
theorem Steady.nearer_joining (h : Steady t) (hrun : t.aborted = false)
    (hreturned : 3 ≤ rank t.osThread) (hc : t.call = .joining) : ∃ a, Nearer t (t.step a) := by
  obtain ⟨p, hp⟩ : ∃ p, t.osThread = some p := by
    refine Option.ne_none_iff_exists'.mp fun hnone => ?_
    rw [hnone] at hreturned
    exact absurd hreturned (by decide)
  have hthree := hreturned
  rw [hp] at hthree
  cases p with
  | created => exact absurd hthree (by decide)
  | entry => exact absurd hthree (by decide)
  | locking =>
    cases hm : t.mutex with
    | none =>
      refine ⟨.run, nearer_run hrun hp hthree { t.goTo .storing with mutex := some .osThread }
        (by rw [Thread.runLoop, hm]; rfl) rfl rfl (by decide) (Nat.zero_le _) rfl⟩
    | some holder =>
      cases holder with
      | waker k => exact ⟨.wake k, h.nearer_wake hrun hreturned hm⟩
      | osThread =>
        have hfour := (h.byThread hm).1
        rw [hp] at hfour
        exact absurd hfour (by decide)
  | storing =>
    exact ⟨.run, nearer_run hrun hp hthree _ rfl rfl rfl (by decide) (Nat.le_refl _) rfl⟩
  | finishing =>
    exact ⟨.run, nearer_run hrun hp hthree _ rfl rfl rfl (by decide) (Nat.le_refl _) rfl⟩
  | unlocking =>
    exact ⟨.run, nearer_run hrun hp hthree _ rfl rfl rfl (by decide) (Nat.zero_le _) rfl⟩
  | ended =>
    refine ⟨.owner true, nearer_owner hrun hreturned { t with joined := true, call := .storing }
      (by rw [hc, Thread.ownerStep, if_pos hp]) rfl rfl rfl rfl ?_⟩
    rw [hc]
    exact Nat.lt_succ_self 1

/-- When the entry has returned, some step brings the owner's call nearer to its end. -/
theorem Steady.nearer (h : Steady t) (hrun : t.aborted = false) (hreturned : 3 ≤ rank t.osThread)
    (hidle : t.call ≠ .idle) : ∃ a, Nearer t (t.step a) := by
  cases hc : t.call with
  | idle => exact absurd hc hidle
  | assigning =>
    have := h.assigning hc
    omega
  | joining => exact h.nearer_joining hrun hreturned hc
  | storing =>
    exact ⟨.owner true, nearer_owner hrun hreturned (t.ownerStep true .storing) (by rw [hc]) rfl
      rfl rfl rfl (by rw [hc]; exact Nat.one_pos)⟩
  | polling =>
    refine ⟨.owner true, nearer_owner hrun hreturned { t with call := .reading } ?_ rfl rfl rfl
      rfl (by rw [hc]; exact Nat.lt_succ_self 1)⟩
    rw [hc, Thread.ownerStep, Bool.or_true, if_pos rfl]
  | reading =>
    exact ⟨.owner true, nearer_owner hrun hreturned (t.ownerStep true .reading) (by rw [hc]) rfl
      rfl rfl rfl (by rw [hc]; exact Nat.one_pos)⟩

/-- Once the entry has returned, no call of the owner waits for good: from any state that a run
    reaches, a further run gets it back, unless the process has ended. -/
theorem after_returns (actions : List Action) (hrun : (run step {} actions).aborted = false)
    (hreturned : .returned ∈ (run step {} actions).events) :
    ∃ more, (run step {} (actions ++ more)).call = .idle := by
  have hsteady := steady_run actions
  have hthree := hsteady.returned.mp hreturned
  obtain ⟨more, -, hidle⟩ := run_reaches step
    (fun t => Steady t ∧ t.aborted = false ∧ 3 ≤ rank t.osThread) (fun t => t.call = .idle) left
    (fun t ht hidle => by
      obtain ⟨a, habort, hrank, hlt⟩ := ht.1.nearer ht.2.1 ht.2.2 hidle
      exact ⟨a, ⟨ht.1.step a, habort, hrank⟩, hlt⟩)
    ⟨hsteady, hrun, hthree⟩
  exact ⟨more, by rwa [run_append]⟩

/-- A join that began while the entry was running, with a waker that holds the mutex when the
    entry returns. -/
theorem after_returns_waker :
    ∃ more, (run step {} ([.start, .owner false, .callWake, .run, .join, .wake 0, .run] ++
      more)).call = .idle :=
  after_returns [.start, .owner false, .callWake, .run, .join, .wake 0, .run] (by decide)
    (by decide)

end Thread

end NeuroVerse.Proc
