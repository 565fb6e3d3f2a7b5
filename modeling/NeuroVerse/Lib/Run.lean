/-
  Runs of a deterministic step function over a list of operations, and the two rules the
  run theorems use: an invariant kept by every step holds after every run, and an invariant
  kept by every step that meets a condition holds after every run whose steps meet it. A third
  rule is for progress: a measure that some step lowers until the goal is reached.

  A statement about "every point of a run" quantifies over the prefixes of its operations.
  The last section is about machines whose steps also give a result: when each step agrees
  with an abstract machine through an abstraction function, so do whole runs, and two machines
  run in lockstep exactly as long as their steps agree.
  Nothing here names a program.
-/
import Mathlib.Data.List.Induction
import Mathlib.Order.Bounds.Defs

namespace NeuroVerse.Lib

variable {σ ο : Type*}

/-- The state after the operations `ops`, started in `s`. -/
def run (step : σ → ο → σ) (s : σ) (ops : List ο) : σ := ops.foldl step s

@[simp] theorem run_nil (step : σ → ο → σ) (s : σ) : run step s [] = s := rfl

theorem run_append (step : σ → ο → σ) (s : σ) (xs ys : List ο) :
    run step s (xs ++ ys) = run step (run step s xs) ys :=
  List.foldl_append

theorem run_snoc (step : σ → ο → σ) (s : σ) (xs : List ο) (o : ο) :
    run step s (xs ++ [o]) = step (run step s xs) o := by
  rw [run_append]; rfl

/-- A step of a longer run is its last step or one of the steps before. -/
theorem prefix_snoc {pre ops : List ο} {a o : ο} (h : pre ++ [a] <+: ops ++ [o]) :
    (pre = ops ∧ a = o) ∨ pre ++ [a] <+: ops := by
  rcases List.prefix_concat_iff.mp h with heq | h
  · obtain ⟨hpre, hlast⟩ := List.append_inj' heq rfl
    exact Or.inl ⟨hpre, List.singleton_inj.mp hlast⟩
  · exact Or.inr h

/-- Every step of the run `ops` meets `ok`, which reads the state before the step. -/
def StepsMeet (step : σ → ο → σ) (ok : σ → ο → Prop) (s : σ) (ops : List ο) : Prop :=
  ∀ pre o, pre ++ [o] <+: ops → ok (run step s pre) o

theorem StepsMeet.restrict {step : σ → ο → σ} {ok : σ → ο → Prop} {s : σ} {xs ys : List ο}
    (h : StepsMeet step ok s ys) (hp : xs <+: ys) : StepsMeet step ok s xs :=
  fun pre o ho => h pre o (ho.trans hp)

theorem StepsMeet.last {step : σ → ο → σ} {ok : σ → ο → Prop} {s : σ} {xs : List ο} {o : ο}
    (h : StepsMeet step ok s (xs ++ [o])) : ok (run step s xs) o :=
  h xs o (List.prefix_refl _)

theorem stepsMeet_nil (step : σ → ο → σ) (ok : σ → ο → Prop) (s : σ) :
    StepsMeet step ok s [] := by
  intro pre o h
  simp at h

theorem stepsMeet_cons (step : σ → ο → σ) (ok : σ → ο → Prop) (s : σ) (o : ο) (ops : List ο) :
    StepsMeet step ok s (o :: ops) ↔ ok s o ∧ StepsMeet step ok (step s o) ops := by
  constructor
  · intro h
    refine ⟨h [] o (by simp), fun pre o' ho => h (o :: pre) o' ?_⟩
    rw [List.cons_append]
    exact List.cons_prefix_cons.mpr ⟨rfl, ho⟩
  · rintro ⟨h0, h⟩ pre o' ho
    cases pre with
    | nil =>
      obtain ⟨rfl, -⟩ := List.cons_prefix_cons.mp ho
      exact h0
    | cons a pre =>
      rw [List.cons_append] at ho
      obtain ⟨rfl, hpre⟩ := List.cons_prefix_cons.mp ho
      exact h pre o' hpre

instance decStepsMeet (step : σ → ο → σ) (ok : σ → ο → Prop) [∀ s o, Decidable (ok s o)] :
    (s : σ) → (ops : List ο) → Decidable (StepsMeet step ok s ops)
  | s, [] => isTrue (stepsMeet_nil step ok s)
  | s, o :: ops =>
    have := decStepsMeet step ok (step s o) ops
    decidable_of_iff _ (stepsMeet_cons step ok s o ops).symm

theorem stepsMeet_snoc (step : σ → ο → σ) (ok : σ → ο → Prop) (s : σ) (ops : List ο) (o : ο) :
    StepsMeet step ok s (ops ++ [o]) ↔ StepsMeet step ok s ops ∧ ok (run step s ops) o := by
  constructor
  · intro h
    exact ⟨h.restrict (List.prefix_append ops [o]), h.last⟩
  · rintro ⟨h, hlast⟩ pre o' hp
    rcases prefix_snoc hp with ⟨rfl, rfl⟩ | hp
    · exact hlast
    · exact h pre o' hp

theorem stepsMeet_append (step : σ → ο → σ) (ok : σ → ο → Prop) (s : σ) (xs ys : List ο) :
    StepsMeet step ok s (xs ++ ys) ↔
      StepsMeet step ok s xs ∧ StepsMeet step ok (run step s xs) ys := by
  induction xs generalizing s with
  | nil => exact (and_iff_right (stepsMeet_nil step ok s)).symm
  | cons o xs ih =>
    rw [List.cons_append, stepsMeet_cons, stepsMeet_cons, ih, and_assoc]
    rfl

/-- What holds at the start, and after a step exactly when the step meets `ok`, holds all along
    a run exactly when every step of the run meets `ok`. -/
theorem prefixes_iff {step : σ → ο → σ} {ok : σ → ο → Prop} {s : σ} {ops : List ο}
    {P : List ο → Prop} (h0 : P [])
    (hstep : ∀ pre o, pre ++ [o] <+: ops → P pre → StepsMeet step ok s pre →
      (P (pre ++ [o]) ↔ ok (run step s pre) o)) :
    (∀ pre, pre <+: ops → P pre) ↔ StepsMeet step ok s ops := by
  constructor
  · intro h
    have hmeet : ∀ pre, pre <+: ops → StepsMeet step ok s pre := by
      intro pre hp
      induction pre using List.reverseRecOn with
      | nil => exact stepsMeet_nil step ok s
      | append_singleton pre o ih =>
        have hpre := (List.prefix_append pre [o]).trans hp
        exact (stepsMeet_snoc step ok s pre o).mpr
          ⟨ih hpre, (hstep pre o hp (h pre hpre) (ih hpre)).mp (h _ hp)⟩
    exact hmeet ops (List.prefix_refl ops)
  · intro h pre hp
    induction pre using List.reverseRecOn with
    | nil => exact h0
    | append_singleton pre o ih =>
      have hpre := (List.prefix_append pre [o]).trans hp
      exact (hstep pre o hp (ih hpre) (h.restrict hpre)).mpr (h pre o hp)

/-- The invariant rule: what holds at the start and is kept by every step holds after
    every run. -/
theorem run_invariant {step : σ → ο → σ} {I : σ → Prop} {s : σ} (h0 : I s)
    (hstep : ∀ s o, I s → I (step s o)) (ops : List ο) : I (run step s ops) := by
  induction ops generalizing s with
  | nil => exact h0
  | cons o ops ih => exact ih (hstep s o h0)

/-- The invariant rule for the runs whose steps meet `ok`. -/
theorem run_invariant_of_meet {step : σ → ο → σ} {ok : σ → ο → Prop} {I : σ → Prop} {s : σ}
    (h0 : I s) (hstep : ∀ s o, I s → ok s o → I (step s o)) {ops : List ο}
    (hok : StepsMeet step ok s ops) : I (run step s ops) := by
  induction ops using List.reverseRecOn with
  | nil => exact h0
  | append_singleton xs o ih =>
    rw [run_snoc]
    exact hstep _ _ (ih (hok.restrict (List.prefix_append xs [o]))) hok.last

/-- What follows from an invariant of the runs whose steps meet `ok`, and fails after a step that
    does not, holds all along a run exactly when every step of the run meets `ok`. `J` is what
    holds along every run. -/
theorem holds_iff_meet {step : σ → ο → σ} {ok : σ → ο → Prop} {I J Q : σ → Prop} {s : σ}
    (hI0 : I s) (hI : ∀ s o, I s → ok s o → I (step s o)) (hQ : ∀ s, I s → Q s)
    (hJ0 : J s) (hJ : ∀ s o, J s → J (step s o)) (hok : ∀ s o, J s → Q (step s o) → ok s o)
    (ops : List ο) : (∀ pre, pre <+: ops → Q (run step s pre)) ↔ StepsMeet step ok s ops := by
  refine prefixes_iff (hQ s hI0) fun pre o _ _ hmeet => ?_
  rw [run_snoc]
  constructor
  · exact hok _ o (run_invariant hJ0 hJ pre)
  · intro ho
    exact hQ _ (hI _ o (run_invariant_of_meet hI0 hI hmeet) ho)

/-- A register that each step raises to what is observed holds the maximum observed so far. -/
theorem run_max {step : σ → ο → σ} {I : σ → Prop} {s : σ} (h0 : I s)
    (hstep : ∀ s o, I s → I (step s o)) (f g : σ → Nat) (hstart : g s = f s)
    (hmax : ∀ s o, I s → g (step s o) = max (g s) (f (step s o))) (ops : List ο) :
    IsGreatest {n | ∃ pre, pre <+: ops ∧ f (run step s pre) = n} (g (run step s ops)) := by
  induction ops using List.reverseRecOn with
  | nil =>
    refine ⟨⟨[], List.prefix_refl [], hstart.symm⟩, ?_⟩
    rintro n ⟨pre, hp, rfl⟩
    rw [List.prefix_nil.mp hp]
    exact Nat.le_of_eq hstart.symm
  | append_singleton xs o ih =>
    obtain ⟨⟨top, htop, hval⟩, hbound⟩ := ih
    have hlast := hmax _ o (run_invariant h0 hstep xs)
    rw [run_snoc, hlast]
    constructor
    · rcases Nat.le_total (g (run step s xs)) (f (step (run step s xs) o)) with hle | hle
      · exact ⟨xs ++ [o], List.prefix_refl _, by rw [run_snoc, Nat.max_eq_right hle]⟩
      · exact ⟨top, htop.trans (List.prefix_append xs [o]), by rw [Nat.max_eq_left hle, hval]⟩
    · rintro n ⟨pre, hp, rfl⟩
      rcases List.prefix_concat_iff.mp hp with rfl | hp
      · rw [run_snoc]
        exact Nat.le_max_right _ _
      · exact Nat.le_trans (hbound ⟨pre, hp, rfl⟩) (Nat.le_max_left _ _)

/-- The progress rule: a state that has not reached the goal has a step that keeps the invariant
    and lowers the measure, so some run reaches the goal. -/
theorem run_reaches (step : σ → ο → σ) (I goal : σ → Prop) (f : σ → Nat)
    (h : ∀ s, I s → ¬ goal s → ∃ o, I (step s o) ∧ f (step s o) < f s) {s : σ} (h0 : I s) :
    ∃ ops, I (run step s ops) ∧ goal (run step s ops) := by
  generalize hn : f s = n
  induction n using Nat.strongRecOn generalizing s with
  | ind n ih =>
    by_cases hg : goal s
    · exact ⟨[], h0, hg⟩
    · obtain ⟨o, hI, hlt⟩ := h s h0 hg
      obtain ⟨ops, hrun⟩ := ih _ (hn ▸ hlt) hI rfl
      exact ⟨o :: ops, hrun⟩

/-- The termination rule: where every step that is allowed lowers the measure, a run has no more
    steps than the measure was at its start. -/
theorem length_le_of_measure {step : σ → ο → σ} {ok : σ → ο → Prop} {I : σ → Prop} {f : σ → Nat}
    (h : ∀ s o, I s → ok s o → I (step s o) ∧ f (step s o) < f s) {s : σ} {ops : List ο}
    (h0 : I s) (hok : StepsMeet step ok s ops) : ops.length ≤ f s := by
  induction ops generalizing s with
  | nil => exact Nat.zero_le _
  | cons o ops ih =>
    obtain ⟨ho, hops⟩ := (stepsMeet_cons step ok s o ops).mp hok
    obtain ⟨hI, hlt⟩ := h s o h0 ho
    exact Nat.lt_of_le_of_lt (ih hI hops) hlt

/-- A condition on what an abstraction function shows is met along a run exactly when it is met
    along the abstract run. -/
theorem stepsMeet_abs {α : Type*} (step : σ → ο → σ) (astep : α → ο → α) (abs : σ → α)
    (h : ∀ s o, abs (step s o) = astep (abs s) o) (ok : α → ο → Prop) (s : σ) (ops : List ο) :
    StepsMeet step (fun s o => ok (abs s) o) s ops ↔ StepsMeet astep ok (abs s) ops := by
  have hrun : ∀ pre : List ο, abs (run step s pre) = run astep (abs s) pre := by
    intro pre
    induction pre using List.reverseRecOn with
    | nil => rfl
    | append_singleton pre o ih => rw [run_snoc, run_snoc, h, ih]
  constructor
  · intro hm pre o hp
    have : ok (abs (run step s pre)) o := hm pre o hp
    rwa [hrun] at this
  · intro hm pre o hp
    show ok (abs (run step s pre)) o
    rw [hrun]
    exact hm pre o hp

/-- What is observed of the state stays as it was all along a run exactly when no step of the
    run changes it. -/
theorem unchanged_iff {α : Type*} (step : σ → ο → σ) (obs : σ → α) (s : σ) (ops : List ο) :
    (∀ pre, pre <+: ops → obs (run step s pre) = obs s) ↔
      StepsMeet step (fun s o => obs (step s o) = obs s) s ops := by
  refine prefixes_iff rfl fun pre o _ hpre _ => ?_
  rw [run_snoc, hpre]

/-! ## Machines with results -/

variable {ω : Type*}

/-- The state after a run of a machine whose steps also give a result. -/
def finalState (step : σ → ο → ω × σ) (s : σ) (ops : List ο) : σ :=
  run (fun s o => (step s o).2) s ops

/-- The results of a run, in order. -/
def results (step : σ → ο → ω × σ) (s : σ) : List ο → List ω
  | [] => []
  | o :: ops => (step s o).1 :: results step (step s o).2 ops

theorem finalState_append (step : σ → ο → ω × σ) (s : σ) (xs ys : List ο) :
    finalState step s (xs ++ ys) = finalState step (finalState step s xs) ys :=
  run_append _ s xs ys

theorem results_snoc (step : σ → ο → ω × σ) (s : σ) (ops : List ο) (o : ο) :
    results step s (ops ++ [o]) = results step s ops ++ [(step (finalState step s ops) o).1] := by
  induction ops generalizing s with
  | nil => rfl
  | cons a ops ih =>
    rw [List.cons_append, results, results, ih, List.cons_append]
    rfl

/-- The simulation rule: a machine whose every step agrees with the abstract machine through
    `abs` has the abstract machine's results and ends in its state. -/
theorem simulation {α : Type*} (step : σ → ο → ω × σ) (astep : α → ο → ω × α) (abs : σ → α)
    (h : ∀ s o, (step s o).1 = (astep (abs s) o).1 ∧ abs (step s o).2 = (astep (abs s) o).2)
    (s : σ) (ops : List ο) :
    results step s ops = results astep (abs s) ops ∧
      abs (finalState step s ops) = finalState astep (abs s) ops := by
  induction ops generalizing s with
  | nil => exact ⟨rfl, rfl⟩
  | cons o ops ih =>
    obtain ⟨hr, hs⟩ := h s o
    obtain ⟨ihr, ihs⟩ := ih (step s o).2
    rw [results, results, hr, ihr, hs]
    refine ⟨rfl, ?_⟩
    show abs (finalState step (step s o).2 ops) = finalState astep (astep (abs s) o).2 ops
    rw [← hs]
    exact ihs

/-- The refinement rule: a relation kept by the steps that meet `ok`, which reads the abstract
    state, and under which they give the abstract results, is kept along runs. -/
theorem refinement {α : Type*} (step : σ → ο → ω × σ) (astep : α → ο → ω × α)
    {R : σ → α → Prop} {ok : α → ο → Prop}
    (h : ∀ s a o, R s a → ok a o → (step s o).1 = (astep a o).1 ∧ R (step s o).2 (astep a o).2)
    {s : σ} {a : α} (h0 : R s a) {ops : List ο}
    (hok : StepsMeet (fun a o => (astep a o).2) ok a ops) :
    results step s ops = results astep a ops ∧
      R (finalState step s ops) (finalState astep a ops) := by
  induction ops generalizing s a with
  | nil => exact ⟨rfl, h0⟩
  | cons o ops ih =>
    obtain ⟨ho, hops⟩ := (stepsMeet_cons _ ok a o ops).mp hok
    obtain ⟨hr, hs⟩ := h s a o h0 ho
    obtain ⟨ihr, ihs⟩ := ih hs hops
    exact ⟨by rw [results, results, hr, ihr], ihs⟩

/-- Two machines give the same results and stay in the same states exactly when each step of
    the run is the same step in both. -/
theorem lockstep_iff (step step' : σ → ο → ω × σ) (s : σ) (ops : List ο) :
    (results step s ops = results step' s ops ∧
      ∀ pre, pre <+: ops → finalState step s pre = finalState step' s pre) ↔
      StepsMeet (fun s o => (step s o).2) (fun s o => step s o = step' s o) s ops := by
  induction ops generalizing s with
  | nil =>
    constructor
    · intro _
      exact stepsMeet_nil _ _ s
    · intro _
      refine ⟨rfl, fun pre hp => ?_⟩
      rw [List.prefix_nil.mp hp]
      rfl
  | cons o ops ih =>
    rw [stepsMeet_cons, ← ih]
    constructor
    · rintro ⟨hr, hs⟩
      have hstate : (step s o).2 = (step' s o).2 := hs [o] (by simp)
      obtain ⟨hhead, htail⟩ := List.cons.inj hr
      rw [← hstate] at htail
      refine ⟨Prod.ext hhead hstate, htail, fun pre hp => ?_⟩
      have := hs (o :: pre) (List.cons_prefix_cons.mpr ⟨rfl, hp⟩)
      rw [finalState, finalState, run, run, List.foldl_cons, List.foldl_cons, ← hstate] at this
      exact this
    · rintro ⟨heq, htail, hs⟩
      refine ⟨?_, fun pre hp => ?_⟩
      · rw [results, results, ← heq, htail]
      · cases pre with
        | nil => rfl
        | cons a pre =>
          obtain ⟨ha, hpre⟩ := List.cons_prefix_cons.mp hp
          subst ha
          have := hs pre hpre
          rw [finalState, finalState, run, run, List.foldl_cons, List.foldl_cons, ← heq]
          exact this

end NeuroVerse.Lib
