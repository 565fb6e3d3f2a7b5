/-
  The work-stealing scheduler as the host scaffold has it: one queue for all workers, a flag, and
  workers that spin.

  One action is one critical section, one atomic load or store, or one call, of `Worker::run`,
  `Scheduler::post` or `Scheduler::stop_all`. The workers take from the front of the queue, so
  what was posted is what was taken and what is queued, in that order, and what was taken is
  resumed once (`after_accounts`). A worker looks at the flag only at the head of its loop, and
  leaves the queue as it is when the flag is set: after the flag each worker resumes at most one
  more handle, and what is left is resumed by nobody (`after_stop`).
-/
import NeuroVerse.Lib.Run
import NeuroVerse.Lib.Threads
import Mathlib.Data.List.ReduceOption

namespace NeuroVerse.Sched.WorkStealing

open Lib

/-- Where a worker stands in `run`. -/
inductive Phase (η : Type*) where
  /-- At the head of the loop. -/
  | head
  /-- Before `try_get`. -/
  | getting
  /-- A handle is taken and not yet resumed. -/
  | holding (h : η)
  | running (h : η)
  | exited

/-- The scheduler, with all that was ever posted, taken and resumed, in order. A null handle may
    be posted like any other. -/
structure Scheduler (η : Type*) where
  workers : List (Phase η)
  global : List (Option η) := []
  done : Bool := false
  /-- How many workers `stop_all` has joined. -/
  joined : Option Nat := none
  posted : List (Option η) := []
  taken : List (Option η) := []
  /-- The handles resumed, each with its worker. -/
  resumed : List (Nat × η) := []

inductive Action (η : Type*) where
  | post (h : Option η)
  /-- Worker `w` takes its next step. -/
  | go (w : Nat)
  /-- The store of `stop_all`. -/
  | stop
  | join

namespace Scheduler

variable {η : Type*}

/-- The constructor: at least one worker. -/
def new (threads : Nat) : Scheduler η :=
  { workers := List.replicate (if threads = 0 then 1 else threads) .head }

def workerCount (s : Scheduler η) : Nat := s.workers.length

def globalSize (s : Scheduler η) : Nat := s.global.length

/-- `try_get`: what it returns, and the queue it leaves. -/
def tryGet : List (Option η) → Option η × List (Option η)
  | [] => (none, [])
  | h :: rest => (h, rest)

def setWorker (s : Scheduler η) (w : Nat) (p : Phase η) : Scheduler η :=
  { s with workers := s.workers.set w p }

/-- The next step of worker `w`, which is at `p`. -/
def work (s : Scheduler η) (w : Nat) : Phase η → Scheduler η
  | .head => s.setWorker w (if s.done then .exited else .getting)
  | .getting =>
    let (h, rest) := tryGet s.global
    { s.setWorker w (match h with
        | some h => .holding h
        | none => .head) with
      global := rest
      taken := s.taken ++ s.global.take 1 }
  | .holding h => { s.setWorker w (.running h) with resumed := s.resumed ++ [(w, h)] }
  | .running _ => s.setWorker w .head
  | .exited => s

def isExited : Phase η → Bool
  | .exited => true
  | _ => false

def step (s : Scheduler η) : Action η → Scheduler η
  | .post h => { s with global := s.global ++ [h], posted := s.posted ++ [h] }
  | .go w =>
    match s.workers[w]? with
    | none => s
    | some p => s.work w p
  | .stop => { s with done := true, joined := s.joined.or (some 0) }
  | .join =>
    match s.joined with
    | none => s
    | some i =>
      if (s.workers[i]?).any isExited then { s with joined := some (i + 1) } else s

/-- What an action can do. -/
inductive Stepped (s : Scheduler η) : Action η → Scheduler η → Prop where
  | post (h : Option η) :
      Stepped s (.post h) { s with global := s.global ++ [h], posted := s.posted ++ [h] }
  | check (w : Nat) (here : s.workers[w]? = some .head) :
      Stepped s (.go w) (s.setWorker w (if s.done then .exited else .getting))
  | empty (w : Nat) (here : s.workers[w]? = some .getting) (queue : s.global = []) :
      Stepped s (.go w) (s.setWorker w .head)
  | null (w : Nat) (rest : List (Option η)) (here : s.workers[w]? = some .getting)
      (queue : s.global = none :: rest) :
      Stepped s (.go w) { s.setWorker w .head with global := rest, taken := s.taken ++ [none] }
  | get (w : Nat) (h : η) (rest : List (Option η)) (here : s.workers[w]? = some .getting)
      (queue : s.global = some h :: rest) :
      Stepped s (.go w)
        { s.setWorker w (.holding h) with global := rest, taken := s.taken ++ [some h] }
  | resume (w : Nat) (h : η) (here : s.workers[w]? = some (.holding h)) :
      Stepped s (.go w) { s.setWorker w (.running h) with resumed := s.resumed ++ [(w, h)] }
  | back (w : Nat) (h : η) (here : s.workers[w]? = some (.running h)) :
      Stepped s (.go w) (s.setWorker w .head)
  | idle (w : Nat) (here : s.workers[w]? = none ∨ s.workers[w]? = some .exited) :
      Stepped s (.go w) s
  | stop : Stepped s .stop { s with done := true, joined := s.joined.or (some 0) }
  | join (i : Nat) (joining : s.joined = some i) (here : s.workers[i]? = some .exited) :
      Stepped s .join { s with joined := some (i + 1) }
  | wait (blocked : ∀ i, s.joined = some i → s.workers[i]? ≠ some .exited) : Stepped s .join s

theorem step_stepped (s : Scheduler η) (a : Action η) : Stepped s a (s.step a) := by
  cases a with
  | post h => exact .post h
  | go w =>
    unfold step
    dsimp only
    split
    · next here => exact .idle w (Or.inl here)
    · next p here =>
      cases p with
      | head => exact .check w here
      | getting =>
        unfold work tryGet
        cases hq : s.global with
        | nil => simpa [setWorker, hq] using Stepped.empty w here hq
        | cons h rest =>
          cases h with
          | none => simpa [hq] using Stepped.null w rest here hq
          | some h => simpa [hq] using Stepped.get w h rest here hq
      | holding h => exact .resume w h here
      | running h => exact .back w h here
      | exited => exact .idle w (Or.inr here)
  | stop => exact .stop
  | join =>
    unfold step
    dsimp only
    split
    · next hj =>
      refine .wait fun i hi => ?_
      rw [hj] at hi
      cases hi
    · next i hj =>
      cases hw : s.workers[i]? with
      | none =>
        refine .wait fun i' hi hexit => ?_
        obtain rfl := Option.some.inj (hj.symm.trans hi)
        rw [hw] at hexit
        cases hexit
      | some p =>
        cases p with
        | exited => exact .join i hj hw
        | _ =>
          refine .wait fun i' hi hexit => ?_
          obtain rfl := Option.some.inj (hj.symm.trans hi)
          rw [hw] at hexit
          cases hexit

/-! ## Bookkeeping -/

def held : Phase η → Option η
  | .holding h => some h
  | _ => none

/-- What was posted was taken or is queued, in that order, and what was taken and is no null
    handle was resumed once or is in the hands of a worker. -/
structure Accounts (s : Scheduler η) : Prop where
  order : s.posted = s.taken ++ s.global
  once : s.taken.reduceOption.Perm (s.resumed.map Prod.snd ++ s.workers.filterMap held)

theorem step_accounts {s : Scheduler η} (hs : s.Accounts) (a : Action η) :
    (s.step a).Accounts := by
  have hsame : ∀ {w p p'}, s.workers[w]? = some p → held p' = held p →
      s.taken.reduceOption.Perm
        (s.resumed.map Prod.snd ++ (s.workers.set w p').filterMap held) := by
    intro w p p' here h
    rw [filterMap_moved_same here h]
    exact hs.once
  have hstep := step_stepped s a
  generalize s.step a = t at hstep ⊢
  cases hstep with
  | post h =>
    refine ⟨?_, hs.once⟩
    show s.posted ++ [h] = s.taken ++ (s.global ++ [h])
    rw [hs.order, List.append_assoc]
  | check w here => exact ⟨hs.order, hsame here (by split <;> rfl)⟩
  | empty w here queue => exact ⟨hs.order, hsame here rfl⟩
  | null w rest here queue =>
    refine ⟨?_, ?_⟩
    · show s.posted = s.taken ++ [none] ++ rest
      rw [hs.order, queue, List.append_assoc]
      rfl
    · show (s.taken ++ [none]).reduceOption.Perm
        (s.resumed.map Prod.snd ++ (s.workers.set w .head).filterMap held)
      rw [List.reduceOption_append, List.reduceOption_singleton, Option.toList_none,
        List.append_nil]
      exact hsame here rfl
  | get w h rest here queue =>
    refine ⟨?_, ?_⟩
    · show s.posted = s.taken ++ [some h] ++ rest
      rw [hs.order, queue, List.append_assoc]
      rfl
    · have hheld := filterMap_moved held (.holding h) here rfl
      show (s.taken ++ [some h]).reduceOption.Perm
        (s.resumed.map Prod.snd ++ (s.workers.set w (.holding h)).filterMap held)
      rw [List.reduceOption_append, List.reduceOption_singleton]
      refine (hs.once.append_right _).trans ?_
      rw [List.append_assoc]
      exact hheld.symm.append_left _
  | resume w h here =>
    refine ⟨hs.order, hs.once.trans ?_⟩
    have hheld : (s.workers.filterMap held).Perm
        ((s.workers.set w (.running h)).filterMap held ++ [h]) := filterMap_moved_gone here rfl
    show (s.resumed.map Prod.snd ++ s.workers.filterMap held).Perm
      ((s.resumed ++ [(w, h)]).map Prod.snd ++ (s.workers.set w (.running h)).filterMap held)
    rw [List.map_append, List.append_assoc]
    exact (hheld.trans List.perm_append_comm).append_left _
  | back w h here => exact ⟨hs.order, hsame here rfl⟩
  | idle w here => exact hs
  | stop => exact ⟨hs.order, hs.once⟩
  | join i _ here => exact ⟨hs.order, hs.once⟩
  | wait blocked => exact hs

theorem new_accounts (threads : Nat) : (new threads : Scheduler η).Accounts := by
  refine ⟨rfl, List.Perm.of_eq ?_⟩
  have hnone : (new threads : Scheduler η).workers.filterMap held = [] := by
    refine List.filterMap_eq_nil_iff.mpr fun p hp => ?_
    rw [List.eq_of_mem_replicate hp]
    rfl
  rw [hnone]
  rfl

theorem after_accounts (threads : Nat) (ops : List (Action η)) :
    (run step (new threads) ops).Accounts :=
  run_invariant (new_accounts threads) (fun _ a hs => step_accounts hs a) ops

/-! ## After the flag -/

/-- How a worker moves. -/
inductive Moves (done : Bool) : Phase η → Phase η → Prop where
  | check : Moves done .head (if done then .exited else .getting)
  | miss : Moves done .getting .head
  | get (h : η) : Moves done .getting (.holding h)
  | resume (h : η) : Moves done (.holding h) (.running h)
  | back (h : η) : Moves done (.running h) .head

/-- The handle that worker `w` resumes when it moves on. -/
def starts (w : Nat) : Phase η → List (Nat × η)
  | .holding h => [(w, h)]
  | _ => []

/-- A step moves one worker or none. -/
theorem step_moves (s : Scheduler η) (a : Action η) :
    ((s.step a).workers = s.workers ∧ (s.step a).resumed = s.resumed ∧
      ∀ w p, a = .go w → s.workers[w]? = some p → p = .exited) ∨
    ∃ w p p', a = .go w ∧ s.workers[w]? = some p ∧ Moves s.done p p' ∧
      (s.step a).workers = s.workers.set w p' ∧ (s.step a).resumed = s.resumed ++ starts w p := by
  have hstep := step_stepped s a
  generalize s.step a = t at hstep ⊢
  cases hstep with
  | post h => exact Or.inl ⟨rfl, rfl, nofun⟩
  | check w here =>
    exact Or.inr ⟨w, _, _, rfl, here, .check, rfl, (List.append_nil _).symm⟩
  | empty w here queue =>
    exact Or.inr ⟨w, _, _, rfl, here, .miss, rfl, (List.append_nil _).symm⟩
  | null w rest here queue =>
    exact Or.inr ⟨w, _, _, rfl, here, .miss, rfl, (List.append_nil _).symm⟩
  | get w h rest here queue =>
    exact Or.inr ⟨w, _, _, rfl, here, .get h, rfl, (List.append_nil _).symm⟩
  | resume w h here => exact Or.inr ⟨w, _, _, rfl, here, .resume h, rfl, rfl⟩
  | back w h here =>
    exact Or.inr ⟨w, _, _, rfl, here, .back h, rfl, (List.append_nil _).symm⟩
  | idle w here =>
    refine Or.inl ⟨rfl, rfl, fun w' p hw' hp => ?_⟩
    obtain rfl := Action.go.inj hw'
    rcases here with here | here
    · rw [hp] at here
      cases here
    · exact Option.some.inj (hp.symm.trans here)
  | stop => exact Or.inl ⟨rfl, rfl, nofun⟩
  | join i _ here => exact Or.inl ⟨rfl, rfl, nofun⟩
  | wait blocked => exact Or.inl ⟨rfl, rfl, nofun⟩

theorem step_done {s : Scheduler η} (hdone : s.done = true) (a : Action η) :
    (s.step a).done = true := by
  have hstep := step_stepped s a
  generalize s.step a = t at hstep ⊢
  cases hstep <;> first | exact hdone | rfl

/-- The steps a worker still takes, at most, once the flag is set. -/
def stepsLeft : Phase η → Nat
  | .getting => 4
  | .holding _ => 3
  | .running _ => 2
  | .head => 1
  | .exited => 0

theorem Moves.stepsLeft_lt {p p' : Phase η} (h : Moves true p p') :
    stepsLeft p' < stepsLeft p := by
  cases h <;> exact Nat.le_of_ble_eq_true rfl

/-- The handles a worker may still resume before it looks at the flag. -/
def mayResume : Phase η → Nat
  | .getting => 1
  | .holding _ => 1
  | _ => 0

theorem Moves.mayResume_le {p p' : Phase η} (h : Moves true p p') (w : Nat) :
    (starts w p).length + mayResume p' ≤ mayResume p := by
  cases h <;> exact Nat.le_of_ble_eq_true rfl

theorem mayResume_le_one (p : Phase η) : mayResume p ≤ 1 := by
  cases p <;> exact Nat.le_of_ble_eq_true rfl

theorem stepsLeft_le (p : Phase η) : stepsLeft p ≤ 4 := by
  cases p <;> exact Nat.le_of_ble_eq_true rfl

theorem exited_of_stepsLeft {p : Phase η} (h : stepsLeft p ≤ 0) : p = .exited := by
  cases p <;> first | rfl | exact absurd h (Nat.not_le_of_lt (Nat.succ_pos _))

/-- The handles that worker `w` has resumed. -/
def resumedBy (s : Scheduler η) (w : Nat) : Nat := s.resumed.countP fun r => r.1 = w

/-- Worker `w` has resumed at most `n` handles, counting what it may still resume, and exits
    within `left` steps of its own. -/
def Leaving (w n left : Nat) (s : Scheduler η) : Prop :=
  ∃ p, s.workers[w]? = some p ∧ s.resumedBy w + mayResume p ≤ n ∧ stepsLeft p ≤ left

def isGo (w : Nat) : Action η → Bool
  | .go w' => w' = w
  | _ => false

/-- Under the flag a worker's own step brings it closer to its exit, and it comes to resume
    nothing that it could not resume before. -/
theorem step_leaving {s : Scheduler η} (hdone : s.done = true) {w n left : Nat}
    (hs : s.Leaving w n left) (a : Action η) :
    (s.step a).Leaving w n (left - if isGo w a then 1 else 0) := by
  obtain ⟨p, here, hn, hleft⟩ := hs
  rcases step_moves s a with ⟨hworkers, hresumed, hidle⟩ | ⟨w', q, q', rfl, hq, hmoves, hw, hr⟩
  · refine ⟨p, hworkers ▸ here, ?_, ?_⟩
    · rw [resumedBy, hresumed]
      exact hn
    · split
      · next hgo =>
        cases a with
        | go w' =>
          obtain rfl : w' = w := of_decide_eq_true hgo
          rw [hidle w' p rfl here]
          exact Nat.zero_le _
        | _ => cases hgo
      · exact hleft
  · rw [hdone] at hmoves
    by_cases heq : w' = w
    · subst heq
      obtain rfl : q = p := Option.some.inj (hq.symm.trans here)
      have hlt := hmoves.stepsLeft_lt
      have hle := hmoves.mayResume_le w'
      have hcount : (starts w' q).countP (fun r => decide (r.1 = w')) ≤ (starts w' q).length :=
        List.countP_le_length
      refine ⟨q', ?_, ?_, ?_⟩
      · rw [hw]
        exact getElem?_moved_self hq
      · rw [resumedBy, hr, List.countP_append]
        rw [resumedBy] at hn
        omega
      · rw [isGo, decide_eq_true rfl, if_pos rfl]
        omega
    · have hnone : (starts w' q).countP (fun r => decide (r.1 = w)) = 0 := by
        cases q <;> simp [starts, heq]
      refine ⟨p, ?_, ?_, ?_⟩
      · rw [hw, List.getElem?_set_ne heq]
        exact here
      · rw [resumedBy, hr, List.countP_append, hnone]
        exact hn
      · rw [isGo, decide_eq_false heq, if_neg Bool.false_ne_true]
        exact hleft

theorem run_leaving {s : Scheduler η} (hdone : s.done = true) {w n left : Nat}
    (hs : s.Leaving w n left) (ops : List (Action η)) :
    (run step s ops).Leaving w n (left - ops.countP (isGo w)) := by
  induction ops generalizing s left with
  | nil => exact hs
  | cons a ops ih =>
    have hrun := ih (step_done hdone a) (step_leaving hdone hs a)
    rw [Nat.sub_sub, Nat.add_comm, ← List.countP_cons] at hrun
    exact hrun

/-- Every worker has returned from `run`. -/
def AllExited (s : Scheduler η) : Prop := ∀ p ∈ s.workers, p = .exited

/-- Nobody takes anything when every worker has returned. -/
theorem step_allExited {s : Scheduler η} (hs : s.AllExited) (a : Action η) :
    (s.step a).workers = s.workers ∧ (s.step a).resumed = s.resumed ∧
      s.global <+: (s.step a).global := by
  have hstep := step_stepped s a
  have hout : ∀ {w} {p : Phase η}, s.workers[w]? = some p → p ≠ .exited → False :=
    fun here hne => hne (hs _ (List.mem_of_getElem? here))
  generalize s.step a = t at hstep ⊢
  cases hstep with
  | post h => exact ⟨rfl, rfl, List.prefix_append _ _⟩
  | check w here => exact (hout here nofun).elim
  | empty w here queue => exact (hout here nofun).elim
  | null w rest here queue => exact (hout here nofun).elim
  | get w h rest here queue => exact (hout here nofun).elim
  | resume w h here => exact (hout here nofun).elim
  | back w h here => exact (hout here nofun).elim
  | idle w here => exact ⟨rfl, rfl, List.prefix_refl _⟩
  | stop => exact ⟨rfl, rfl, List.prefix_refl _⟩
  | join i _ here => exact ⟨rfl, rfl, List.prefix_refl _⟩
  | wait blocked => exact ⟨rfl, rfl, List.prefix_refl _⟩

theorem run_allExited {s : Scheduler η} (hs : s.AllExited) (ops : List (Action η)) :
    (run step s ops).workers = s.workers ∧ (run step s ops).resumed = s.resumed ∧
      s.global <+: (run step s ops).global := by
  refine run_invariant (I := fun t : Scheduler η => t.workers = s.workers ∧
    t.resumed = s.resumed ∧ s.global <+: t.global) ⟨rfl, rfl, List.prefix_refl _⟩ ?_ ops
  rintro t a ⟨hworkers, hresumed, hglobal⟩
  have ht : t.AllExited := fun p hp => hs p (hworkers ▸ hp)
  obtain ⟨hw, hr, hg⟩ := step_allExited ht a
  exact ⟨hw.trans hworkers, hr.trans hresumed, hglobal.trans hg⟩

/-- `stop_all` has joined no worker that is not there. -/
def Joins (s : Scheduler η) : Prop := ∀ i ∈ s.joined, i ≤ s.workers.length

theorem step_length (s : Scheduler η) (a : Action η) :
    (s.step a).workers.length = s.workers.length := by
  rcases step_moves s a with ⟨hworkers, -⟩ | ⟨w, p, p', -, -, -, hworkers, -⟩
  · rw [hworkers]
  · rw [hworkers, List.length_set]

theorem step_joins {s : Scheduler η} (hs : s.Joins) (a : Action η) : (s.step a).Joins := by
  have hlen := step_length s a
  have hstep := step_stepped s a
  generalize s.step a = t at hstep hlen ⊢
  intro i hi
  rw [hlen]
  cases hstep with
  | stop =>
    cases hj : s.joined with
    | none =>
      have hzero : i ∈ s.joined.or (some 0) := hi
      rw [hj] at hzero
      rw [← Option.some.inj hzero]
      exact Nat.zero_le _
    | some j =>
      have hsame : i ∈ s.joined.or (some 0) := hi
      rw [hj] at hsame
      exact hs i (hj ▸ hsame)
  | join j _ here =>
    rw [← Option.some.inj hi]
    exact (List.getElem?_eq_some_iff.mp here).1
  | _ => exact hs i hi

/-- `stop_all` joins one worker after the other. -/
theorem run_join {s : Scheduler η} (hs : s.AllExited) {i : Nat} (hi : s.joined = some i)
    (hle : i ≤ s.workers.length) (n : Nat) :
    (run step s (List.replicate n .join)).joined = some (min (i + n) s.workers.length) := by
  induction n generalizing s i with
  | zero => rw [Nat.add_zero, Nat.min_eq_left hle]; exact hi
  | succ n ih =>
    show (run step (s.step .join) (List.replicate n .join)).joined = _
    have hnext : s.step .join =
        { s with joined := some (min (i + 1) s.workers.length) } := by
      unfold step
      simp only [hi]
      by_cases hlt : i < s.workers.length
      · have hexit : s.workers[i]? = some .exited := by
          rw [List.getElem?_eq_getElem hlt, hs _ (List.getElem_mem hlt)]
        rw [hexit, Nat.min_eq_left hlt]
        rfl
      · have hend : i = s.workers.length := Nat.le_antisymm hle (Nat.le_of_not_lt hlt)
        rw [hend, List.getElem?_eq_none (Nat.le_refl _),
          Nat.min_eq_right (Nat.le_succ _)]
        exact congrArg (fun j => { s with joined := j }) (hi.trans (congrArg some hend))
    rw [hnext, ih (s := { s with joined := some (min (i + 1) s.workers.length) }) hs rfl
      (Nat.min_le_right _ _)]
    congr 1
    dsimp only
    omega

/-- What `stop_all` leaves behind, of a scheduler that was `s` when the flag was set. -/
structure Stopped (s t : Scheduler η) : Prop where
  exited : t.AllExited
  /-- Each worker resumed at most one handle after the flag. -/
  last : ∀ w < t.workerCount, t.resumedBy w ≤ s.resumedBy w + 1
  order : t.posted = t.taken ++ t.global
  once : t.taken.reduceOption.Perm (t.resumed.map Prod.snd)
  /-- What is queued stays where it is. -/
  left : ∀ more, (run step t more).resumed = t.resumed ∧ t.global <+: (run step t more).global
  returns : (run step t (List.replicate t.workerCount .join)).joined = some t.workerCount

theorem length_workers (threads : Nat) (ops : List (Action η)) :
    (run step (new threads) ops).workers.length = (new threads : Scheduler η).workerCount :=
  run_invariant (I := fun t : Scheduler η => t.workers.length = (new threads).workerCount) rfl
    (fun t a ht => (step_length t a).trans ht) ops

/-- After a stop, the joins are under way or done. -/
theorem stop_joined (s : Scheduler η) : (s.step .stop).joined.isSome := by
  show (s.joined.or (some 0)).isSome
  cases s.joined <;> rfl

theorem run_stopping (h : s.joined.isSome) (ops : List (Action η)) :
    (run step s ops).joined.isSome := by
  refine run_invariant (I := fun t : Scheduler η => t.joined.isSome) h (fun t a ht => ?_) ops
  have hstep := step_stepped t a
  generalize t.step a = u at hstep ⊢
  cases hstep with
  | stop => exact stop_joined t
  | join i _ _ => rfl
  | _ => exact ht

/-- Once every worker has taken four steps under the flag, all have returned. Each has resumed
    at most one handle more, and what was not taken is never resumed. -/
theorem after_stop (threads : Nat) (pre ops : List (Action η))
    (hops : ∀ w < (new threads : Scheduler η).workerCount, 4 ≤ ops.countP (isGo w)) :
    (run step (new threads) pre).Stopped (run step (new threads) (pre ++ .stop :: ops)) := by
  have haccounts := after_accounts threads (pre ++ .stop :: ops)
  have hlen' := length_workers threads (pre ++ .stop :: ops)
  have hjoins : (run step (new threads) (pre ++ .stop :: ops)).Joins :=
    run_invariant (I := Joins) (fun i hi => absurd (show none = some i from hi) nofun)
      (fun _ a hs => step_joins hs a) _
  have hlen := length_workers threads pre
  rw [run_append] at haccounts hlen' hjoins ⊢
  generalize run step (new threads) pre = s at haccounts hlen' hjoins hlen ⊢
  have hleaving : ∀ w < (new threads : Scheduler η).workerCount,
      (run step (s.step .stop) ops).Leaving w (s.resumedBy w + 1) 0 := by
    intro w hw
    have hlt : w < s.workers.length := hlen ▸ hw
    have hstart : (s.step .stop).Leaving w (s.resumedBy w + 1) 4 :=
      ⟨s.workers[w], List.getElem?_eq_getElem hlt,
        Nat.add_le_add_left (mayResume_le_one _) _, stepsLeft_le _⟩
    have hrun := run_leaving (s := s.step .stop) rfl hstart ops
    rwa [Nat.sub_eq_zero_of_le (hops w hw)] at hrun
  have hsome := run_stopping (s := s.step .stop) (stop_joined s) ops
  change (run step (s.step .stop) ops).Accounts at haccounts
  change (run step (s.step .stop) ops).workers.length = _ at hlen'
  change (run step (s.step .stop) ops).Joins at hjoins
  show s.Stopped (run step (s.step .stop) ops)
  generalize run step (s.step .stop) ops = t at haccounts hlen' hjoins hleaving hsome ⊢
  have hexited : t.AllExited := by
    intro p hp
    obtain ⟨w, hw⟩ := List.mem_iff_getElem?.mp hp
    obtain ⟨p', hp', -, hleft⟩ := hleaving w (hlen' ▸ (List.getElem?_eq_some_iff.mp hw).1)
    obtain rfl := Option.some.inj (hw.symm.trans hp')
    exact exited_of_stepsLeft hleft
  have hheld : t.workers.filterMap held = [] := by
    refine List.filterMap_eq_nil_iff.mpr fun p hp => ?_
    rw [hexited p hp]
    rfl
  obtain ⟨i, hi⟩ := Option.isSome_iff_exists.mp hsome
  refine ⟨hexited, fun w hw => ?_, haccounts.order, ?_, fun more => ?_, ?_⟩
  · obtain ⟨p, -, hn, -⟩ := hleaving w (hlen' ▸ hw)
    exact Nat.le_trans (Nat.le_add_right _ _) hn
  · have honce := haccounts.once
    rwa [hheld, List.append_nil] at honce
  · exact (run_allExited hexited more).2
  · have hle := hjoins i hi
    rw [run_join hexited hi hle]
    exact congrArg some (Nat.min_eq_right (Nat.le_add_left _ _))

/-- Two workers and three tasks: the flag comes when one worker is about to take a task, and the
    last two are left. -/
theorem after_stop_two :
    (run step (new 2) [.post (some 7), .post (some 8), .post (some 9), .go 0]).Stopped
      (run step (new 2) ([.post (some 7), .post (some 8), .post (some 9), .go 0] ++
        .stop :: (List.replicate 4 (.go 0) ++ List.replicate 4 (.go 1)))) :=
  after_stop 2 _ _ (by decide)

end Scheduler

end NeuroVerse.Sched.WorkStealing
