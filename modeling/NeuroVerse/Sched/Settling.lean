/-
  The tasks of the multilevel scheduler.

  A task is with the call that brings it until it is posted, and then with one node
  (`step_tasks`). Once every call has returned, the nodes have the tasks and their counters say
  how many (`settled`).
-/
import NeuroVerse.Sched.Multilevel

namespace NeuroVerse.Sched

open Lib

namespace MultilevelScheduler

variable {η : Type*}

/-! ## Every task is posted once -/

/-- The tasks that the calls of a run bring: `submit_to` refuses a node that is not there. -/
def accepted (n : Nat) : Action η → Option η
  | .submit h _ => some h
  | .submitTo i h => if n ≤ i then none else some h
  | .go _ _ => none

/-- The handle of a call that has it still to post. -/
def Call.unposted (c : Call η) : Option η := if c.place.unposted then some c.handle else none

/-- What has been posted to the nodes, and what is still to be posted. -/
def tasks (s : MultilevelScheduler η) : List η :=
  (List.range s.count).flatMap s.posted ++ s.calls.filterMap Call.unposted

/-- A list posted at one node more. -/
theorem flatMap_posted {n b : Nat} (hb : b < n) (f : Nat → List η) (h : η) :
    ((List.range n).flatMap (Function.update f b (f b ++ [h]))).Perm
      ((List.range n).flatMap f ++ [h]) := by
  induction n with
  | zero => exact absurd hb (Nat.not_lt_zero b)
  | succ n ih =>
    rw [List.range_succ, List.flatMap_append, List.flatMap_append, List.flatMap_singleton,
      List.flatMap_singleton]
    rcases Nat.lt_succ_iff_lt_or_eq.mp hb with hlt | rfl
    · rw [Function.update_of_ne (Nat.ne_of_gt hlt), List.append_assoc]
      refine ((ih hlt).append_right _).trans ?_
      rw [List.append_assoc]
      exact List.perm_append_comm.append_left _
    · rw [Function.update_self, List.append_assoc]
      refine List.Perm.append_right _ (List.Perm.of_eq ?_)
      refine List.flatMap_congr fun x hx => ?_
      rw [Function.update_of_ne (Nat.ne_of_lt (List.mem_range.mp hx))]

theorem afterRead_unposted (s : MultilevelScheduler η) {i : Nat} {best : Nat × BitVec 64}
    (hi : i < s.count) (h : best.1 ≤ i) : (s.afterRead i best).unposted = true := by
  unfold afterRead
  split
  · rfl
  · rw [if_pos (Nat.lt_of_le_of_lt h hi)]
    rfl

/-- Every step keeps the tasks, and a call brings its own. -/
theorem step_tasks {s : MultilevelScheduler η} (hs : s.Ranged) (a : Action η) :
    (s.step a).tasks.Perm (s.tasks ++ (accepted s.count a).toList) := by
  have hspawn : ∀ c, tasks { s with calls := s.calls ++ [c] } =
      s.tasks ++ (Call.unposted c).toList := by
    intro c
    rw [tasks, tasks, List.filterMap_append, List.append_assoc]
    cases hc : Call.unposted c <;> simp [hc]
  have hsame : ∀ {k c c'}, s.calls[k]? = some c → Call.unposted c' = Call.unposted c →
      (List.range s.count).flatMap s.posted ++ (s.calls.set k c').filterMap Call.unposted =
        s.tasks ++ [] := by
    intro k c c' here h
    rw [filterMap_moved_same here h, List.append_nil, tasks]
  have hstep := step_stepped s a
  generalize s.step a = t at hstep ⊢
  cases hstep with
  | submit h affinity => exact List.Perm.of_eq (hspawn _)
  | submitTo i h =>
    refine List.Perm.of_eq ((hspawn _).trans ?_)
    unfold accepted Call.unposted
    by_cases hi : s.count ≤ i <;> simp [hi, Place.unposted, Place.choosing]
  | read k qf h pinned seen i best here => exact List.Perm.of_eq (hsame here rfl)
  | readRest k qf h pinned seen i best qf' part here =>
    obtain ⟨hi, hbest⟩ := hs _ (List.mem_of_getElem? here)
    refine List.Perm.of_eq (hsame here ?_)
    unfold Call.unposted
    rw [afterRead_unposted s hi (better_le hbest _)]
    rfl
  | enqueue k qf h pinned seen b here => exact List.Perm.of_eq (hsame here rfl)
  | post k qf h pinned seen b here =>
    have hb : b < s.count := hs _ (List.mem_of_getElem? here)
    have hgone : (s.calls.filterMap Call.unposted).Perm
        ((s.calls.set k ⟨h, pinned, seen, .dequeue b⟩).filterMap Call.unposted ++ [h]) :=
      filterMap_moved_gone here rfl
    show ((List.range s.count).flatMap (Function.update s.posted b (s.posted b ++ [h])) ++
      (s.calls.set k ⟨h, pinned, seen, .dequeue b⟩).filterMap Call.unposted).Perm (s.tasks ++ [])
    rw [List.append_nil]
    refine ((flatMap_posted hb s.posted h).append_right _).trans ?_
    rw [List.append_assoc]
    exact (List.perm_append_comm.trans hgone.symm).append_left _
  | dequeue k qf h pinned seen b here => exact List.Perm.of_eq (hsame here rfl)
  | run k qf h pinned seen b here => exact List.Perm.of_eq (hsame here rfl)
  | idle k qf => exact List.Perm.of_eq (List.append_nil _).symm

/-- As many handles are posted to a node as calls have posted there. -/
def Handed (s : MultilevelScheduler η) : Prop :=
  ∀ b, (s.posted b).length = s.calls.countP fun c => c.place.handed b

theorem step_handed {s : MultilevelScheduler η} (hs : s.Handed) (a : Action η) :
    (s.step a).Handed := by
  have hsame : ∀ {k} {c c' : Call η}, s.calls[k]? = some c →
      (∀ b, c'.place.handed b = c.place.handed b) →
      ∀ b, (s.posted b).length = (s.calls.set k c').countP fun c => c.place.handed b :=
    fun here h b => (hs b).trans (countP_eq_moved here (h b)).symm
  have hspawn : ∀ {c : Call η}, (∀ b, c.place.handed b = false) →
      ∀ b, (s.posted b).length = (s.calls ++ [c]).countP fun c => c.place.handed b := by
    intro c h b
    rw [hs b, List.countP_append, List.countP_singleton, h b]
    rfl
  have hstep := step_stepped s a
  generalize s.step a = t at hstep ⊢
  cases hstep with
  | submit h affinity => exact hspawn fun _ => rfl
  | submitTo i h => exact hspawn fun _ => by split <;> rfl
  | read k qf h pinned seen i best here => exact hsame here fun _ => rfl
  | readRest k qf h pinned seen i best qf' part here =>
    exact hsame here fun b => (afterRead_place s i _ b).2.2.2
  | enqueue k qf h pinned seen b here => exact hsame here fun _ => rfl
  | post k qf h pinned seen b here =>
    intro b'
    have hcount := countP_moved (fun c => c.place.handed b')
      ⟨h, pinned, seen, .dequeue b⟩ here
    have hb := hs b'
    show (Function.update s.posted b (s.posted b ++ [h]) b').length =
      (s.calls.set k ⟨h, pinned, seen, .dequeue b⟩).countP fun c => c.place.handed b'
    by_cases heq : b' = b
    · subst heq
      rw [Function.update_self, List.length_append, List.length_singleton]
      simp only [Place.handed, decide_true, if_true, Bool.false_eq_true, if_false] at hcount hb ⊢
      omega
    · rw [Function.update_of_ne heq]
      simp only [Place.handed, Ne.symm heq, decide_false, Bool.false_eq_true,
        if_false] at hcount hb ⊢
      omega
  | dequeue k qf h pinned seen b here => exact hsame here fun _ => rfl
  | run k qf h pinned seen b here => exact hsame here fun _ => rfl
  | idle k qf => exact hs

theorem after_tasks (cfg : TierConfig) (ops : List (Action η)) :
    (Lib.run step (new cfg) ops).tasks.Perm
      (ops.filterMap (accepted (new cfg : MultilevelScheduler η).count)) := by
  induction ops using List.reverseRecOn with
  | nil => simp [tasks, new]
  | append_singleton ops a ih =>
    have hs : (Lib.run step (new cfg) ops).Ranged :=
      run_invariant (new_ranged cfg) (fun _ a hs => step_ranged hs a) ops
    rw [run_snoc, List.filterMap_append]
    refine (step_tasks hs a).trans ?_
    rw [after_count cfg ops]
    refine (ih.append_right _).trans (List.Perm.of_eq ?_)
    cases ha : accepted (new cfg : MultilevelScheduler η).count a <;> simp [ha]

theorem finished_place {p : Place} (h : p.finished = true) (b : Nat) :
    p.waiting b = false ∧ p.handed b = p.landed b ∧ p.unposted = false := by
  cases p with
  | returned b' => exact ⟨rfl, rfl, rfl⟩
  | refused => exact ⟨rfl, rfl, rfl⟩
  | _ => cases h

/-- Only `submit_to` refuses. -/
def Unrefused (s : MultilevelScheduler η) : Prop :=
  ∀ c ∈ s.calls, c.pinned = false → c.place ≠ .refused

theorem step_unrefused {s : MultilevelScheduler η} (hranged : s.Ranged) (hs : s.Unrefused)
    (a : Action η) : (s.step a).Unrefused := by
  have hmoved : ∀ {k} {c c' : Call η}, s.calls[k]? = some c → c'.place ≠ .refused →
      ∀ x ∈ s.calls.set k c', x.pinned = false → x.place ≠ .refused := by
    intro k c c' here h x hx
    rcases List.mem_or_eq_of_mem_set hx with hx | rfl
    · exact hs x hx
    · exact fun _ => h
  have hstep := step_stepped s a
  generalize s.step a = t at hstep ⊢
  cases hstep with
  | submit h affinity =>
    intro c hc
    rcases List.mem_append.mp hc with hc | hc
    · exact hs c hc
    · rw [List.mem_singleton.mp hc]
      exact fun _ => nofun
  | submitTo i h =>
    intro c hc
    rcases List.mem_append.mp hc with hc | hc
    · exact hs c hc
    · rw [List.mem_singleton.mp hc]
      exact fun h => absurd h Bool.noConfusion
  | read k qf h pinned seen i best here => exact hmoved here nofun
  | readRest k qf h pinned seen i best qf' part here =>
    obtain ⟨hi, hbest⟩ := hranged _ (List.mem_of_getElem? here)
    refine hmoved here fun hrefused => ?_
    have hunposted := afterRead_unposted s hi
      (better_le hbest (part + if qf' then s.running i else s.queued i))
    rw [show s.afterRead i _ = .refused from hrefused] at hunposted
    cases hunposted
  | enqueue k qf h pinned seen b here => exact hmoved here nofun
  | post k qf h pinned seen b here => exact hmoved here nofun
  | dequeue k qf h pinned seen b here => exact hmoved here nofun
  | run k qf h pinned seen b here => exact hmoved here nofun
  | idle k qf => exact hs

/-- What the calls of a run make of the nodes, their counters and their results. -/
structure Settled (s : MultilevelScheduler η) (tasks : List η) : Prop where
  /-- Every task is posted, to one node and no other. -/
  posted : ((List.range s.count).flatMap s.posted).Perm tasks
  queued : ∀ b, s.queued b = 0
  /-- The load of a node is the number of tasks posted to it. -/
  load : ∀ b < s.count, s.load b = BitVec.ofNat 64 (s.posted b).length
  result : ∀ c ∈ s.calls, c.pinned = false → s.result c = some s.workersPerNode

/-- Once every call has returned, every task that the calls brought has gone to one node. -/
theorem settled (cfg : TierConfig) {ops : List (Action η)}
    (hdone : (Lib.run step (new cfg) ops).inProgress = 0) :
    (Lib.run step (new cfg) ops).Settled
      (ops.filterMap (accepted (new cfg : MultilevelScheduler η).count)) := by
  have htasks := after_tasks cfg ops
  have hcounts : (Lib.run step (new cfg) ops).Counts :=
    run_invariant (new_counts cfg) (fun _ a hs => step_counts hs a) ops
  have hhanded : (Lib.run step (new cfg) ops).Handed :=
    run_invariant (I := Handed) (fun _ => rfl) (fun _ a hs => step_handed hs a) ops
  have hunrefused : (Lib.run step (new cfg) ops).Ranged ∧ (Lib.run step (new cfg) ops).Unrefused :=
    run_invariant (I := fun s : MultilevelScheduler η => s.Ranged ∧ s.Unrefused)
      ⟨new_ranged cfg, fun _ hc => absurd hc List.not_mem_nil⟩
      (fun _ a hs => ⟨step_ranged hs.1 a, step_unrefused hs.1 hs.2 a⟩) ops
  generalize Lib.run step (new cfg) ops = s at hdone htasks hcounts hhanded hunrefused ⊢
  have hfinished : ∀ c ∈ s.calls, c.place.finished = true := by
    intro c hc
    simpa using List.countP_eq_zero.mp hdone c hc
  have hgone : s.calls.filterMap Call.unposted = [] := by
    refine List.filterMap_eq_nil_iff.mpr fun c hc => ?_
    rw [Call.unposted, (finished_place (hfinished c hc) 0).2.2, if_neg Bool.false_ne_true]
  have hqueued : ∀ b, s.queued b = 0 := by
    intro b
    have hnone : s.calls.countP (fun c => c.place.waiting b) = 0 := by
      refine List.countP_eq_zero.mpr fun c hc => ?_
      rw [(finished_place (hfinished c hc) b).1]
      exact Bool.false_ne_true
    rw [hcounts.queued b, hnone]
    rfl
  refine ⟨?_, hqueued, fun b hb => ?_, fun c hc hpinned => ?_⟩
  · rwa [tasks, hgone, List.append_nil] at htasks
  · have hlanded : s.calls.countP (fun c => c.place.handed b) =
        s.calls.countP fun c => c.place.landed b := by
      refine List.countP_congr fun c hc => ?_
      rw [(finished_place (hfinished c hc) b).2.1]
    rw [load, if_pos hb, hqueued b, hhanded b, hlanded, hcounts.running b]
    exact BitVec.zero_add _
  · have hover := hfinished c hc
    have hne := hunrefused.2 c hc hpinned
    unfold result
    cases hp : c.place with
    | returned b => rw [hpinned]; rfl
    | refused => exact absurd hp hne
    | _ =>
      rw [hp] at hover
      cases hover

theorem settled_twoScans :
    ((List.range 2).flatMap (Lib.run step (new ⟨2, 1⟩) twoScans).posted).Perm [7, 8] :=
  (settled ⟨2, 1⟩ (show (Lib.run step (new ⟨2, 1⟩) twoScans).inProgress = 0 by decide)).posted

end MultilevelScheduler

end NeuroVerse.Sched
