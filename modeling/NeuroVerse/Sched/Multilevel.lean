/-
  The multilevel scheduler: a task goes to the node that shows the least load.

  Any number of calls of `submit` and `submit_to` run at the same time, and one action is one
  atomic operation of one call. `pick_node` reads the counters of the nodes one after the other,
  two loads for a node in an order that the language leaves open, while other calls move them.
  The counters are what the calls have made of them (`step_counts`), and a call goes to a node
  that is there (`step_ranged`).

  A node's own scheduler is not looked into here: `posted` lists the handles its `post` was
  called with.
-/
import NeuroVerse.Lib.Run
import NeuroVerse.Lib.Threads
import Mathlib.Data.BitVec
import Mathlib.Logic.Function.Basic

namespace NeuroVerse.Sched

open Lib

structure TierConfig where
  nodes : Nat := 1
  workersPerNode : Nat

/-- Where a call of `submit` or `submit_to` stands. -/
inductive Place where
  /-- `pick_node` is about to read the counters of node `i`; `best` is the choice among the
      nodes before it, with its load. -/
  | read (i : Nat) (best : Option (Nat × BitVec 64))
  /-- One of the two counters of node `i` is read. -/
  | readRest (i : Nat) (best : Option (Nat × BitVec 64)) (queuedFirst : Bool) (part : BitVec 64)
  /-- Before `queued.fetch_add`. -/
  | enqueue (b : Nat)
  | post (b : Nat)
  /-- Before `queued.fetch_sub`. -/
  | dequeue (b : Nat)
  /-- Before `running.fetch_add`. -/
  | run (b : Nat)
  | returned (b : Nat)
  | refused
deriving DecidableEq

namespace Place

def finished : Place → Bool
  | .returned _ => true
  | .refused => true
  | _ => false

/-- The node is chosen or about to be. -/
def choosing : Place → Bool
  | .read _ _ => true
  | .readRest _ _ _ _ => true
  | .enqueue _ => true
  | _ => false

/-- Counted in `queued` of node `b`. -/
def waiting (b : Nat) : Place → Bool
  | .post b' => b' = b
  | .dequeue b' => b' = b
  | _ => false

/-- The task is node `b`'s, and the call goes on. -/
def pending (b : Nat) : Place → Bool
  | .post b' => b' = b
  | .dequeue b' => b' = b
  | .run b' => b' = b
  | _ => false

/-- Counted in `running` of node `b`. -/
def landed (b : Nat) : Place → Bool
  | .returned b' => b' = b
  | _ => false

/-- The task has come to node `b`. -/
def arrived (b : Nat) (p : Place) : Bool := p.pending b || p.landed b

/-- The handle is posted to node `b`. -/
def handed (b : Nat) : Place → Bool
  | .dequeue b' => b' = b
  | .run b' => b' = b
  | .returned b' => b' = b
  | _ => false

/-- The handle has still to be posted. -/
def unposted : Place → Bool
  | .post _ => true
  | p => p.choosing

end Place

/-- A call, with what had been routed to each node when `pick_node` first read it. -/
structure Call (η : Type*) where
  handle : η
  /-- Made by `submit_to`. -/
  pinned : Bool
  seen : List Nat := []
  place : Place

structure MultilevelScheduler (η : Type*) where
  count : Nat
  count_pos : 0 < count
  workersPerNode : Nat
  queued : Nat → BitVec 64 := fun _ => 0
  running : Nat → BitVec 64 := fun _ => 0
  posted : Nat → List η := fun _ => []
  calls : List (Call η) := []

namespace MultilevelScheduler

variable {η : Type*}

inductive Action (η : Type*) where
  | submit (h : η) (affinity : BitVec 32)
  | submitTo (i : Nat) (h : η)
  /-- Call `k` takes its next step. -/
  | go (k : Nat) (queuedFirst : Bool)

/-- The constructor: at least one node, and at least one worker in it. -/
def new (cfg : TierConfig) : MultilevelScheduler η :=
  { count := if cfg.nodes = 0 then 1 else cfg.nodes
    count_pos := by split <;> omega
    workersPerNode := if cfg.workersPerNode = 0 then 1 else cfg.workersPerNode }

def load (s : MultilevelScheduler η) (i : Nat) : BitVec 64 :=
  if i < s.count then s.queued i + s.running i else 0

/-- The comparison of `pick_node`. The first node is taken as it is. -/
def better (best : Option (Nat × BitVec 64)) (i : Nat) (l : BitVec 64) : Nat × BitVec 64 :=
  match best with
  | none => (i, l)
  | some (b, least) => if l < least then (i, l) else (b, least)

/-- The end of an iteration of `pick_node`, and after the last of them the test of `submit`. -/
def afterRead (s : MultilevelScheduler η) (i : Nat) (best : Nat × BitVec 64) : Place :=
  if i + 1 < s.count then .read (i + 1) (some best)
  else if best.1 < s.count then .enqueue best.1
  else .refused

/-- What `submit` (the workers of the node) or `submit_to` (one for true) has returned. -/
def result (s : MultilevelScheduler η) (c : Call η) : Option Nat :=
  match c.place with
  | .returned _ => some (if c.pinned then 1 else s.workersPerNode)
  | .refused => some 0
  | _ => none

/-- The tasks that have come to node `b`. -/
def received (s : MultilevelScheduler η) (b : Nat) : Nat :=
  s.calls.countP fun c => c.place.arrived b

/-- Those of them that `pick_node` chose the node for. -/
def routed (s : MultilevelScheduler η) (b : Nat) : Nat :=
  s.calls.countP fun c => !c.pinned && c.place.arrived b

def inProgress (s : MultilevelScheduler η) : Nat := s.calls.countP fun c => !c.place.finished

def move (s : MultilevelScheduler η) (k : Nat) (c : Call η) : MultilevelScheduler η :=
  { s with calls := s.calls.set k c }

/-- The next atomic operation of call `k`, which is `c`. -/
def advance (s : MultilevelScheduler η) (k : Nat) (c : Call η) (queuedFirst : Bool) :
    MultilevelScheduler η :=
  match c.place with
  | .read i best =>
    let part := if queuedFirst then s.queued i else s.running i
    s.move k { c with seen := c.seen ++ [s.routed i], place := .readRest i best queuedFirst part }
  | .readRest i best queuedFirst part =>
    let l := part + if queuedFirst then s.running i else s.queued i
    s.move k { c with place := s.afterRead i (better best i l) }
  | .enqueue b =>
    { s.move k { c with place := .post b } with
      queued := Function.update s.queued b (s.queued b + 1) }
  | .post b =>
    { s.move k { c with place := .dequeue b } with
      posted := Function.update s.posted b (s.posted b ++ [c.handle]) }
  | .dequeue b =>
    { s.move k { c with place := .run b } with
      queued := Function.update s.queued b (s.queued b - 1) }
  | .run b =>
    { s.move k { c with place := .returned b } with
      running := Function.update s.running b (s.running b + 1) }
  | .returned _ => s
  | .refused => s

def step (s : MultilevelScheduler η) : Action η → MultilevelScheduler η
  | .submit h _ => { s with calls := s.calls ++ [⟨h, false, [], .read 0 none⟩] }
  | .submitTo i h =>
    { s with calls := s.calls ++ [⟨h, true, [], if s.count ≤ i then .refused else .enqueue i⟩] }
  | .go k queuedFirst =>
    match s.calls[k]? with
    | none => s
    | some c => s.advance k c queuedFirst

/-- What an action can do. -/
inductive Stepped (s : MultilevelScheduler η) : Action η → MultilevelScheduler η → Prop where
  | submit (h : η) (affinity : BitVec 32) :
      Stepped s (.submit h affinity) { s with calls := s.calls ++ [⟨h, false, [], .read 0 none⟩] }
  | submitTo (i : Nat) (h : η) :
      Stepped s (.submitTo i h)
        { s with
          calls := s.calls ++ [⟨h, true, [], if s.count ≤ i then .refused else .enqueue i⟩] }
  | read (k : Nat) (qf : Bool) (h : η) (pinned : Bool) (seen : List Nat) (i : Nat)
      (best : Option (Nat × BitVec 64))
      (here : s.calls[k]? = some ⟨h, pinned, seen, .read i best⟩) :
      Stepped s (.go k qf) (s.move k ⟨h, pinned, seen ++ [s.routed i],
        .readRest i best qf (if qf then s.queued i else s.running i)⟩)
  | readRest (k : Nat) (qf : Bool) (h : η) (pinned : Bool) (seen : List Nat) (i : Nat)
      (best : Option (Nat × BitVec 64)) (qf' : Bool) (part : BitVec 64)
      (here : s.calls[k]? = some ⟨h, pinned, seen, .readRest i best qf' part⟩) :
      Stepped s (.go k qf) (s.move k ⟨h, pinned, seen,
        s.afterRead i (better best i (part + if qf' then s.running i else s.queued i))⟩)
  | enqueue (k : Nat) (qf : Bool) (h : η) (pinned : Bool) (seen : List Nat) (b : Nat)
      (here : s.calls[k]? = some ⟨h, pinned, seen, .enqueue b⟩) :
      Stepped s (.go k qf) { s.move k ⟨h, pinned, seen, .post b⟩ with
        queued := Function.update s.queued b (s.queued b + 1) }
  | post (k : Nat) (qf : Bool) (h : η) (pinned : Bool) (seen : List Nat) (b : Nat)
      (here : s.calls[k]? = some ⟨h, pinned, seen, .post b⟩) :
      Stepped s (.go k qf) { s.move k ⟨h, pinned, seen, .dequeue b⟩ with
        posted := Function.update s.posted b (s.posted b ++ [h]) }
  | dequeue (k : Nat) (qf : Bool) (h : η) (pinned : Bool) (seen : List Nat) (b : Nat)
      (here : s.calls[k]? = some ⟨h, pinned, seen, .dequeue b⟩) :
      Stepped s (.go k qf) { s.move k ⟨h, pinned, seen, .run b⟩ with
        queued := Function.update s.queued b (s.queued b - 1) }
  | run (k : Nat) (qf : Bool) (h : η) (pinned : Bool) (seen : List Nat) (b : Nat)
      (here : s.calls[k]? = some ⟨h, pinned, seen, .run b⟩) :
      Stepped s (.go k qf) { s.move k ⟨h, pinned, seen, .returned b⟩ with
        running := Function.update s.running b (s.running b + 1) }
  | idle (k : Nat) (qf : Bool) : Stepped s (.go k qf) s

theorem step_stepped (s : MultilevelScheduler η) (a : Action η) : Stepped s a (s.step a) := by
  cases a with
  | submit h affinity => exact .submit h affinity
  | submitTo i h => exact .submitTo i h
  | go k qf =>
    unfold step
    dsimp only
    split
    · exact .idle k qf
    · next c here =>
      obtain ⟨h, pinned, seen, place⟩ := c
      unfold advance
      cases place with
      | read i best => exact .read k qf h pinned seen i best here
      | readRest i best qf' part => exact .readRest k qf h pinned seen i best qf' part here
      | enqueue b => exact .enqueue k qf h pinned seen b here
      | post b => exact .post k qf h pinned seen b here
      | dequeue b => exact .dequeue k qf h pinned seen b here
      | run b => exact .run k qf h pinned seen b here
      | returned b => exact .idle k qf
      | refused => exact .idle k qf

/-- After a read no node has been given the task. -/
theorem afterRead_place (s : MultilevelScheduler η) (i : Nat) (best : Nat × BitVec 64) (b : Nat) :
    (s.afterRead i best).arrived b = false ∧ (s.afterRead i best).landed b = false ∧
      (s.afterRead i best).waiting b = false ∧ (s.afterRead i best).handed b = false := by
  unfold afterRead
  split
  · exact ⟨rfl, rfl, rfl, rfl⟩
  · split
    · exact ⟨rfl, rfl, rfl, rfl⟩
    · exact ⟨rfl, rfl, rfl, rfl⟩

/-! ## The counters -/

/-- The tasks counted in `queued`. -/
def waiting (s : MultilevelScheduler η) (b : Nat) : Nat :=
  s.calls.countP fun c => c.place.waiting b

/-- The tasks of node `b` whose calls go on. -/
def pending (s : MultilevelScheduler η) (b : Nat) : Nat :=
  s.calls.countP fun c => c.place.pending b

/-- The tasks counted in `running`. -/
def landed (s : MultilevelScheduler η) (b : Nat) : Nat :=
  s.calls.countP fun c => c.place.landed b

theorem received_eq (s : MultilevelScheduler η) (b : Nat) :
    s.received b = s.pending b + s.landed b := by
  unfold received pending landed
  induction s.calls with
  | nil => rfl
  | cons c calls ih =>
    rw [List.countP_cons, List.countP_cons, List.countP_cons, ih]
    cases hp : c.place <;> simp [Place.arrived, Place.pending, Place.landed] <;> omega

theorem waiting_le_pending (s : MultilevelScheduler η) (b : Nat) : s.waiting b ≤ s.pending b := by
  refine List.countP_mono_left fun c _ hc => ?_
  cases hp : c.place <;> simp_all [Place.waiting, Place.pending]

/-- The counters `f` show how many calls are at the places `p`, for each node. -/
def Shows (f : Nat → BitVec 64) (p : Nat → Place → Bool) (calls : List (Call η)) : Prop :=
  ∀ b, f b = BitVec.ofNat 64 (calls.countP fun c => p b c.place)

section Shows

variable {f : Nat → BitVec 64} {p : Nat → Place → Bool} {calls : List (Call η)} {k b : Nat}
  {c c' : Call η}

theorem Shows.spawn (hf : Shows f p calls) (h : ∀ b, p b c.place = false) :
    Shows f p (calls ++ [c]) := by
  intro b
  rw [hf b, List.countP_append, List.countP_singleton, h b]
  rfl

theorem Shows.same (hf : Shows f p calls) (here : calls[k]? = some c)
    (h : ∀ b, p b c'.place = p b c.place) : Shows f p (calls.set k c') :=
  fun b => (hf b).trans (congrArg _ (countP_eq_moved here (h b)).symm)

theorem Shows.add (hf : Shows f p calls) (here : calls[k]? = some c)
    (h : ∀ b', p b' c.place = false) (h' : ∀ b', p b' c'.place = decide (b = b')) :
    Shows (Function.update f b (f b + 1)) p (calls.set k c') := by
  intro b'
  have hcount := countP_moved (fun c => p b' c.place) c' here
  rw [h b', h' b'] at hcount
  by_cases hb : b = b'
  · subst hb
    rw [Function.update_self, hf b]
    simp only [decide_true, if_true, Bool.false_eq_true, if_false, Nat.add_zero] at hcount
    rw [hcount, BitVec.ofNat_add]
    rfl
  · rw [Function.update_of_ne (Ne.symm hb), hf b']
    simp only [hb, decide_false, Bool.false_eq_true, if_false, Nat.add_zero] at hcount
    rw [hcount]

theorem Shows.sub (hf : Shows f p calls) (here : calls[k]? = some c)
    (h : ∀ b', p b' c.place = decide (b = b')) (h' : ∀ b', p b' c'.place = false) :
    Shows (Function.update f b (f b - 1)) p (calls.set k c') := by
  intro b'
  have hcount := countP_moved (fun c => p b' c.place) c' here
  rw [h b', h' b'] at hcount
  by_cases hb : b = b'
  · subst hb
    rw [Function.update_self, hf b]
    simp only [decide_true, if_true, Bool.false_eq_true, if_false, Nat.add_zero] at hcount
    rw [← hcount, BitVec.ofNat_add]
    exact BitVec.add_sub_cancel _ _
  · rw [Function.update_of_ne (Ne.symm hb), hf b']
    simp only [hb, decide_false, Bool.false_eq_true, if_false, Nat.add_zero] at hcount
    rw [hcount]

end Shows

/-- Both counters of every node are what the calls have made of them. -/
structure Counts (s : MultilevelScheduler η) : Prop where
  queued : Shows s.queued Place.waiting s.calls
  running : Shows s.running Place.landed s.calls

theorem step_counts {s : MultilevelScheduler η} (hs : s.Counts) (a : Action η) :
    (s.step a).Counts := by
  have hstep := step_stepped s a
  generalize s.step a = t at hstep ⊢
  obtain ⟨hqueued, hrunning⟩ := hs
  cases hstep with
  | submit h affinity =>
    exact ⟨hqueued.spawn fun _ => rfl, hrunning.spawn fun _ => rfl⟩
  | submitTo i h =>
    exact ⟨hqueued.spawn fun _ => by split <;> rfl, hrunning.spawn fun _ => by split <;> rfl⟩
  | read k qf h pinned seen i best here =>
    exact ⟨hqueued.same here fun _ => rfl, hrunning.same here fun _ => rfl⟩
  | readRest k qf h pinned seen i best qf' part here =>
    have hplace := afterRead_place s i
      (better best i (part + if qf' then s.running i else s.queued i))
    exact ⟨hqueued.same here fun b => (hplace b).2.2.1, hrunning.same here fun b => (hplace b).2.1⟩
  | enqueue k qf h pinned seen b here =>
    exact ⟨hqueued.add here (fun _ => rfl) fun _ => rfl, hrunning.same here fun _ => rfl⟩
  | post k qf h pinned seen b here =>
    exact ⟨hqueued.same here fun _ => rfl, hrunning.same here fun _ => rfl⟩
  | dequeue k qf h pinned seen b here =>
    exact ⟨hqueued.sub here (fun _ => rfl) fun _ => rfl, hrunning.same here fun _ => rfl⟩
  | run k qf h pinned seen b here =>
    exact ⟨hqueued.same here fun _ => rfl, hrunning.add here (fun _ => rfl) fun _ => rfl⟩
  | idle k qf => exact ⟨hqueued, hrunning⟩

theorem new_counts (cfg : TierConfig) : (new cfg : MultilevelScheduler η).Counts where
  queued _ := rfl
  running _ := rfl

/-! ## The scan of `pick_node` -/

/-- The nodes that a call names are there, and a scan is at a node after its best. -/
def InRange (n : Nat) : Place → Prop
  | .read i best => i < n ∧ ∀ x ∈ best, x.1 < i
  | .readRest i best _ _ => i < n ∧ ∀ x ∈ best, x.1 < i
  | .enqueue b => b < n
  | .post b => b < n
  | .dequeue b => b < n
  | .run b => b < n
  | .returned b => b < n
  | .refused => True

theorem better_le {best : Option (Nat × BitVec 64)} {i : Nat} (h : ∀ x ∈ best, x.1 < i)
    (l : BitVec 64) : (better best i l).1 ≤ i := by
  unfold better
  cases best with
  | none => exact Nat.le_refl i
  | some x =>
    have hx := h x rfl
    dsimp only
    split
    · exact Nat.le_refl i
    · exact Nat.le_of_lt hx

theorem afterRead_inRange (s : MultilevelScheduler η) {i : Nat} {best : Nat × BitVec 64}
    (h : best.1 ≤ i) : InRange s.count (s.afterRead i best) := by
  unfold afterRead
  split
  · next hi =>
    refine ⟨hi, fun x hx => ?_⟩
    rw [← Option.some.inj hx]
    exact Nat.lt_succ_of_le h
  · split
    · next hb => exact hb
    · trivial

theorem step_count (s : MultilevelScheduler η) (a : Action η) : (s.step a).count = s.count := by
  have hstep := step_stepped s a
  generalize s.step a = t at hstep ⊢
  cases hstep <;> rfl

def Ranged (s : MultilevelScheduler η) : Prop := ∀ c ∈ s.calls, InRange s.count c.place

theorem step_ranged {s : MultilevelScheduler η} (hs : s.Ranged) (a : Action η) :
    (s.step a).Ranged := by
  have hmoved : ∀ {k c c'}, s.calls[k]? = some c →
      (InRange s.count c.place → InRange s.count c'.place) →
      ∀ c ∈ s.calls.set k c', InRange s.count c.place := by
    intro k c c' here h x hx
    rcases List.mem_or_eq_of_mem_set hx with hx | rfl
    · exact hs x hx
    · exact h (hs c (List.mem_of_getElem? here))
  have hspawn : ∀ c', InRange s.count c'.place → ∀ c ∈ s.calls ++ [c'],
      InRange s.count c.place := by
    intro c' h c hc
    rcases List.mem_append.mp hc with hc | hc
    · exact hs c hc
    · rwa [List.mem_singleton.mp hc]
  have hstep := step_stepped s a
  generalize s.step a = t at hstep ⊢
  cases hstep with
  | submit h affinity => exact hspawn _ ⟨s.count_pos, nofun⟩
  | submitTo i h =>
    refine hspawn _ ?_
    dsimp only
    split
    · trivial
    · next hi => exact Nat.lt_of_not_le hi
  | read k qf h pinned seen i best here => exact hmoved here fun h => h
  | readRest k qf h pinned seen i best qf' part here =>
    exact hmoved here fun h => afterRead_inRange s (better_le h.2 _)
  | enqueue k qf h pinned seen b here => exact hmoved here fun h => h
  | post k qf h pinned seen b here => exact hmoved here fun h => h
  | dequeue k qf h pinned seen b here => exact hmoved here fun h => h
  | run k qf h pinned seen b here => exact hmoved here fun h => h
  | idle k qf => exact hs

theorem new_ranged (cfg : TierConfig) : (new cfg : MultilevelScheduler η).Ranged :=
  fun _ hc => absurd hc List.not_mem_nil

/-! ## Runs -/

theorem after_count (cfg : TierConfig) (ops : List (Action η)) :
    (Lib.run step (new cfg) ops).count = (new cfg : MultilevelScheduler η).count :=
  run_invariant (I := fun t => t.count = (new cfg : MultilevelScheduler η).count) rfl
    (fun t a ht => (step_count t a).trans ht) ops

/-- Two calls that scan two nodes at the same time: both read no load and choose the first. -/
def twoScans : List (Action Nat) :=
  [.submit 7 0, .submit 8 0] ++ (List.replicate 4 [.go 0 true, .go 1 false]).flatten ++
    List.replicate 4 (.go 0 true) ++ List.replicate 4 (.go 1 true)

end MultilevelScheduler

end NeuroVerse.Sched
