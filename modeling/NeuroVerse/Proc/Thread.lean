/-
  The thread object (`proc/thread.hpp`, `proc/thread.cpp`).

  One action is one atomic load or store, one critical section's lock or unlock, or one call on
  the `std::thread`. `start`, `join`, `join_for` and the destructor use `os_thread_` without a
  lock, so that they come from one thread, the owner; the OS thread runs `run_loop`, and any
  number of other threads call `wake` and `state`. `Consistent` says how the state, the flags, the
  calls and what was seen of the thread go together, and `Steady` adds who has the mutex; every
  step of anybody keeps them (`Steady.step`).
-/
import NeuroVerse.Lib.Since
import NeuroVerse.Lib.Threads

namespace NeuroVerse.Proc

open Lib

inductive ThreadState where
  | ready
  | running
  | waiting
  | zombie
  | terminated
  deriving DecidableEq

/-- Where the OS thread stands in `run_loop`. -/
inductive Place where
  | created
  | entry
  /-- `entry_` has returned. -/
  | locking
  /-- The mutex is held, from here on until `ended`. -/
  | storing
  /-- `state_` is stored. -/
  | finishing
  /-- `done_` is stored. -/
  | unlocking
  | ended
  deriving DecidableEq

/-- Where the call of the owner stands. -/
inductive Call where
  | idle
  /-- `start` has won the exchange. -/
  | assigning
  | joining
  /-- `os_thread_.join()` is back. -/
  | storing
  | polling
  /-- At the last load of `join_for`. -/
  | reading
  deriving DecidableEq

/-- Where a call of `wake` stands. -/
inductive Waker where
  | calling
  | loading
  | storing
  | unlocking
  | returned
  deriving DecidableEq

inductive Holder where
  | osThread
  | waker (k : Nat)
  deriving DecidableEq

/-- What can be seen of a thread. -/
inductive Event where
  /-- `start` takes the thread out of `Ready`. -/
  | started
  | entered
  | returned
  /-- `join` returns, after it waited for the OS thread or at once. -/
  | joinReturned (waited : Bool)
  | joinForReturned (result : Bool)
  /-- A call of `state`. -/
  | observed (s : ThreadState)
  deriving DecidableEq

structure Thread where
  state : ThreadState := .ready
  done : Bool := false
  /-- The OS thread that `start` made. -/
  osThread : Option Place := none
  joined : Bool := false
  mutex : Option Holder := none
  call : Call := .idle
  wakers : List Waker := []
  /-- `std::terminate` was called. -/
  aborted : Bool := false
  events : List Event := []

inductive Action where
  | start
  | join
  | joinFor
  /-- The owner takes the next step of its call, with its time up or not. -/
  | owner (expired : Bool)
  | observe
  /-- The OS thread takes its next step. -/
  | run
  /-- The entry throws. -/
  | throw
  | callWake
  /-- The `k`-th call of `wake` takes its next step. -/
  | wake (k : Nat)

namespace Thread

/-- `os_thread_.joinable()`. -/
def joinable (t : Thread) : Bool := t.osThread.isSome && !t.joined

def log (t : Thread) (e : Event) : Thread := { t with events := t.events ++ [e] }

def goTo (t : Thread) (p : Place) : Thread := { t with osThread := some p }

def setWaker (t : Thread) (k : Nat) (w : Waker) : Thread := { t with wakers := t.wakers.set k w }

/-- The next step of the OS thread, which is at `p`. -/
def runLoop (t : Thread) : Place → Thread
  | .created => (t.goTo .entry).log .entered
  | .entry => (t.goTo .locking).log .returned
  | .locking => if t.mutex.isNone then { t.goTo .storing with mutex := some .osThread } else t
  | .storing => { t.goTo .finishing with state := .zombie }
  | .finishing => { t.goTo .unlocking with done := true }
  | .unlocking => { t.goTo .ended with mutex := none }
  | .ended => t

/-- The next step of the owner's call. -/
def ownerStep (t : Thread) (expired : Bool) : Call → Thread
  | .idle => t
  | .assigning => { t with osThread := some .created, call := .idle }
  | .joining =>
    if t.osThread = some .ended then { t with joined := true, call := .storing } else t
  | .storing => { t with state := .terminated, call := .idle }.log (.joinReturned true)
  | .polling => if t.done || expired then { t with call := .reading } else t
  | .reading => { t with call := .idle }.log (.joinForReturned t.done)

/-- The next step of the call `k` of `wake`, which is at `w`. -/
def wakeStep (t : Thread) (k : Nat) : Waker → Thread
  | .calling =>
    if t.mutex.isNone then { t.setWaker k .loading with mutex := some (.waker k) } else t
  | .loading => t.setWaker k (if t.state = .waiting then .storing else .unlocking)
  | .storing => { t.setWaker k .unlocking with state := .ready }
  | .unlocking => { t.setWaker k .returned with mutex := none }
  | .returned => t

/-- The calls of the owner begin one after another. -/
def begin (t : Thread) : Action → Thread
  | .start =>
    if t.state = .ready then { t with state := .running, call := .assigning }.log .started else t
  | .join =>
    if t.joinable then { t with call := .joining } else t.log (.joinReturned false)
  | .joinFor =>
    if t.joinable then { t with call := .polling } else t.log (.joinForReturned true)
  | _ => t

def act (t : Thread) : Action → Thread
  | .owner expired => t.ownerStep expired t.call
  | .observe => t.log (.observed t.state)
  | .run =>
    match t.osThread with
    | none => t
    | some p => t.runLoop p
  | .throw => if t.osThread = some .entry then { t with aborted := true } else t
  | .callWake => { t with wakers := t.wakers ++ [.calling] }
  | .wake k =>
    match t.wakers[k]? with
    | none => t
    | some w => t.wakeStep k w
  | a => if t.call = .idle then t.begin a else t

def step (t : Thread) (a : Action) : Thread := if t.aborted then t else t.act a

/-- How far the OS thread has come. -/
def rank : Option Place → Nat
  | none => 0
  | some .created => 1
  | some .entry => 2
  | some .locking => 3
  | some .storing => 4
  | some .finishing => 5
  | some .unlocking => 6
  | some .ended => 7

/-- What the events before it say about an event. -/
def rule (pre : List Event) : Event → Prop
  | .started => .started ∉ pre
  | .entered => .started ∈ pre ∧ .entered ∉ pre
  | .returned => .entered ∈ pre ∧ .returned ∉ pre
  | .joinReturned waited =>
    if waited then .returned ∈ pre ∧ .joinReturned true ∉ pre
    else .started ∈ pre → .joinReturned true ∈ pre
  | .joinForReturned result =>
    if result then .started ∈ pre → .returned ∈ pre
    else .started ∈ pre ∧ .joinReturned true ∉ pre
  | .observed s =>
    s ≠ .waiting ∧ (s = .ready ↔ .started ∉ pre) ∧ (s = .zombie → .returned ∈ pre) ∧
      (s = .terminated ↔ .joinReturned true ∈ pre)

/-- What the places of the OS thread and of the owner's call say about the state and about the
    events so far. -/
structure Consistent (t : Thread) : Prop where
  ready : t.state = .ready ↔ rank t.osThread = 0 ∧ t.call ≠ .assigning
  zombie : t.state = .zombie ↔ 5 ≤ rank t.osThread ∧ (t.joined = false ∨ t.call = .storing)
  terminated : t.state = .terminated ↔ t.joined = true ∧ t.call ≠ .storing
  waiting : t.state ≠ .waiting
  done : t.done = true ↔ 6 ≤ rank t.osThread
  joined : t.joined = true → rank t.osThread = 7
  assigning : t.call = .assigning → rank t.osThread = 0
  waits : t.call = .joining ∨ t.call = .polling ∨ t.call = .reading →
    0 < rank t.osThread ∧ t.joined = false
  storing : t.call = .storing → t.joined = true
  started : .started ∈ t.events ↔ t.state ≠ .ready
  entered : .entered ∈ t.events ↔ 2 ≤ rank t.osThread
  returned : .returned ∈ t.events ↔ 3 ≤ rank t.osThread
  joinReturned : .joinReturned true ∈ t.events ↔ t.state = .terminated
  rule : Always rule t.events

variable {t : Thread}

/-! ## What each kind of step keeps -/

theorem mem_log {e e' : Event} (h : e' ≠ e) : e' ∈ (t.log e).events ↔ e' ∈ t.events := by
  rw [log, List.mem_append, List.mem_singleton, or_iff_left h]

/-- An event that marks no change, and that the rule allows. -/
theorem Consistent.logged (h : Consistent t) {e : Event} (hrule : Thread.rule t.events e)
    (hstarted : e ≠ .started) (hentered : e ≠ .entered) (hreturned : e ≠ .returned)
    (hjoin : e ≠ .joinReturned true) : Consistent (t.log e) :=
  { h with
    started := (mem_log hstarted.symm).trans h.started
    entered := (mem_log hentered.symm).trans h.entered
    returned := (mem_log hreturned.symm).trans h.returned
    joinReturned := (mem_log hjoin.symm).trans h.joinReturned
    rule := always_snoc.mpr ⟨h.rule, hrule⟩ }

/-- Only the wakers and their mutex change. -/
theorem Consistent.quiet (h : Consistent t) (m : Option Holder) (ws : List Waker) :
    Consistent { t with mutex := m, wakers := ws } :=
  { h with }

/-- The owner's call goes on between the places at which nothing is changed. -/
theorem Consistent.goes (h : Consistent t) (c : Call) (ha : t.call ≠ .assigning)
    (hs : t.call ≠ .storing) (hca : c ≠ .assigning) (hcs : c ≠ .storing)
    (hwaits : c = .joining ∨ c = .polling ∨ c = .reading →
      0 < rank t.osThread ∧ t.joined = false) : Consistent { t with call := c } :=
  { h with
    ready := by simpa [ha, hca] using h.ready
    zombie := by simpa [hs, hcs] using h.zombie
    terminated := by simpa [hs, hcs] using h.terminated
    assigning := fun hc => absurd hc hca
    waits := hwaits
    storing := fun hc => absurd hc hcs }

theorem rank_pos (p : Place) : 0 < rank (some p) := by
  cases p <;> exact Nat.succ_pos _

/-- While the OS thread is in `run_loop`, nobody has joined it and `start` has returned. -/
theorem Consistent.alive (h : Consistent t) {p : Place} (hp : t.osThread = some p)
    (hend : p ≠ .ended) : t.joined = false ∧ t.call ≠ .assigning ∧ t.call ≠ .storing := by
  have hnot : t.joined = false := by
    by_contra hj
    have hseven := h.joined (Bool.not_eq_false _ ▸ hj)
    rw [hp] at hseven
    cases p <;> simp [rank] at hseven hend
  refine ⟨hnot, fun hc => ?_, fun hc => ?_⟩
  · have hzero := h.assigning hc
    rw [hp] at hzero
    exact absurd hzero (Nat.ne_of_gt (rank_pos p))
  · rw [h.storing hc] at hnot
    exact nomatch hnot

theorem Consistent.running (h : Consistent t) {p : Place} (hp : t.osThread = some p)
    (hlt : rank (some p) < 5) : t.state = .running := by
  have hpos := rank_pos p
  cases hs : t.state with
  | running => rfl
  | waiting => exact absurd hs h.waiting
  | ready =>
    have := (h.ready.mp hs).1
    rw [hp] at this
    omega
  | zombie =>
    have := (h.zombie.mp hs).1
    rw [hp] at this
    omega
  | terminated =>
    have := h.joined (h.terminated.mp hs).1
    rw [hp] at this
    omega

theorem Consistent.isZombie (h : Consistent t) {p : Place} (hp : t.osThread = some p)
    (hend : p ≠ .ended) (hle : 5 ≤ rank (some p)) : t.state = .zombie :=
  h.zombie.mpr ⟨by rwa [hp], Or.inl (h.alive hp hend).1⟩

/-- The OS thread moves from `p` to `p'`: it stores `Zombie` on the way to `finishing`, and sets
    the flag on the way to `unlocking`. -/
theorem Consistent.moves (h : Consistent t) {p p' : Place} (hp : t.osThread = some p)
    (hend : p ≠ .ended) {t' : Thread} (hp' : t'.osThread = some p') (hcall : t'.call = t.call)
    (hjoined : t'.joined = t.joined)
    (hstate : t'.state = if 5 ≤ rank (some p') then .zombie else .running)
    (hdone : t'.done = decide (6 ≤ rank (some p')))
    (hstarted : .started ∈ t.events → .started ∈ t'.events)
    (hentered : .entered ∈ t'.events ↔ 2 ≤ rank (some p'))
    (hreturned : .returned ∈ t'.events ↔ 3 ≤ rank (some p'))
    (hjoin : .joinReturned true ∈ t'.events → .joinReturned true ∈ t.events)
    (hrule : Always Thread.rule t'.events) : Consistent t' := by
  obtain ⟨hnot, ha, hs⟩ := h.alive hp hend
  have hpos := rank_pos p'
  have hone : t'.state = .zombie ∨ t'.state = .running := by
    rw [hstate]
    split
    · exact Or.inl rfl
    · exact Or.inr rfl
  have hready : t'.state ≠ .ready := by rcases hone with h' | h' <;> rw [h'] <;> decide
  have hterm : t'.state ≠ .terminated := by rcases hone with h' | h' <;> rw [h'] <;> decide
  have hbefore : t.state ≠ .ready := fun hr => by
    have hzero := (h.ready.mp hr).1
    rw [hp] at hzero
    exact absurd hzero (Nat.ne_of_gt (rank_pos p))
  have hnever : t.state ≠ .terminated := fun ht => by
    rw [(h.terminated.mp ht).1] at hnot
    exact nomatch hnot
  exact
    { ready := ⟨fun hr => absurd hr hready, fun hr => by rw [hp'] at hr; omega⟩
      zombie := by rw [hstate, hp', hjoined, hnot]; simp
      terminated := ⟨fun ht => absurd ht hterm,
        fun ht => by rw [hjoined, hnot] at ht; exact nomatch ht.1⟩
      waiting := by rcases hone with h' | h' <;> rw [h'] <;> decide
      done := by rw [hdone, hp', decide_eq_true_eq]
      joined := fun hj => by rw [hjoined, hnot] at hj; exact nomatch hj
      assigning := fun hc => absurd (hcall ▸ hc) ha
      waits := fun _ => by rw [hp', hjoined]; exact ⟨hpos, hnot⟩
      storing := fun hc => absurd (hcall ▸ hc) hs
      started := ⟨fun _ => hready, fun _ => hstarted (h.started.mpr hbefore)⟩
      entered := by rw [hp']; exact hentered
      returned := by rw [hp']; exact hreturned
      joinReturned := ⟨fun hj => absurd (h.joinReturned.mp (hjoin hj)) hnever,
        fun ht => absurd ht hterm⟩
      rule := hrule }

/-- The same after the entry has returned, when nothing is seen of it. -/
theorem Consistent.leaves (h : Consistent t) {p p' : Place} (hp : t.osThread = some p)
    (hend : p ≠ .ended) (hle : 3 ≤ rank (some p)) {t' : Thread} (hp' : t'.osThread = some p')
    (hle' : 3 ≤ rank (some p')) (hcall : t'.call = t.call) (hjoined : t'.joined = t.joined)
    (hstate : t'.state = if 5 ≤ rank (some p') then .zombie else .running)
    (hdone : t'.done = decide (6 ≤ rank (some p'))) (hevents : t'.events = t.events) :
    Consistent t' := by
  have hreturned : .returned ∈ t.events := h.returned.mpr (by rwa [hp])
  have hentered : .entered ∈ t.events := h.entered.mpr (by rw [hp]; omega)
  refine h.moves hp hend hp' hcall hjoined hstate hdone ?_ ?_ ?_ ?_ ?_ <;> rw [hevents]
  · exact id
  · exact iff_of_true hentered (by omega)
  · exact iff_of_true hreturned hle'
  · exact id
  · exact h.rule

/-! ## The steps -/

theorem Consistent.done_eq (h : Consistent t) {p : Place} (hp : t.osThread = some p) :
    t.done = decide (6 ≤ rank (some p)) := by
  rw [Bool.eq_iff_iff, decide_eq_true_eq, h.done, hp]

theorem Consistent.started_of_some (h : Consistent t) {p : Place} (hp : t.osThread = some p) :
    .started ∈ t.events := by
  refine h.started.mpr fun hr => ?_
  have hzero := (h.ready.mp hr).1
  rw [hp] at hzero
  exact Nat.ne_of_gt (rank_pos p) hzero

theorem Consistent.runLoop (h : Consistent t) {p : Place} (hp : t.osThread = some p) :
    Consistent (t.runLoop p) := by
  have hstarted := h.started_of_some hp
  have hdone := h.done_eq hp
  cases p with
  | created =>
    have hentered : .entered ∉ t.events := fun hin => by
      have htwo := h.entered.mp hin
      rw [hp] at htwo
      exact absurd htwo (by decide)
    have hreturned : .returned ∉ t.events := fun hin => by
      have hthree := h.returned.mp hin
      rw [hp] at hthree
      exact absurd hthree (by decide)
    refine h.moves hp (by decide) rfl rfl rfl (h.running hp (by decide)) hdone
      (List.mem_append_left _) ?_ ?_ (mem_log (by decide)).mp ?_
    · exact iff_of_true (List.mem_append_right _ List.mem_cons_self) (by decide)
    · exact iff_of_false ((mem_log (by decide)).not.mpr hreturned) (by decide)
    · exact always_snoc.mpr ⟨h.rule, hstarted, hentered⟩
  | entry =>
    have hentered : .entered ∈ t.events := h.entered.mpr (by rw [hp]; decide)
    have hreturned : .returned ∉ t.events := fun hin => by
      have hthree := h.returned.mp hin
      rw [hp] at hthree
      exact absurd hthree (by decide)
    refine h.moves hp (by decide) rfl rfl rfl (h.running hp (by decide)) hdone
      (List.mem_append_left _) ?_ ?_ (mem_log (by decide)).mp ?_
    · exact iff_of_true (List.mem_append_left _ hentered) (by decide)
    · exact iff_of_true (List.mem_append_right _ List.mem_cons_self) (by decide)
    · exact always_snoc.mpr ⟨h.rule, hentered, hreturned⟩
  | locking =>
    rw [Thread.runLoop]
    split
    · exact h.leaves hp (by decide) (by decide) rfl (by decide) rfl rfl
        (h.running hp (by decide)) hdone rfl
    · exact h
  | storing =>
    exact h.leaves hp (by decide) (by decide) rfl (by decide) rfl rfl rfl hdone rfl
  | finishing =>
    exact h.leaves hp (by decide) (by decide) rfl (by decide) rfl rfl
      (h.isZombie hp (by decide) (by decide)) rfl rfl
  | unlocking =>
    exact h.leaves hp (by decide) (by decide) rfl (by decide) rfl rfl
      (h.isZombie hp (by decide) (by decide)) hdone rfl
  | ended => exact h

/-- `start` makes the OS thread. -/
theorem Consistent.assigned (h : Consistent t) (hc : t.call = .assigning) :
    Consistent { t with osThread := some .created, call := .idle } := by
  have hzero := h.assigning hc
  have hnot : t.joined = false := by
    by_contra hj
    have := h.joined (Bool.not_eq_false _ ▸ hj)
    omega
  have hready : t.state ≠ .ready := fun hr => (h.ready.mp hr).2 hc
  have hzombie : t.state ≠ .zombie := fun hz => by
    have := (h.zombie.mp hz).1
    omega
  have hterm : t.state ≠ .terminated := fun ht => by
    rw [(h.terminated.mp ht).1] at hnot
    exact nomatch hnot
  exact
    { ready := iff_of_false hready fun hr => Nat.one_ne_zero hr.1
      zombie := iff_of_false hzombie fun hz => (show ¬ 5 ≤ 1 by decide) hz.1
      terminated := iff_of_false hterm fun ht => by rw [hnot] at ht; exact nomatch ht.1
      waiting := h.waiting
      done := h.done.trans (iff_of_false (by omega) (show ¬ 6 ≤ 1 by decide))
      joined := fun hj => by rw [hnot] at hj; exact nomatch hj
      assigning := fun hc => nomatch hc
      waits := fun _ => ⟨Nat.one_pos, hnot⟩
      storing := fun hc => nomatch hc
      started := h.started
      entered := h.entered.trans (iff_of_false (by omega) (show ¬ 2 ≤ 1 by decide))
      returned := h.returned.trans (iff_of_false (by omega) (show ¬ 3 ≤ 1 by decide))
      joinReturned := h.joinReturned
      rule := h.rule }

/-- `join` is back from the OS thread, which has ended. -/
theorem Consistent.joins (h : Consistent t) (hc : t.call = .joining)
    (hp : t.osThread = some .ended) : Consistent { t with joined := true, call := .storing } := by
  have hseven : rank t.osThread = 7 := by rw [hp]; rfl
  have hfive : 5 ≤ rank t.osThread := by omega
  have hzero : rank t.osThread ≠ 0 := by omega
  have hzombie : t.state = .zombie := h.zombie.mpr ⟨hfive, Or.inl (h.waits (Or.inl hc)).2⟩
  exact
    { h with
      ready := iff_of_false (by rw [hzombie]; decide) fun hr => hzero hr.1
      zombie := iff_of_true hzombie ⟨hfive, Or.inr rfl⟩
      terminated := iff_of_false (by rw [hzombie]; decide) fun ht => ht.2 rfl
      joined := fun _ => hseven
      assigning := fun hc => nomatch hc
      waits := fun hor => by rcases hor with hc | hc | hc <;> exact nomatch hc
      storing := fun _ => rfl }

/-- `join` stores `Terminated` and returns. -/
theorem Consistent.terminates (h : Consistent t) (hc : t.call = .storing) :
    Consistent ({ t with state := .terminated, call := .idle }.log (.joinReturned true)) := by
  have hjoined := h.storing hc
  have hseven := h.joined hjoined
  have hzero : rank t.osThread ≠ 0 := by omega
  have hreturned : .returned ∈ t.events := h.returned.mpr (by omega)
  have hnot : .joinReturned true ∉ t.events := fun hin =>
    (h.terminated.mp (h.joinReturned.mp hin)).2 hc
  have hstarted : .started ∈ t.events := h.started.mpr fun hr => hzero (h.ready.mp hr).1
  exact
    { ready := iff_of_false ThreadState.noConfusion fun hr => hzero hr.1
      zombie := iff_of_false ThreadState.noConfusion fun hz => by
        rcases hz.2 with hj | hj
        · exact absurd (hjoined.symm.trans hj) (by decide)
        · exact nomatch hj
      terminated := iff_of_true rfl ⟨hjoined, Call.noConfusion⟩
      waiting := ThreadState.noConfusion
      done := h.done
      joined := h.joined
      assigning := fun hc => nomatch hc
      waits := fun hor => by rcases hor with hc | hc | hc <;> exact nomatch hc
      storing := fun hc => nomatch hc
      started := iff_of_true (List.mem_append_left _ hstarted) ThreadState.noConfusion
      entered := (mem_log (by decide)).trans h.entered
      returned := (mem_log (by decide)).trans h.returned
      joinReturned := iff_of_true (List.mem_append_right _ List.mem_cons_self) rfl
      rule := always_snoc.mpr ⟨h.rule, hreturned, hnot⟩ }

theorem Consistent.ownerStep (h : Consistent t) (expired : Bool) :
    Consistent (t.ownerStep expired t.call) := by
  cases hc : t.call with
  | idle => exact h
  | assigning => exact h.assigned hc
  | joining =>
    rw [Thread.ownerStep]
    split
    · next hp => exact h.joins hc hp
    · exact h
  | storing => exact h.terminates hc
  | polling =>
    rw [Thread.ownerStep]
    split
    · exact h.goes .reading (by rw [hc]; decide) (by rw [hc]; decide) (by decide) (by decide)
        fun _ => h.waits (Or.inr (Or.inl hc))
    · exact h
  | reading =>
    have hidle := h.goes .idle (by rw [hc]; decide) (by rw [hc]; decide) (by decide) (by decide)
      fun hor => by rcases hor with hc | hc | hc <;> exact nomatch hc
    obtain ⟨hpos, hnot⟩ := h.waits (Or.inr (Or.inr hc))
    refine hidle.logged ?_ Event.noConfusion Event.noConfusion Event.noConfusion
      Event.noConfusion
    show Thread.rule t.events (.joinForReturned t.done)
    rw [Thread.rule]
    split
    · next hdone =>
      have hsix := h.done.mp hdone
      exact fun _ => h.returned.mpr (by omega)
    · refine ⟨h.started.mpr fun hr => ?_, fun hin => ?_⟩
      · exact absurd (h.ready.mp hr).1 (Nat.ne_of_gt hpos)
      · rw [(h.terminated.mp (h.joinReturned.mp hin)).1] at hnot
        exact nomatch hnot

/-- `start` wins the exchange. -/
theorem Consistent.starts (h : Consistent t) (hr : t.state = .ready) :
    Consistent ({ t with state := .running, call := .assigning }.log .started) := by
  have hzero := (h.ready.mp hr).1
  have hfive : ¬ 5 ≤ rank t.osThread := by omega
  have hnot : ¬ t.joined = true := fun hj => by
    have := h.joined hj
    omega
  have hstarted : .started ∉ t.events := fun hin => h.started.mp hin hr
  have hterm : .joinReturned true ∉ t.events := fun hin => by
    have ht := h.joinReturned.mp hin
    rw [hr] at ht
    exact nomatch ht
  exact
    { ready := iff_of_false ThreadState.noConfusion fun hr => hr.2 rfl
      zombie := iff_of_false ThreadState.noConfusion fun hz => hfive hz.1
      terminated := iff_of_false ThreadState.noConfusion fun ht => hnot ht.1
      waiting := ThreadState.noConfusion
      done := h.done
      joined := h.joined
      assigning := fun _ => hzero
      waits := fun hor => by rcases hor with hc | hc | hc <;> exact nomatch hc
      storing := fun hc => nomatch hc
      started := iff_of_true (List.mem_append_right _ List.mem_cons_self) ThreadState.noConfusion
      entered := (mem_log (by decide)).trans h.entered
      returned := (mem_log (by decide)).trans h.returned
      joinReturned := iff_of_false ((mem_log (by decide)).not.mpr hterm) ThreadState.noConfusion
      rule := always_snoc.mpr ⟨h.rule, hstarted⟩ }

/-- What a call finds that does not find the OS thread joinable. -/
theorem Consistent.not_joinable (h : Consistent t) (hc : t.call = .idle) (hj : t.joinable = false)
    (hin : .started ∈ t.events) : .joinReturned true ∈ t.events ∧ .returned ∈ t.events := by
  have hsome : t.osThread ≠ none := fun hnone => by
    refine h.started.mp hin (h.ready.mpr ⟨by rw [hnone]; rfl, by rw [hc]; decide⟩)
  have hjoined : t.joined = true := by
    obtain ⟨p, hp⟩ := Option.ne_none_iff_exists'.mp hsome
    rw [joinable, hp] at hj
    simpa using hj
  have hseven := h.joined hjoined
  exact ⟨h.joinReturned.mpr (h.terminated.mpr ⟨hjoined, by rw [hc]; decide⟩),
    h.returned.mpr (by omega)⟩

theorem waits_of_joinable (hj : t.joinable = true) :
    0 < rank t.osThread ∧ t.joined = false := by
  rw [joinable, Bool.and_eq_true, Option.isSome_iff_exists, Bool.not_eq_true'] at hj
  obtain ⟨⟨p, hp⟩, hnot⟩ := hj
  exact ⟨by rw [hp]; exact rank_pos p, hnot⟩

theorem Consistent.begin (h : Consistent t) (hc : t.call = .idle) (a : Action) :
    Consistent (t.begin a) := by
  have ha : t.call ≠ .assigning := by rw [hc]; decide
  have hs : t.call ≠ .storing := by rw [hc]; decide
  cases a with
  | start =>
    rw [Thread.begin]
    split
    · next hr => exact h.starts hr
    · exact h
  | join =>
    rw [Thread.begin]
    split
    · next hj =>
      exact h.goes .joining ha hs (by decide) (by decide) fun _ => waits_of_joinable hj
    · next hj =>
      exact h.logged (fun hin => (h.not_joinable hc (Bool.not_eq_true _ ▸ hj) hin).1)
        (by decide) (by decide) (by decide) (by decide)
  | joinFor =>
    rw [Thread.begin]
    split
    · next hj =>
      exact h.goes .polling ha hs (by decide) (by decide) fun _ => waits_of_joinable hj
    · next hj =>
      exact h.logged (fun hin => (h.not_joinable hc (Bool.not_eq_true _ ▸ hj) hin).2)
        (by decide) (by decide) (by decide) (by decide)
  | _ => exact h

/-- What a call of `state` reads. -/
theorem Consistent.observed (h : Consistent t) : Consistent (t.log (.observed t.state)) := by
  refine h.logged ⟨h.waiting, ?_, fun hz => ?_, h.joinReturned.symm⟩ Event.noConfusion
    Event.noConfusion Event.noConfusion Event.noConfusion
  · rw [h.started, not_not]
  · have := (h.zombie.mp hz).1
    exact h.returned.mpr (by omega)

/-- A call of `wake` does not find `Waiting`, and stores nothing. Who has the mutex gives it
    back. -/
structure Steady (t : Thread) : Prop extends Consistent t where
  wakers : ∀ w ∈ t.wakers, w ≠ .storing
  byWaker : ∀ k, t.mutex = some (.waker k) →
    t.wakers[k]? = some .loading ∨ t.wakers[k]? = some .unlocking
  byThread : t.mutex = some .osThread → 4 ≤ rank t.osThread ∧ rank t.osThread ≤ 6

/-- A step that leaves the wakers, the mutex and the OS thread as they were. -/
theorem Steady.congr (h : Steady t) {t' : Thread} (h' : Consistent t')
    (hwakers : t'.wakers = t.wakers) (hmutex : t'.mutex = t.mutex)
    (hrank : t.mutex = some .osThread → rank t'.osThread = rank t.osThread) : Steady t' where
  toConsistent := h'
  wakers := by rw [hwakers]; exact h.wakers
  byWaker := by rw [hwakers, hmutex]; exact h.byWaker
  byThread hm := by
    rw [hmutex] at hm
    rw [hrank hm]
    exact h.byThread hm

theorem Steady.runLoop (h : Steady t) {p : Place} (hp : t.osThread = some p) :
    Steady (t.runLoop p) := by
  have h' := h.toConsistent.runLoop hp
  have hfree : rank (some p) < 4 → t.mutex ≠ some .osThread := fun hlt hm => by
    have := (h.byThread hm).1
    rw [hp] at this
    omega
  cases p with
  | created => exact h.congr h' rfl rfl fun hm => absurd hm (hfree (by decide))
  | entry => exact h.congr h' rfl rfl fun hm => absurd hm (hfree (by decide))
  | locking =>
    rw [Thread.runLoop] at h' ⊢
    split
    · next hnone =>
      rw [if_pos hnone] at h'
      exact ⟨h', h.wakers, fun k hk => (nomatch hk), fun _ => by simp [goTo, rank]⟩
    · exact h
  | storing => exact ⟨h', h.wakers, h.byWaker, fun _ => by simp [Thread.runLoop, goTo, rank]⟩
  | finishing => exact ⟨h', h.wakers, h.byWaker, fun _ => by simp [Thread.runLoop, goTo, rank]⟩
  | unlocking => exact ⟨h', h.wakers, fun k hk => (nomatch hk), fun hm => nomatch hm⟩
  | ended => exact h

theorem Steady.wakeStep (h : Steady t) {k : Nat} {w : Waker} (hk : t.wakers[k]? = some w) :
    Steady (t.wakeStep k w) := by
  have hset : ∀ w' : Waker, w' ≠ .storing → ∀ v ∈ t.wakers.set k w', v ≠ .storing := by
    intro w' hw' v hv
    rcases List.mem_or_eq_of_mem_set hv with hv | rfl
    · exact h.wakers v hv
    · exact hw'
  cases w with
  | calling =>
    rw [Thread.wakeStep]
    split
    · refine ⟨h.quiet _ _, hset .loading (by decide), fun j hj => ?_, fun hm => nomatch hm⟩
      obtain rfl := Holder.waker.inj (Option.some.inj hj)
      exact Or.inl (getElem?_moved_self hk)
    · exact h
  | loading =>
    rw [Thread.wakeStep, if_neg h.waiting]
    refine ⟨h.quiet t.mutex _, hset .unlocking (by decide), fun j hj => ?_, h.byThread⟩
    by_cases hjk : k = j
    · subst hjk
      exact Or.inr (getElem?_moved_self hk)
    · show (t.wakers.set k .unlocking)[j]? = _ ∨ (t.wakers.set k .unlocking)[j]? = _
      rw [List.getElem?_set_ne hjk]
      exact h.byWaker j hj
  | storing => exact absurd rfl (h.wakers .storing (List.mem_of_getElem? hk))
  | unlocking =>
    exact ⟨h.quiet none _, hset .returned (by decide), fun j hj => (nomatch hj),
      fun hm => nomatch hm⟩
  | returned => exact h

theorem Steady.ownerStep (h : Steady t) (expired : Bool) :
    Steady (t.ownerStep expired t.call) := by
  have h' := h.toConsistent.ownerStep expired
  cases hc : t.call with
  | idle => exact h
  | assigning =>
    rw [hc] at h'
    refine h.congr h' rfl rfl fun hm => ?_
    have := (h.byThread hm).1
    have := h.assigning hc
    omega
  | joining =>
    rw [hc] at h'
    refine h.congr h' ?_ ?_ fun _ => ?_ <;> rw [Thread.ownerStep] <;> split <;> rfl
  | storing =>
    rw [hc] at h'
    exact h.congr h' rfl rfl fun _ => rfl
  | polling =>
    rw [hc] at h'
    refine h.congr h' ?_ ?_ fun _ => ?_ <;> rw [Thread.ownerStep] <;> split <;> rfl
  | reading =>
    rw [hc] at h'
    exact h.congr h' rfl rfl fun _ => rfl

theorem Steady.begin (h : Steady t) (hc : t.call = .idle) (a : Action) : Steady (t.begin a) := by
  have h' := h.toConsistent.begin hc a
  cases a with
  | start => refine h.congr h' ?_ ?_ fun _ => ?_ <;> rw [Thread.begin] <;> split <;> rfl
  | join => refine h.congr h' ?_ ?_ fun _ => ?_ <;> rw [Thread.begin] <;> split <;> rfl
  | joinFor => refine h.congr h' ?_ ?_ fun _ => ?_ <;> rw [Thread.begin] <;> split <;> rfl
  | _ => exact h

theorem Steady.called (h : Steady t) : Steady { t with wakers := t.wakers ++ [.calling] } where
  toConsistent := h.quiet t.mutex _
  wakers w hw := by
    rcases List.mem_append.mp hw with hw | hw
    · exact h.wakers w hw
    · rw [List.mem_singleton.mp hw]
      decide
  byWaker k hk := by
    have hlt : k < t.wakers.length := by
      rcases h.byWaker k hk with hget | hget <;> exact (List.getElem?_eq_some_iff.mp hget).1
    show (t.wakers ++ [.calling])[k]? = _ ∨ (t.wakers ++ [.calling])[k]? = _
    rw [List.getElem?_append_left hlt]
    exact h.byWaker k hk
  byThread := h.byThread

theorem Steady.step (h : Steady t) (a : Action) : Steady (t.step a) := by
  rw [Thread.step]
  split
  · exact h
  · unfold act
    split
    · exact h.ownerStep _
    · exact h.congr h.observed rfl rfl fun _ => rfl
    · cases hp : t.osThread with
      | none => exact h
      | some p => exact h.runLoop hp
    · split
      · exact h.congr { h with } rfl rfl fun _ => rfl
      · exact h
    · exact h.called
    · next k =>
      cases hk : t.wakers[k]? with
      | none => exact h
      | some w => exact h.wakeStep hk
    · split
      · next hc => exact h.begin hc _
      · exact h

theorem Steady.new : Steady {} where
  ready := iff_of_true rfl ⟨rfl, Call.noConfusion⟩
  zombie := iff_of_false ThreadState.noConfusion fun h => absurd h.1 (by decide)
  terminated := iff_of_false ThreadState.noConfusion fun h => nomatch h.1
  waiting := ThreadState.noConfusion
  done := iff_of_false Bool.noConfusion (by decide)
  joined h := nomatch h
  assigning h := nomatch h
  waits h := by rcases h with h | h | h <;> exact nomatch h
  storing h := nomatch h
  started := iff_of_false List.not_mem_nil fun h => h rfl
  entered := iff_of_false List.not_mem_nil (by decide)
  returned := iff_of_false List.not_mem_nil (by decide)
  joinReturned := iff_of_false List.not_mem_nil ThreadState.noConfusion
  rule := always_nil
  wakers _ h := nomatch h
  byWaker _ h := nomatch h
  byThread h := nomatch h

theorem steady_run (actions : List Action) : Steady (run step {} actions) :=
  run_invariant (I := Steady) Steady.new (fun _ a h => Steady.step h a) actions

end Thread

end NeuroVerse.Proc
