/-
  One queue of an endpoint pair and the threads that block on it, in small steps: the calls lock
  and unlock the mutex, look at the queue, wait and notify, each in a step of its own.

  `recv_blocking` calls `try_recv`, which locks and unlocks the mutex, and then locks it again to
  wait on `cv_not_empty`, with no predicate. There are no spurious wakeups: a parked receiver goes
  on only when it is notified. A timed send may end its wait on `cv_not_full` at any time, so that
  nothing depends on who notifies that one. A notifier chooses which of the parked receivers it
  wakes.

  A call is a thread of its own. `Stepped` says what an action can do.
-/
import NeuroVerse.Lib.Run
import NeuroVerse.Lib.Threads

namespace NeuroVerse.Ipc

open Lib

namespace Blocking

/-- The places of a call. -/
inductive Pc (μ : Type*) where
  /-- `recv_blocking` is about to lock in `try_recv`. It may have been notified since it last
      looked at the queue. -/
  | recvLock (notified : Bool)
  | recvCheck (notified : Bool)
  /-- It leaves `try_recv` with what that has found. -/
  | recvUnlock (out : Option μ)
  /-- `try_recv` found nothing, and the lock for the wait comes next. -/
  | recvAgain
  | recvWait
  | parked
  /-- Notified; it needs the mutex to leave its wait. -/
  | woken
  /-- It has left its wait, and `lk` goes out of scope. -/
  | recvAwake
  | received (m : μ)
  /-- `send_nowait` is about to lock, or `try_send_for`. -/
  | sendLock (m : μ) (timed : Bool)
  | sendCheck (m : μ) (timed : Bool)
  | sendWait (m : μ)
  /-- `try_send_for` waits on `cv_not_full`. -/
  | sendParked (m : μ)
  | sendWoken (m : μ)
  | sendRecheck (m : μ)
  /-- It is about to unlock and return false. -/
  | sendFail
  /-- The message is pushed, `lk.unlock()` comes next. -/
  | sendUnlock
  /-- `cv_not_empty.notify_one()` comes next. -/
  | sendNotify
  | sent (ok : Bool)
  | closeLock
  | closeSet
  /-- `closed` is set, `cv_not_empty.notify_all()` comes next. -/
  | closeNotify
  | closeUnlock
  | closed
deriving DecidableEq

/-- The thread holds the mutex. -/
def Pc.holds {μ : Type*} : Pc μ → Bool
  | .recvCheck _ | .recvUnlock _ | .recvWait | .recvAwake => true
  | .sendCheck _ _ | .sendWait _ | .sendRecheck _ | .sendFail | .sendUnlock => true
  | .closeSet | .closeNotify | .closeUnlock => true
  | _ => false

/-- The thread is a receiver that was notified and has not looked at the queue since, or a sender
    that has pushed its message and has still to notify. -/
def Pc.covers {μ : Type*} : Pc μ → Bool
  | .woken | .recvAwake | .recvLock true | .recvCheck true => true
  | .sendUnlock | .sendNotify => true
  | _ => false

inductive Call (μ : Type*) where
  | recvBlocking
  | sendNowait (m : μ)
  | trySendFor (m : μ)
  | close

inductive Action (μ : Type*) where
  | call (c : Call μ)
  /-- Thread `k` takes its next step. -/
  | go (k : Nat)
  /-- Thread `k` runs its `notify_one`, which wakes thread `w`. -/
  | notify (k w : Nat)
  /-- The deadline of the timed send of thread `k` has passed. -/
  | timeout (k : Nat)

def Call.start {μ : Type*} : Call μ → Pc μ
  | .recvBlocking => .recvLock false
  | .sendNowait m => .sendLock m false
  | .trySendFor m => .sendLock m true
  | .close => .closeLock

end Blocking

open Blocking in
/-- A queue, the owner of its mutex, and the calls on it. -/
structure Blocking (μ : Type*) where
  capacity : Nat
  q : List μ := []
  closed : Bool := false
  owner : Option Nat := none
  threads : List (Pc μ) := []

namespace Blocking

variable {μ : Type*}

section
variable (s : Blocking μ) (k : Nat) (pc : Pc μ)

def goto : Blocking μ := { s with threads := s.threads.set k pc }

def lock : Blocking μ := if s.owner = none then { s.goto k pc with owner := some k } else s

def unlock : Blocking μ := { s.goto k pc with owner := none }

end

/-- The critical section of a send: `full` is where a send goes that finds no room. -/
def push (s : Blocking μ) (k : Nat) (m : μ) (full : Pc μ) : Blocking μ :=
  if s.closed then s.goto k .sendFail
  else if s.q.length < s.capacity then { s.goto k .sendUnlock with q := s.q ++ [m] }
  else s.goto k full

/-! ## The mutex -/

/-- Whoever is in a critical section owns the mutex. -/
def Exclusive (s : Blocking μ) : Prop :=
  ∀ k pc, s.threads[k]? = some pc → pc.holds = true → s.owner = some k

theorem Exclusive.goto {s : Blocking μ} (h : s.Exclusive) {k : Nat} {pc pc' : Pc μ}
    (hk : s.threads[k]? = some pc) (hholds : pc'.holds = true → pc.holds = true) :
    (s.goto k pc').Exclusive := by
  intro j x hx hxh
  rcases getElem?_moved hx with ⟨rfl, rfl⟩ | ⟨-, hj⟩
  · exact h j pc hk (hholds hxh)
  · exact h j x hj hxh

theorem Exclusive.unlock {s : Blocking μ} (h : s.Exclusive) {k : Nat} {pc pc' : Pc μ}
    (hk : s.threads[k]? = some pc) (hholds : pc.holds = true) (hfree : pc'.holds = false) :
    (s.unlock k pc').Exclusive := by
  intro j x hx hxh
  rcases getElem?_moved hx with ⟨rfl, rfl⟩ | ⟨hne, hj⟩
  · rw [hfree] at hxh
    cases hxh
  · have howner := (h j x hj hxh).symm.trans (h k pc hk hholds)
    exact absurd (Option.some.inj howner) hne

/-- A thread does not notify itself. -/
theorem notify_getElem? {s : Blocking μ} {k w : Nat} (hk : s.threads[k]? = some .sendNotify)
    (hw : s.threads[w]? = some .parked) : (s.goto w .woken).threads[k]? = some .sendNotify := by
  have hne : w ≠ k := by
    rintro rfl
    simp [hk] at hw
  exact (List.getElem?_set_ne hne).trans hk

/-! ## The steps -/

variable [DecidableEq μ]

/-- `notify_all`. -/
def wake (threads : List (Pc μ)) : List (Pc μ) :=
  threads.map fun pc => if pc = .parked then .woken else pc

/-- The next step of thread `k`, which is at `pc`. -/
def advance (s : Blocking μ) (k : Nat) : Pc μ → Blocking μ
  | .recvLock notified => s.lock k (.recvCheck notified)
  | .recvCheck _ =>
    match s.q with
    | [] => s.goto k (.recvUnlock none)
    | m :: q => { s.goto k (.recvUnlock (some m)) with q := q }
  | .recvUnlock none => s.unlock k .recvAgain
  | .recvUnlock (some m) => s.unlock k (.received m)
  | .recvAgain => s.lock k .recvWait
  | .recvWait => s.unlock k .parked
  | .parked => s
  | .woken => s.lock k .recvAwake
  | .recvAwake => s.unlock k (.recvLock true)
  | .received _ => s
  | .sendLock m timed => s.lock k (.sendCheck m timed)
  | .sendCheck m timed => s.push k m (if timed then .sendWait m else .sendFail)
  | .sendWait m => s.unlock k (.sendParked m)
  | .sendParked m => s.goto k (.sendWoken m)
  | .sendWoken m => s.lock k (.sendRecheck m)
  | .sendRecheck m => s.push k m (.sendWait m)
  | .sendFail => s.unlock k (.sent false)
  | .sendUnlock => s.unlock k .sendNotify
  | .sendNotify => if .parked ∈ s.threads then s else s.goto k (.sent true)
  | .sent _ => s
  | .closeLock => s.lock k .closeSet
  | .closeSet => { s.goto k .closeNotify with closed := true }
  | .closeNotify => { s with threads := (wake s.threads).set k .closeUnlock }
  | .closeUnlock => s.unlock k .closed
  | .closed => s

def step (s : Blocking μ) : Action μ → Blocking μ
  | .call c => { s with threads := s.threads ++ [c.start] }
  | .go k =>
    match s.threads[k]? with
    | some pc => s.advance k pc
    | none => s
  | .notify k w =>
    if s.threads[k]? = some .sendNotify ∧ s.threads[w]? = some .parked then
      (s.goto w .woken).goto k (.sent true)
    else s
  | .timeout k =>
    match s.threads[k]? with
    | some (.sendRecheck m) => s.push k m .sendFail
    | _ => s

abbrev after (capacity : Nat) (ops : List (Action μ)) : Blocking μ :=
  run step { capacity := capacity } ops

/-! ## What an action can do -/

/-- A move that leaves the waiting and the notifications as they are. -/
def Quiet (pc pc' : Pc μ) : Prop :=
  pc'.covers = pc.covers ∧ pc' ≠ .parked ∧ pc ≠ .closeNotify ∧ pc' ≠ .closeNotify

inductive Stepped (s : Blocking μ) : Action μ → Blocking μ → Prop
  | idle (a : Action μ) : Stepped s a s
  | called (c : Call μ) : Stepped s (.call c) { s with threads := s.threads ++ [c.start] }
  | locked (a : Action μ) (k : Nat) (pc pc' : Pc μ) (hk : s.threads[k]? = some pc)
      (hfree : s.owner = none) (hq : Quiet pc pc') :
    Stepped s a { s.goto k pc' with owner := some k }
  | unlocked (a : Action μ) (k : Nat) (pc pc' : Pc μ) (hk : s.threads[k]? = some pc)
      (hholds : pc.holds = true ∧ pc'.holds = false) (hq : Quiet pc pc') :
    Stepped s a (s.unlock k pc')
  | moved (a : Action μ) (k : Nat) (pc pc' : Pc μ) (hk : s.threads[k]? = some pc)
      (hholds : pc'.holds = pc.holds) (hq : Quiet pc pc') : Stepped s a (s.goto k pc')
  | missed (k : Nat) (notified : Bool) (hk : s.threads[k]? = some (.recvCheck notified))
      (hempty : s.q = []) : Stepped s (.go k) (s.goto k (.recvUnlock none))
  | popped (k : Nat) (notified : Bool) (m : μ) (q : List μ)
      (hk : s.threads[k]? = some (.recvCheck notified)) (hm : s.q = m :: q) :
    Stepped s (.go k) { s.goto k (.recvUnlock (some m)) with q := q }
  | waited (k : Nat) (hk : s.threads[k]? = some .recvWait) :
    Stepped s (.go k) (s.unlock k .parked)
  | pushed (a : Action μ) (k : Nat) (m : μ) (pc : Pc μ) (hk : s.threads[k]? = some pc)
      (hpc : pc.holds = true ∧ pc.covers = false ∧ pc ≠ .closeNotify) :
    Stepped s a { s.goto k .sendUnlock with q := s.q ++ [m] }
  | unheard (k : Nat) (hk : s.threads[k]? = some .sendNotify) (hnone : .parked ∉ s.threads) :
    Stepped s (.go k) (s.goto k (.sent true))
  | notified (k w : Nat) (hk : s.threads[k]? = some .sendNotify)
      (hw : s.threads[w]? = some .parked) :
    Stepped s (.notify k w) ((s.goto w .woken).goto k (.sent true))
  | closing (k : Nat) (hk : s.threads[k]? = some .closeSet) :
    Stepped s (.go k) { s.goto k .closeNotify with closed := true }
  | wokeAll (k : Nat) (hk : s.threads[k]? = some .closeNotify) :
    Stepped s (.go k) { s with threads := (wake s.threads).set k .closeUnlock }

theorem lock_stepped {s : Blocking μ} {a : Action μ} {k : Nat} {pc pc' : Pc μ}
    (hk : s.threads[k]? = some pc) (hq : Quiet pc pc') : Stepped s a (s.lock k pc') := by
  unfold lock
  split
  · next hfree => exact .locked a k pc pc' hk hfree hq
  · exact .idle a

theorem push_stepped {s : Blocking μ} {a : Action μ} {k : Nat} {pc full : Pc μ} (m : μ)
    (hk : s.threads[k]? = some pc)
    (hpc : pc.holds = true ∧ pc.covers = false ∧ pc ≠ .closeNotify)
    (hfull : full.holds = true ∧ full.covers = false ∧ full ≠ .closeNotify ∧ full ≠ .parked) :
    Stepped s a (s.push k m full) := by
  unfold push
  split
  · exact .moved a k pc _ hk hpc.1.symm ⟨hpc.2.1.symm, nofun, hpc.2.2, nofun⟩
  · split
    · exact .pushed a k m pc hk hpc
    · exact .moved a k pc _ hk (hfull.1.trans hpc.1.symm)
        ⟨hfull.2.1.trans hpc.2.1.symm, hfull.2.2.2, hpc.2.2, hfull.2.2.1⟩

theorem advance_stepped (s : Blocking μ) (k : Nat) (pc : Pc μ) (hk : s.threads[k]? = some pc) :
    Stepped s (.go k) (s.advance k pc) := by
  cases pc with
  | recvLock notified => exact lock_stepped hk ⟨by cases notified <;> rfl, nofun, nofun, nofun⟩
  | recvAgain | woken | sendLock | sendWoken | closeLock =>
    exact lock_stepped hk ⟨rfl, nofun, nofun, nofun⟩
  | recvCheck notified =>
    simp only [advance]
    split
    · next hempty => exact .missed k notified hk hempty
    · next m q hm => exact .popped k notified m q hk hm
  | recvUnlock out =>
    cases out <;> exact .unlocked _ k _ _ hk ⟨rfl, rfl⟩ ⟨rfl, nofun, nofun, nofun⟩
  | recvAwake | sendWait | sendFail | sendUnlock | closeUnlock =>
    exact .unlocked _ k _ _ hk ⟨rfl, rfl⟩ ⟨rfl, nofun, nofun, nofun⟩
  | recvWait => exact .waited k hk
  | parked | received | sent | closed => exact .idle _
  | sendCheck m timed =>
    refine push_stepped m hk ⟨rfl, rfl, nofun⟩ ?_
    cases timed <;> exact ⟨rfl, rfl, nofun, nofun⟩
  | sendRecheck m => exact push_stepped m hk ⟨rfl, rfl, nofun⟩ ⟨rfl, rfl, nofun, nofun⟩
  | sendParked m => exact .moved _ k _ _ hk rfl ⟨rfl, nofun, nofun, nofun⟩
  | sendNotify =>
    simp only [advance]
    split
    · exact .idle _
    · next hnone => exact .unheard k hk hnone
  | closeSet => exact .closing k hk
  | closeNotify => exact .wokeAll k hk

theorem step_stepped (s : Blocking μ) (a : Action μ) : Stepped s a (s.step a) := by
  cases a with
  | call c => exact .called c
  | go k =>
    simp only [step]
    split
    · next pc hk => exact advance_stepped s k pc hk
    · exact .idle _
  | notify k w =>
    simp only [step]
    split
    · next h => exact .notified k w h.1 h.2
    · exact .idle _
  | timeout k =>
    simp only [step]
    split
    · next m hk => exact push_stepped m hk ⟨rfl, rfl, nofun⟩ ⟨rfl, rfl, nofun, nofun⟩
    · exact .idle _

/-! ## The mutex along a run -/

theorem Exclusive.wake {s : Blocking μ} (h : s.Exclusive) :
    Exclusive { s with threads := Blocking.wake s.threads } := by
  intro j x hx hxh
  rw [Blocking.wake, List.getElem?_map] at hx
  obtain ⟨pc, hpc, rfl⟩ := Option.map_eq_some_iff.mp hx
  split at hxh
  · cases hxh
  · exact h j pc hpc hxh

theorem wake_getElem? {threads : List (Pc μ)} {k : Nat} {pc : Pc μ} (hk : threads[k]? = some pc)
    (hpc : pc ≠ .parked) : (wake threads)[k]? = some pc := by
  rw [wake, List.getElem?_map, hk, Option.map_some, if_neg hpc]

theorem notParked_wake (threads : List (Pc μ)) : .parked ∉ wake threads := by
  intro h
  obtain ⟨pc, -, hpc⟩ := List.mem_map.mp h
  split at hpc
  · cases hpc
  · next hne => exact hne hpc

theorem step_exclusive (s : Blocking μ) (a : Action μ) (h : s.Exclusive) :
    (s.step a).Exclusive := by
  have hs := step_stepped s a
  generalize s.step a = s' at hs
  cases hs with
  | idle => exact h
  | called c =>
    intro j x hx hxh
    rcases getElem?_spawned hx with hj | rfl
    · exact h j x hj hxh
    · cases c <;> cases hxh
  | locked _ k pc pc' hk hfree =>
    intro j x hx hxh
    rcases getElem?_moved hx with ⟨rfl, -⟩ | ⟨-, hj⟩
    · rfl
    · exact absurd (hfree.symm.trans (h j x hj hxh)) nofun
  | unlocked _ k pc pc' hk hholds => exact h.unlock hk hholds.1 hholds.2
  | waited k hk => exact h.unlock hk rfl rfl
  | moved _ k pc pc' hk hholds => exact h.goto hk fun hx => hholds ▸ hx
  | missed k notified hk | popped k notified m q hk => exact h.goto hk fun _ => rfl
  | pushed _ k m pc hk hpc => exact h.goto hk fun _ => hpc.1
  | unheard k hk => exact h.goto hk fun hx => absurd hx Bool.false_ne_true
  | closing k hk => exact h.goto hk fun _ => rfl
  | notified k w hk hw =>
    have hw' : (s.goto w .woken).Exclusive := h.goto hw fun hx => absurd hx Bool.false_ne_true
    exact hw'.goto (notify_getElem? hk hw) fun hx => absurd hx Bool.false_ne_true
  | wokeAll k hk => exact h.wake.goto (wake_getElem? hk nofun) fun _ => rfl

omit [DecidableEq μ] in
theorem exclusive_start (capacity : Nat) :
    Exclusive ({ capacity := capacity } : Blocking μ) :=
  fun _ _ h => by simp at h

end Blocking

end NeuroVerse.Ipc
