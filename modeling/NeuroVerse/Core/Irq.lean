/-
  The interrupt source (`core/irq.hpp`): a list of handlers under a mutex, and `fire`, which
  copies the list and calls the handlers of its copy without the mutex.

  A handler is user code: it may attach handlers, clear them and fire the source again, on its
  own thread and inside the call of `fire` that called it, and it may throw. One action is one
  critical section, or the beginning or the end of a handler; any number of threads act.
  `after_orderly`: every call of `fire` calls the handlers that were attached when it copied the
  list, in the order of their registration and each once, whatever the handlers and the other
  threads do meanwhile, and returns how many of them returned true.
-/
import NeuroVerse.Lib.Since
import NeuroVerse.Lib.Threads
import Mathlib.Logic.Function.Basic

namespace NeuroVerse.Core.Irq

open Lib

/-- A call of `fire`, with its copy of the list. -/
structure Call (η : Type*) where
  snapshot : List η
  /-- How many handlers have returned. -/
  returned : Nat := 0
  /-- The next one is running. -/
  inHandler : Bool := false
  kept : Nat := 0

/-- What is seen of the source. The calls of `fire` are numbered as they copy the list. -/
inductive Event (η : Type*) where
  | attached (h : η)
  | cleared
  | fired (k : Nat) (snapshot : List η)
  | called (k : Nat) (h : η)
  | handled (k : Nat) (h : η) (keep : Bool)
  | returned (k : Nat) (kept : Nat)

/-- The source, all calls of `fire`, and for each thread the numbers of those it is in, innermost
    first. -/
structure IrqSource (τ η : Type*) where
  handlers : List η := []
  fires : Nat := 0
  calls : List (Call η) := []
  stack : τ → List Nat := fun _ => []
  events : List (Event η) := []

inductive Action (τ η : Type*) where
  | attach (t : τ) (h : η)
  | clear (t : τ)
  | fire (t : τ)
  /-- `fire` calls the next handler, or returns after the last one. -/
  | go (t : τ)
  /-- The handler returns. -/
  | ret (t : τ) (keep : Bool)
  /-- The handler throws, and `fire` passes it on. -/
  | throw (t : τ)

namespace IrqSource

variable {τ η : Type*}

/-- The innermost call of a thread, and the calls around it. -/
def top (s : IrqSource τ η) (t : τ) : Option (Nat × Call η × List Nat) :=
  match s.stack t with
  | [] => none
  | k :: rest => (s.calls[k]?).map fun c => (k, c, rest)

/-- User code is running on the thread. -/
def inUserCode (s : IrqSource τ η) (t : τ) : Bool := (s.top t).all fun e => e.2.1.inHandler

def handlerCount (s : IrqSource τ η) : Nat := s.handlers.length

/-- `fires_` is an unsigned 64-bit counter. -/
def fireCount (s : IrqSource τ η) : BitVec 64 := BitVec.ofNat 64 s.fires

def log (s : IrqSource τ η) (e : Event η) : IrqSource τ η := { s with events := s.events ++ [e] }

def attach (s : IrqSource τ η) (h : η) : IrqSource τ η :=
  log { s with handlers := s.handlers ++ [h] } (.attached h)

def clear (s : IrqSource τ η) : IrqSource τ η := log { s with handlers := [] } .cleared

def setCall (s : IrqSource τ η) (k : Nat) (c : Call η) : IrqSource τ η :=
  { s with calls := s.calls.set k c }

section Code

variable [DecidableEq τ]

def setStack (s : IrqSource τ η) (t : τ) (ks : List Nat) : IrqSource τ η :=
  { s with stack := Function.update s.stack t ks }

/-- `fire` copies the list. -/
def beginFire (s : IrqSource τ η) (t : τ) : IrqSource τ η :=
  log { s.setStack t (s.calls.length :: s.stack t) with
    calls := s.calls ++ [{ snapshot := s.handlers }] } (.fired s.calls.length s.handlers)

/-- The loop of the call `k`. -/
def goOn (s : IrqSource τ η) (t : τ) (k : Nat) (c : Call η) (rest : List Nat) : IrqSource τ η :=
  match c.snapshot[c.returned]? with
  | some h => (s.setCall k { c with inHandler := true }).log (.called k h)
  | none => log { s.setStack t rest with fires := s.fires + 1 } (.returned k c.kept)

/-- The handler that the call `k` called returns. -/
def endHandler (s : IrqSource τ η) (k : Nat) (c : Call η) (keep : Bool) : IrqSource τ η :=
  match c.snapshot[c.returned]? with
  | some h =>
    (s.setCall k { c with
      returned := c.returned + 1
      inHandler := false
      kept := c.kept + if keep then 1 else 0 }).log (.handled k h keep)
  | none => s

def step (s : IrqSource τ η) : Action τ η → IrqSource τ η
  | .attach t h => if s.inUserCode t then s.attach h else s
  | .clear t => if s.inUserCode t then s.clear else s
  | .fire t => if s.inUserCode t then s.beginFire t else s
  | .go t =>
    match s.top t with
    | none => s
    | some (k, c, rest) => if c.inHandler then s else s.goOn t k c rest
  | .ret t keep =>
    match s.top t with
    | none => s
    | some (k, c, _) => if c.inHandler then s.endHandler k c keep else s
  | .throw t =>
    match s.top t with
    | none => s
    | some (_, c, rest) => if c.inHandler then s.setStack t rest else s

end Code

/-! ## What the events say -/

def attachedAfter (hs : List η) : Event η → List η
  | .attached h => hs ++ [h]
  | .cleared => []
  | _ => hs

/-- The handlers that are attached after the events. -/
def attachedBy (events : List (Event η)) : List η := events.foldl attachedAfter []

/-- The handlers that the call `k` of `fire` has called, in order. -/
def begun (k : Nat) (events : List (Event η)) : List η :=
  events.filterMap fun
    | .called k' h => if k' = k then some h else none
    | _ => none

/-- The handlers that have returned to the call `k`, in order, with their answers. -/
def answers (k : Nat) (events : List (Event η)) : List (η × Bool) :=
  events.filterMap fun
    | .handled k' h keep => if k' = k then some (h, keep) else none
    | _ => none

/-- What the events before it say about an event. -/
def rule (pre : List (Event η)) : Event η → Prop
  | .attached _ => True
  | .cleared => True
  | .fired k snapshot => snapshot = attachedBy pre ∧ ∀ hs, .fired k hs ∉ pre
  | .called k h => begun k pre = (answers k pre).map Prod.fst ∧
      ∃ snapshot, .fired k snapshot ∈ pre ∧ begun k pre ++ [h] <+: snapshot
  | .handled k h _ => begun k pre = (answers k pre).map Prod.fst ++ [h]
  | .returned k kept => .fired k ((answers k pre).map Prod.fst) ∈ pre ∧
      kept = (answers k pre).countP Prod.snd

def isReturned : Event η → Bool
  | .returned _ _ => true
  | _ => false

/-- A call of `fire` is where the events say. -/
structure Follows (events : List (Event η)) (k : Nat) (c : Call η) : Prop where
  fired : .fired k c.snapshot ∈ events
  bound : c.returned + (if c.inHandler then 1 else 0) ≤ c.snapshot.length
  begun : begun k events = c.snapshot.take (c.returned + if c.inHandler then 1 else 0)
  answers : (answers k events).map Prod.fst = c.snapshot.take c.returned
  kept : c.kept = (IrqSource.answers k events).countP Prod.snd

structure Orderly (s : IrqSource τ η) : Prop where
  handlers : s.handlers = attachedBy s.events
  fires : s.fires = s.events.countP isReturned
  calls : ∀ k c, s.calls[k]? = some c → Follows s.events k c
  later : ∀ k, s.calls.length ≤ k → begun k s.events = [] ∧ answers k s.events = [] ∧
    ∀ hs, .fired k hs ∉ s.events
  rule : Always rule s.events

variable {s : IrqSource τ η} {events : List (Event η)} {k : Nat} {c : Call η}

/-! ## What one event adds -/

theorem begun_snoc (k : Nat) (events : List (Event η)) (e : Event η) :
    begun k (events ++ [e]) = begun k events ++ begun k [e] :=
  List.filterMap_append

theorem answers_snoc (k : Nat) (events : List (Event η)) (e : Event η) :
    answers k (events ++ [e]) = answers k events ++ answers k [e] :=
  List.filterMap_append

/-- An event that is not of the call `k` leaves it where it is. -/
theorem Follows.other (h : Follows events k c) {e : Event η} (hbegun : IrqSource.begun k [e] = [])
    (hanswers : IrqSource.answers k [e] = []) : Follows (events ++ [e]) k c where
  fired := List.mem_append_left _ h.fired
  bound := h.bound
  begun := by rw [begun_snoc, hbegun, List.append_nil, h.begun]
  answers := by rw [answers_snoc, hanswers, List.append_nil, h.answers]
  kept := by rw [answers_snoc, hanswers, List.append_nil, h.kept]

/-- The call `k` calls its next handler. -/
theorem Follows.calls (h : Follows events k c) (hin : c.inHandler = false) {x : η}
    (hx : c.snapshot[c.returned]? = some x) :
    Follows (events ++ [.called k x]) k { c with inHandler := true } ∧
      rule events (.called k x) := by
  obtain ⟨hlt, hget⟩ := List.getElem?_eq_some_iff.mp hx
  have hbegun := h.begun
  rw [hin] at hbegun
  have htake : c.snapshot.take (c.returned + 1) = c.snapshot.take c.returned ++ [x] := by
    rw [List.take_add_one, hx]
    rfl
  have hnone : IrqSource.answers k [.called k x] = [] := rfl
  have hone : IrqSource.begun k [.called k x] = [x] := by simp [IrqSource.begun]
  refine ⟨⟨List.mem_append_left _ h.fired, hlt, ?_, ?_, ?_⟩, ?_, c.snapshot, h.fired, ?_⟩
  · rw [begun_snoc, hbegun, hone]
    exact htake.symm
  · rw [answers_snoc, hnone, List.append_nil, h.answers]
  · rw [answers_snoc, hnone, List.append_nil, h.kept]
  · rw [hbegun, h.answers]
    rfl
  · rw [hbegun]
    exact htake ▸ List.take_prefix _ _

/-- The handler that the call `k` called returns to it. -/
theorem Follows.returns (h : Follows events k c) (hin : c.inHandler = true) {x : η}
    (hx : c.snapshot[c.returned]? = some x) (keep : Bool) :
    Follows (events ++ [.handled k x keep]) k { c with
      returned := c.returned + 1
      inHandler := false
      kept := c.kept + if keep then 1 else 0 } ∧ rule events (.handled k x keep) := by
  obtain ⟨hlt, hget⟩ := List.getElem?_eq_some_iff.mp hx
  have hbegun := h.begun
  rw [hin] at hbegun
  have htake : c.snapshot.take (c.returned + 1) = c.snapshot.take c.returned ++ [x] := by
    rw [List.take_add_one, hx]
    rfl
  have hnone : IrqSource.begun k [.handled k x keep] = [] := rfl
  have hone : IrqSource.answers k [.handled k x keep] = [(x, keep)] := by
    simp [IrqSource.answers]
  refine ⟨⟨List.mem_append_left _ h.fired, hlt, ?_, ?_, ?_⟩, ?_⟩
  · rw [begun_snoc, hnone, List.append_nil]
    exact hbegun
  · rw [answers_snoc, hone, List.map_append, h.answers]
    exact htake.symm
  · rw [answers_snoc, hone, List.countP_append, ← h.kept, List.countP_singleton]
  · show IrqSource.begun k events = _
    rw [hbegun, h.answers]
    exact htake

/-- A call that has called all its handlers returns. -/
theorem Follows.ends (h : Follows events k c)
    (hx : c.snapshot[c.returned]? = none) : rule events (.returned k c.kept) := by
  refine ⟨?_, h.kept⟩
  rw [h.answers, List.take_of_length_le (List.getElem?_eq_none_iff.mp hx)]
  exact h.fired

/-! ## The steps -/

theorem attachedBy_snoc (events : List (Event η)) (e : Event η) :
    attachedBy (events ++ [e]) = attachedAfter (attachedBy events) e :=
  List.foldl_append

/-- An event of no call of `fire`, or of one that is over. -/
theorem Orderly.passes (h : Orderly s) {e : Event η} {s' : IrqSource τ η}
    (hcalls : s'.calls = s.calls) (hevents : s'.events = s.events ++ [e])
    (hhandlers : s'.handlers = attachedBy (s.events ++ [e]))
    (hfires : s'.fires = s.fires + [e].countP isReturned)
    (hbegun : ∀ k, begun k [e] = []) (hanswers : ∀ k, answers k [e] = [])
    (hfired : ∀ k hs, e ≠ .fired k hs) (hrule : IrqSource.rule s.events e) : Orderly s' where
  handlers := by rw [hevents]; exact hhandlers
  fires := by rw [hevents, List.countP_append, ← h.fires]; exact hfires
  calls k c hk := by
    rw [hcalls] at hk
    rw [hevents]
    exact (h.calls k c hk).other (hbegun k) (hanswers k)
  later k hk := by
    rw [hcalls] at hk
    obtain ⟨hb, ha, hf⟩ := h.later k hk
    rw [hevents, begun_snoc, answers_snoc, hbegun, hanswers, hb, ha]
    refine ⟨rfl, rfl, fun hs hmem => ?_⟩
    rcases List.mem_append.mp hmem with hmem | hmem
    · exact hf hs hmem
    · exact hfired k hs (List.mem_singleton.mp hmem).symm
  rule := by rw [hevents]; exact always_snoc.mpr ⟨h.rule, hrule⟩

/-- An event of the call `k` that is not its beginning or its end. -/
theorem Orderly.moves (h : Orderly s) {e : Event η} {c' : Call η} (hk : k < s.calls.length)
    (hcall : Follows (s.events ++ [e]) k c') (hrule : IrqSource.rule s.events e)
    (hbegun : ∀ k', k ≠ k' → begun k' [e] = []) (hanswers : ∀ k', k ≠ k' → answers k' [e] = [])
    (hattached : attachedBy (s.events ++ [e]) = attachedBy s.events)
    (hreturned : isReturned e = false) (hfired : ∀ k hs, e ≠ .fired k hs) :
    Orderly ((s.setCall k c').log e) where
  handlers := h.handlers.trans hattached.symm
  fires := by
    show s.fires = (s.events ++ [e]).countP isReturned
    rw [List.countP_append, ← h.fires, List.countP_singleton, if_neg (by rw [hreturned]; decide)]
    rfl
  calls j d hj := by
    rcases getElem?_moved hj with ⟨rfl, rfl⟩ | ⟨hne, hj⟩
    · exact hcall
    · exact (h.calls j d hj).other (hbegun j hne.symm) (hanswers j hne.symm)
  later j hj := by
    have hlen : (s.calls.set k c').length ≤ j := hj
    rw [List.length_set] at hlen
    have hne : k ≠ j := by omega
    obtain ⟨hb, ha, hf⟩ := h.later j hlen
    refine ⟨?_, ?_, fun hs hmem => ?_⟩
    · exact (begun_snoc j s.events e).trans (by rw [hb, hbegun j hne]; rfl)
    · exact (answers_snoc j s.events e).trans (by rw [ha, hanswers j hne]; rfl)
    · rcases List.mem_append.mp hmem with hmem | hmem
      · exact hf hs hmem
      · exact hfired j hs (List.mem_singleton.mp hmem).symm
  rule := always_snoc.mpr ⟨h.rule, hrule⟩

theorem lt_of_top {t : τ} {rest : List Nat} (h : s.top t = some (k, c, rest)) :
    s.calls[k]? = some c := by
  rw [top] at h
  cases hs : s.stack t with
  | nil => rw [hs] at h; exact nomatch h
  | cons j ks =>
    rw [hs] at h
    obtain ⟨d, hd, heq⟩ := Option.map_eq_some_iff.mp h
    cases heq
    exact hd

theorem Orderly.new : Orderly ({} : IrqSource τ η) where
  handlers := rfl
  fires := rfl
  calls _ _ h := nomatch h
  later _ _ := ⟨rfl, rfl, fun _ h => (nomatch h)⟩
  rule := always_nil

theorem Orderly.endHandler (h : Orderly s) (hk : s.calls[k]? = some c)
    (hin : c.inHandler = true) (keep : Bool) : Orderly (s.endHandler k c keep) := by
  rw [IrqSource.endHandler]
  cases hx : c.snapshot[c.returned]? with
  | some x =>
    obtain ⟨hfollows, hrule⟩ := (h.calls k c hk).returns hin hx keep
    exact h.moves (List.getElem?_eq_some_iff.mp hk).1 hfollows hrule (fun k' _ => rfl)
      (fun k' hne => by simp [answers, hne]) (attachedBy_snoc s.events _) rfl
      (by intro _ _ h; cases h)
  | none => exact h

section Code

variable [DecidableEq τ]

theorem Orderly.beginFire (h : Orderly s) (t : τ) : Orderly (s.beginFire t) := by
  have hrule : IrqSource.rule s.events (.fired s.calls.length s.handlers) :=
    ⟨h.handlers, (h.later _ (Nat.le_refl _)).2.2⟩
  refine ⟨?_, ?_, fun k c hk => ?_, fun k hk => ?_, always_snoc.mpr ⟨h.rule, hrule⟩⟩
  · exact h.handlers.trans (attachedBy_snoc s.events (.fired s.calls.length s.handlers)).symm
  · show s.fires = (s.events ++ [Event.fired s.calls.length s.handlers]).countP isReturned
    rw [List.countP_append, ← h.fires]
    rfl
  · have hk' : (s.calls ++ [{ snapshot := s.handlers }])[k]? = some c := hk
    rw [List.getElem?_append] at hk'
    split at hk'
    · exact (h.calls k c hk').other rfl rfl
    · next hge =>
      obtain ⟨hone, hc⟩ := List.getElem?_eq_some_iff.mp hk'
      rw [List.length_singleton] at hone
      obtain rfl : k = s.calls.length := by omega
      obtain ⟨hb, ha, -⟩ := h.later s.calls.length (Nat.le_refl _)
      have hcall : c = { snapshot := s.handlers } := by
        rw [← hc]
        simp
      subst hcall
      have hnone : answers s.calls.length (s.beginFire t).events = [] :=
        (answers_snoc _ s.events (.fired s.calls.length s.handlers)).trans (by rw [ha]; rfl)
      refine ⟨List.mem_append_right _ List.mem_cons_self, Nat.zero_le _, ?_, ?_, ?_⟩
      · exact (begun_snoc s.calls.length s.events _).trans (by rw [hb]; rfl)
      · rw [hnone]
        rfl
      · rw [hnone]
        rfl
  · have hlen : s.calls.length + 1 ≤ k := by
      have hk' : (s.calls ++ [({ snapshot := s.handlers } : Call η)]).length ≤ k := hk
      rwa [List.length_append] at hk'
    obtain ⟨hb, ha, hf⟩ := h.later k (by omega)
    refine ⟨?_, ?_, fun hs hmem => ?_⟩
    · exact (begun_snoc k s.events _).trans (by rw [hb]; rfl)
    · exact (answers_snoc k s.events _).trans (by rw [ha]; rfl)
    · rcases List.mem_append.mp hmem with hmem | hmem
      · exact hf hs hmem
      · have heq := (Event.fired.inj (List.mem_singleton.mp hmem)).1
        omega

theorem Orderly.goOn (h : Orderly s) {t : τ} {rest : List Nat} (hk : s.calls[k]? = some c)
    (hin : c.inHandler = false) : Orderly (s.goOn t k c rest) := by
  have hcall := h.calls k c hk
  rw [IrqSource.goOn]
  cases hx : c.snapshot[c.returned]? with
  | some x =>
    obtain ⟨hfollows, hrule⟩ := hcall.calls hin hx
    exact h.moves (List.getElem?_eq_some_iff.mp hk).1 hfollows hrule
      (fun k' hne => by simp [begun, hne]) (fun k' _ => rfl) (attachedBy_snoc s.events _) rfl
      (by intro _ _ h; cases h)
  | none =>
    have hhandlers := h.handlers.trans (attachedBy_snoc s.events (.returned k c.kept)).symm
    exact h.passes rfl rfl hhandlers rfl (fun _ => rfl) (fun _ => rfl)
      (by intro _ _ h; cases h) (hcall.ends hx)

theorem Orderly.step (h : Orderly s) (a : Action τ η) : Orderly (s.step a) := by
  cases a with
  | attach t x =>
    rw [IrqSource.step]
    split
    · refine h.passes rfl rfl ?_ rfl (fun _ => rfl) (fun _ => rfl)
        (by intro _ _ h; cases h) trivial
      rw [attachedBy_snoc, ← h.handlers]
      rfl
    · exact h
  | clear t =>
    rw [IrqSource.step]
    split
    · exact h.passes rfl rfl (attachedBy_snoc s.events .cleared).symm rfl (fun _ => rfl)
        (fun _ => rfl) (by intro _ _ h; cases h) trivial
    · exact h
  | fire t =>
    rw [IrqSource.step]
    split
    · exact h.beginFire t
    · exact h
  | go t =>
    rw [IrqSource.step]
    cases htop : s.top t with
    | none => exact h
    | some e =>
      obtain ⟨k, c, rest⟩ := e
      dsimp only
      split
      · exact h
      · next hin => exact h.goOn (lt_of_top htop) (Bool.not_eq_true _ ▸ hin)
  | ret t keep =>
    rw [IrqSource.step]
    cases htop : s.top t with
    | none => exact h
    | some e =>
      obtain ⟨k, c, rest⟩ := e
      dsimp only
      split
      · next hin => exact h.endHandler (lt_of_top htop) hin keep
      · exact h
  | throw t =>
    rw [IrqSource.step]
    cases htop : s.top t with
    | none => exact h
    | some e =>
      obtain ⟨k, c, rest⟩ := e
      dsimp only
      split
      · exact { h with }
      · exact h

/-- In every run of any number of threads, what is seen of the source follows `rule`: a call of
    `fire` takes the handlers attached since they were last cleared, calls them one after another
    in that order, and returns how many answered true. `handler_count` and `fire_count` are the
    numbers of the handlers attached and of the calls that returned. -/
theorem after_orderly (actions : List (Action τ η)) :
    let s := run step ({} : IrqSource τ η) actions
    Always rule s.events ∧ s.handlerCount = (attachedBy s.events).length ∧
      s.fireCount = BitVec.ofNat 64 (s.events.countP isReturned) := by
  intro s
  have h : Orderly s := run_invariant (I := Orderly) Orderly.new (fun _ a h => Orderly.step h a)
    actions
  exact ⟨h.rule, congrArg List.length h.handlers, congrArg (BitVec.ofNat 64) h.fires⟩

end Code

end IrqSource

end NeuroVerse.Core.Irq
