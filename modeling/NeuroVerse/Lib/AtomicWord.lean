/-
  A word in shared memory that any number of calls read and change at the same time, each by one
  atomic step or by a loop: it loads the word, computes a new value, and exchanges the word
  against it if the word still is what it loaded. The weak form of the exchange may also fail
  without a reason. A call that fails starts again from the word as it is.

  The calls take effect in some order, each once and before it returns, and each finds the value
  that the effects before it leave (`linear_run`). An exchange fails for a reason only when
  another call has taken effect since the load, so that no call can hold up the others
  (`Linear.length_le`).

  Nothing here names a program.
-/
import NeuroVerse.Lib.Run
import NeuroVerse.Lib.Threads
import Mathlib.Data.List.Nodup
import Mathlib.Data.List.Perm.Subperm

namespace NeuroVerse.Lib

/-- Where a call stands. -/
inductive AtomicWord.Place (σ : Type*) where
  | called
  /-- It has loaded `cur`, when `seen` calls had taken effect. -/
  | loaded (cur : σ) (seen : Nat)
  /-- It has taken effect, on the value `old`. -/
  | done (old : σ)

structure AtomicWord (ο σ : Type*) where
  value : σ
  calls : List (ο × AtomicWord.Place σ) := []
  /-- The calls that have taken effect, in order. -/
  effects : List (Nat × ο) := []

/-- What the operations do to the word, and which of them loop. -/
structure AtomicWord.Access (ο σ : Type*) where
  apply : ο → σ → σ
  loops : ο → Bool

namespace AtomicWord

variable {ο σ : Type*}

inductive Action (ο : Type*) where
  | call (o : ο)
  /-- Call `k` takes its next step. -/
  | go (k : Nat) (spurious : Bool)

def load (w : AtomicWord ο σ) (k : Nat) (o : ο) : AtomicWord ο σ :=
  { w with calls := w.calls.set k (o, .loaded w.value w.effects.length) }

def takeEffect (acc : Access ο σ) (w : AtomicWord ο σ) (k : Nat) (o : ο) (old : σ) :
    AtomicWord ο σ where
  value := acc.apply o old
  calls := w.calls.set k (o, .done old)
  effects := w.effects ++ [(k, o)]

def step [DecidableEq σ] (acc : Access ο σ) (w : AtomicWord ο σ) : Action ο → AtomicWord ο σ
  | .call o => { w with calls := w.calls ++ [(o, .called)] }
  | .go k spurious =>
    match w.calls[k]? with
    | some (o, .called) => if acc.loops o then w.load k o else w.takeEffect acc k o w.value
    | some (o, .loaded cur _) =>
      if !spurious && w.value = cur then w.takeEffect acc k o cur else w.load k o
    | _ => w

/-- The value that effects leave. -/
def replay (acc : Access ο σ) (init : σ) (effects : List (Nat × ο)) : σ :=
  effects.foldl (fun v e => acc.apply e.2 v) init

/-- The operations that were called. -/
def called (acts : List (Action ο)) : List ο :=
  acts.filterMap fun
    | .call o => some o
    | .go _ _ => none

structure Linear (acc : Access ο σ) (init : σ) (w : AtomicWord ο σ) : Prop where
  value : w.value = replay acc init w.effects
  once : (w.effects.map Prod.fst).Nodup
  done : ∀ k o old, w.calls[k]? = some (o, .done old) → (k, o) ∈ w.effects
  /-- A call has found what the effects before its own left. -/
  found : ∀ pre k o post, w.effects = pre ++ (k, o) :: post →
    w.calls[k]? = some (o, .done (replay acc init pre))
  /-- A value that was loaded is the word's unless there were effects since. -/
  fresh : ∀ (k : Nat) (o : ο) (cur : σ) (seen : Nat), w.calls[k]? = some (o, .loaded cur seen) →
    seen ≤ w.effects.length ∧ (w.effects.length = seen → w.value = cur)

variable {acc : Access ο σ} {init : σ} {w : AtomicWord ο σ} {k : Nat} {o : ο} {p : Place σ}

theorem replay_snoc (effects : List (Nat × ο)) :
    replay acc init (effects ++ [(k, o)]) = acc.apply o (replay acc init effects) := by
  rw [replay, List.foldl_append]
  rfl

theorem Linear.place_of_mem (h : Linear acc init w) (hmem : (k, o) ∈ w.effects) :
    ∃ old, w.calls[k]? = some (o, .done old) := by
  obtain ⟨pre, post, hsplit⟩ := List.append_of_mem hmem
  exact ⟨_, h.found pre k o post hsplit⟩

/-- A call that is not done has not taken effect. -/
theorem Linear.not_mem (h : Linear acc init w) (hk : w.calls[k]? = some (o, p))
    (hp : ∀ old, p ≠ .done old) : k ∉ w.effects.map Prod.fst := by
  intro hmem
  obtain ⟨⟨k', o'⟩, he, rfl⟩ := List.mem_map.mp hmem
  obtain ⟨old, hdone⟩ := h.place_of_mem he
  rw [hdone] at hk
  exact hp old (Prod.mk.inj (Option.some.inj hk)).2.symm

theorem Linear.call (h : Linear acc init w) (o : ο) :
    Linear acc init { w with calls := w.calls ++ [(o, .called)] } where
  value := h.value
  once := h.once
  done j o' old hj := by
    rcases getElem?_spawned hj with hj | heq
    · exact h.done j o' old hj
    · exact nomatch heq
  found pre j o' post hsplit := by
    have hj := h.found pre j o' post hsplit
    exact (List.getElem?_append_left (List.getElem?_eq_some_iff.mp hj).1).trans hj
  fresh j o' cur seen hj := by
    rcases getElem?_spawned hj with hj | heq
    · exact h.fresh j o' cur seen hj
    · exact nomatch heq

theorem Linear.load (h : Linear acc init w) (hk : w.calls[k]? = some (o, p))
    (hp : ∀ old, p ≠ .done old) : Linear acc init (w.load k o) where
  value := h.value
  once := h.once
  done j o' old hj := by
    rcases getElem?_moved hj with ⟨-, heq⟩ | ⟨-, hj⟩
    · exact nomatch heq
    · exact h.done j o' old hj
  found pre j o' post hsplit := by
    have hj := h.found pre j o' post hsplit
    have hne : k ≠ j := by
      rintro rfl
      rw [hk] at hj
      exact hp _ (Prod.mk.inj (Option.some.inj hj)).2
    exact (List.getElem?_set_ne hne).trans hj
  fresh j o' cur seen hj := by
    rcases getElem?_moved hj with ⟨-, heq⟩ | ⟨-, hj⟩
    · cases heq
      exact ⟨Nat.le_refl _, fun _ => rfl⟩
    · exact h.fresh j o' cur seen hj

theorem Linear.takeEffect (h : Linear acc init w) (hk : w.calls[k]? = some (o, p))
    (hp : ∀ old, p ≠ .done old) : Linear acc init (w.takeEffect acc k o w.value) where
  value := by
    rw [AtomicWord.takeEffect, replay_snoc, ← h.value]
  once := by
    rw [AtomicWord.takeEffect, List.map_append]
    refine List.nodup_append.mpr ⟨h.once, List.nodup_singleton k, fun a ha b hb heq => ?_⟩
    rw [heq, List.mem_singleton.mp hb] at ha
    exact h.not_mem hk hp ha
  done j o' old hj := by
    rcases getElem?_moved hj with ⟨rfl, heq⟩ | ⟨-, hj⟩
    · cases heq
      exact List.mem_append_right _ List.mem_cons_self
    · exact List.mem_append_left _ (h.done j o' old hj)
  found pre j o' post hsplit := by
    have hsplit' : w.effects ++ [(k, o)] = pre ++ (j, o') :: post := hsplit
    rcases List.eq_nil_or_concat post with rfl | ⟨post', e, rfl⟩
    · obtain ⟨rfl, hlast⟩ := List.append_inj' hsplit' rfl
      cases hlast
      rw [← h.value]
      exact getElem?_moved_self hk
    · rw [List.concat_eq_append, ← List.cons_append, ← List.append_assoc] at hsplit'
      have hj := h.found pre j o' post' (List.append_inj' hsplit' rfl).1
      have hne : k ≠ j := by
        rintro rfl
        rw [hk] at hj
        exact hp _ (Prod.mk.inj (Option.some.inj hj)).2
      exact (List.getElem?_set_ne hne).trans hj
  fresh j o' cur seen hj := by
    rcases getElem?_moved hj with ⟨-, heq⟩ | ⟨-, hj⟩
    · exact nomatch heq
    · have hle := (h.fresh j o' cur seen hj).1
      have hlen : (w.takeEffect acc k o w.value).effects.length = w.effects.length + 1 :=
        List.length_append
      rw [hlen]
      exact ⟨by omega, fun heq => by omega⟩

theorem linear_new (acc : Access ο σ) (init : σ) : Linear acc init { value := init } where
  value := rfl
  once := List.nodup_nil
  done _ _ _ h := nomatch h
  found pre _ _ _ h := absurd h.symm (List.append_ne_nil_of_right_ne_nil pre (List.cons_ne_nil _ _))
  fresh _ _ _ _ h := nomatch h

/-! ## What is left to do -/

def running : ο × Place σ → Bool
  | (_, .done _) => false
  | _ => true

/-- The call has to load the word, once more if there were effects since it did. -/
def stale (effects : Nat) : ο × Place σ → Bool
  | (_, .called) => true
  | (_, .loaded _ seen) => seen < effects
  | (_, .done _) => false

/-- How many steps are left at most. An effect makes every call stale that has loaded. -/
def stepsLeft (w : AtomicWord ο σ) : Nat :=
  (w.calls.length - w.effects.length) * (w.calls.length + 1) +
    (w.calls.countP running + w.calls.countP (stale w.effects.length))

theorem running_of_not_done (hp : ∀ old, p ≠ .done old) : running (o, p) = true := by
  cases p with
  | called => rfl
  | loaded cur seen => rfl
  | done old => exact absurd rfl (hp old)

theorem Linear.effects_le (h : Linear acc init w) : w.effects.length ≤ w.calls.length := by
  have hsub : w.effects.map Prod.fst ⊆ List.range w.calls.length := by
    intro k hk
    obtain ⟨⟨k, o⟩, he, rfl⟩ := List.mem_map.mp hk
    obtain ⟨old, hdone⟩ := h.place_of_mem he
    exact List.mem_range.mpr (List.getElem?_eq_some_iff.mp hdone).1
  have hle := (List.subperm_of_subset h.once hsub).length_le
  rwa [List.length_map, List.length_range] at hle

theorem stepsLeft_load (hk : w.calls[k]? = some (o, p)) (hp : ∀ old, p ≠ .done old)
    (hstale : stale w.effects.length (o, p) = true) : (w.load k o).stepsLeft < w.stepsLeft := by
  have hrunning := running_of_not_done (o := o) hp
  have hfresh : stale w.effects.length (o, .loaded w.value w.effects.length) = false :=
    decide_eq_false (Nat.lt_irrefl _)
  have hcount := countP_moved (stale w.effects.length) (o, .loaded w.value w.effects.length) hk
  rw [if_pos hstale, if_neg (ne_true_of_eq_false hfresh)] at hcount
  have hsame : (w.calls.set k (o, .loaded w.value w.effects.length)).countP running =
      w.calls.countP running := countP_eq_moved hk hrunning.symm
  rw [stepsLeft, stepsLeft, load]
  dsimp only
  rw [List.length_set, hsame]
  omega

theorem stepsLeft_takeEffect (hk : w.calls[k]? = some (o, p)) (hp : ∀ old, p ≠ .done old)
    (old : σ) (hlt : w.effects.length < w.calls.length) :
    (w.takeEffect acc k o old).stepsLeft < w.stepsLeft := by
  have hrunning := running_of_not_done (o := o) hp
  have hcount := countP_moved running (o, .done old) hk
  have hover : running (o, (.done old : Place σ)) = false := rfl
  rw [if_pos hrunning, if_neg (ne_true_of_eq_false hover)] at hcount
  have hstale := List.countP_le_length (p := stale (σ := σ) (w.effects.length + 1))
    (l := w.calls.set k (o, .done old))
  rw [List.length_set] at hstale
  obtain ⟨left, hleft⟩ := Nat.exists_eq_add_of_lt hlt
  have hbefore : w.calls.length - w.effects.length = left + 1 := by omega
  have hafter : w.calls.length - (w.effects.length + 1) = left := by omega
  rw [stepsLeft, stepsLeft, takeEffect]
  dsimp only
  rw [List.length_set, List.length_append, List.length_singleton, hbefore, hafter, Nat.succ_mul]
  omega

/-! ## The steps -/

section Steps

variable [DecidableEq σ]

theorem Linear.step (h : Linear acc init w) (a : Action ο) : Linear acc init (w.step acc a) := by
  cases a with
  | call o => exact h.call o
  | go k spurious =>
    unfold AtomicWord.step
    dsimp only
    split
    · next o hk =>
      split
      · exact h.load hk fun _ hp => nomatch hp
      · exact h.takeEffect hk fun _ hp => nomatch hp
    · next o cur seen hk =>
      split
      · next heq =>
        rw [Bool.and_eq_true, decide_eq_true_iff] at heq
        rw [← heq.2]
        exact h.takeEffect hk fun _ hp => nomatch hp
      · exact h.load hk fun _ hp => nomatch hp
    · exact h

theorem linear_run (acc : Access ο σ) (init : σ) (acts : List (Action ο)) :
    Linear acc init (run (step acc) { value := init } acts) :=
  run_invariant (I := Linear acc init) (linear_new acc init) (fun _ a h => h.step a) acts

/-- No call is lost. -/
theorem calls_run (acc : Access ο σ) (init : σ) (acts : List (Action ο)) :
    (run (step acc) { value := init } acts).calls.map Prod.fst = called acts := by
  induction acts using List.reverseRecOn with
  | nil => rfl
  | append_singleton acts a ih =>
    rw [run_snoc, called, List.filterMap_append, ← called, ← ih]
    generalize run (step acc) { value := init } acts = w
    have hset : ∀ k o (p p' : Place σ), w.calls[k]? = some (o, p) →
        (w.calls.set k (o, p')).map Prod.fst = w.calls.map Prod.fst := by
      intro k o p p' hk
      obtain ⟨hlt, hget⟩ := List.getElem?_eq_some_iff.mp hk
      have hlt' : k < (w.calls.map Prod.fst).length := by rwa [List.length_map]
      have ho : (w.calls.map Prod.fst)[k] = o := by rw [List.getElem_map, hget]
      rw [List.map_set, ← ho, List.set_getElem_self hlt']
    cases a with
    | call o => exact List.map_append
    | go k spurious =>
      show _ = w.calls.map Prod.fst ++ []
      rw [List.append_nil]
      unfold step
      dsimp only
      split
      · next o hk => split <;> exact hset k o _ _ hk
      · next o cur seen hk => split <;> exact hset k o _ _ hk
      · rfl

theorem effects_step (w : AtomicWord ο σ) (a : Action ο) :
    w.effects <+: (w.step acc a).effects := by
  cases a with
  | call o => exact List.prefix_refl _
  | go k spurious =>
    unfold step
    dsimp only
    split
    · split
      · exact List.prefix_refl _
      · exact List.prefix_append _ _
    · split
      · exact List.prefix_append _ _
      · exact List.prefix_refl _
    · exact List.prefix_refl _

/-- What has taken effect comes before what takes effect later, so that a call that was over
    before another began comes before it. -/
theorem effects_run (acc : Access ο σ) (init : σ) {pre acts : List (Action ο)} (h : pre <+: acts) :
    (run (step acc) { value := init } pre).effects <+:
      (run (step acc) { value := init } acts).effects := by
  obtain ⟨post, rfl⟩ := h
  rw [run_append]
  generalize run (step acc) { value := init } pre = w
  exact run_invariant (I := fun w' : AtomicWord ο σ => w.effects <+: w'.effects)
    (List.prefix_refl _) (fun w' a h => h.trans (effects_step w' a)) post

/-! ## No call waits for another -/

/-- A call that has not returned takes a step, and no exchange fails without a reason. -/
def Unfinished (w : AtomicWord ο σ) : Action ο → Prop
  | .call _ => False
  | .go k spurious => spurious = false ∧ ∃ o p, w.calls[k]? = some (o, p) ∧ ∀ old, p ≠ .done old

theorem Linear.stepsLeft_step (h : Linear acc init w) {a : Action ο} (ha : w.Unfinished a) :
    (w.step acc a).stepsLeft < w.stepsLeft := by
  have heffects : ∀ k o, (w.takeEffect acc k o w.value).effects.length ≤
      (w.takeEffect acc k o w.value).calls.length → w.effects.length < w.calls.length := by
    intro k o hle
    rw [AtomicWord.takeEffect, List.length_append, List.length_singleton, List.length_set] at hle
    exact hle
  cases a with
  | call o => exact absurd ha id
  | go k spurious =>
    obtain ⟨rfl, o, p, hk, hp⟩ := ha
    have hfinish : (w.takeEffect acc k o w.value).stepsLeft < w.stepsLeft :=
      stepsLeft_takeEffect hk hp _ (heffects k o (h.takeEffect hk hp).effects_le)
    unfold AtomicWord.step
    dsimp only
    rw [hk]
    cases p with
    | called =>
      dsimp only
      split
      · exact stepsLeft_load hk hp rfl
      · exact hfinish
    | loaded cur seen =>
      obtain ⟨hle, hsame⟩ := h.fresh k o cur seen hk
      dsimp only
      split
      · next heq =>
        rw [Bool.and_eq_true, decide_eq_true_iff] at heq
        rw [← heq.2]
        exact hfinish
      · next hne =>
        refine stepsLeft_load hk hp (decide_eq_true (Nat.lt_of_le_of_ne hle fun heq => hne ?_))
        rw [hsame heq.symm, decide_eq_true rfl]
        rfl
    | done old => exact absurd rfl (hp old)

/-- Calls that are under way are all over after a bounded number of steps, whoever takes them. -/
theorem Linear.length_le (h : Linear acc init w) {acts : List (Action ο)}
    (hacts : StepsMeet (AtomicWord.step acc) Unfinished w acts) :
    acts.length ≤ w.calls.length * (w.calls.length + 3) := by
  have hle : acts.length ≤ w.stepsLeft := length_le_of_measure
    (fun w' a (h' : Linear acc init w') ha => ⟨h'.step a, h'.stepsLeft_step ha⟩) h hacts
  refine Nat.le_trans hle ?_
  have hrunning := List.countP_le_length (p := running) (l := w.calls)
  have hstale := List.countP_le_length (p := stale w.effects.length) (l := w.calls)
  have hmul := Nat.mul_le_mul_right (w.calls.length + 1)
    (Nat.sub_le w.calls.length w.effects.length)
  have hend : w.calls.length * (w.calls.length + 3) =
      w.calls.length * (w.calls.length + 1) + (w.calls.length + w.calls.length) := by
    rw [Nat.mul_add, Nat.mul_add]
    omega
  rw [stepsLeft, hend]
  omega

end Steps

end AtomicWord

end NeuroVerse.Lib
