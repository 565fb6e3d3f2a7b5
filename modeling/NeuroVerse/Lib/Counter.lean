/-
  A counter that is bumped by a load and a store in two steps, by any number of bumps at the same
  time.

  A store that comes late takes the counter back to a value it has left. It does so exactly when
  the counter has moved on by two or more since the load: then the value was there before, since
  the counter goes up by one at a time (`noReturn_iff`). Without such a store the counter only
  goes up, and a bump that has returned has taken it past what it was before the bump began
  (`bumped_past`).

  Nothing here names a program.
-/
import NeuroVerse.Lib.Run
import NeuroVerse.Lib.Threads

namespace NeuroVerse.Lib

/-- Where a bump stands: before its load, before its store, returned. -/
inductive Bump where
  | load
  | store (next : Nat)
  | done (next : Nat)
deriving DecidableEq

structure Counter where
  value : Nat
  bumps : List Bump := []

namespace Counter

inductive Action where
  | call
  /-- Bump `k` takes its next step. -/
  | go (k : Nat)
deriving DecidableEq

def step (s : Counter) : Action → Counter
  | .call => { s with bumps := s.bumps ++ [.load] }
  | .go k =>
    match s.bumps[k]? with
    | some .load => { s with bumps := s.bumps.set k (.store (s.value + 1)) }
    | some (.store next) => { value := next, bumps := s.bumps.set k (.done next) }
    | _ => s

/-- A store takes the counter up by one, or leaves it. -/
def Fresh (s : Counter) : Action → Prop
  | .go k => ∀ next, s.bumps[k]? = some (.store next) → next = s.value ∨ next = s.value + 1
  | .call => True

/-- What an action can do. -/
inductive Stepped (s : Counter) : Action → Counter → Prop where
  | call : Stepped s .call { s with bumps := s.bumps ++ [.load] }
  | load (k : Nat) (here : s.bumps[k]? = some .load) :
      Stepped s (.go k) { s with bumps := s.bumps.set k (.store (s.value + 1)) }
  | store (k next : Nat) (here : s.bumps[k]? = some (.store next)) :
      Stepped s (.go k) { value := next, bumps := s.bumps.set k (.done next) }
  | idle (k : Nat) (here : ∀ next, s.bumps[k]? ≠ some (.store next)) : Stepped s (.go k) s

theorem step_stepped (s : Counter) (a : Action) : Stepped s a (s.step a) := by
  cases a with
  | call => exact .call
  | go k =>
    unfold step
    dsimp only
    split
    · next hk => exact .load k hk
    · next next hk => exact .store k next hk
    · next hload hstore => exact .idle k hstore

/-! ## Bounds -/

def Bump.isDone : Bump → Bool
  | .done _ => true
  | _ => false

/-- The bumps that have returned. -/
def completed (s : Counter) : Nat := s.bumps.countP Bump.isDone

/-- The counter has gone up by no more than the bumps that have returned. -/
structure Bounded (n : Nat) (s : Counter) : Prop where
  low : n ≤ s.value
  high : s.value ≤ n + s.completed
  pending : ∀ next, .store next ∈ s.bumps → n < next ∧ next ≤ n + s.completed + 1

theorem step_bounded {n : Nat} {s : Counter} (hs : s.Bounded n) (a : Action) :
    (s.step a).Bounded n := by
  have hstep := step_stepped s a
  generalize s.step a = t at hstep ⊢
  cases hstep with
  | call =>
    have hdone : completed { s with bumps := s.bumps ++ [.load] } = s.completed := by
      rw [completed, List.countP_append]
      rfl
    refine ⟨hs.low, hdone ▸ hs.high, fun next hmem => hdone ▸ hs.pending next ?_⟩
    exact (List.mem_append.mp hmem).resolve_right (by simp)
  | load k here =>
    have hdone := countP_moved Bump.isDone (.store (s.value + 1)) here
    have hlow := hs.low
    have hhigh := hs.high
    have hsame : completed { s with bumps := s.bumps.set k (.store (s.value + 1)) } =
        s.completed := hdone
    refine ⟨hlow, hsame ▸ hhigh, fun next hmem => ?_⟩
    rw [hsame]
    rcases List.mem_or_eq_of_mem_set hmem with hmem | heq
    · exact hs.pending next hmem
    · obtain rfl := Bump.store.inj heq
      omega
  | store k next here =>
    have hdone : (s.bumps.set k (.done next)).countP Bump.isDone = s.completed + 1 :=
      countP_moved Bump.isDone (.done next) here
    obtain ⟨hlow, hhigh⟩ := hs.pending next (List.mem_of_getElem? here)
    refine ⟨Nat.le_of_lt hlow, ?_, fun next' hmem => ?_⟩
    · show next ≤ n + (s.bumps.set k (.done next)).countP Bump.isDone
      omega
    · have := hs.pending next' (mem_of_mem_moved hmem nofun)
      show n < next' ∧ next' ≤ n + (s.bumps.set k (.done next)).countP Bump.isDone + 1
      omega
  | idle k _ => exact hs

theorem run_bounded (n : Nat) (ops : List Action) : (run step { value := n } ops).Bounded n :=
  run_invariant (I := Bounded n)
    ⟨Nat.le_refl n, Nat.le_add_right n _, fun _ hmem => absurd hmem List.not_mem_nil⟩
    (fun _ a hs => step_bounded hs a) ops

/-- A bump that has not returned is not counted. -/
theorem completed_lt {s : Counter} {next : Nat} (h : .store next ∈ s.bumps) :
    s.completed < s.bumps.length := by
  refine Nat.lt_of_le_of_ne List.countP_le_length fun heq => ?_
  exact Bool.false_ne_true (List.countP_eq_length.mp heq _ h)

/-- The bumps of a run are those that were called. -/
theorem length_bumps (s : Counter) (ops : List Action) :
    (run step s ops).bumps.length = s.bumps.length + ops.count .call := by
  induction ops generalizing s with
  | nil => rfl
  | cons a ops ih =>
    have hlen : (s.step a).bumps.length = s.bumps.length + [a].count .call := by
      have hstep := step_stepped s a
      generalize s.step a = t at hstep ⊢
      cases hstep with
      | call => exact List.length_append
      | load k _ => exact List.length_set
      | store k next _ => exact List.length_set
      | idle k _ => rfl
    have htail := ih (s.step a)
    rw [List.count_cons, List.count_nil] at hlen
    rw [List.count_cons]
    exact htail.trans (by omega)

/-! ## Runs without a late store -/

/-- The counter goes up, and is at most one below what is about to be stored. -/
theorem step_fresh {s : Counter} {a : Action} (hfresh : s.Fresh a) :
    s.value ≤ (s.step a).value ∧ (s.step a).value ≤ s.value + 1 := by
  have hstep := step_stepped s a
  generalize s.step a = t at hstep ⊢
  cases hstep with
  | call => exact ⟨Nat.le_refl _, Nat.le_succ _⟩
  | load k here => exact ⟨Nat.le_refl _, Nat.le_succ _⟩
  | store k next here =>
    have := hfresh next here
    show s.value ≤ next ∧ next ≤ s.value + 1
    omega
  | idle k here => exact ⟨Nat.le_refl _, Nat.le_succ _⟩

theorem value_mono {s : Counter} {ops : List Action} (h : StepsMeet step Fresh s ops) :
    s.value ≤ (run step s ops).value :=
  run_invariant_of_meet (I := fun t => s.value ≤ t.value) (Nat.le_refl _)
    (fun _ _ hle hfresh => Nat.le_trans hle (step_fresh hfresh).1) h

/-- No bump is about to store more than one above the counter. -/
theorem pending_le {s : Counter} (h0 : s.bumps = []) {ops : List Action}
    (h : StepsMeet step Fresh s ops) {next : Nat} (hmem : .store next ∈ (run step s ops).bumps) :
    next ≤ (run step s ops).value + 1 := by
  refine run_invariant_of_meet (I := fun t : Counter => ∀ next, .store next ∈ t.bumps →
    next ≤ t.value + 1) ?_ (fun t a ht hfresh => ?_) h next hmem
  · rw [h0]
    nofun
  · intro next hmem
    have hmono := step_fresh hfresh
    have hstep := step_stepped t a
    generalize t.step a = u at hstep hmem hmono ⊢
    cases hstep with
    | call => exact ht next ((List.mem_append.mp hmem).resolve_right (by simp))
    | load k here =>
      rcases List.mem_or_eq_of_mem_set hmem with hmem | heq
      · exact ht next hmem
      · exact Nat.le_of_eq (Bump.store.inj heq)
    | store k stored here =>
      have hold : next ≤ t.value + 1 := ht next (mem_of_mem_moved hmem nofun)
      have hup : t.value ≤ stored := hmono.1
      exact Nat.le_trans hold (Nat.succ_le_succ hup)
    | idle k here => exact ht next hmem

/-- The counter takes every value on its way up. -/
theorem value_taken {s : Counter} {ops : List Action} (h : StepsMeet step Fresh s ops) {w : Nat}
    (hlow : s.value ≤ w) (hhigh : w ≤ (run step s ops).value) :
    ∃ pre, pre <+: ops ∧ (run step s pre).value = w := by
  induction ops using List.reverseRecOn with
  | nil => exact ⟨[], List.prefix_refl _, Nat.le_antisymm hlow hhigh⟩
  | append_singleton ops a ih =>
    obtain ⟨hbefore, hlast⟩ := (stepsMeet_snoc _ _ _ _ _).mp h
    by_cases hw : w ≤ (run step s ops).value
    · obtain ⟨pre, hp, hv⟩ := ih hbefore hw
      exact ⟨pre, hp.trans (List.prefix_append ops [a]), hv⟩
    · have hup := (step_fresh hlast).2
      rw [run_snoc] at hhigh
      refine ⟨ops ++ [a], List.prefix_refl _, ?_⟩
      rw [run_snoc]
      omega

/-- The value after the run `r` is not one that the counter has left during the run. -/
def NoReturn (s : Counter) (r : List Action) : Prop :=
  ∀ p q, p <+: q → q <+: r → (run step s q).value ≠ (run step s p).value →
    (run step s r).value ≠ (run step s p).value

theorem noReturn_of_fresh {s : Counter} {r : List Action} (h : StepsMeet step Fresh s r) :
    NoReturn s r := by
  rintro p q ⟨mid, rfl⟩ ⟨post, rfl⟩ hne
  obtain ⟨hq, hpost⟩ := (stepsMeet_append _ _ _ _ _).mp h
  obtain ⟨-, hmid⟩ := (stepsMeet_append _ _ _ _ _).mp hq
  have hpq := value_mono hmid
  have hqr := value_mono hpost
  rw [← run_append] at hpq hqr
  omega

/-- A store that comes late takes the counter back. -/
theorem fresh_of_noReturn {n : Nat} {pre : List Action} {a : Action}
    (hpre : StepsMeet step Fresh { value := n } pre) (h : NoReturn { value := n } (pre ++ [a])) :
    (run step { value := n } pre).Fresh a := by
  cases a with
  | call => trivial
  | go k =>
    intro next hk
    have hmem := List.mem_of_getElem? hk
    have hle := pending_le rfl hpre hmem
    have hlow := ((run_bounded n pre).pending next hmem).1
    by_contra hlate
    obtain ⟨p, hp, hv⟩ := value_taken hpre (w := next) (Nat.le_of_lt hlow) (by omega)
    have hstored : (run step { value := n } (pre ++ [.go k])).value = next := by
      rw [run_snoc]
      simp only [step, hk]
    refine h p pre hp (List.prefix_append _ _) ?_ (hstored.trans hv.symm)
    omega

/-- The counter never goes back to a value it has left exactly when no store comes late. -/
theorem noReturn_iff (n : Nat) (ops : List Action) :
    (∀ r, r <+: ops → NoReturn { value := n } r) ↔ StepsMeet step Fresh { value := n } ops := by
  refine prefixes_iff (fun p q hpq hq hne => ?_) fun pre a _ _ hmeet => ⟨?_, fun ha => ?_⟩
  · rw [List.prefix_nil.mp hq] at hpq hne
    rw [List.prefix_nil.mp hpq] at hne
    exact absurd rfl hne
  · exact fresh_of_noReturn hmeet
  · exact noReturn_of_fresh ((stepsMeet_snoc _ _ _ _ _).mpr ⟨hmeet, ha⟩)

/-- What the counter was at some moment is behind it, once a bump from `m` on stores or has
    returned. -/
structure Past (v m : Nat) (t : Counter) : Prop where
  value : v ≤ t.value
  pending : ∀ k next, m ≤ k → t.bumps[k]? = some (.store next) → v < next
  done : ∀ k next, m ≤ k → t.bumps[k]? = some (.done next) → v < t.value

theorem step_past {v m : Nat} {t : Counter} (ht : t.Past v m) {a : Action}
    (hfresh : t.Fresh a) : (t.step a).Past v m := by
  have hup := (step_fresh hfresh).1
  have hvalue := Nat.le_trans ht.value hup
  have hstep := step_stepped t a
  generalize t.step a = u at hstep hup hvalue ⊢
  cases hstep with
  | call =>
    refine ⟨hvalue, fun k next hk h => ?_, fun k next hk h => ?_⟩
    · exact ht.pending k next hk ((getElem?_spawned h).resolve_right nofun)
    · exact ht.done k next hk ((getElem?_spawned h).resolve_right nofun)
  | load j here =>
    refine ⟨hvalue, fun k next hk h => ?_, fun k next hk h => ?_⟩
    · rcases getElem?_moved h with ⟨-, heq⟩ | ⟨-, h⟩
      · obtain rfl := Bump.store.inj heq
        exact Nat.lt_succ_of_le ht.value
      · exact ht.pending k next hk h
    · rcases getElem?_moved h with ⟨-, heq⟩ | ⟨-, h⟩
      · cases heq
      · exact ht.done k next hk h
  | store j stored here =>
    refine ⟨hvalue, fun k next hk h => ?_, fun k next hk h => ?_⟩
    · rcases getElem?_moved h with ⟨-, heq⟩ | ⟨-, h⟩
      · cases heq
      · exact ht.pending k next hk h
    · rcases getElem?_moved h with ⟨rfl, -⟩ | ⟨-, h⟩
      · exact ht.pending k stored hk here
      · exact Nat.lt_of_lt_of_le (ht.done k next hk h) hup
  | idle j here => exact ht

/-- Without a late store, a bump that has returned has taken the counter past every value it had
    before the bump began. -/
theorem bumped_past {s : Counter} {p q r : List Action} (h : StepsMeet step Fresh s r)
    (hp : p <+: q) (hq : q <+: r) {k : Nat} (hk : (run step s p).bumps.length ≤ k) {next : Nat}
    (hdone : (run step s q).bumps[k]? = some (.done next)) :
    (run step s p).value < (run step s r).value := by
  obtain ⟨mid, rfl⟩ := hp
  obtain ⟨post, rfl⟩ := hq
  obtain ⟨hq, hpost⟩ := (stepsMeet_append _ _ _ _ _).mp h
  obtain ⟨-, hmid⟩ := (stepsMeet_append _ _ _ _ _).mp hq
  have hstart : (run step s p).Past (run step s p).value (run step s p).bumps.length := by
    refine ⟨Nat.le_refl _, fun k next hk h => ?_, fun k next hk h => ?_⟩
    · rw [List.getElem?_eq_none hk] at h
      cases h
    · rw [List.getElem?_eq_none hk] at h
      cases h
  have hpast := run_invariant_of_meet hstart (fun _ _ ht hfresh => step_past ht hfresh) hmid
  rw [← run_append] at hpast
  rw [run_append _ _ (p ++ mid)]
  exact Nat.lt_of_lt_of_le (hpast.done k next hk hdone) (value_mono hpost)

end Counter

end NeuroVerse.Lib
