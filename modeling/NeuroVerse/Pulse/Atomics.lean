/-
  The counters and gauges of a registry under any number of threads (`pulse/metric.hpp`,
  `pulse/metric.cpp`).

  `Registry::counter` and `Registry::gauge` find or make a metric under the mutex of the registry,
  in one step. The reference they return stays good, since no metric is removed. `Counter::inc` is
  one atomic addition and `Gauge::set` one store; `Gauge::inc` loads the value and exchanges it in
  a loop. Not modelled here: `Histogram::observe`, which is not atomic, and `scrape`, which reads
  one metric after another.

  `after_linearised`: no operation on a metric is lost and none counts twice. Each metric is what
  the plain operations of `Metric` make of it, one after another.
-/
import NeuroVerse.Lib.AtomicWord
import NeuroVerse.Pulse.Metric

namespace NeuroVerse.Pulse

open Lib AtomicWord

variable {δ : Type*}

/-! ## The operations -/

inductive CounterOp (δ : Type*) where
  | inc (v : δ)
  | value

inductive GaugeOp (δ : Type*) where
  | set (v : δ)
  | inc (v : δ)
  | value

def GaugeOp.dec [Neg δ] (v : δ) : GaugeOp δ := .inc (-v)

def CounterOp.access [Add δ] : Access (CounterOp δ) δ where
  apply
    | .inc v, cur => cur + v
    | .value, cur => cur
  loops _ := false

def GaugeOp.access [Add δ] : Access (GaugeOp δ) δ where
  apply
    | .set v, _ => v
    | .inc v, cur => cur + v
    | .value, cur => cur
  loops
    | .inc _ => true
    | _ => false

/-! ## Metrics by name -/

/-- The metrics of one kind: the help text and the value. -/
abbrev Words (ο δ : Type*) := AList fun _ : String => String × AtomicWord ο δ

inductive WordsAction (ο : Type*) where
  | register (name help : String)
  /-- A thread begins a call on a metric that it has a reference to, or goes on with it. -/
  | act (name : String) (a : AtomicWord.Action ο)

namespace Words

variable {ο : Type*} [Zero δ] [DecidableEq δ] (acc : Access ο δ)

def step (ws : Words ο δ) : WordsAction ο → Words ο δ
  | .register name help =>
    match ws.lookup name with
    | some _ => ws
    | none => ws.insert name (help, { value := 0 })
  | .act name a =>
    match ws.lookup name with
    | some (help, w) => ws.insert name (help, w.step acc a)
    | none => ws

/-- What is done to the metric of a name. -/
def actsOn (name : String) : WordsAction ο → Option (AtomicWord.Action ο)
  | .register _ _ => none
  | .act n a => if n = name then some a else none

/-- The help text of the first registration of a name, and what is done to the metric after it. -/
def since (name : String) : List (WordsAction ο) → Option (String × List (AtomicWord.Action ο))
  | [] => none
  | .register n help :: acts =>
    if n = name then some (help, acts.filterMap (actsOn name)) else since name acts
  | .act _ _ :: acts => since name acts

theorem since_append (name : String) (acts more : List (WordsAction ο)) :
    since name (acts ++ more) =
      match since name acts with
      | some (help, as) => some (help, as ++ more.filterMap (actsOn name))
      | none => since name more := by
  induction acts with
  | nil => rfl
  | cons b acts ih =>
    cases b with
    | act n b => exact ih
    | register n help =>
      rw [List.cons_append, since, since]
      split
      · rw [List.filterMap_append]
      · exact ih

/-- The metric that what was done to a name makes. -/
def made (e : String × List (AtomicWord.Action ο)) : String × AtomicWord ο δ :=
  (e.1, run (AtomicWord.step acc) { value := 0 } e.2)

theorem lookup_step (ws : Words ο δ) (name : String) (a : WordsAction ο) :
    (ws.step acc a).lookup name =
      match ws.lookup name with
      | some (help, w) => some (help, run (AtomicWord.step acc) w ([a].filterMap (actsOn name)))
      | none => (since name [a]).map (made acc) := by
  cases a with
  | register n help =>
    rw [step, since]
    by_cases hn : n = name
    · subst hn
      cases hw : ws.lookup n with
      | some e => exact hw
      | none =>
        rw [if_pos rfl]
        exact AList.lookup_insert _
    · rw [if_neg hn]
      have hsame : ∀ e, (ws.insert n e).lookup name = ws.lookup name := fun e =>
        AList.lookup_insert_ne (Ne.symm hn)
      have hrest : (match ws.lookup n with
          | some _ => ws
          | none => ws.insert n (help, { value := 0 })).lookup name = ws.lookup name := by
        cases ws.lookup n with
        | some e => rfl
        | none => exact hsame _
      refine hrest.trans ?_
      cases ws.lookup name <;> rfl
  | act n a =>
    rw [step, since, List.filterMap_cons, actsOn]
    by_cases hn : n = name
    · subst hn
      rw [if_pos rfl]
      cases hw : ws.lookup n with
      | some e => exact AList.lookup_insert _
      | none => exact hw
    · rw [if_neg hn]
      have hsame : ∀ e, (ws.insert n e).lookup name = ws.lookup name := fun e =>
        AList.lookup_insert_ne (Ne.symm hn)
      have hrest : (match ws.lookup n with
          | some (help, w) => ws.insert n (help, w.step acc a)
          | none => ws).lookup name = ws.lookup name := by
        cases ws.lookup n with
        | some e => exact hsame _
        | none => rfl
      refine hrest.trans ?_
      cases ws.lookup name <;> rfl

/-- The metric of a name is made by its first registration, and what is done to it afterwards is
    done to one word. -/
theorem lookup_run (name : String) (acts : List (WordsAction ο)) :
    (run (step acc) (∅ : Words ο δ) acts).lookup name = (since name acts).map (made acc) := by
  induction acts using List.reverseRecOn with
  | nil => rfl
  | append_singleton acts a ih =>
    rw [run_snoc, since_append, lookup_step, ih]
    cases since name acts with
    | none => rfl
    | some e =>
      refine congrArg some (congrArg (Prod.mk e.1) ?_)
      exact (run_append (AtomicWord.step acc) _ e.2 _).symm

end Words

/-! ## The registry -/

structure SharedRegistry (δ : Type*) where
  counters : Words (CounterOp δ) δ := ∅
  gauges : Words (GaugeOp δ) δ := ∅

inductive SharedAction (δ : Type*) where
  | counters (a : WordsAction (CounterOp δ))
  | gauges (a : WordsAction (GaugeOp δ))

def SharedAction.onCounters : SharedAction δ → Option (WordsAction (CounterOp δ))
  | .counters a => some a
  | .gauges _ => none

def SharedAction.onGauges : SharedAction δ → Option (WordsAction (GaugeOp δ))
  | .counters _ => none
  | .gauges a => some a

def Counter.perform [Add δ] (c : Counter δ) : CounterOp δ → Counter δ
  | .inc v => c.inc v
  | .value => c

def Gauge.perform [Add δ] (g : Gauge δ) : GaugeOp δ → Gauge δ
  | .set v => g.set v
  | .inc v => g.inc v
  | .value => g

namespace SharedRegistry

section Values

variable [Add δ]

theorem counter_replay (name help : String) (v : δ) (effects : List (Nat × CounterOp δ)) :
    (⟨name, help, replay CounterOp.access v effects⟩ : Counter δ) =
      (effects.map Prod.snd).foldl Counter.perform ⟨name, help, v⟩ := by
  induction effects generalizing v with
  | nil => rfl
  | cons e effects ih =>
    obtain ⟨k, o⟩ := e
    cases o with
    | inc u => exact ih (v + u)
    | value => exact ih v

theorem gauge_replay (name help : String) (v : δ) (effects : List (Nat × GaugeOp δ)) :
    (⟨name, help, replay GaugeOp.access v effects⟩ : Gauge δ) =
      (effects.map Prod.snd).foldl Gauge.perform ⟨name, help, v⟩ := by
  induction effects generalizing v with
  | nil => rfl
  | cons e effects ih =>
    obtain ⟨k, o⟩ := e
    cases o with
    | set u => exact ih u
    | inc u => exact ih (v + u)
    | value => exact ih v

end Values

variable [Add δ] [Zero δ] [DecidableEq δ]

def step (r : SharedRegistry δ) : SharedAction δ → SharedRegistry δ
  | .counters a => { r with counters := r.counters.step CounterOp.access a }
  | .gauges a => { r with gauges := r.gauges.step GaugeOp.access a }

theorem counters_run (actions : List (SharedAction δ)) :
    (run step ({} : SharedRegistry δ) actions).counters =
      run (Words.step CounterOp.access) ∅ (actions.filterMap SharedAction.onCounters) := by
  induction actions using List.reverseRecOn with
  | nil => rfl
  | append_singleton actions a ih =>
    rw [run_snoc, List.filterMap_append, run_append, ← ih]
    cases a <;> rfl

theorem gauges_run (actions : List (SharedAction δ)) :
    (run step ({} : SharedRegistry δ) actions).gauges =
      run (Words.step GaugeOp.access) ∅ (actions.filterMap SharedAction.onGauges) := by
  induction actions using List.reverseRecOn with
  | nil => rfl
  | append_singleton actions a ih =>
    rw [run_snoc, List.filterMap_append, run_append, ← ih]
    cases a <;> rfl

theorem lookup_counters (actions : List (SharedAction δ)) (name : String) :
    (run step ({} : SharedRegistry δ) actions).counters.lookup name =
      (Words.since name (actions.filterMap SharedAction.onCounters)).map
        (Words.made CounterOp.access) := by
  rw [counters_run]
  exact Words.lookup_run _ name _

theorem lookup_gauges (actions : List (SharedAction δ)) (name : String) :
    (run step ({} : SharedRegistry δ) actions).gauges.lookup name =
      (Words.since name (actions.filterMap SharedAction.onGauges)).map
        (Words.made GaugeOp.access) := by
  rw [gauges_run]
  exact Words.lookup_run _ name _

/-- In every run of any number of threads: a metric is there when it was registered, with the help
    text of its first registration. It has seen every operation that was called on it since. Each
    of these took effect at most once, and before it returned, on the value that the effects
    before it left, and none comes before those of an earlier moment; and the metric is what the
    plain operations make, in the order of their effects, of a new one. -/
theorem after_linearised (actions : List (SharedAction δ)) (name : String) :
    let r := run step ({} : SharedRegistry δ) actions
    (r.counters.lookup name).map Prod.fst =
        (Words.since name (actions.filterMap SharedAction.onCounters)).map Prod.fst ∧
      (r.gauges.lookup name).map Prod.fst =
        (Words.since name (actions.filterMap SharedAction.onGauges)).map Prod.fst ∧
      (∀ help w, r.counters.lookup name = some (help, w) → ∃ acts,
        Words.since name (actions.filterMap SharedAction.onCounters) = some (help, acts) ∧
        w.calls.map Prod.fst = called acts ∧ Linear CounterOp.access 0 w ∧
        (∀ pre, pre <+: acts → (run (AtomicWord.step CounterOp.access) { value := (0 : δ) }
          pre).effects <+: w.effects) ∧
        (⟨name, help, w.value⟩ : Counter δ) =
          (w.effects.map Prod.snd).foldl Counter.perform ⟨name, help, 0⟩) ∧
      ∀ help w, r.gauges.lookup name = some (help, w) → ∃ acts,
        Words.since name (actions.filterMap SharedAction.onGauges) = some (help, acts) ∧
        w.calls.map Prod.fst = called acts ∧ Linear GaugeOp.access 0 w ∧
        (∀ pre, pre <+: acts → (run (AtomicWord.step GaugeOp.access) { value := (0 : δ) }
          pre).effects <+: w.effects) ∧
        (⟨name, help, w.value⟩ : Gauge δ) =
          (w.effects.map Prod.snd).foldl Gauge.perform ⟨name, help, 0⟩ := by
  intro r
  rw [lookup_counters, lookup_gauges, Option.map_map, Option.map_map]
  refine ⟨rfl, rfl, fun help w h => ?_, fun help w h => ?_⟩
  · obtain ⟨⟨help', acts⟩, hsince, hmade⟩ := Option.map_eq_some_iff.mp h
    obtain ⟨rfl, rfl⟩ := Prod.mk.inj hmade
    have hlinear := linear_run CounterOp.access (0 : δ) acts
    refine ⟨acts, hsince, calls_run _ _ acts, hlinear, fun _ hp => effects_run _ _ hp, ?_⟩
    rw [hlinear.value]
    exact counter_replay name help' 0 _
  · obtain ⟨⟨help', acts⟩, hsince, hmade⟩ := Option.map_eq_some_iff.mp h
    obtain ⟨rfl, rfl⟩ := Prod.mk.inj hmade
    have hlinear := linear_run GaugeOp.access (0 : δ) acts
    refine ⟨acts, hsince, calls_run _ _ acts, hlinear, fun _ hp => effects_run _ _ hp, ?_⟩
    rw [hlinear.value]
    exact gauge_replay name help' 0 _

/-- What is done to the gauge of a name. -/
def gaugeSteps (name : String) (actions : List (SharedAction δ)) :
    List (AtomicWord.Action (GaugeOp δ)) :=
  (actions.filterMap SharedAction.onGauges).filterMap (Words.actsOn name)

/-- The calls on a gauge that are under way are over after a bounded number of their steps, in
    whatever order the threads take them and whatever happens to the other metrics, if no exchange
    fails without a reason. -/
theorem after_finishes (actions more : List (SharedAction δ)) {name help : String}
    {w : AtomicWord (GaugeOp δ) δ}
    (hw : (run step ({} : SharedRegistry δ) actions).gauges.lookup name = some (help, w))
    (hmore : StepsMeet (AtomicWord.step GaugeOp.access) Unfinished w (gaugeSteps name more)) :
    (run step ({} : SharedRegistry δ) (actions ++ more)).gauges.lookup name =
        some (help, run (AtomicWord.step GaugeOp.access) w (gaugeSteps name more)) ∧
      (gaugeSteps name more).length ≤ w.calls.length * (w.calls.length + 3) := by
  rw [lookup_gauges] at hw
  obtain ⟨⟨help', acts⟩, hsince, hmade⟩ := Option.map_eq_some_iff.mp hw
  obtain ⟨rfl, rfl⟩ := Prod.mk.inj hmade
  refine ⟨?_, (linear_run GaugeOp.access (0 : δ) acts).length_le hmore⟩
  rw [lookup_gauges, List.filterMap_append, Words.since_append, hsince]
  exact congrArg (fun w => some (help', w)) (run_append _ _ acts _)

/-- Two calls of `inc` have loaded 0. The exchange of the first succeeds, so that of the second
    fails, and it takes the second another one. -/
theorem after_finishes_race :
    let race : List (SharedAction Int) := [.gauges (.register "depth" ""),
      .gauges (.act "depth" (.call (.inc 1))), .gauges (.act "depth" (.call (.inc 2))),
      .gauges (.act "depth" (.go 0 false)), .gauges (.act "depth" (.go 1 false))]
    let more : List (SharedAction Int) := [.gauges (.act "depth" (.go 0 false)),
      .gauges (.act "depth" (.go 1 false)), .gauges (.act "depth" (.go 1 false))]
    (run step ({} : SharedRegistry Int) (race ++ more)).gauges.lookup "depth" =
        some ("", { value := 3, calls := [(.inc 1, .done 0), (.inc 2, .done 1)]
                    effects := [(0, .inc 1), (1, .inc 2)] }) ∧
      (gaugeSteps "depth" more).length = 3 ∧ (gaugeSteps "depth" more).length ≤ 2 * (2 + 3) := by
  intro race more
  have hw : (run step ({} : SharedRegistry Int) race).gauges.lookup "depth" =
      some ("", { value := 0, calls := [(.inc 1, .loaded 0 0), (.inc 2, .loaded 0 0)] }) := rfl
  have hloaded : ∀ (cur old : Int) (seen : Nat),
      (.loaded cur seen : AtomicWord.Place Int) ≠ .done old := by
    intro cur old seen h
    cases h
  have hmore : StepsMeet (AtomicWord.step (GaugeOp.access (δ := Int))) Unfinished
      { value := 0, calls := [(.inc 1, .loaded 0 0), (.inc 2, .loaded 0 0)] }
      (gaugeSteps "depth" more) := by
    refine (stepsMeet_cons _ _ _ _ _).mpr ⟨⟨rfl, _, _, rfl, fun _ => hloaded _ _ _⟩, ?_⟩
    refine (stepsMeet_cons _ _ _ _ _).mpr ⟨⟨rfl, _, _, rfl, fun _ => hloaded _ _ _⟩, ?_⟩
    exact (stepsMeet_cons _ _ _ _ _).mpr
      ⟨⟨rfl, _, _, rfl, fun _ => hloaded _ _ _⟩, stepsMeet_nil _ _ _⟩
  obtain ⟨hlookup, hlength⟩ := after_finishes race more hw hmore
  exact ⟨hlookup, rfl, hlength⟩

end SharedRegistry

end NeuroVerse.Pulse
