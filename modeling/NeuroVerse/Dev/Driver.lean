/-
  The driver bus of the host and the life of its drivers.

  A rescan walks the drivers in the order of their registration, probes each and starts those
  whose probe succeeded. It does not look at the state of a driver that it comes to, so that a
  driver that is running is probed and started once more. `stop` is called by the owner of a
  driver, never by the bus.

  `HostBus.events` records the calls of the hooks and the changes of state, which `Permitted`
  judges one by one. All are permitted exactly in the runs where no rescan comes to a driver that
  is up (`running_not_restarted_iff`).
-/
import NeuroVerse.Lib.Run
import NeuroVerse.Lib.Since

namespace NeuroVerse.Dev

open Lib

inductive DriverState where
  | registered
  | probing
  | attached
  | running
  | stopped
  | failed
deriving DecidableEq

inductive Event (δ : Type*) where
  | state (d : δ) (s : DriverState)
  | probe (d : δ) (ok : Bool)
  | start (d : δ) (ok : Bool)
  | stop (d : δ)
deriving DecidableEq

/-- A rescan comes to a driver; `probe` and `start` answer so, if they are called. -/
structure Visit (δ : Type*) where
  driver : δ
  probes : Bool
  starts : Bool

def Visit.ComesUp {δ : Type*} (v : Visit δ) : Prop := v.probes = true ∧ v.starts = true

structure HostBus (δ : Type*) where
  drivers : List δ := []
  state : δ → DriverState := fun _ => .registered
  events : List (Event δ) := []

inductive Op (δ : Type*) where
  | registerDriver (d : δ)
  /-- The driver at place `i` answers `probes i` and `starts i`. -/
  | rescan (probes starts : Nat → Bool)
  | stop (d : δ)

namespace HostBus

variable {δ : Type*} [DecidableEq δ] (b : HostBus δ)

def record (e : Event δ) : HostBus δ := { b with events := b.events ++ [e] }

def setState (d : δ) (s : DriverState) : HostBus δ :=
  { b with state := Function.update b.state d s }.record (.state d s)

def registerDriver (d : δ) : HostBus δ := { b with drivers := b.drivers ++ [d] }

/-- One turn of the loop of `rescan`. -/
def visit (v : Visit δ) : HostBus δ :=
  let b := (b.setState v.driver .probing).record (.probe v.driver v.probes)
  if v.probes = false then b.setState v.driver .failed
  else
    let b := (b.setState v.driver .attached).record (.start v.driver v.starts)
    if v.starts = false then b.setState v.driver .failed
    else b.setState v.driver .running

def visits (probes starts : Nat → Bool) : List (Visit δ) :=
  b.drivers.mapIdx fun i d => ⟨d, probes i, starts i⟩

def rescan (probes starts : Nat → Bool) : HostBus δ :=
  (b.visits probes starts).foldl visit b

def step : Op δ → HostBus δ
  | .registerDriver d => b.registerDriver d
  | .rescan probes starts => b.rescan probes starts
  | .stop d => b.record (.stop d)

end HostBus

/-! ## What may happen to a driver -/

section

variable {δ : Type*}

/-- The driver has reached the running state and has not been stopped since. -/
def Up (d : δ) : List (Event δ) → Prop :=
  Since (fun _ e => e = .state d .running) fun _ e => e ≠ .stop d

/-- A driver that is up is neither probed nor started, and `start` comes right after a probe that
    succeeded. -/
def Permitted (pre : List (Event δ)) : Event δ → Prop
  | .probe d _ => ¬ Up d pre
  | .start d _ => ¬ Up d pre ∧ [.probe d true, .state d .attached] <:+ pre
  | _ => True

theorem up_snoc {d : δ} {log : List (Event δ)} {e : Event δ} :
    Up d (log ++ [e]) ↔ e = .state d .running ∨ Up d log ∧ e ≠ .stop d :=
  since_snoc

namespace HostBus

variable [DecidableEq δ]

/-- No rescan comes to a driver that is up, be it since before the rescan or since an earlier
    visit of the same driver, which may be registered twice. -/
def ComesToNoneUp (b : HostBus δ) : Op δ → Prop
  | .rescan probes starts =>
    (∀ d ∈ b.drivers, ¬ Up d b.events) ∧
      (b.visits probes starts).Pairwise fun v w => v.driver = w.driver → ¬ v.ComesUp
  | _ => True

/-! ## One visit -/

variable {b : HostBus δ} {d : δ} {v : Visit δ}

theorem visit_events (b : HostBus δ) (v : Visit δ) : (b.visit v).events =
    if v.probes = false then
      b.events ++ [Event.state v.driver .probing] ++ [Event.probe v.driver v.probes] ++
        [Event.state v.driver .failed]
    else
      b.events ++ [Event.state v.driver .probing] ++ [Event.probe v.driver v.probes] ++
        [Event.state v.driver .attached] ++ [Event.start v.driver v.starts] ++
        [Event.state v.driver (if v.starts = false then .failed else .running)] := by
  unfold visit
  dsimp only
  split
  · rfl
  · split <;> rfl

theorem visit_grows (b : HostBus δ) (v : Visit δ) : b.events <+: (b.visit v).events := by
  rw [visit_events]
  split
  · simp only [List.append_assoc]
    exact List.prefix_append _ _
  · simp only [List.append_assoc]
    exact List.prefix_append _ _

/-- A visit brings the driver up whose probe and start succeed, and takes none down. -/
theorem visit_up : Up d (b.visit v).events ↔ Up d b.events ∨ v.driver = d ∧ v.ComesUp := by
  rw [visit_events]
  unfold Visit.ComesUp
  cases hp : v.probes
  · simp [up_snoc, -List.append_assoc]
  · cases hs : v.starts
    · simp [up_snoc, -List.append_assoc]
    · simp [up_snoc, or_comm, -List.append_assoc]

theorem visit_permitted (h : Always Permitted b.events) :
    Always Permitted (b.visit v).events ↔ ¬ Up v.driver b.events := by
  rw [visit_events]
  cases hp : v.probes
  · simp [always_snoc, Permitted, up_snoc, h, -List.append_assoc]
  · -- the start comes right after the probe
    have hlast : ∀ (log : List (Event δ)) (e e' : Event δ), [e, e'] <:+ log ++ [e] ++ [e'] :=
      fun log e e' => ⟨log, (List.append_assoc log [e] [e']).symm⟩
    simp [always_snoc, Permitted, up_snoc, h, hlast, -List.append_assoc]

/-! ## A rescan -/

theorem scan_grows (b : HostBus δ) (vs : List (Visit δ)) :
    b.events <+: (vs.foldl visit b).events := by
  induction vs generalizing b with
  | nil => exact List.prefix_refl _
  | cons v vs ih => exact (visit_grows b v).trans (ih (b.visit v))

/-- The visits of a rescan are permitted when none comes to a driver that was up before, or that
    an earlier one has brought up. -/
theorem scan_permitted (h : Always Permitted b.events) (vs : List (Visit δ)) :
    Always Permitted (vs.foldl visit b).events ↔
      (∀ v ∈ vs, ¬ Up v.driver b.events) ∧
        vs.Pairwise fun v w => v.driver = w.driver → ¬ v.ComesUp := by
  induction vs generalizing b with
  | nil => exact iff_of_true h ⟨nofun, .nil⟩
  | cons v vs ih =>
    rw [List.foldl_cons, List.forall_mem_cons, List.pairwise_cons]
    by_cases hup : Up v.driver b.events
    · refine iff_of_false (fun hall => ?_) fun hnone => hnone.1.1 hup
      exact (visit_permitted h).mp (hall.restrict (scan_grows (b.visit v) vs)) hup
    · have hfree : ∀ w : Visit δ, ¬ Up w.driver (b.visit v).events ↔
          ¬ Up w.driver b.events ∧ (v.driver = w.driver → ¬ v.ComesUp) := by
        intro w
        rw [visit_up, not_or, not_and]
      rw [ih ((visit_permitted h).mpr hup)]
      simp only [hfree]
      constructor
      · intro hvs
        obtain ⟨hnone, hpairs⟩ := hvs
        exact ⟨⟨hup, fun w hw => (hnone w hw).1⟩, fun w hw => (hnone w hw).2, hpairs⟩
      · intro hvs
        obtain ⟨⟨-, hnone⟩, hfirst, hpairs⟩ := hvs
        exact ⟨fun w hw => ⟨hnone w hw, hfirst w hw⟩, hpairs⟩

omit [DecidableEq δ] in
theorem visits_drivers (b : HostBus δ) (probes starts : Nat → Bool) :
    (b.visits probes starts).map Visit.driver = b.drivers := by
  unfold visits
  apply List.ext_getElem
  · simp
  · intro i hi hi'
    simp

theorem step_permitted (h : Always Permitted b.events) (o : Op δ) :
    Always Permitted (b.step o).events ↔ b.ComesToNoneUp o := by
  cases o with
  | registerDriver d => exact iff_of_true h trivial
  | stop d => exact iff_of_true (always_snoc.mpr ⟨h, trivial⟩) trivial
  | rescan probes starts =>
    have hvisits : (∀ v ∈ b.visits probes starts, ¬ Up v.driver b.events) ↔
        ∀ d ∈ b.drivers, ¬ Up d b.events := by
      rw [← visits_drivers b probes starts, List.forall_mem_map]
    exact (scan_permitted h _).trans (and_congr_left fun _ => hvisits)

/-- No driver that is up is probed or started again, and no driver is started but after its
    probe, exactly along the runs in which no rescan comes to a driver that is up. -/
theorem running_not_restarted_iff (ops : List (Op δ)) :
    (∀ pre, pre <+: ops → Always Permitted (run step ({} : HostBus δ) pre).events) ↔
      StepsMeet step ComesToNoneUp ({} : HostBus δ) ops := by
  refine prefixes_iff always_nil fun pre o _ h _ => ?_
  rw [run_snoc]
  exact step_permitted h o

/-- One driver, and the bus is scanned twice. -/
theorem running_driver_restarted : ¬ ∀ (ops : List (Op Nat)) pre, pre <+: ops →
    Always Permitted (run step ({} : HostBus Nat) pre).events := by
  intro h
  have hall := h [.registerDriver 0, .rescan (fun _ => true) fun _ => true,
    .rescan (fun _ => true) fun _ => true] _ (List.prefix_refl _)
  have hup : Up 0 ([.state 0 .probing, .probe 0 true, .state 0 .attached, .start 0 true] ++
      [.state 0 .running]) := up_snoc.mpr (Or.inl rfl)
  have hup' := up_snoc.mpr (Or.inr ⟨hup, (nofun : Event.state 0 .probing ≠ Event.stop 0)⟩)
  -- the second probe
  exact hall _ (.probe 0 true) ⟨[.state 0 .attached, .start 0 true, .state 0 .running], rfl⟩ hup'

end HostBus

end

end NeuroVerse.Dev
