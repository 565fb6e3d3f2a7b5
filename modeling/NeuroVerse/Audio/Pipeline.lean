/-
  The audio graph: nodes in a row, each of which renders what the one before it has rendered.

  One flag stands for the preparation of all nodes. `prepare_all` sets it when every node could be
  prepared and never takes it back: neither when a later `prepare_all` fails, nor when a node is
  added. What the nodes are called with is recorded in `Graph.events`, which `Permitted` judges.
  Every rendering is permitted exactly in the runs where no block is rendered under a flag that has
  become stale in one of these two ways (`rendered_prepared_iff`).
-/
import NeuroVerse.Lib.Run
import NeuroVerse.Lib.Since

namespace NeuroVerse.Audio

open Lib

/-- Interleaved frames. -/
structure Buffer (φ : Type*) where
  samples : List φ := []
  channels : BitVec 32 := 2
  frames : BitVec 32 := 0

/-- The virtual methods of a node, whose state is in `ν`. -/
structure Node (ν φ : Type*) where
  prepare : ν → BitVec 32 → BitVec 32 → Bool × ν
  /-- It is given the input and its output buffer, which it overwrites. -/
  render : ν → List (Buffer φ) → Buffer φ → ν × Buffer φ

/-- What happens to the node at place `i`, and where a `prepare_all` begins and what it returns. -/
inductive Event where
  | add
  | prepareAll
  | prepare (i : Nat) (ok : Bool)
  | prepared (ok : Bool)
  | render (i : Nat)
deriving DecidableEq

structure Graph (ν : Type*) where
  nodes : List ν := []
  prepared : Bool := false
  events : List Event := []

namespace Graph

variable {ν φ : Type*} (node : Node ν φ)

def addNode (g : Graph ν) (n : ν) : Graph ν :=
  { g with nodes := g.nodes ++ [n], events := g.events ++ [.add] }

/-- The loop of `prepare_all` from place `i` on. -/
def prepareFrom (sampleRateHz channels : BitVec 32) : Nat → List ν → Bool × List ν × List Event
  | _, [] => (true, [], [])
  | i, n :: ns =>
    let r := node.prepare n sampleRateHz channels
    if r.1 = false then (false, r.2 :: ns, [.prepare i false])
    else
      let rest := prepareFrom sampleRateHz channels (i + 1) ns
      (rest.1, r.2 :: rest.2.1, .prepare i true :: rest.2.2)

def prepareAll (g : Graph ν) (sampleRateHz channels : BitVec 32) : Bool × Graph ν :=
  let r := prepareFrom node sampleRateHz channels 0 g.nodes
  (r.1, {
    nodes := r.2.1
    prepared := if r.1 then true else g.prepared
    events := g.events ++ [.prepareAll] ++ r.2.2 ++ [.prepared r.1] })

/-- `io.resize(n)`. -/
def resize (io : List (Buffer φ)) (n : Nat) : List (Buffer φ) :=
  io.take n ++ List.replicate (n - io.length) { samples := [] }

/-- The source goes to the front. -/
def seed : List (Buffer φ) → List (Buffer φ) → List (Buffer φ)
  | b :: _, _ :: io => b :: io
  | _, io => io

/-- The loop of `render_block` from place `i` on: `src` is the input of the node at this place,
    that of the caller for the first node and what was rendered before it for the others. -/
def renderFrom : Nat → List (Buffer φ) → List ν → List (Buffer φ) →
    List ν × List (Buffer φ) × List Event
  | i, src, n :: ns, out :: io =>
    let r := node.render n src out
    let rest := renderFrom (i + 1) [r.2] ns io
    (r.1 :: rest.1, r.2 :: rest.2.1, .render i :: rest.2.2)
  | _, _, ns, io => (ns, io, [])

def renderBlock (g : Graph ν) (input io : List (Buffer φ)) : List (Buffer φ) × Graph ν :=
  if g.prepared = false ∨ g.nodes = [] then (io, g)
  else
    let r := renderFrom node 0 input g.nodes (seed input (resize io g.nodes.length))
    (r.2.1, { g with nodes := r.1, events := g.events ++ r.2.2 })

end Graph

inductive Op (ν φ : Type*) where
  | addNode (n : ν)
  | prepareAll (sampleRateHz channels : BitVec 32)
  | renderBlock (input io : List (Buffer φ))

def Graph.step {ν φ : Type*} (node : Node ν φ) (g : Graph ν) : Op ν φ → Graph ν
  | .addNode n => g.addNode n
  | .prepareAll sampleRateHz channels => (g.prepareAll node sampleRateHz channels).2
  | .renderBlock input io => (g.renderBlock node input io).2

/-! ## What may be rendered -/

/-- The node at place `i` was prepared in the most recent `prepare_all`. -/
def Prepared (i : Nat) : List Event → Prop :=
  Since (fun _ e => e = .prepare i true) fun _ e => e ≠ .prepareAll

/-- A `prepare_all` has returned false, and none has returned true since. -/
def Failed : List Event → Prop :=
  Since (fun _ e => e = .prepared false) fun _ e => e ≠ .prepared true

/-- A `prepare_all` has returned true, and since then none has returned false and no node was
    added. -/
def Fresh : List Event → Prop :=
  Since (fun _ e => e = .prepared true) fun _ e => e ≠ .add ∧ e ≠ .prepared false

def Permitted (pre : List Event) : Event → Prop
  | .render i => Prepared i pre ∧ ¬ Failed pre
  | _ => True

/-- A block is rendered only with a fresh preparation, or none at all. -/
def RendersFresh {ν φ : Type*} (g : Graph ν) : Op ν φ → Prop
  | .renderBlock _ _ => g.prepared = true → g.nodes ≠ [] → Fresh g.events
  | _ => True

/-! ## The loops -/

namespace Graph

variable {ν φ : Type*} (node : Node ν φ)

theorem prepareFrom_length (rate channels : BitVec 32) (i : Nat) (ns : List ν) :
    (prepareFrom node rate channels i ns).2.1.length = ns.length := by
  induction ns generalizing i with
  | nil => rfl
  | cons n ns ih =>
    unfold prepareFrom
    dsimp only
    split
    · rfl
    · exact congrArg (· + 1) (ih (i + 1))

/-- The loop prepares nodes at its own places only, and all of them when it returns true. -/
theorem prepareFrom_events (rate channels : BitVec 32) (i : Nat) (ns : List ν) :
    (∀ e ∈ (prepareFrom node rate channels i ns).2.2, ∃ j ok, e = .prepare j ok ∧
      j < i + ns.length) ∧
    ((prepareFrom node rate channels i ns).1 = true → ∀ j, i ≤ j → j < i + ns.length →
      .prepare j true ∈ (prepareFrom node rate channels i ns).2.2) := by
  induction ns generalizing i with
  | nil =>
    refine ⟨nofun, fun _ j hle hlt => ?_⟩
    rw [List.length_nil] at hlt
    omega
  | cons n ns ih =>
    rw [List.length_cons]
    unfold prepareFrom
    dsimp only
    split
    · refine ⟨fun e he => ⟨i, false, List.mem_singleton.mp he, ?_⟩, nofun⟩
      omega
    · obtain ⟨hplaces, hall⟩ := ih (i + 1)
      constructor
      · intro e he
        rcases List.mem_cons.mp he with rfl | he
        · refine ⟨i, true, rfl, ?_⟩
          omega
        · obtain ⟨j, ok, heq, hlt⟩ := hplaces e he
          refine ⟨j, ok, heq, ?_⟩
          omega
      · intro hok j hle hlt
        rcases Nat.eq_or_lt_of_le hle with rfl | hle
        · exact List.mem_cons_self
        · refine List.mem_cons_of_mem _ (hall hok j hle ?_)
          omega

theorem renderFrom_length (i : Nat) (src : List (Buffer φ)) (ns : List ν)
    (io : List (Buffer φ)) : (renderFrom node i src ns io).1.length = ns.length := by
  induction ns generalizing i src io with
  | nil => simp [renderFrom]
  | cons n ns ih =>
    cases io with
    | nil => rfl
    | cons out io => exact congrArg (· + 1) (ih (i + 1) _ io)

theorem renderFrom_events (i : Nat) (src : List (Buffer φ)) (ns : List ν)
    (io : List (Buffer φ)) (h : io.length = ns.length) :
    (renderFrom node i src ns io).2.2 = (List.range' i ns.length).map .render := by
  induction ns generalizing i src io with
  | nil => simp [renderFrom]
  | cons n ns ih =>
    cases io with
    | nil => cases h
    | cons out io =>
      unfold renderFrom
      rw [List.length_cons, List.range'_succ, List.map_cons]
      exact congrArg _ (ih (i + 1) _ io (Nat.succ.inj h))

theorem seed_length (input io : List (Buffer φ)) : (seed input io).length = io.length := by
  unfold seed
  split <;> rfl

theorem resize_length (io : List (Buffer φ)) (n : Nat) : (resize io n).length = n := by
  unfold resize
  rw [List.length_append, List.length_take, List.length_replicate]
  omega

end Graph

/-! ## The calls in the log -/

section

variable {log es : List Event} {i : Nat}

/-- Renderings are no events for a condition that reads the other calls only. -/
theorem since_renders {p q : Event → Prop} (hp : ∀ i, ¬ p (.render i)) (hq : ∀ i, q (.render i))
    (h : ∀ e ∈ es, ∃ i, e = .render i) :
    Since (fun _ e => p e) (fun _ e => q e) (log ++ es) ↔
      Since (fun _ e => p e) (fun _ e => q e) log := by
  rw [since_append, or_iff_right]
  · intro hsome
    obtain ⟨e, he, hpe⟩ := hsome
    obtain ⟨i, rfl⟩ := h e he
    exact hp i hpe
  · intro e he
    obtain ⟨i, rfl⟩ := h e he
    exact hq i

theorem permitted_renders (h : ∀ e ∈ es, ∃ i, e = .render i) :
    Always Permitted (log ++ es) ↔
      Always Permitted log ∧ ∀ e ∈ es, ∀ i, e = .render i → Prepared i log ∧ ¬ Failed log := by
  refine always_append fun pre hpre e he => ?_
  obtain ⟨i, rfl⟩ := h e he
  have hsub : ∀ e ∈ pre, ∃ i, e = .render i := fun e he => h e (hpre.subset he)
  have hprepared : Prepared i (log ++ pre) ↔ Prepared i log :=
    since_renders (fun _ => nofun) (fun _ => nofun) hsub
  have hfailed : Failed (log ++ pre) ↔ Failed log :=
    since_renders (fun _ => nofun) (fun _ => nofun) hsub
  show (Prepared i (log ++ pre) ∧ ¬ Failed (log ++ pre)) ↔ _
  rw [hprepared, hfailed]
  simp

theorem permitted_others (h : ∀ e ∈ es, ∀ i, e ≠ .render i) :
    Always Permitted (log ++ es) ↔ Always Permitted log := by
  rw [always_append (p := fun _ => True) fun pre _ e he => ?_]
  · simp
  · cases e with
    | render i => exact absurd rfl (h _ he i)
    | add | prepareAll | prepare | prepared => exact Iff.rfl

/-- After a `prepare_all` the nodes that count as prepared are those that it prepared. -/
theorem prepared_prepareAll {ok : Bool} (h : ∀ e ∈ es, ∃ j ok, e = .prepare j ok) :
    Prepared i (log ++ [.prepareAll] ++ es ++ [.prepared ok]) ↔ .prepare i true ∈ es := by
  unfold Prepared
  rw [since_snoc, since_append, since_snoc]
  · simp
  · intro e he
    obtain ⟨j, ok, rfl⟩ := h e he
    nofun

end

/-! ## The flag -/

namespace Graph

variable {ν φ : Type*} {g : Graph ν}

/-- What the log says of the nodes, and what is wrong when the flag is stale. -/
structure Inv (g : Graph ν) : Prop where
  fresh : Fresh g.events → ∀ i, i < g.nodes.length → Prepared i g.events
  sound : Fresh g.events → ¬ Failed g.events
  beyond : ∀ i, g.nodes.length ≤ i → ¬ Prepared i g.events
  stale : g.prepared = true → Fresh g.events ∨ Failed g.events ∨
    ∃ i, i < g.nodes.length ∧ ¬ Prepared i g.events

theorem empty_inv : Inv ({} : Graph ν) :=
  ⟨fun h => absurd h not_since_nil, fun h => absurd h not_since_nil, fun _ _ => not_since_nil,
    nofun⟩

theorem addNode_inv (h : g.Inv) (n : ν) : (g.addNode n).Inv := by
  have hfresh : ¬ Fresh (g.events ++ [.add]) := by
    unfold Fresh
    rw [since_snoc]
    simp
  have hprepared : ∀ i, Prepared i (g.events ++ [.add]) ↔ Prepared i g.events := by
    intro i
    unfold Prepared
    rw [since_snoc]
    simp
  have hlength : (g.nodes ++ [n]).length = g.nodes.length + 1 := by simp
  constructor
  · exact fun hf => absurd hf hfresh
  · exact fun hf => absurd hf hfresh
  · intro i hi
    unfold addNode at hi ⊢
    rw [hprepared]
    rw [hlength] at hi
    exact h.beyond i (by omega)
  · intro _
    -- the new node has not been prepared
    refine Or.inr (Or.inr ⟨g.nodes.length, ?_, ?_⟩)
    · exact hlength ▸ Nat.lt_succ_self _
    · exact fun hp => h.beyond _ (Nat.le_refl _) ((hprepared _).mp hp)

theorem prepareAll_inv (node : Node ν φ) (g : Graph ν) (rate channels : BitVec 32) :
    (g.prepareAll node rate channels).2.Inv := by
  obtain ⟨hplaces, hall⟩ := prepareFrom_events node rate channels 0 g.nodes
  have hlength := prepareFrom_length node rate channels 0 g.nodes
  unfold prepareAll
  dsimp only
  generalize prepareFrom node rate channels 0 g.nodes = r at hplaces hall hlength
  obtain ⟨ok, ns, es⟩ := r
  simp only [Nat.zero_add] at hplaces hall hlength
  have hprepared : ∀ i, Prepared i (g.events ++ [.prepareAll] ++ es ++ [.prepared ok]) ↔
      .prepare i true ∈ es := fun i =>
    prepared_prepareAll fun e he => by
      obtain ⟨j, ok, heq, -⟩ := hplaces e he
      exact ⟨j, ok, heq⟩
  have hfresh : ok = false → ¬ Fresh (g.events ++ [.prepareAll] ++ es ++ [.prepared ok]) := by
    intro hok
    unfold Fresh
    rw [since_snoc, hok]
    simp
  constructor
  · intro hf i hi
    cases ok with
    | false => exact absurd hf (hfresh rfl)
    | true => exact (hprepared i).mpr (hall rfl i (Nat.zero_le i) (hlength ▸ hi))
  · intro hf
    cases ok with
    | false => exact absurd hf (hfresh rfl)
    | true =>
      unfold Failed
      rw [since_snoc]
      simp
  · intro i hi hp
    obtain ⟨j, _, heq, hlt⟩ := hplaces _ ((hprepared i).mp hp)
    cases heq
    dsimp only at hi
    omega
  · intro _
    cases ok with
    | true => exact Or.inl (since_snoc.mpr (Or.inl rfl))
    | false => exact Or.inr (Or.inl (since_snoc.mpr (Or.inl rfl)))

/-- What a block does to the log: every node is rendered in turn. -/
theorem renderBlock_frame (node : Node ν φ) (input io : List (Buffer φ))
    (hflag : g.prepared = true) (hnodes : g.nodes ≠ []) :
    (g.renderBlock node input io).2.nodes.length = g.nodes.length ∧
      (g.renderBlock node input io).2.events =
        g.events ++ (List.range' 0 g.nodes.length).map .render := by
  have hidle : ¬ (g.prepared = false ∨ g.nodes = []) := by
    rw [hflag, not_or]
    exact ⟨nofun, hnodes⟩
  unfold renderBlock
  rw [if_neg hidle]
  refine ⟨renderFrom_length node 0 input g.nodes _, ?_⟩
  rw [← renderFrom_events node 0 input g.nodes]
  rw [seed_length, resize_length]

theorem renderBlock_idle (node : Node ν φ) (input io : List (Buffer φ))
    (h : g.prepared = false ∨ g.nodes = []) : g.renderBlock node input io = (io, g) := if_pos h

theorem forall_renders {n : Nat} {p : Nat → Prop} :
    (∀ e ∈ (List.range' 0 n).map Event.render, ∀ i, e = .render i → p i) ↔ ∀ i, i < n → p i := by
  simp

theorem renderBlock_inv (node : Node ν φ) (input io : List (Buffer φ)) (h : g.Inv) :
    (g.renderBlock node input io).2.Inv := by
  by_cases hidle : g.prepared = false ∨ g.nodes = []
  · rw [renderBlock_idle node input io hidle]
    exact h
  · obtain ⟨hoff, hnodes⟩ := not_or.mp hidle
    have hflag : g.prepared = true := by simpa using hoff
    obtain ⟨hlength, hevents⟩ := renderBlock_frame node input io hflag hnodes
    have hrenders : ∀ e ∈ (List.range' 0 g.nodes.length).map Event.render,
        ∃ i, e = .render i := by simp
    have hprepared : ∀ i, Prepared i (g.renderBlock node input io).2.events ↔
        Prepared i g.events := fun i =>
      hevents ▸ since_renders (fun _ => nofun) (fun _ => nofun) hrenders
    have hfailed : Failed (g.renderBlock node input io).2.events ↔ Failed g.events :=
      hevents ▸ since_renders (fun _ => nofun) (fun _ => nofun) hrenders
    have hfresh : Fresh (g.renderBlock node input io).2.events ↔ Fresh g.events :=
      hevents ▸ since_renders (fun _ => nofun) (fun _ => ⟨nofun, nofun⟩) hrenders
    constructor
    · simpa only [hfresh, hprepared, hlength] using h.fresh
    · simpa only [hfresh, hfailed] using h.sound
    · simpa only [hprepared, hlength] using h.beyond
    · intro _
      simpa only [hfresh, hfailed, hprepared, hlength] using h.stale hflag

theorem step_inv (node : Node ν φ) (g : Graph ν) (o : Op ν φ) (h : g.Inv) :
    (g.step node o).Inv := by
  cases o with
  | addNode n => exact addNode_inv h n
  | prepareAll rate channels => exact prepareAll_inv node g rate channels
  | renderBlock input io => exact renderBlock_inv node input io h

/-- A block that is rendered is permitted exactly with a fresh preparation. -/
theorem renderBlock_permitted (node : Node ν φ) (input io : List (Buffer φ)) (h : g.Inv)
    (hlog : Always Permitted g.events) :
    Always Permitted (g.renderBlock node input io).2.events ↔
      (g.prepared = true → g.nodes ≠ [] → Fresh g.events) := by
  by_cases hidle : g.prepared = false ∨ g.nodes = []
  · rw [renderBlock_idle node input io hidle]
    refine iff_of_true hlog fun hflag hnodes => ?_
    rcases hidle with hoff | hempty
    · rw [hoff] at hflag
      cases hflag
    · exact absurd hempty hnodes
  · obtain ⟨hoff, hnodes⟩ := not_or.mp hidle
    have hflag : g.prepared = true := by simpa using hoff
    rw [(renderBlock_frame node input io hflag hnodes).2, permitted_renders (by simp),
      and_iff_right hlog, forall_renders]
    constructor
    · intro hall _ _
      have hfirst := hall 0 (List.length_pos_iff.mpr hnodes)
      rcases h.stale hflag with hfresh | hfailed | ⟨i, hi, hnot⟩
      · exact hfresh
      · exact absurd hfailed hfirst.2
      · exact absurd (hall i hi).1 hnot
    · intro hfresh i hi
      exact ⟨h.fresh (hfresh hflag hnodes) i hi, h.sound (hfresh hflag hnodes)⟩

theorem step_permitted (node : Node ν φ) (o : Op ν φ) (h : g.Inv)
    (hlog : Always Permitted g.events) :
    Always Permitted (g.step node o).events ↔ RendersFresh g o := by
  cases o with
  | addNode n => exact iff_of_true (always_snoc.mpr ⟨hlog, trivial⟩) trivial
  | prepareAll rate channels =>
    refine iff_of_true (always_snoc.mpr ⟨?_, trivial⟩) trivial
    rw [permitted_others]
    · exact always_snoc.mpr ⟨hlog, trivial⟩
    · intro e he i heq
      obtain ⟨j, ok, hprepare, -⟩ := (prepareFrom_events node rate channels 0 g.nodes).1 e he
      rw [heq] at hprepare
      cases hprepare
  | renderBlock input io => exact renderBlock_permitted node input io h hlog

/-- Every node that is rendered was prepared in the most recent `prepare_all`, and none is
    rendered after a `prepare_all` that failed, exactly along the runs in which no block is
    rendered under a flag that a failure or an added node has made stale. -/
theorem rendered_prepared_iff (node : Node ν φ) (ops : List (Op ν φ)) :
    (∀ pre, pre <+: ops → Always Permitted (run (step node) {} pre).events) ↔
      StepsMeet (step node) RendersFresh {} ops := by
  refine prefixes_iff always_nil fun pre o _ hlog _ => ?_
  rw [run_snoc]
  exact step_permitted node o (run_invariant empty_inv (step_inv node) pre) hlog

/-- A node is added to a graph that was prepared, and the graph renders a block. -/
theorem added_node_rendered : ¬ ∀ (node : Node Unit Unit) (ops : List (Op Unit Unit)) pre,
    pre <+: ops → Always Permitted (run (step node) {} pre).events := by
  intro h
  have hlog := h ⟨fun _ _ _ => (true, ()), fun _ _ out => ((), out)⟩
    [.addNode (), .prepareAll 48000 2, .addNode (), .renderBlock [] []] _ (List.prefix_refl _)
  have hrendered := hlog [.add, .prepareAll, .prepare 0 true, .prepared true, .add, .render 0]
    (.render 1) (List.prefix_refl _)
  obtain ⟨pre, e, hp, rfl, -⟩ := hrendered.1
  have hmem := hp.subset (List.mem_append_right pre List.mem_cons_self)
  revert hmem
  decide

end Graph

end NeuroVerse.Audio
