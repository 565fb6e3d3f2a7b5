/-
  What the audio graph renders, block after block, when its caller brings the vector of output
  buffers back each time, as `render_block` expects.

  A graph hands each block through all its nodes before the next block comes. Nodes keep a state
  of their own, and their output buffers stay from one block to the next. Still every node could
  as well be run by itself, over everything that the node before it renders
  (`renderBlock_by_node`).

  The two nodes that come with the graph, `GainNode` and `PassthroughNode`, leave their output
  alone when they are given no input. `after_played` says what this makes of the buffers over a
  whole run, in which nodes are added at any time and blocks come with an input or without one:
  the last input that was played, taken through the effects one by one. Samples are multiplied in
  this order, so that nothing is asked of the multiplication.
-/
import NeuroVerse.Audio.Pipeline
import NeuroVerse.Lib.Cascade

namespace NeuroVerse.Audio

open Lib

/-- A graph, and the vector that its caller keeps for it. -/
structure Session (ν φ : Type*) where
  graph : Graph ν := {}
  io : List (Buffer φ) := []

/-! ## Block by block, or node by node -/

section

variable {ν φ : Type*} (node : Node ν φ)

/-- One block, which gives the vector. -/
def block (s : Session ν φ) (input : List (Buffer φ)) : Session ν φ × List (Buffer φ) :=
  let r := s.graph.renderBlock node input s.io
  (⟨r.2, r.1⟩, r.1)

/-- The node at place `i` by itself, with its output buffer: the first one finds the input there. -/
def alone (i : Nat) (s : ν × Buffer φ) (input : List (Buffer φ)) :
    (ν × Buffer φ) × List (Buffer φ) :=
  let r := node.render s.1 input (if i = 0 then input.headD s.2 else s.2)
  (r, [r.2])

/-- The loop of `render_block` is one pass over the nodes, each with its buffer. -/
theorem renderFrom_eq_pass {i : Nat} (hi : 0 < i) (src : List (Buffer φ)) (ns : List ν)
    (io : List (Buffer φ)) (h : io.length = ns.length) :
    (Graph.renderFrom node i src ns io).1.zip (Graph.renderFrom node i src ns io).2.1 =
        (Cascade.pass (alone node) i (ns.zip io) src).1 ∧
      (Graph.renderFrom node i src ns io).2.1.map (fun b => [b]) =
        (Cascade.pass (alone node) i (ns.zip io) src).2 := by
  induction ns generalizing i src io with
  | nil =>
    cases io with
    | nil => exact ⟨rfl, rfl⟩
    | cons out io => cases h
  | cons n ns ih =>
    cases io with
    | nil => cases h
    | cons out io =>
      have hlater : ¬ i = 0 := Nat.ne_of_gt hi
      obtain ⟨hstates, hvalues⟩ :=
        ih (Nat.succ_pos i) [(node.render n src out).2] io (Nat.succ.inj h)
      have hhere : alone node i (n, out) src =
          (node.render n src out, [(node.render n src out).2]) := by
        rw [alone, if_neg hlater]
      rw [List.zip_cons_cons, Cascade.pass, hhere, ← hstates, ← hvalues]
      exact ⟨rfl, rfl⟩

theorem renderFrom_seed_eq_pass (input : List (Buffer φ)) (ns : List ν) (io : List (Buffer φ))
    (h : io.length = ns.length) :
    (Graph.renderFrom node 0 input ns (Graph.seed input io)).1.zip
          (Graph.renderFrom node 0 input ns (Graph.seed input io)).2.1 =
        (Cascade.pass (alone node) 0 (ns.zip io) input).1 ∧
      (Graph.renderFrom node 0 input ns (Graph.seed input io)).2.1.map (fun b => [b]) =
        (Cascade.pass (alone node) 0 (ns.zip io) input).2 := by
  cases ns with
  | nil =>
    cases io with
    | nil => cases input <;> exact ⟨rfl, rfl⟩
    | cons out io => cases h
  | cons n ns =>
    cases io with
    | nil => cases h
    | cons out io =>
      have hseed : Graph.seed input (out :: io) = input.headD out :: io := by
        cases input <;> rfl
      obtain ⟨hstates, hvalues⟩ := renderFrom_eq_pass node Nat.one_pos
        [(node.render n input (input.headD out)).2] ns io (Nat.succ.inj h)
      have hhere : alone node 0 (n, out) input = (node.render n input (input.headD out),
          [(node.render n input (input.headD out)).2]) := rfl
      rw [hseed, List.zip_cons_cons, Cascade.pass, hhere, ← hstates, ← hvalues]
      exact ⟨rfl, rfl⟩

theorem resize_of_length {io : List (Buffer φ)} {n : Nat} (h : io.length = n) :
    Graph.resize io n = io := by
  subst h
  simp [Graph.resize]

/-- The nodes, each with its buffer as the next block finds it. -/
def row (s : Session ν φ) : List (ν × Buffer φ) :=
  s.graph.nodes.zip (Graph.resize s.io s.graph.nodes.length)

theorem renderFrom_io_length (i : Nat) (src : List (Buffer φ)) {ns : List ν}
    {io : List (Buffer φ)} (h : io.length = ns.length) :
    (Graph.renderFrom node i src ns io).2.1.length = ns.length := by
  induction ns generalizing i src io with
  | nil =>
    rw [List.length_eq_zero_iff.mp h]
    rfl
  | cons n ns ih =>
    cases io with
    | nil => cases h
    | cons out io => exact congrArg (· + 1) (ih (i + 1) _ (Nat.succ.inj h))

/-- One block is one pass over the row, whose length stays. -/
theorem block_row {g : Graph ν} (io input : List (Buffer φ)) (hflag : g.prepared = true)
    (hnodes : g.nodes ≠ []) :
    (block node ⟨g, io⟩ input).1.graph.prepared = true ∧
      (block node ⟨g, io⟩ input).1.graph.nodes.length = g.nodes.length ∧
      row (block node ⟨g, io⟩ input).1 = (Cascade.pass (alone node) 0 (row ⟨g, io⟩) input).1 ∧
      (block node ⟨g, io⟩ input).2.map (fun b => [b]) =
        (Cascade.pass (alone node) 0 (row ⟨g, io⟩) input).2 := by
  have hactive : ¬ (g.prepared = false ∨ g.nodes = []) := by
    rw [hflag, not_or]
    exact ⟨nofun, hnodes⟩
  have hlength := Graph.resize_length io g.nodes.length
  have hnodesLength := Graph.renderFrom_length node 0 input g.nodes
    (Graph.seed input (Graph.resize io g.nodes.length))
  have hioLength := renderFrom_io_length node 0 input
    ((Graph.seed_length input _).trans hlength)
  obtain ⟨hstates, hvalues⟩ := renderFrom_seed_eq_pass node input g.nodes _ hlength
  have hblock : g.renderBlock node input io = _ := if_neg hactive
  rw [row, row, block, hblock]
  refine ⟨hflag, hnodesLength, ?_, hvalues⟩
  rw [← hstates]
  dsimp only
  rw [hnodesLength, resize_of_length hioLength]

theorem blocks_row {g : Graph ν} (io : List (Buffer φ)) (inputs : List (List (Buffer φ)))
    (hflag : g.prepared = true) (hnodes : g.nodes ≠ []) :
    (Cascade.stream (block node) ⟨g, io⟩ inputs).1.graph.nodes.length = g.nodes.length ∧
      row (Cascade.stream (block node) ⟨g, io⟩ inputs).1 =
        (Cascade.stream (Cascade.pass (alone node) 0) (row ⟨g, io⟩) inputs).1 ∧
      (Cascade.stream (block node) ⟨g, io⟩ inputs).2.map (·.map fun b => [b]) =
        (Cascade.stream (Cascade.pass (alone node) 0) (row ⟨g, io⟩) inputs).2 := by
  induction inputs generalizing g io with
  | nil => exact ⟨rfl, rfl, rfl⟩
  | cons input inputs ih =>
    obtain ⟨hflag', hlength, hrow, hvalues⟩ := block_row node io input hflag hnodes
    have hnodes' : (block node ⟨g, io⟩ input).1.graph.nodes ≠ [] := by
      intro hnil
      rw [hnil] at hlength
      exact hnodes (List.length_eq_zero_iff.mp hlength.symm)
    obtain ⟨hlengths, hrows, hall⟩ :=
      ih (g := (block node ⟨g, io⟩ input).1.graph) (block node ⟨g, io⟩ input).1.io hflag' hnodes'
    rw [Cascade.stream, Cascade.stream, List.map_cons, ← hvalues, ← hrow, ← hrows, ← hall]
    exact ⟨hlengths.trans hlength, rfl, rfl⟩

/-- However its nodes keep their states, a prepared graph renders a run of blocks as if every
    node were run by itself over all that the node before it renders: the nodes end in the same
    states, with the same buffers, and buffer `i` after block `t` is what node `i` renders for
    that block. -/
theorem renderBlock_by_node (g : Graph ν) (io : List (Buffer φ))
    (inputs : List (List (Buffer φ))) (hflag : g.prepared = true) (hnodes : g.nodes ≠ []) :
    let played := Cascade.stream (block node) ⟨g, io⟩ inputs
    let apart := Cascade.layers (alone node) 0
      (g.nodes.zip (Graph.resize io g.nodes.length)) inputs
    played.1.graph.nodes.zip (Graph.resize played.1.io g.nodes.length) = apart.1 ∧
      ∀ t i : Nat, (played.2[t]?.bind (·[i]?)).map (fun b => [b]) =
        apart.2[i]?.bind (·[t]?) := by
  obtain ⟨hlength, hrow, hvalues⟩ := blocks_row node io inputs hflag hnodes
  obtain ⟨hstates, hall⟩ := Cascade.stream_pass (alone node) 0 (row ⟨g, io⟩) inputs
  dsimp only
  constructor
  · refine Eq.trans ?_ (hrow.trans hstates)
    rw [row, hlength]
  · intro t i
    refine Eq.trans ?_ (hall t i)
    rw [← hvalues, List.getElem?_map]
    cases (Cascade.stream (block node) ⟨g, io⟩ inputs).2[t]? with
    | none => rfl
    | some out => exact List.getElem?_map.symm

/-- Two nodes that count the blocks, and a block without input after one with an input. -/
theorem renderBlock_by_node_counters :
    let node : Node Nat Nat := ⟨fun n _ _ => (true, n), fun n input out => (n + 1, input.headD out)⟩
    let g : Graph Nat := { nodes := [0, 5], prepared := true }
    let inputs : List (List (Buffer Nat)) := [[{ samples := [1, 2] }], []]
    let played := Cascade.stream (block node) ⟨g, []⟩ inputs
    let apart := Cascade.layers (alone node) 0
      (g.nodes.zip (Graph.resize [] g.nodes.length)) inputs
    played.1.graph.nodes.zip (Graph.resize played.1.io g.nodes.length) = apart.1 ∧
      ∀ t i : Nat, (played.2[t]?.bind (·[i]?)).map (fun b => [b]) =
        apart.2[i]?.bind (·[t]?) :=
  renderBlock_by_node _ _ _ _ rfl nofun

end

/-! ## The nodes that come with the graph -/

inductive Effect (φ : Type*) where
  | gain (g : φ)
  | passthrough

inductive Call (ν φ : Type*) where
  | addNode (n : ν)
  | prepareAll (sampleRateHz channels : BitVec 32)
  | renderBlock (input : List (Buffer φ))

def Session.step {ν φ : Type*} (node : Node ν φ) (s : Session ν φ) : Call ν φ → Session ν φ
  | .addNode n => { s with graph := s.graph.addNode n }
  | .prepareAll sampleRateHz channels =>
    { s with graph := (s.graph.prepareAll node sampleRateHz channels).2 }
  | .renderBlock input => (block node s input).1

section

variable {φ : Type*} [Mul φ]

def GainNode.render (gain : φ) : List (Buffer φ) → Buffer φ → Buffer φ
  | [], out => out
  | src :: _, _ => { src with samples := src.samples.map (· * gain) }

omit [Mul φ] in
def PassthroughNode.render : List (Buffer φ) → Buffer φ → Buffer φ
  | [], out => out
  | src :: _, _ => src

def Effect.node : Node (Effect φ) φ where
  prepare e _ _ := (true, e)
  render
    | .gain g, input, out => (.gain g, GainNode.render g input out)
    | .passthrough, input, out => (.passthrough, PassthroughNode.render input out)

/-! ## What is heard -/

/-- What an effect makes of a buffer. -/
def Effect.apply : Effect φ → Buffer φ → Buffer φ
  | .gain g, b => { b with samples := b.samples.map (· * g) }
  | .passthrough, b => b

/-- A buffer taken through the effects one by one, and what each of them made of it. -/
def chain : List (Effect φ) → Buffer φ → List (Buffer φ)
  | [], _ => []
  | e :: es, b => e.apply b :: chain es (e.apply b)

end

section

variable {ν φ : Type*}

def Call.node : Call ν φ → Option ν
  | .addNode n => some n
  | _ => none

def Call.prepares : Call ν φ → Bool
  | .prepareAll _ _ => true
  | _ => false

def added (calls : List (Call ν φ)) : List ν := calls.filterMap Call.node

/-- A block that is played, with the nodes there are and the input: one before the first
    `prepare_all`, or without any node, is not. -/
def played (pre : List (Call ν φ)) : Call ν φ → Option (List ν × List (Buffer φ))
  | .renderBlock input =>
    if pre.any Call.prepares = true ∧ added pre ≠ [] then some (added pre, input) else none
  | _ => none

def blocks (calls : List (Call ν φ)) : List (List ν × List (Buffer φ)) :=
  yielded (fun pre c => (played pre c).toList) [] calls

/-- The nodes there were when the last block was played. -/
def sounding (calls : List (Call ν φ)) : List ν :=
  ((blocks calls).getLast?.map Prod.fst).getD []

/-- The input of the last block that was played and had one. -/
def source (calls : List (Call ν φ)) : Buffer φ :=
  ((blocks calls).filterMap (·.2.head?)).getLast?.getD { samples := [] }

theorem added_snoc (calls : List (Call ν φ)) (c : Call ν φ) :
    added (calls ++ [c]) = added calls ++ c.node.toList := by
  rw [added, List.filterMap_append]
  cases c <;> rfl

theorem sounding_snoc (calls : List (Call ν φ)) (c : Call ν φ) : sounding (calls ++ [c]) =
    ((played calls c).map Prod.fst).getD (sounding calls) := by
  rw [sounding, blocks, yielded_snoc, List.nil_append]
  cases played calls c with
  | none => simp [sounding, blocks]
  | some b => simp

theorem source_snoc (calls : List (Call ν φ)) (c : Call ν φ) : source (calls ++ [c]) =
    ((played calls c).bind (·.2.head?)).getD (source calls) := by
  rw [source, blocks, yielded_snoc, List.nil_append, List.filterMap_append]
  cases played calls c with
  | none => simp [source, blocks]
  | some b =>
    obtain ⟨ns, input⟩ := b
    cases input with
    | nil => simp [source, blocks]
    | cons b bs => simp

end

/-! ## One block through the effects -/

section

variable {φ : Type*} [Mul φ]

/-- Nothing comes of an empty buffer. -/
theorem Effect.apply_empty (e : Effect φ) :
    e.apply { samples := [] } = ({ samples := [] } : Buffer φ) := by
  cases e <;> rfl

theorem Effect.render_cons (e : Effect φ) (b : Buffer φ) (bs : List (Buffer φ))
    (out : Buffer φ) : Effect.node.render e (b :: bs) out = (e, e.apply b) := by
  cases e <;> rfl

theorem Effect.render_nil (e : Effect φ) (out : Buffer φ) :
    Effect.node.render e [] out = (e, out) := by
  cases e <;> rfl

theorem renderFrom_chain (i : Nat) (b : Buffer φ) (bs : List (Buffer φ)) (es : List (Effect φ))
    (io : List (Buffer φ)) (h : io.length = es.length) :
    (Graph.renderFrom Effect.node i (b :: bs) es io).1 = es ∧
      (Graph.renderFrom Effect.node i (b :: bs) es io).2.1 = chain es b := by
  induction es generalizing i b bs io with
  | nil =>
    rw [List.length_eq_zero_iff.mp h]
    exact ⟨rfl, rfl⟩
  | cons e es ih =>
    cases io with
    | nil => cases h
    | cons out io =>
      obtain ⟨hnodes, hio⟩ := ih (i + 1) (e.apply b) [] io (Nat.succ.inj h)
      rw [Graph.renderFrom, Effect.render_cons]
      exact ⟨congrArg (e :: ·) hnodes, congrArg (e.apply b :: ·) hio⟩

/-- The buffers as a block finds them, when nodes may have been added since the last one. -/
theorem resize_chain {es₀ es : List (Effect φ)} {e : Effect φ} (h : es₀ <+: e :: es)
    (b : Buffer φ) (hempty : es₀ = [] → b = { samples := [] }) :
    ∃ io, Graph.resize (chain es₀ b) (e :: es).length = e.apply b :: io ∧
      io.length = es.length := by
  have hlength := Graph.resize_length (chain es₀ b) (e :: es).length
  cases es₀ with
  | nil =>
    rw [hempty rfl, Effect.apply_empty]
    exact ⟨_, rfl, List.length_replicate⟩
  | cons e₀ es₀ =>
    obtain ⟨rfl, -⟩ := List.cons_prefix_cons.mp h
    exact ⟨_, rfl, Nat.succ.inj hlength⟩

/-- A block without an input takes the buffer of the first node through the others once more. -/
theorem renderFrom_again {es₀ es : List (Effect φ)} (h : es₀ <+: es) (b : Buffer φ)
    (hempty : es₀ = [] → b = { samples := [] }) :
    (Graph.renderFrom Effect.node 0 [] es (Graph.resize (chain es₀ b) es.length)).1 = es ∧
      (Graph.renderFrom Effect.node 0 [] es (Graph.resize (chain es₀ b) es.length)).2.1 =
        chain es b := by
  cases es with
  | nil =>
    rw [List.prefix_nil.mp h]
    exact ⟨rfl, rfl⟩
  | cons e es =>
    obtain ⟨io, hio, hlength⟩ := resize_chain h b hempty
    obtain ⟨hnodes, hrest⟩ := renderFrom_chain 1 (e.apply b) [] es io hlength
    rw [hio, Graph.renderFrom, Effect.render_nil]
    exact ⟨congrArg (e :: ·) hnodes, congrArg (e.apply b :: ·) hrest⟩

theorem prepareFrom_effects (rate channels : BitVec 32) (i : Nat) (es : List (Effect φ)) :
    (Graph.prepareFrom Effect.node rate channels i es).1 = true ∧
      (Graph.prepareFrom Effect.node rate channels i es).2.1 = es := by
  induction es generalizing i with
  | nil => exact ⟨rfl, rfl⟩
  | cons e es ih =>
    obtain ⟨hok, hnodes⟩ := ih (i + 1)
    exact ⟨hok, congrArg (e :: ·) hnodes⟩

/-! ## The run -/

structure Inv (calls : List (Call (Effect φ) φ)) (s : Session (Effect φ) φ) : Prop where
  nodes : s.graph.nodes = added calls
  prepared : s.graph.prepared = calls.any Call.prepares
  io : s.io = chain (sounding calls) (source calls)
  since : sounding calls <+: added calls
  silent : sounding calls = [] → source calls = { samples := [] }

variable {calls : List (Call (Effect φ) φ)} {s : Session (Effect φ) φ}

/-- A block that is played: its input is what is heard from now on, if it has one. -/
theorem renderFrom_block (h : Inv calls s) (input : List (Buffer φ)) :
    let r := Graph.renderFrom Effect.node 0 input s.graph.nodes
      (Graph.seed input (Graph.resize s.io s.graph.nodes.length))
    r.1 = s.graph.nodes ∧
      r.2.1 = chain s.graph.nodes (input.head?.getD (source calls)) := by
  cases input with
  | nil =>
    rw [h.io]
    exact renderFrom_again (h.nodes ▸ h.since) _ h.silent
  | cons b bs =>
    refine renderFrom_chain 0 b bs s.graph.nodes _ ?_
    rw [Graph.seed_length, Graph.resize_length]

/-- A call that plays no block leaves what is heard as it is. -/
theorem Inv.unplayed (h : Inv calls s) {c : Call (Effect φ) φ} {t : Session (Effect φ) φ}
    (hc : played calls c = none) (hnodes : t.graph.nodes = s.graph.nodes ++ c.node.toList)
    (hprepared : t.graph.prepared = (s.graph.prepared || c.prepares)) (hio : t.io = s.io) :
    Inv (calls ++ [c]) t := by
  have hsounding := sounding_snoc calls c
  have hsource := source_snoc calls c
  rw [hc] at hsounding hsource
  refine ⟨?_, ?_, ?_, ?_, ?_⟩
  · rw [hnodes, h.nodes, added_snoc]
  · rw [hprepared, h.prepared]
    simp
  · rw [hio, hsounding, hsource]
    exact h.io
  · rw [hsounding, added_snoc]
    exact h.since.trans (List.prefix_append _ _)
  · rw [hsounding, hsource]
    exact h.silent

/-- A block that is played is heard through all the nodes there are. -/
theorem Inv.block (h : Inv calls s) (input : List (Buffer φ))
    (hactive : ¬ (s.graph.prepared = false ∨ s.graph.nodes = [])) :
    Inv (calls ++ [.renderBlock input]) (s.step Effect.node (.renderBlock input)) := by
  obtain ⟨hon, hsome⟩ := not_or.mp hactive
  have hplays : played calls (.renderBlock input) = some (added calls, input) := by
    refine if_pos ⟨?_, h.nodes ▸ hsome⟩
    rw [← h.prepared]
    exact Bool.not_eq_false _ ▸ hon
  have hsounding := sounding_snoc calls (.renderBlock input)
  have hsource := source_snoc calls (.renderBlock input)
  rw [hplays] at hsounding hsource
  have hadded : added (calls ++ [.renderBlock input]) = s.graph.nodes := by
    rw [added_snoc, h.nodes]
    exact List.append_nil _
  obtain ⟨hnodes, hio⟩ := renderFrom_block h input
  have hblock : s.graph.renderBlock Effect.node input s.io = _ := if_neg hactive
  rw [Session.step, Audio.block, hblock]
  refine ⟨?_, ?_, ?_, ?_, ?_⟩
  · rw [hadded]
    exact hnodes
  · rw [List.any_append, ← h.prepared]
    exact (Bool.or_false _).symm
  · rw [hsounding, hsource, Option.map_some, Option.getD_some, Option.bind_some, ← h.nodes]
    exact hio
  · rw [hsounding, hadded, h.nodes]
    exact List.prefix_refl _
  · rw [hsounding]
    exact fun hnil => absurd (h.nodes.trans hnil) hsome

theorem step_inv (h : Inv calls s) (c : Call (Effect φ) φ) :
    Inv (calls ++ [c]) (s.step Effect.node c) := by
  cases c with
  | addNode e => exact h.unplayed rfl rfl (Bool.or_false _).symm rfl
  | prepareAll rate channels =>
    obtain ⟨hok, hnodes⟩ := prepareFrom_effects rate channels 0 s.graph.nodes
    refine h.unplayed rfl (hnodes.trans (List.append_nil _).symm) ?_ rfl
    show (if (Graph.prepareFrom Effect.node rate channels 0 s.graph.nodes).1 then true
      else s.graph.prepared) = (_ || true)
    rw [hok, Bool.or_true]
    rfl
  | renderBlock input =>
    by_cases hidle : s.graph.prepared = false ∨ s.graph.nodes = []
    · have hnone : played calls (.renderBlock input) = none := by
        refine if_neg fun hplays => ?_
        rw [← h.prepared, ← h.nodes] at hplays
        rcases hidle with hoff | hnil
        · exact Bool.false_ne_true (hoff.symm.trans hplays.1)
        · exact hplays.2 hnil
      have hstep : s.step Effect.node (.renderBlock input) = s := by
        show Session.mk (s.graph.renderBlock Effect.node input s.io).2
          (s.graph.renderBlock Effect.node input s.io).1 = s
        rw [Graph.renderBlock_idle Effect.node input s.io hidle]
      rw [hstep]
      exact h.unplayed hnone (List.append_nil _).symm (Bool.or_false _).symm rfl
    · exact h.block input hidle

/-- The buffers after any run: the last input that was played, taken through the nodes there were
    when a block was last played, whenever these nodes were added, and whether or not the later
    blocks had an input. -/
theorem after_played (calls : List (Call (Effect φ) φ)) :
    (run (Session.step Effect.node) {} calls).io = chain (sounding calls) (source calls) := by
  suffices h : Inv calls (run (Session.step Effect.node) {} calls) from h.io
  induction calls using List.reverseRecOn with
  | nil => exact ⟨rfl, rfl, rfl, List.prefix_refl _, fun _ => rfl⟩
  | append_singleton calls c ih =>
    rw [run_snoc]
    exact step_inv ih c

end

end NeuroVerse.Audio
