/-
  The scene of the compositor (`ui/scene.hpp`, `ui/scene.cpp`): nodes that point to their
  children, and `flatten`, which visits them from the root and emits one draw command for each
  node with a payload.

  `add_child` takes any pointer, so that a node may have two parents and may come to lie below
  itself. `flatten` keeps no record of where it has been. `flattens_iff`: it returns exactly when
  no node that the root reaches lies below itself, and then it emits, in the order of the paths
  from the root, one command for each path to a node with a payload. `after_acyclic_iff`: a scene
  has no such node exactly when no `add_child` was given a child above its parent.
-/
import NeuroVerse.Lib.Run
import NeuroVerse.Lib.Walk

namespace NeuroVerse.Ui

open Lib

/-- A rectangle; `φ` is the type of floats. -/
structure Rect (φ : Type*) where
  x : φ
  y : φ
  w : φ
  h : φ

inductive Payload (φ : Type*) where
  | none
  | text (text : String) (sizePx : φ)
  | image (imageId : BitVec 64)
  | subScene (sceneId : BitVec 64)

/-- The alternative that the variant holds. -/
def Payload.index {φ : Type*} : Payload φ → Nat
  | .none => 0
  | .text _ _ => 1
  | .image _ => 2
  | .subScene _ => 3

/-- A node, with its children as the numbers of nodes. -/
structure Node (φ : Type*) where
  clip : Rect φ
  children : List Nat := []
  payload : Payload φ := .none

/-- What `flatten` fills in of a draw command: its payload stays empty. -/
structure DrawCmd (φ : Type*) where
  clip : Rect φ

/-- The nodes in the order they were made, the scene's own root first. -/
structure Scene (φ : Type*) where
  nodes : List (Node φ)
  root_mem : 0 < nodes.length
  child_mem : ∀ n ∈ nodes, ∀ c ∈ n.children, c < nodes.length

inductive Action (φ : Type*) where
  | make (clip : Rect φ)
  | addChild (n c : Nat)
  | setClip (n : Nat) (clip : Rect φ)
  | setPayload (n : Nat) (payload : Payload φ)

namespace Scene

variable {φ : Type*}

/-! ## The code -/

/-- `flatten_node` with room for `depth` calls on the stack; nothing when it overflows. -/
def flattenNode (nodes : List (Node φ)) :
    Nat → Nat → List (DrawCmd φ) → Option (List (DrawCmd φ))
  | 0, _, _ => none
  | depth + 1, n, out =>
    match nodes[n]? with
    | none => none
    | some node =>
      let out := if node.payload.index ≠ 0 then out ++ [{ clip := node.clip }] else out
      node.children.foldlM (fun out c => flattenNode nodes depth c out) out

/-- `flatten`, which clears the list that it is given. -/
def flatten (s : Scene φ) (depth : Nat) (_out : List (DrawCmd φ)) : Option (List (DrawCmd φ)) :=
  flattenNode s.nodes depth 0 []

/-- A scene whose root is not set up yet. -/
def new (clip : Rect φ) : Scene φ where
  nodes := [{ clip := clip }]
  root_mem := Nat.one_pos
  child_mem n hn := by
    rw [List.mem_singleton.mp hn]
    exact fun c hc => nomatch hc

/-- A new `Node`. -/
def make (s : Scene φ) (clip : Rect φ) : Scene φ where
  nodes := s.nodes ++ [{ clip := clip }]
  root_mem := by rw [List.length_append]; exact Nat.lt_add_right _ s.root_mem
  child_mem n hn c hc := by
    rw [List.length_append]
    rcases List.mem_append.mp hn with hn | hn
    · exact Nat.lt_add_right _ (s.child_mem n hn c hc)
    · rw [List.mem_singleton.mp hn] at hc
      exact nomatch hc

/-- A change of the node `n` that leaves its children, or adds one that is there. -/
def change (s : Scene φ) (n : Nat) (f : Node φ → Node φ)
    (hf : ∀ m, ∀ c ∈ (f m).children, c ∈ m.children ∨ c < s.nodes.length) : Scene φ where
  nodes := s.nodes.modify n f
  root_mem := by rw [List.length_modify]; exact s.root_mem
  child_mem m hm c hc := by
    rw [List.length_modify]
    obtain ⟨i, hi⟩ := List.mem_iff_getElem?.mp hm
    rw [List.getElem?_modify] at hi
    obtain ⟨m', hm', rfl⟩ := Option.map_eq_some_iff.mp hi
    have hmem := List.mem_of_getElem? hm'
    split at hc
    · exact (hf m' c hc).elim (s.child_mem m' hmem c) id
    · exact s.child_mem m' hmem c hc

/-- `add_child` of two nodes that are there. -/
def addChild (s : Scene φ) (n c : Nat) : Scene φ :=
  if h : c < s.nodes.length then
    s.change n (fun m => { m with children := m.children ++ [c] }) fun m d hd => by
      rcases List.mem_append.mp hd with hd | hd
      · exact Or.inl hd
      · exact Or.inr (List.mem_singleton.mp hd ▸ h)
  else s

def setClip (s : Scene φ) (n : Nat) (clip : Rect φ) : Scene φ :=
  s.change n (fun m => { m with clip := clip }) fun _ _ hc => Or.inl hc

/-- `set_text`, `set_image` and `set_sub_scene`. -/
def setPayload (s : Scene φ) (n : Nat) (payload : Payload φ) : Scene φ :=
  s.change n (fun m => { m with payload := payload }) fun _ _ hc => Or.inl hc

def step (s : Scene φ) : Action φ → Scene φ
  | .make clip => s.make clip
  | .addChild n c => s.addChild n c
  | .setClip n clip => s.setClip n clip
  | .setPayload n payload => s.setPayload n payload

/-! ## What is emitted -/

/-- The children of the node `n`. -/
def children (s : Scene φ) (n : Nat) : List Nat := (s.nodes[n]?.map Node.children).getD []

/-- The command of the node `n`, if it has a payload. -/
def command (s : Scene φ) (n : Nat) : Option (DrawCmd φ) :=
  (s.nodes[n]?).bind fun node =>
    if node.payload.index ≠ 0 then some { clip := node.clip } else none

variable {s : Scene φ} {n c : Nat}

theorem children_of_getElem? {node : Node φ} (h : s.nodes[n]? = some node) :
    s.children n = node.children := by
  rw [children, h]
  rfl

theorem lt_of_mem_children (h : c ∈ s.children n) : c < s.nodes.length := by
  cases hn : s.nodes[n]? with
  | none =>
    rw [children, hn] at h
    exact nomatch h
  | some node =>
    rw [children_of_getElem? hn] at h
    exact s.child_mem node (List.mem_of_getElem? hn) c h

/-- The commands for the walks from `n`, in their order. -/
def commands (s : Scene φ) (depth n : Nat) : List (DrawCmd φ) :=
  (walks s.children depth n).filterMap fun w => (follow s.children n w).bind s.command

theorem flattenNode_of_shallow {depth : Nat} (hn : n < s.nodes.length)
    (h : Shallow s.children depth n) (out : List (DrawCmd φ)) :
    flattenNode s.nodes depth n out = some (out ++ s.commands depth n) := by
  induction depth generalizing n out with
  | zero => exact absurd h not_shallow_zero
  | succ depth ih =>
    have hnode := List.getElem?_eq_getElem hn
    have hchildren := children_of_getElem? hnode
    rw [shallow_succ, hchildren] at h
    have hstep : ∀ c ∈ s.nodes[n].children, ∀ out, flattenNode s.nodes depth c out =
        some (out ++ s.commands depth c) := fun c hc out =>
      ih (lt_of_mem_children (hchildren ▸ hc)) (h c hc) out
    rw [flattenNode, hnode]
    dsimp only
    rw [foldlM_append hstep, commands, filterMap_walks_succ, hchildren, command, hnode,
      Option.bind_some]
    split
    · rw [Option.toList_some, List.append_assoc]
      rfl
    · rw [Option.toList_none, List.nil_append]
      rfl

theorem flattenNode_of_not_shallow {depth : Nat} (hn : n < s.nodes.length)
    (h : ¬ Shallow s.children depth n) (out : List (DrawCmd φ)) :
    flattenNode s.nodes depth n out = none := by
  induction depth generalizing n out with
  | zero => rfl
  | succ depth ih =>
    have hnode := List.getElem?_eq_getElem hn
    rw [shallow_succ, children_of_getElem? hnode] at h
    push Not at h
    obtain ⟨c, hc, hdeep⟩ := h
    rw [flattenNode, hnode]
    exact foldlM_eq_none hc
      (ih (lt_of_mem_children (children_of_getElem? hnode ▸ hc)) hdeep) _

/-- The nodes that a walk comes to are nodes of the scene. -/
theorem mem_range_of_follow {w : List Nat} {b : Nat} (hn : n < s.nodes.length)
    (h : follow s.children n w = some b) : b ∈ Finset.range s.nodes.length := by
  induction w generalizing n with
  | nil =>
    obtain rfl := Option.some.inj h
    exact Finset.mem_range.mpr hn
  | cons i w ih =>
    obtain ⟨c, hc, hw⟩ := follow_cons_some.mp h
    exact ih (lt_of_mem_children (List.mem_of_getElem? hc)) hw

theorem flatten_isSome_iff (s : Scene φ) (out : List (DrawCmd φ)) (depth : Nat) :
    (s.flatten depth out).isSome ↔ Shallow s.children depth 0 := by
  rw [flatten]
  by_cases h : Shallow s.children depth 0
  · rw [flattenNode_of_shallow s.root_mem h]
    exact iff_of_true rfl h
  · rw [flattenNode_of_not_shallow s.root_mem h]
    exact iff_of_false Bool.noConfusion h

theorem shallow_iff (s : Scene φ) :
    Shallow s.children s.nodes.length 0 ↔ ¬ Cyclic s.children 0 := by
  have h : Shallow s.children (Finset.range s.nodes.length).card 0 ↔ ¬ Cyclic s.children 0 :=
    shallow_card_iff _ fun w b hb => mem_range_of_follow s.root_mem hb
  rwa [Finset.card_range] at h

/-- `flatten` returns for some size of the stack exactly when no node that the root reaches lies
    below itself, and then a stack for as many calls as there are nodes is enough. What it emits
    does not depend on the list it was given: one command, with the clip of the node, for each
    path from the root to a node with a payload, in the order of the paths. -/
theorem flattens_iff (s : Scene φ) (out : List (DrawCmd φ)) :
    ((∃ depth, (s.flatten depth out).isSome) ↔ ¬ Cyclic s.children 0) ∧
      (¬ Cyclic s.children 0 → (s.flatten s.nodes.length out).isSome) ∧
      ∀ depth cmds, s.flatten depth out = some cmds → ∃ paths : List (List Nat),
        paths.Pairwise (List.Lex (· < ·)) ∧
        (∀ w, w ∈ paths ↔ ∃ n cmd, follow s.children 0 w = some n ∧ s.command n = some cmd) ∧
        paths.map (fun w => (follow s.children 0 w).bind s.command) = cmds.map some := by
  have hcard : ¬ Cyclic s.children 0 → (s.flatten s.nodes.length out).isSome := fun h =>
    (flatten_isSome_iff s out _).mpr ((shallow_iff s).mpr h)
  refine ⟨⟨fun ⟨depth, h⟩ hcyclic => ?_, fun h => ⟨_, hcard h⟩⟩, hcard, fun depth cmds h => ?_⟩
  · exact not_shallow_of_cyclic hcyclic depth ((flatten_isSome_iff s out depth).mp h)
  · have hshallow := (flatten_isSome_iff s out depth).mp (Option.isSome_iff_exists.mpr ⟨cmds, h⟩)
    rw [flatten, flattenNode_of_shallow s.root_mem hshallow, List.nil_append] at h
    obtain rfl := Option.some.inj h
    refine ⟨(walks s.children depth 0).filter fun w =>
      ((follow s.children 0 w).bind s.command).isSome, ?_, fun w => ?_, ?_⟩
    · exact (walks_sorted depth 0).filter _
    · rw [List.mem_filter, mem_walks]
      constructor
      · intro hw
        obtain ⟨cmd, hcmd⟩ := Option.isSome_iff_exists.mp hw.2
        obtain ⟨n, hn, hcmd⟩ := Option.bind_eq_some_iff.mp hcmd
        exact ⟨n, cmd, hn, hcmd⟩
      · rintro ⟨n, cmd, hn, hcmd⟩
        have hwalk : (follow s.children 0 w).isSome := by rw [hn]; rfl
        refine ⟨⟨hwalk, hshallow w hwalk⟩, ?_⟩
        rw [hn, Option.bind_some, hcmd]
        rfl
    · rw [commands, List.map_filterMap_some_eq_filter_map_isSome, List.filter_map]
      rfl

/-! ## How scenes are made -/

theorem children_make (s : Scene φ) (clip : Rect φ) : (s.make clip).children = s.children := by
  funext m
  rw [children, children, make, List.getElem?_append]
  split
  · rfl
  · next hge =>
    rw [List.getElem?_eq_none (Nat.not_lt.mp hge), List.getElem?_singleton]
    split <;> rfl

/-- A change of one node shows in the children of that node. -/
theorem children_change {f : Node φ → Node φ}
    (hf : ∀ m, ∀ c ∈ (f m).children, c ∈ m.children ∨ c < s.nodes.length) (m : Nat) :
    (s.change n f hf).children m =
      ((s.nodes[m]?).map fun node => (if n = m then f node else node).children).getD [] := by
  rw [children, change, List.getElem?_modify, Option.map_eq_map, Option.map_map]
  rfl

theorem children_change_same {f : Node φ → Node φ}
    (hf : ∀ m, ∀ c ∈ (f m).children, c ∈ m.children ∨ c < s.nodes.length)
    (hsame : ∀ m, (f m).children = m.children) : (s.change n f hf).children = s.children := by
  funext m
  rw [children_change, children]
  refine congrArg (Option.getD · []) (congrArg (Option.map · _) (funext fun node => ?_))
  split
  · exact hsame node
  · rfl

theorem children_setClip (s : Scene φ) (n : Nat) (clip : Rect φ) :
    (s.setClip n clip).children = s.children :=
  children_change_same _ fun _ => rfl

theorem children_setPayload (s : Scene φ) (n : Nat) (payload : Payload φ) :
    (s.setPayload n payload).children = s.children :=
  children_change_same _ fun _ => rfl

/-- `add_child` makes one edge. -/
theorem edge_addChild (hn : n < s.nodes.length) (hc : c < s.nodes.length) (a b : Nat) :
    Edge (s.addChild n c).children a b ↔ Edge s.children a b ∨ (a = n ∧ b = c) := by
  rw [Edge, Edge, addChild, dif_pos hc, children_change, children]
  cases ha : s.nodes[a]? with
  | none =>
    refine iff_of_false List.not_mem_nil fun hor => ?_
    rcases hor with hmem | ⟨rfl, -⟩
    · exact List.not_mem_nil hmem
    · rw [List.getElem?_eq_getElem hn] at ha
      exact nomatch ha
  | some node =>
    by_cases hna : n = a
    · simp [hna]
    · simp [hna, Ne.symm hna]

theorem addChild_of_not (h : ¬ (n < s.nodes.length ∧ c < s.nodes.length)) :
    (s.addChild n c).children = s.children := by
  rw [addChild]
  split
  · next hc =>
    have hn : s.nodes.length ≤ n := Nat.not_lt.mp fun hn => h ⟨hn, hc⟩
    funext m
    rw [children_change, children]
    cases hm : s.nodes[m]? with
    | none => rfl
    | some node =>
      have hlt := (List.getElem?_eq_some_iff.mp hm).1
      rw [Option.map_some, Option.map_some, if_neg (by omega)]
  · rfl

/-- A child that is added does not lie above its parent. -/
def Allowed (s : Scene φ) : Action φ → Prop
  | .addChild n c => n < s.nodes.length → c < s.nodes.length →
      ¬ Relation.ReflTransGen (Edge s.children) c n
  | _ => True

theorem step_acyclic_iff (h : Acyclic s.children) (a : Action φ) :
    Acyclic (s.step a).children ↔ s.Allowed a := by
  cases a with
  | make clip =>
    rw [step, children_make]
    exact iff_of_true h trivial
  | addChild n c =>
    by_cases hin : n < s.nodes.length ∧ c < s.nodes.length
    · have hedge := edge_addChild hin.1 hin.2
      rw [step, acyclic_more_iff (fun a b hab => (hedge a b).mpr (Or.inl hab))
        ((hedge n c).mpr (Or.inr ⟨rfl, rfl⟩)) (fun a b => (hedge a b).mp) h]
      exact ⟨fun hway _ _ => hway, fun hway => hway hin.1 hin.2⟩
    · rw [step, addChild_of_not hin]
      exact iff_of_true h fun hn hc => absurd ⟨hn, hc⟩ hin
  | setClip n clip =>
    rw [step, children_setClip]
    exact iff_of_true h trivial
  | setPayload n payload =>
    rw [step, children_setPayload]
    exact iff_of_true h trivial

/-- No edge ever goes. -/
theorem acyclic_of_step {a : Action φ} (h : Acyclic (s.step a).children) : Acyclic s.children := by
  have hedge : ∀ x y, Edge s.children x y → Edge (s.step a).children x y := by
    intro x y hxy
    cases a with
    | make clip => rwa [step, children_make]
    | addChild n c =>
      by_cases hin : n < s.nodes.length ∧ c < s.nodes.length
      · exact (edge_addChild hin.1 hin.2 x y).mpr (Or.inl hxy)
      · rwa [step, addChild_of_not hin]
    | setClip n clip => rwa [step, children_setClip]
    | setPayload n payload => rwa [step, children_setPayload]
  exact fun b hb => h b (Relation.TransGen.mono hedge _ _ hb)

theorem acyclic_new (clip : Rect φ) : Acyclic (new clip).children := by
  have hnone : ∀ n, (new clip).children n = [] := by
    intro n
    cases n <;> rfl
  intro a ha
  obtain ⟨b, hab, -⟩ := Relation.TransGen.head'_iff.mp ha
  rw [Edge, hnone] at hab
  exact nomatch hab

theorem acyclic_run_iff (clip : Rect φ) (actions : List (Action φ)) :
    Acyclic (run step (new clip) actions).children ↔
      StepsMeet step Allowed (new clip) actions := by
  induction actions using List.reverseRecOn with
  | nil => exact iff_of_true (acyclic_new clip) (stepsMeet_nil _ _ _)
  | append_singleton actions a ih =>
    rw [stepsMeet_snoc, ← ih, run_snoc]
    constructor
    · intro h
      have hbefore := acyclic_of_step h
      exact ⟨hbefore, (step_acyclic_iff hbefore a).mp h⟩
    · intro h
      exact (step_acyclic_iff h.1 a).mpr h.2

/-- A scene that calls have made has no node below itself exactly when no `add_child` was given a
    child above its parent, or the parent itself. Such a scene can be flattened. -/
theorem after_acyclic_iff (clip : Rect φ) (actions : List (Action φ)) :
    let s := run step (new clip) actions
    (Acyclic s.children ↔ StepsMeet step Allowed (new clip) actions) ∧
      (StepsMeet step Allowed (new clip) actions →
        ∀ out, (s.flatten s.nodes.length out).isSome) :=
  ⟨acyclic_run_iff clip actions, fun hok out => (flatten_isSome_iff _ out _).mpr
    ((shallow_iff _).mpr (((acyclic_run_iff clip actions).mpr hok).not_cyclic 0))⟩

/-- A node under the root, and the root under nothing. -/
theorem after_acyclic_iff_child :
    let s := run step (new (⟨0, 0, 8, 8⟩ : Rect Nat)) [.make ⟨1, 1, 2, 2⟩, .addChild 0 1]
    (s.flatten s.nodes.length []).isSome := by
  refine (after_acyclic_iff ⟨0, 0, 8, 8⟩ [.make ⟨1, 1, 2, 2⟩, .addChild 0 1]).2 ?_ []
  refine (stepsMeet_cons _ _ _ _ _).mpr ⟨trivial, (stepsMeet_cons _ _ _ _ _).mpr
    ⟨fun _ _ hway => ?_, stepsMeet_nil _ _ _⟩⟩
  rcases Relation.ReflTransGen.cases_head hway with heq | ⟨b, hb, -⟩
  · exact absurd heq (by decide)
  · exact nomatch hb

end Scene

end NeuroVerse.Ui
