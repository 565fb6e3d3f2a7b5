/-
  The allocated nodes of a radix trie, each named by the path that leads to it.

  `nodes n` is the finite set of those paths. Allocation adds `missing` nodes
  (`card_nodes_extend`), recycling takes `pruned` nodes away (`card_nodes_prune`), and writing
  a value cell moves none. In a tight trie every allocated node lies on the path of a bound
  key (`Tight.get_of_walk`), so that the nodes are the prefixes of the bound keys.
-/
import NeuroVerse.Lib.Trie
import Mathlib.Algebra.BigOperators.Group.Finset.Basic
import Mathlib.Algebra.Order.BigOperators.Group.Finset

namespace NeuroVerse.Lib.Trie.Node

variable {α β : Type*}

theorem walk_append (n : Node α β) (p q : List α) : n.walk (p ++ q) = (n.walk p).walk q := by
  induction p generalizing n with
  | nil => rw [List.nil_append, walk_nil]
  | cons a p ih => rw [List.cons_append, walk_cons, walk_cons, ih]

theorem walk_of_get {n : Node α β} {p : List α} (h : n.get p ≠ none) : n.walk p ≠ null := by
  intro hnull
  rw [get, hnull] at h
  exact h rfl

/-- The nodes on the way to an allocated node are allocated. -/
theorem walk_of_prefix {n : Node α β} {p q : List α} (hp : p <+: q) (hq : n.walk q ≠ null) :
    n.walk p ≠ null := by
  obtain ⟨r, rfl⟩ := hp
  intro hnull
  rw [walk_append, hnull, walk_null] at hq
  exact hq rfl

theorem alloc_eq_self [Inhabited β] {n : Node α β} (hn : n ≠ null) : n.alloc = n := by
  cases n with
  | null => exact absurd rfl hn
  | node c v b => rfl

/-! ## Bound keys below a node -/

theorem Tight.exists_get {d : Nat} {n : Node α β} (h : Tight d n) (hn : n ≠ null) :
    ∃ q, q.length = d ∧ n.get q ≠ none := by
  induction d generalizing n with
  | zero =>
    cases n with
    | null => exact absurd rfl hn
    | node c v b => exact ⟨[], rfl, by simp [h.1]⟩
  | succ d ih =>
    cases n with
    | null => exact absurd rfl hn
    | node c v b =>
      obtain ⟨-, ⟨a, ha⟩, hkids⟩ := h
      obtain ⟨q, hq, hget⟩ := ih (hkids a) ha
      exact ⟨a :: q, by simp [hq], hget⟩

/-- Every allocated node of a tight trie lies on the path of a bound key. -/
theorem Tight.get_of_walk {d : Nat} {n : Node α β} (h : Tight d n) {p : List α}
    (hp : n.walk p ≠ null) : ∃ q, q.length = d ∧ p <+: q ∧ n.get q ≠ none := by
  induction p generalizing n d with
  | nil =>
    obtain ⟨q, hq, hget⟩ := h.exists_get (by simpa using hp)
    exact ⟨q, hq, List.nil_prefix, hget⟩
  | cons a p ih =>
    cases n with
    | null => exact absurd (walk_null (a :: p)) hp
    | node c v b =>
      cases d with
      | zero =>
        rw [walk_cons, child_node, h.2 a, walk_null] at hp
        exact absurd rfl hp
      | succ d =>
        obtain ⟨q, hq, hpre, hget⟩ := ih (h.2.2 a) hp
        exact ⟨a :: q, by simp [hq], List.cons_prefix_cons.mpr ⟨rfl, hpre⟩, hget⟩

theorem TightRoot.get_of_walk {d : Nat} {n : Node α β} (h : n.TightRoot d) {p : List α}
    (hne : p ≠ []) (hp : n.walk p ≠ null) :
    ∃ q, q.length = d + 1 ∧ p <+: q ∧ n.get q ≠ none := by
  obtain ⟨a, p, rfl⟩ := List.exists_cons_of_ne_nil hne
  obtain ⟨q, hq, hpre, hget⟩ := (h.child a).get_of_walk hp
  exact ⟨a :: q, by simp [hq], List.cons_prefix_cons.mpr ⟨rfl, hpre⟩, hget⟩

/-! ## The nodes and their number -/

variable [DecidableEq α] [Fintype α]

/-- The paths of the allocated nodes. -/
def nodes : Node α β → Finset (List α)
  | null => ∅
  | node c _ _ =>
    insert [] (Finset.univ.biUnion fun a => (nodes (c a)).map ⟨_, List.cons_injective (a := a)⟩)

theorem mem_nodes {n : Node α β} {p : List α} : p ∈ n.nodes ↔ n.walk p ≠ null := by
  induction n generalizing p with
  | null => simp [nodes]
  | node c v b ih =>
    cases p with
    | nil => simp [nodes]
    | cons a p => simp [nodes, ih]

@[simp] theorem card_nodes_null : (null : Node α β).nodes.card = 0 := rfl

theorem card_nodes_node (c : α → Node α β) (v : β) (b : Bool) :
    (node c v b).nodes.card = ∑ a, (c a).nodes.card + 1 := by
  have hdis : Set.PairwiseDisjoint (↑(Finset.univ : Finset α))
      fun a => (nodes (c a)).map ⟨_, List.cons_injective (a := a)⟩ := by
    intro a _ a' _ hne
    rw [Function.onFun, Finset.disjoint_left]
    intro p hp hp'
    obtain ⟨q, -, rfl⟩ := Finset.mem_map.mp hp
    obtain ⟨q', -, hq'⟩ := Finset.mem_map.mp hp'
    exact hne (List.cons.inj hq').1.symm
  rw [nodes, Finset.card_insert_of_notMem (by simp), Finset.card_biUnion hdis]
  simp only [Finset.card_map]

theorem card_nodes_alloc [Inhabited β] (n : Node α β) :
    n.alloc.nodes.card = n.nodes.card + n.isNull.toNat := by
  cases n with
  | null => simp [alloc, card_nodes_node, isNull]
  | node c v b => rfl

/-- Redirecting a child pointer exchanges the nodes below it. -/
theorem card_nodes_setChild {n : Node α β} (hn : n ≠ null) (a : α) (m : Node α β) :
    (n.setChild a m).nodes.card + (n.child a).nodes.card = n.nodes.card + m.nodes.card := by
  cases n with
  | null => exact absurd rfl hn
  | node c v b =>
    have hrest : ∀ a' ∈ Finset.univ.erase a,
        (Function.update c a m a').nodes.card = (c a').nodes.card := by
      intro a' ha'
      rw [Function.update_of_ne (Finset.ne_of_mem_erase ha')]
    rw [setChild, card_nodes_node, card_nodes_node, child_node,
      ← Finset.add_sum_erase _ _ (Finset.mem_univ a),
      ← Finset.add_sum_erase _ (fun a' => (c a').nodes.card) (Finset.mem_univ a),
      Finset.sum_congr rfl hrest, Function.update_self]
    omega

theorem card_nodes_extend [Inhabited β] (n : Node α β) (p : List α) :
    (n.extend p).nodes.card = n.nodes.card + n.missing p := by
  induction p generalizing n with
  | nil => exact card_nodes_alloc n
  | cons a p ih =>
    have hset := card_nodes_setChild (alloc_ne_null n) a ((n.child a).extend p)
    rw [child_alloc, card_nodes_alloc, ih] at hset
    rw [extend, missing]
    omega

/-- Writing a value cell allocates and frees nothing. -/
theorem nodes_modify (f : β → Bool → β × Bool) (n : Node α β) (p : List α) :
    (n.modify f p).nodes = n.nodes := by
  induction p generalizing n with
  | nil => cases n <;> rfl
  | cons a p ih =>
    cases n with
    | null => rfl
    | node c v b =>
      have hkids : ∀ a', (Function.update c a ((c a).modify f p) a').nodes = (c a').nodes := by
        intro a'
        by_cases ha : a' = a
        · rw [ha, Function.update_self, ih]
        · rw [Function.update_of_ne ha]
      rw [modify, nodes, nodes]
      simp only [hkids]

omit [Fintype α] in
theorem modify_ne_null (f : β → Bool → β × Bool) {n : Node α β} (hn : n ≠ null) (p : List α) :
    n.modify f p ≠ null := by
  cases n with
  | null => exact absurd rfl hn
  | node c v b => cases p <;> simp [modify]

theorem prune_ne_null {n : Node α β} (hn : n ≠ null) (p : List α) : n.prune p ≠ null := by
  cases p with
  | nil => exact hn
  | cons a p =>
    cases n with
    | null => exact absurd rfl hn
    | node c v b => simp [prune, setChild]

theorem nodes_setValue (n : Node α β) (p : List α) (x : β) :
    (n.setValue p x).nodes = n.nodes := nodes_modify _ n p

theorem nodes_takeValue (n : Node α β) (p : List α) : (n.takeValue p).nodes = n.nodes :=
  nodes_modify _ n p

theorem card_nodes_sweep (n : Node α β) :
    n.sweep.nodes.card + n.isEmpty.toNat = n.nodes.card := by
  unfold sweep
  split
  · rename_i h
    cases n with
    | null => cases h
    | node c v b =>
      simp only [isEmpty, Bool.and_eq_true, Bool.not_eq_true', decide_eq_true_eq] at h
      have hc : ∀ a, c a = null := fun a => (isNull_iff _).mp (h.2 a)
      simp [card_nodes_node, hc, isEmpty, h.1, isNull]
  · rename_i h
    rw [Bool.not_eq_true] at h
    rw [h]
    rfl

omit [Fintype α] in
@[simp] theorem setChild_null (a : α) (m : Node α β) : (null : Node α β).setChild a m = null :=
  rfl

@[simp] theorem prune_null (p : List α) : (null : Node α β).prune p = null := by
  cases p <;> rfl

@[simp] theorem pruned_null (p : List α) : (null : Node α β).pruned p = 0 := by
  induction p with
  | nil => rfl
  | cons a p ih => simp [pruned, ih, isEmpty]

theorem card_nodes_prune (n : Node α β) (p : List α) :
    (n.prune p).nodes.card + n.pruned p = n.nodes.card := by
  induction p generalizing n with
  | nil => rfl
  | cons a p ih =>
    cases n with
    | null => simp
    | node c v b =>
      have hset := card_nodes_setChild (n := node c v b) (by simp) a ((c a).prune p).sweep
      have hsweep := card_nodes_sweep ((c a).prune p)
      have hkid := ih (c a)
      rw [child_node] at hset
      rw [prune, pruned, child_node]
      omega

end NeuroVerse.Lib.Trie.Node
