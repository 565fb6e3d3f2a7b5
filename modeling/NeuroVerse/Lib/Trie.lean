/-
  Radix tries of node pointers, over any digit type `α` and value type `β`.

  A `Node` is what a pointer to a trie node refers to: nothing, or a node with one child
  pointer for each digit, a value cell, and a flag that says whether the cell is in use. The
  operations are the ones a pointer trie is written with: `walk` follows a path of digits,
  `extend` allocates the nodes a path lacks, `setValue` and `takeValue` write the cell at the
  end of a path, `prune` frees the nodes a path has left empty.

  `get` is the finite map a trie stands for; each operation has one lemma that says what it
  does to `get` (`get_extend`, `get_setValue`, `get_takeValue`, `get_prune`). `Tight d` is
  the shape of a trie all of whose values sit at depth `d` and that holds no empty node.
-/
import Mathlib.Data.Fintype.Basic
import Mathlib.Data.Fintype.Pi

namespace NeuroVerse.Lib.Trie

/-- What a pointer to a trie node refers to. -/
inductive Node (α β : Type*) where
  | null
  | node (child : α → Node α β) (value : β) (hasValue : Bool)

namespace Node

variable {α β : Type*}

def isNull : Node α β → Bool
  | null => true
  | node _ _ _ => false

/-- The child pointer at digit `a`; a null pointer has only null children. -/
def child : Node α β → α → Node α β
  | null, _ => null
  | node c _ _, a => c a

/-- The pointer reached by following the digits of a path. -/
def walk : Node α β → List α → Node α β
  | n, [] => n
  | n, a :: p => walk (n.child a) p

/-- The value at the end of a path, when the path is present and its cell is in use. -/
def get (n : Node α β) (p : List α) : Option β :=
  match n.walk p with
  | null => none
  | node _ v b => if b then some v else none

@[simp] theorem child_null (a : α) : (null : Node α β).child a = null := rfl

@[simp] theorem child_node (c : α → Node α β) (v : β) (b : Bool) (a : α) :
    (node c v b).child a = c a := rfl

@[simp] theorem walk_nil (n : Node α β) : n.walk [] = n := by cases n <;> rfl

@[simp] theorem walk_cons (n : Node α β) (a : α) (p : List α) :
    n.walk (a :: p) = (n.child a).walk p := rfl

@[simp] theorem get_cons (n : Node α β) (a : α) (p : List α) :
    n.get (a :: p) = (n.child a).get p := rfl

@[simp] theorem walk_null (p : List α) : (null : Node α β).walk p = null := by
  induction p with
  | nil => rfl
  | cons a p ih => exact ih

@[simp] theorem get_null (p : List α) : (null : Node α β).get p = none := by
  rw [get, walk_null]

@[simp] theorem get_node_nil (c : α → Node α β) (v : β) (b : Bool) :
    (node c v b).get [] = if b then some v else none := rfl

theorem isNull_iff (n : Node α β) : n.isNull = true ↔ n = null := by
  cases n <;> simp [isNull]

/-! ## Allocation -/

section Extend

variable [Inhabited β]

/-- A fresh node in place of a null pointer. -/
def alloc : Node α β → Node α β
  | null => node (fun _ => null) default false
  | n => n

@[simp] theorem child_alloc (n : Node α β) (a : α) : n.alloc.child a = n.child a := by
  cases n <;> rfl

@[simp] theorem get_alloc (n : Node α β) (p : List α) : n.alloc.get p = n.get p := by
  cases n with
  | null =>
    cases p with
    | nil => rfl
    | cons a p => rw [get_cons, child_alloc, get_cons]
  | node c v b => rfl

theorem alloc_ne_null (n : Node α β) : n.alloc ≠ null := by
  cases n <;> simp [alloc]

variable [DecidableEq α]

/-- Redirects the child pointer at digit `a`. -/
def setChild : Node α β → α → Node α β → Node α β
  | null, _, _ => null
  | node c v b, a, m => node (Function.update c a m) v b

/-- Allocates every node the path lacks, the one the pointer itself refers to included. -/
def extend : Node α β → List α → Node α β
  | n, [] => n.alloc
  | n, a :: p => n.alloc.setChild a (extend (n.child a) p)

/-- The number of nodes `extend` allocates. -/
def missing : Node α β → List α → Nat
  | n, [] => n.isNull.toNat
  | n, a :: p => n.isNull.toNat + missing (n.child a) p

omit [Inhabited β] in
theorem child_setChild_self {n : Node α β} (hn : n ≠ null) (a : α) (m : Node α β) :
    (n.setChild a m).child a = m := by
  cases n with
  | null => exact absurd rfl hn
  | node c v b => simp [setChild]

omit [Inhabited β] in
theorem child_setChild_ne (n : Node α β) {a a' : α} (h : a' ≠ a) (m : Node α β) :
    (n.setChild a m).child a' = n.child a' := by
  cases n with
  | null => rfl
  | node c v b => simp [setChild, h]

omit [Inhabited β] in
@[simp] theorem get_setChild_nil (n : Node α β) (a : α) (m : Node α β) :
    (n.setChild a m).get [] = n.get [] := by
  cases n <;> rfl

/-- Allocation adds no value. -/
@[simp] theorem get_extend (n : Node α β) (p q : List α) : (n.extend p).get q = n.get q := by
  induction p generalizing n q with
  | nil => simp [extend]
  | cons a p ih =>
    cases q with
    | nil => simp [extend]
    | cons a' q =>
      rw [extend, get_cons, get_cons]
      by_cases h : a' = a
      · subst h
        rw [child_setChild_self (alloc_ne_null n), ih]
      · rw [child_setChild_ne _ h, child_alloc]

/-- The path is present after `extend`. -/
theorem walk_extend_ne_null (n : Node α β) (p : List α) : (n.extend p).walk p ≠ null := by
  induction p generalizing n with
  | nil => simpa [extend] using alloc_ne_null n
  | cons a p ih =>
    rw [extend, walk_cons, child_setChild_self (alloc_ne_null n)]
    exact ih _

end Extend

/-! ## Value cells -/

section Cells

variable [DecidableEq α]

/-- Rewrites the value cell at the end of a path; a missing path is left as it is. -/
def modify (f : β → Bool → β × Bool) : Node α β → List α → Node α β
  | null, _ => null
  | node c v b, [] => node c (f v b).1 (f v b).2
  | node c v b, a :: p => node (Function.update c a (modify f (c a) p)) v b

/-- Stores `x` at the end of a path. -/
def setValue (n : Node α β) (p : List α) (x : β) : Node α β :=
  n.modify (fun _ _ => (x, true)) p

/-- Marks the cell at the end of a path as unused, leaving its old value behind. -/
def takeValue (n : Node α β) (p : List α) : Node α β :=
  n.modify (fun v _ => (v, false)) p

@[simp] theorem modify_null (f : β → Bool → β × Bool) (p : List α) :
    (null : Node α β).modify f p = null := by
  cases p <;> rfl

theorem get_modify_ne (f : β → Bool → β × Bool) (n : Node α β) {p q : List α}
    (hl : q.length = p.length) (h : q ≠ p) : (n.modify f p).get q = n.get q := by
  induction p generalizing n q with
  | nil => exact absurd (List.length_eq_zero_iff.mp hl) h
  | cons a p ih =>
    cases n with
    | null => rw [modify_null]
    | node c v b =>
      cases q with
      | nil => simp at hl
      | cons a' q =>
        rw [modify, get_cons, get_cons, child_node, child_node]
        by_cases ha : a' = a
        · subst ha
          rw [Function.update_self]
          exact ih (c a') (by simpa using hl) (by simpa using h)
        · rw [Function.update_of_ne ha]

theorem get_setValue (n : Node α β) {p q : List α} (hl : q.length = p.length)
    (hp : n.walk p ≠ null) (x : β) :
    (n.setValue p x).get q = if q = p then some x else n.get q := by
  split
  · rename_i h
    subst h
    induction q generalizing n with
    | nil =>
      cases n with
      | null => simp at hp
      | node c v b => rfl
    | cons a q ih =>
      cases n with
      | null => exact absurd (walk_null (a :: q)) hp
      | node c v b =>
        rw [setValue, modify, get_cons, child_node, Function.update_self]
        exact ih (c a) rfl hp
  · rename_i h
    exact get_modify_ne _ n hl h

theorem get_takeValue (n : Node α β) {p q : List α} (hl : q.length = p.length) :
    (n.takeValue p).get q = if q = p then none else n.get q := by
  split
  · rename_i h
    subst h
    induction q generalizing n with
    | nil => cases n <;> rfl
    | cons a q ih =>
      cases n with
      | null => rw [takeValue, modify_null, get_null]
      | node c v b =>
        rw [takeValue, modify, get_cons, child_node, Function.update_self]
        exact ih (c a) rfl
  · rename_i h
    exact get_modify_ne _ n hl h

end Cells

/-! ## Recycling empty nodes -/

section Prune

variable [DecidableEq α] [Fintype α]

/-- An allocated node without value and without child. -/
def isEmpty : Node α β → Bool
  | null => false
  | node c _ b => !b && decide (∀ a, (c a).isNull = true)

/-- Frees the node a pointer refers to when it is empty. -/
def sweep (n : Node α β) : Node α β := if n.isEmpty then null else n

/-- Frees the empty nodes along a path from its end upwards; the node the pointer itself
    refers to stays. -/
def prune : Node α β → List α → Node α β
  | n, [] => n
  | n, a :: p => n.setChild a (prune (n.child a) p).sweep

/-- The number of nodes `prune` frees. -/
def pruned : Node α β → List α → Nat
  | _, [] => 0
  | n, a :: p => pruned (n.child a) p + (prune (n.child a) p).isEmpty.toNat

omit [DecidableEq α] in
theorem get_of_isEmpty {n : Node α β} (h : n.isEmpty = true) (q : List α) :
    n.get q = none := by
  cases n with
  | null => exact get_null q
  | node c v b =>
    simp only [isEmpty, Bool.and_eq_true, Bool.not_eq_true', decide_eq_true_eq] at h
    cases q with
    | nil => simp [h.1]
    | cons a q =>
      have hc : c a = null := (isNull_iff _).mp (h.2 a)
      simp [hc]

omit [DecidableEq α] in
@[simp] theorem get_sweep (n : Node α β) (q : List α) : n.sweep.get q = n.get q := by
  unfold sweep
  split
  · rename_i h
    rw [get_of_isEmpty h, get_null]
  · rfl

/-- Recycling empty nodes changes no binding. -/
@[simp] theorem get_prune (n : Node α β) (p q : List α) : (n.prune p).get q = n.get q := by
  induction p generalizing n q with
  | nil => rfl
  | cons a p ih =>
    cases q with
    | nil => simp [prune]
    | cons a' q =>
      cases n with
      | null => simp [prune, setChild]
      | node c v b =>
        rw [prune, get_cons, get_cons]
        by_cases h : a' = a
        · subst h
          rw [child_setChild_self (by simp), get_sweep, ih]
        · rw [child_setChild_ne _ h]

end Prune

/-! ## Shape -/

/-- All values sit exactly `d` digits down, every cell there is in use, and no node on the
    way is empty. -/
def Tight : Nat → Node α β → Prop
  | _, null => True
  | 0, node c _ b => b = true ∧ ∀ a, c a = null
  | d + 1, node c _ b => b = false ∧ (∃ a, c a ≠ null) ∧ ∀ a, Tight d (c a)

/-- The root pointer of a tight trie of depth `d + 1`: it alone may refer to an empty node. -/
def TightRoot (d : Nat) : Node α β → Prop
  | null => True
  | node c _ b => b = false ∧ ∀ a, Tight d (c a)

@[simp] theorem tight_null (d : Nat) : Tight d (null : Node α β) := by
  cases d <;> trivial

theorem TightRoot.child {d : Nat} {n : Node α β} (h : n.TightRoot d) (a : α) :
    Tight d (n.child a) := by
  cases n with
  | null => exact tight_null d
  | node c v b => exact h.2 a

theorem TightRoot.alloc [Inhabited β] {d : Nat} {n : Node α β} (h : n.TightRoot d) :
    n.alloc.TightRoot d := by
  cases n with
  | null => exact ⟨rfl, fun _ => tight_null d⟩
  | node c v b => exact h

/-- In a tight trie an allocated node at full depth has its cell in use. -/
theorem Tight.hasValue {d : Nat} {n c v b} (h : Tight d (n : Node α β)) {p : List α}
    (hp : p.length = d) (hw : n.walk p = node c v b) : b = true := by
  induction p generalizing n d with
  | nil =>
    subst hp
    rw [walk_nil] at hw
    subst hw
    exact h.1
  | cons a p ih =>
    subst hp
    cases n with
    | null => simp at hw
    | node c' v' b' => exact ih (h.2.2 a) rfl hw

section Keep

variable [DecidableEq α]

/-- Storing a value one digit down: the child at that digit is rebuilt, the rest stays. -/
theorem setValue_extend_cons [Inhabited β] (n : Node α β) (a : α) (p : List α) (x : β) :
    (n.extend (a :: p)).setValue (a :: p) x =
      n.alloc.setChild a (((n.child a).extend p).setValue p x) := by
  cases n <;> simp [extend, setValue, modify, alloc, setChild]

theorem setValue_extend_ne_null [Inhabited β] (n : Node α β) (p : List α) (x : β) :
    (n.extend p).setValue p x ≠ null := by
  intro hnull
  have hget := get_setValue (n.extend p) rfl (walk_extend_ne_null n p) x
  rw [hnull, get_null] at hget
  simp at hget

/-- Storing a value keeps a trie tight. -/
theorem Tight.insert [Inhabited β] {d : Nat} {n : Node α β} (h : Tight d n) {p : List α}
    (hp : p.length = d) (x : β) : Tight d ((n.extend p).setValue p x) := by
  induction p generalizing n d with
  | nil =>
    subst hp
    cases n with
    | null => exact ⟨rfl, fun _ => rfl⟩
    | node c v b => exact ⟨rfl, h.2⟩
  | cons a p ih =>
    subst hp
    rw [setValue_extend_cons]
    cases n with
    | null =>
      refine ⟨rfl, ⟨a, ?_⟩, fun a' => ?_⟩
      · rw [Function.update_self]
        exact setValue_extend_ne_null _ p x
      · by_cases ha : a' = a
        · subst ha
          rw [Function.update_self]
          exact ih (tight_null _) rfl
        · rw [Function.update_of_ne ha]
          exact tight_null _
    | node c v b =>
      refine ⟨h.1, ⟨a, ?_⟩, fun a' => ?_⟩
      · rw [Function.update_self]
        exact setValue_extend_ne_null _ p x
      · by_cases ha : a' = a
        · subst ha
          rw [Function.update_self]
          exact ih (h.2.2 a') rfl
        · rw [Function.update_of_ne ha]
          exact h.2.2 a'

/-- Storing a value keeps the root of a tight trie. -/
theorem TightRoot.insert [Inhabited β] {d : Nat} {n : Node α β} (h : n.TightRoot d)
    {p : List α} (hp : p.length = d + 1) (x : β) :
    TightRoot d ((n.extend p).setValue p x) := by
  obtain ⟨a, q, rfl⟩ : ∃ a q, p = a :: q := List.exists_cons_of_length_eq_add_one hp
  have hq : q.length = d := by simpa using hp
  have hkid : ∀ a', Tight d (if a' = a then ((n.child a).extend q).setValue q x
      else n.child a') := by
    intro a'
    split
    · exact (h.child a).insert hq x
    · exact h.child a'
  rw [setValue_extend_cons]
  cases n with
  | null =>
    refine ⟨rfl, fun a' => ?_⟩
    rw [Function.update_apply]
    exact hkid a'
  | node c v b =>
    refine ⟨h.1, fun a' => ?_⟩
    rw [Function.update_apply]
    exact hkid a'

variable [Fintype α]

/-- Taking a value out one digit down: the child at that digit is rebuilt and recycled. -/
theorem prune_takeValue_cons (c : α → Node α β) (v : β) (b : Bool) (a : α) (p : List α) :
    ((node c v b).takeValue (a :: p)).prune (a :: p) =
      node (Function.update c a (((c a).takeValue p).prune p).sweep) v b := by
  simp [takeValue, modify, prune, setChild]

/-- Taking a value out and recycling the nodes of its path keeps a trie tight. -/
theorem Tight.erase {d : Nat} {n : Node α β} (h : Tight d n) {p : List α}
    (hp : p.length = d) : Tight d ((n.takeValue p).prune p).sweep := by
  induction p generalizing n d with
  | nil =>
    subst hp
    cases n with
    | null => exact tight_null _
    | node c v b =>
      have hc : ∀ a, (c a).isNull = true := fun a => (isNull_iff _).mpr (h.2 a)
      simp [takeValue, modify, prune, sweep, isEmpty, hc]
  | cons a p ih =>
    subst hp
    cases n with
    | null => simp [takeValue, prune, setChild, sweep, isEmpty]
    | node c v b =>
      have hb : b = false := h.1
      subst hb
      rw [prune_takeValue_cons, sweep]
      split
      · exact tight_null _
      · rename_i hne
        refine ⟨rfl, ?_, fun a' => ?_⟩
        · -- with no child left the node would have been empty, hence freed
          by_contra hall
          push Not at hall
          exact hne (by simp [isEmpty, hall, isNull])
        · rw [Function.update_apply]
          split
          · exact ih (h.2.2 a) rfl
          · exact h.2.2 a'

theorem TightRoot.erase {d : Nat} {n : Node α β} (h : n.TightRoot d) {p : List α}
    (hp : p.length = d + 1) : TightRoot d ((n.takeValue p).prune p) := by
  obtain ⟨a, q, rfl⟩ : ∃ a q, p = a :: q := List.exists_cons_of_length_eq_add_one hp
  cases n with
  | null => trivial
  | node c v b =>
    rw [prune_takeValue_cons]
    refine ⟨h.1, fun a' => ?_⟩
    rw [Function.update_apply]
    split
    · exact (h.2 a).erase (by simpa using hp)
    · exact h.2 a'

end Keep

end Node

end NeuroVerse.Lib.Trie
