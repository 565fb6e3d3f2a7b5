/-
  A list of blocks threaded through the blocks themselves: the first eight bytes of each block
  hold the address of the next, and the last holds the null address.

  `Chain m head xs` says that the links in `m` lead from `head` through exactly `xs`. A chain
  depends on the bytes of its links only (`Chain.congr`); pushing a block writes one link
  (`Chain.push`).
-/
import NeuroVerse.Lib.Memory

namespace NeuroVerse.Lib

/-- Following the links from `head` visits the blocks `xs` and ends at the null address. -/
def Chain (m : Memory) : Address → List Address → Prop
  | head, [] => head = 0
  | head, x :: xs => head = x ∧ x ≠ 0 ∧ Chain m (word m x) xs

theorem Chain.head_eq_zero {m : Memory} {head : Address} {xs : List Address}
    (h : Chain m head xs) : head = 0 ↔ xs = [] := by
  cases xs with
  | nil => exact iff_of_true h rfl
  | cons x xs =>
    obtain ⟨rfl, hne, -⟩ := h
    exact iff_of_false hne (by simp)

theorem Chain.congr {m m' : Memory} {head : Address} {xs : List Address} (h : Chain m head xs)
    (hm : ∀ x ∈ xs, ∀ a ∈ Span x 8, m' a = m a) : Chain m' head xs := by
  induction xs generalizing head with
  | nil => exact h
  | cons x xs ih =>
    obtain ⟨hhead, hne, htail⟩ := h
    refine ⟨hhead, hne, ?_⟩
    rw [word_congr (hm x List.mem_cons_self)]
    exact ih htail fun y hy => hm y (List.mem_cons_of_mem x hy)

/-- Writing the old head into a block apart from the chain puts that block in front. -/
theorem Chain.push {m : Memory} {head x : Address} {xs : List Address} (h : Chain m head xs)
    (hne : x ≠ 0) (happart : ∀ y ∈ xs, Disjoint (Span x 8) (Span y 8)) :
    Chain (setWord m x head) x (x :: xs) := by
  refine ⟨rfl, hne, ?_⟩
  rw [word_setWord]
  refine h.congr fun y hy a ha => setWord_frame m head fun hx => ?_
  exact Set.disjoint_left.mp (happart y hy) hx ha

end NeuroVerse.Lib
