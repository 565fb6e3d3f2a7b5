/-
  The binary searches of the C++ standard library, `std::lower_bound` and `std::upper_bound`, as
  the halving loop that both of them are.

  The loop asks a predicate of the middle of the part that is still open. On a list whose front
  satisfies the predicate and whose rest does not, it finds the border, whatever the order of the
  elements (`partitionPoint_append`). On any other list it returns some place, as the library's
  loop does. Nothing here names a program.
-/
import Mathlib.Data.List.TakeWhile

namespace NeuroVerse.Lib

variable {α β : Type*}

/-- The search for the border in the `len` elements that start at `first`. -/
def partitionLoop (p : α → Bool) (xs : List α) (first len : Nat) : Nat :=
  if len = 0 then first
  else
    let half := len / 2
    if xs[first + half]?.any p then partitionLoop p xs (first + half + 1) (len - half - 1)
    else partitionLoop p xs first half
termination_by len

def partitionPoint (p : α → Bool) (xs : List α) : Nat := partitionLoop p xs 0 xs.length

/-- The first place whose element is not below the value. -/
def lowerBound (less : α → β → Bool) (xs : List α) (val : β) : Nat :=
  partitionPoint (fun x => less x val) xs

/-- The first place whose element is above the value. -/
def upperBound (less : β → α → Bool) (xs : List α) (val : β) : Nat :=
  partitionPoint (fun x => !less val x) xs

section

variable {p : α → Bool} {l r : List α}

theorem front_of_any (hr : ∀ x ∈ r, p x = false) {i : Nat}
    (h : (l ++ r)[i]?.any p = true) : i < l.length := by
  by_contra hge
  rw [List.getElem?_append_right (Nat.le_of_not_lt hge)] at h
  cases hx : r[i - l.length]? with
  | none =>
    rw [hx] at h
    cases h
  | some x =>
    rw [hx, Option.any_some, hr x (List.mem_of_getElem? hx)] at h
    cases h

theorem back_of_not_any (hl : ∀ x ∈ l, p x = true) {i : Nat}
    (h : ¬ (l ++ r)[i]?.any p = true) : l.length ≤ i := by
  by_contra hlt
  have hi := Nat.lt_of_not_le hlt
  rw [List.getElem?_append_left hi, List.getElem?_eq_getElem hi, Option.any_some] at h
  exact h (hl _ (List.getElem_mem hi))

/-- The border stays in the open part. -/
theorem partitionLoop_append (hl : ∀ x ∈ l, p x = true) (hr : ∀ x ∈ r, p x = false)
    (first len : Nat) (hfirst : first ≤ l.length) (hlen : l.length ≤ first + len) :
    partitionLoop p (l ++ r) first len = l.length := by
  fun_induction partitionLoop p (l ++ r) first len with
  | case1 first => omega
  | case2 first len hpos half hmid ih =>
    have hlt := front_of_any hr hmid
    exact ih (by omega) (by omega)
  | case3 first len hpos half hmid ih =>
    have hge := back_of_not_any hl hmid
    exact ih (by omega) (by omega)

theorem partitionPoint_append (hl : ∀ x ∈ l, p x = true) (hr : ∀ x ∈ r, p x = false) :
    partitionPoint p (l ++ r) = l.length := by
  refine partitionLoop_append hl hr 0 _ (Nat.zero_le _) ?_
  rw [List.length_append]
  omega

end

/-- A list in which nothing that satisfies the predicate comes after something that does not. -/
theorem partition_split {p : α → Bool} {xs : List α}
    (h : xs.Pairwise fun x y => p y = true → p x = true) :
    ∃ l r, xs = l ++ r ∧ (∀ x ∈ l, p x = true) ∧ ∀ x ∈ r, p x = false := by
  induction xs with
  | nil => exact ⟨[], [], rfl, nofun, nofun⟩
  | cons x xs ih =>
    obtain ⟨hx, hxs⟩ := List.pairwise_cons.mp h
    cases hp : p x with
    | true =>
      obtain ⟨l, r, rfl, hl, hr⟩ := ih hxs
      refine ⟨x :: l, r, rfl, fun y hy => ?_, hr⟩
      rcases List.mem_cons.mp hy with rfl | hy
      · exact hp
      · exact hl y hy
    | false =>
      refine ⟨[], x :: xs, rfl, nofun, fun y hy => ?_⟩
      rcases List.mem_cons.mp hy with rfl | hy
      · exact hp
      · refine Bool.eq_false_iff.mpr fun hpy => ?_
        exact Bool.false_ne_true (hp.symm.trans (hx y hy hpy))

end NeuroVerse.Lib
