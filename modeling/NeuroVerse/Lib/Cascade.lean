/-
  Machines in a row. A machine reads a value, changes its state and gives a value, which the next
  machine reads. A row can be run value by value, every value through all the machines (`pass`), or
  machine by machine, every machine over all that the one before it has given (`layers`). Both
  leave the machines in the same states and give the same values (`stream_pass`).

  The machines may differ: the one at place `i` is `f i`. Nothing here names a program.
-/
import Mathlib.Data.List.Basic

namespace NeuroVerse.Lib.Cascade

variable {σ α β : Type*}

/-- The state of one machine after the values `xs`, and what it has given for each. -/
def stream (f : σ → α → σ × β) : σ → List α → σ × List β
  | s, [] => (s, [])
  | s, x :: xs => ((stream f (f s x).1 xs).1, (f s x).2 :: (stream f (f s x).1 xs).2)

/-- One value through the machines from place `i` on, and what each has given. -/
def pass (f : Nat → σ → α → σ × α) : Nat → List σ → α → List σ × List α
  | _, [], _ => ([], [])
  | i, s :: ss, x =>
    ((f i s x).1 :: (pass f (i + 1) ss (f i s x).2).1,
      (f i s x).2 :: (pass f (i + 1) ss (f i s x).2).2)

/-- The values `xs` through the machines from place `i` on, one machine after the other, and what
    each has given for all of them. -/
def layers (f : Nat → σ → α → σ × α) : Nat → List σ → List α → List σ × List (List α)
  | _, [], _ => ([], [])
  | i, s :: ss, xs =>
    ((stream (f i) s xs).1 :: (layers f (i + 1) ss (stream (f i) s xs).2).1,
      (stream (f i) s xs).2 :: (layers f (i + 1) ss (stream (f i) s xs).2).2)

section

variable (f : σ → α → σ × β)

theorem stream_length (s : σ) (xs : List α) : (stream f s xs).2.length = xs.length := by
  induction xs generalizing s with
  | nil => rfl
  | cons x xs ih => exact congrArg (· + 1) (ih (f s x).1)

end

section

variable (f : Nat → σ → α → σ × α)

theorem stream_pass_nil (i : Nat) (xs : List α) :
    stream (pass f i) [] xs = ([], xs.map fun _ => []) := by
  induction xs with
  | nil => rfl
  | cons x xs ih =>
    rw [stream, List.map_cons]
    show ((stream (pass f i) [] xs).1, [] :: (stream (pass f i) [] xs).2) = _
    rw [ih]

/-- The first machine sees all the values, and the others see what it gives. -/
theorem stream_pass_cons (i : Nat) (s : σ) (ss : List σ) (xs : List α) :
    stream (pass f i) (s :: ss) xs =
      ((stream (f i) s xs).1 :: (stream (pass f (i + 1)) ss (stream (f i) s xs).2).1,
        List.zipWith List.cons (stream (f i) s xs).2
          (stream (pass f (i + 1)) ss (stream (f i) s xs).2).2) := by
  induction xs generalizing s ss with
  | nil => rfl
  | cons x xs ih =>
    rw [stream]
    show ((stream (pass f i) ((f i s x).1 :: (pass f (i + 1) ss (f i s x).2).1) xs).1,
      _ :: (stream (pass f i) ((f i s x).1 :: (pass f (i + 1) ss (f i s x).2).1) xs).2) = _
    rw [ih]
    rfl

/-- Value by value or machine by machine, the machines end in the same states, and machine `j`
    gives the same for value `t`. -/
theorem stream_pass (i : Nat) (ss : List σ) (xs : List α) :
    (stream (pass f i) ss xs).1 = (layers f i ss xs).1 ∧
      ∀ t j : Nat, (stream (pass f i) ss xs).2[t]?.bind (·[j]?) =
        (layers f i ss xs).2[j]?.bind (·[t]?) := by
  induction ss generalizing i xs with
  | nil =>
    rw [stream_pass_nil]
    refine ⟨rfl, fun t j => ?_⟩
    show ((xs.map fun _ => [])[t]?.bind fun ys : List α => ys[j]?) = none
    rw [Option.bind_eq_none_iff]
    intro ys hys
    rw [List.getElem?_map, Option.map_eq_some_iff] at hys
    obtain ⟨-, -, rfl⟩ := hys
    rfl
  | cons s ss ih =>
    obtain ⟨hstates, hvalues⟩ := ih (i + 1) (stream (f i) s xs).2
    rw [stream_pass_cons, layers]
    refine ⟨congrArg (_ :: ·) hstates, fun t j => ?_⟩
    show ((List.zipWith List.cons (stream (f i) s xs).2
      (stream (pass f (i + 1)) ss (stream (f i) s xs).2).2)[t]?.bind fun ys => ys[j]?) = _
    have hlength : (stream (pass f (i + 1)) ss (stream (f i) s xs).2).2.length =
        (stream (f i) s xs).2.length := stream_length _ ss _
    cases j with
    | zero =>
      rw [List.getElem?_zipWith]
      by_cases ht : t < (stream (f i) s xs).2.length
      · rw [List.getElem?_eq_getElem ht, List.getElem?_eq_getElem (hlength ▸ ht)]
        exact (List.getElem?_eq_getElem ht).symm
      · rw [List.getElem?_eq_none (Nat.le_of_not_lt ht)]
        exact (List.getElem?_eq_none (Nat.le_of_not_lt ht)).symm
    | succ j =>
      have hrest := hvalues t j
      rw [List.getElem?_zipWith]
      by_cases ht : t < (stream (f i) s xs).2.length
      · rw [List.getElem?_eq_getElem (hlength ▸ ht)] at hrest
        rw [List.getElem?_eq_getElem ht, List.getElem?_eq_getElem (hlength ▸ ht)]
        exact hrest
      · rw [List.getElem?_eq_none (hlength ▸ Nat.le_of_not_lt ht)] at hrest
        rw [List.getElem?_eq_none (Nat.le_of_not_lt ht)]
        exact hrest

end

end NeuroVerse.Lib.Cascade
