/-
  The bounded channel: what it accepted, in order, and how much of that has come out of its
  front. The two numbers carry the bound, so that a channel that holds more than its capacity, or
  gave out more than it accepted, cannot be built.

  Nothing here names a program.
-/
import Mathlib.Data.List.Basic

namespace NeuroVerse.Lib

/-- A first-in-first-out channel of capacity `n`. -/
structure Fifo (α : Type*) (n : Nat) where
  accepted : List α
  taken : Nat
  shut : Bool
  taken_le : taken ≤ accepted.length
  bounded : accepted.length ≤ taken + n

namespace Fifo

variable {α : Type*} {n : Nat}

def empty : Fifo α n := ⟨[], 0, false, Nat.le_refl 0, Nat.zero_le _⟩

/-- What came out of the channel. -/
def given (f : Fifo α n) : List α := f.accepted.take f.taken

/-- What is in the channel. -/
def held (f : Fifo α n) : List α := f.accepted.drop f.taken

def HasRoom (f : Fifo α n) : Prop := f.shut = false ∧ f.held.length < n

instance (f : Fifo α n) : Decidable f.HasRoom := inferInstanceAs (Decidable (_ ∧ _))

theorem given_append_held (f : Fifo α n) : f.given ++ f.held = f.accepted :=
  List.take_append_drop f.taken f.accepted

theorem length_held (f : Fifo α n) : f.held.length = f.accepted.length - f.taken :=
  List.length_drop

theorem length_held_le (f : Fifo α n) : f.held.length ≤ n := by
  have := f.bounded
  rw [length_held]
  omega

/-- `a` at the back, if there is room. -/
def offer (f : Fifo α n) (a : α) : Bool × Fifo α n :=
  if h : f.HasRoom then
    (true, ⟨f.accepted ++ [a], f.taken, f.shut,
      by have := f.taken_le; rw [List.length_append]; omega,
      by
        have hroom := h.2
        rw [length_held] at hroom
        rw [List.length_append, List.length_singleton]
        omega⟩)
  else (false, f)

/-- The front, if there is one. -/
def take (f : Fifo α n) : Option α × Fifo α n :=
  if h : f.taken < f.accepted.length then
    (some f.accepted[f.taken], ⟨f.accepted, f.taken + 1, f.shut, h,
      by have := f.bounded; omega⟩)
  else (none, f)

/-- Nothing is accepted any more. -/
def close (f : Fifo α n) : Fifo α n := { f with shut := true }

/-! ## Offering -/

theorem offer_room {f : Fifo α n} (h : f.HasRoom) (a : α) :
    (f.offer a).1 = true ∧ (f.offer a).2.accepted = f.accepted ++ [a] ∧
      (f.offer a).2.taken = f.taken ∧ (f.offer a).2.shut = f.shut := by
  rw [offer, dif_pos h]
  exact ⟨rfl, rfl, rfl, rfl⟩

theorem offer_noRoom {f : Fifo α n} (h : ¬ f.HasRoom) (a : α) : f.offer a = (false, f) :=
  dif_neg h

theorem offer_held {f : Fifo α n} (h : f.HasRoom) (a : α) :
    (f.offer a).2.held = f.held ++ [a] := by
  obtain ⟨-, hacc, htaken, -⟩ := offer_room h a
  rw [held, hacc, htaken, List.drop_append_of_le_length f.taken_le, held]

theorem offer_given (f : Fifo α n) (a : α) : (f.offer a).2.given = f.given := by
  by_cases h : f.HasRoom
  · obtain ⟨-, hacc, htaken, -⟩ := offer_room h a
    rw [given, hacc, htaken, List.take_append_of_le_length f.taken_le, given]
  · rw [offer_noRoom h]

theorem offer_accepted (f : Fifo α n) (a : α) :
    (f.offer a).2.accepted = f.accepted ++ if (f.offer a).1 then [a] else [] := by
  by_cases h : f.HasRoom
  · rw [(offer_room h a).2.1, (offer_room h a).1, if_pos rfl]
  · rw [offer_noRoom h, if_neg Bool.false_ne_true, List.append_nil]

theorem offer_shut (f : Fifo α n) (a : α) : (f.offer a).2.shut = f.shut := by
  by_cases h : f.HasRoom
  · exact (offer_room h a).2.2.2
  · rw [offer_noRoom h]

/-! ## Taking -/

theorem take_nil {f : Fifo α n} (h : f.held = []) : f.take = (none, f) := by
  refine dif_neg fun hlt => ?_
  have := f.length_held
  rw [h, List.length_nil] at this
  omega

theorem take_cons {f : Fifo α n} {a : α} {rest : List α} (h : f.held = a :: rest) :
    f.take.1 = some a ∧ f.take.2.held = rest ∧ f.take.2.accepted = f.accepted ∧
      f.take.2.taken = f.taken + 1 ∧ f.take.2.shut = f.shut := by
  have hlt : f.taken < f.accepted.length := by
    have := f.length_held
    rw [h, List.length_cons] at this
    omega
  have hdrop : f.accepted[f.taken] :: f.accepted.drop (f.taken + 1) = a :: rest := by
    rw [List.getElem_cons_drop hlt]
    exact h
  obtain ⟨ha, hrest⟩ := List.cons.inj hdrop
  rw [take, dif_pos hlt]
  exact ⟨congrArg some ha, hrest, rfl, rfl, rfl⟩

theorem take_accepted (f : Fifo α n) : f.take.2.accepted = f.accepted := by
  cases hq : f.held with
  | nil => rw [take_nil hq]
  | cons a rest => exact (take_cons hq).2.2.1

theorem take_shut (f : Fifo α n) : f.take.2.shut = f.shut := by
  cases hq : f.held with
  | nil => rw [take_nil hq]
  | cons a rest => exact (take_cons hq).2.2.2.2

theorem take_given (f : Fifo α n) : f.take.2.given = f.given ++ f.take.1.toList := by
  cases hq : f.held with
  | nil => rw [take_nil hq, Option.toList_none, List.append_nil]
  | cons a rest =>
    obtain ⟨hout, hheld, hacc, -⟩ := take_cons hq
    apply (List.append_left_inj rest).mp
    rw [← hheld, given_append_held, hacc, hout, hheld, List.append_assoc, Option.toList_some,
      List.singleton_append, ← hq, given_append_held]

theorem take_taken (f : Fifo α n) : f.take.2.taken = min (f.taken + 1) f.accepted.length := by
  have hlen := f.length_held
  have hle := f.taken_le
  cases hq : f.held with
  | nil =>
    rw [hq, List.length_nil] at hlen
    rw [take_nil hq]
    show f.taken = _
    omega
  | cons a rest =>
    rw [hq, List.length_cons] at hlen
    rw [(take_cons hq).2.2.2.1]
    omega

end Fifo

end NeuroVerse.Lib
