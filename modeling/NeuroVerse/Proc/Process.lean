/-
  The thread slots of a process (`proc/process.hpp`).

  A process keeps the slot of a thread it was told to forget. `after_slots`: no slot is handed
  out twice.
-/
import NeuroVerse.Lib.Since

namespace NeuroVerse.Proc

open Lib

/-- `threads_`, the slots; null when nothing is recorded any more. -/
structure Process (τ : Type*) where
  threads : List (Option τ) := []

inductive SlotCall (τ : Type*) where
  | addThread (t : Option τ)
  | removeThread (idx : Nat)

namespace Process

variable {τ : Type*}

def addThread (p : Process τ) (t : Option τ) : Nat × Process τ :=
  (p.threads.length, { p with threads := p.threads ++ [t] })

def removeThread (p : Process τ) (idx : Nat) : Process τ :=
  if idx < p.threads.length then { p with threads := p.threads.set idx none } else p

def threadCount (p : Process τ) : Nat := p.threads.countP Option.isSome

def threadAt (p : Process τ) (idx : Nat) : Option τ := (p.threads[idx]?).join

def step (p : Process τ) : SlotCall τ → Process τ
  | .addThread t => (p.addThread t).2
  | .removeThread idx => p.removeThread idx

/-- How many slots were handed out. -/
def added (calls : List (SlotCall τ)) : Nat :=
  calls.countP fun
    | .addThread _ => true
    | .removeThread _ => false

theorem threadAt_of_le {p : Process τ} {idx : Nat} (h : p.threads.length ≤ idx) :
    p.threadAt idx = none := by
  rw [threadAt, List.getElem?_eq_none h]
  rfl

theorem threadAt_addThread (p : Process τ) (t : Option τ) (idx : Nat) :
    (p.addThread t).2.threadAt idx = if idx = p.threads.length then t else p.threadAt idx := by
  show ((p.threads ++ [t])[idx]?).join = _
  split
  · next heq =>
    rw [heq, List.getElem?_concat_length]
    rfl
  · next hne =>
    rcases Nat.lt_or_gt_of_ne hne with hlt | hgt
    · rw [List.getElem?_append_left hlt]
      rfl
    · rw [threadAt_of_le (Nat.le_of_lt hgt), List.getElem?_eq_none]
      · rfl
      · rw [List.length_append, List.length_singleton]
        exact hgt

theorem threadAt_removeThread (p : Process τ) (i idx : Nat) :
    (p.removeThread i).threadAt idx = if i = idx then none else p.threadAt idx := by
  rw [removeThread]
  split
  · next hlt =>
    show ((p.threads.set i none)[idx]?).join = _
    split
    · next heq =>
      subst heq
      rw [List.getElem?_set_self hlt]
      rfl
    · next hne =>
      rw [List.getElem?_set_ne hne]
      rfl
  · next hge =>
    split
    · next heq => exact threadAt_of_le (heq ▸ Nat.not_lt.mp hge)
    · rfl

theorem map_threadAt (p : Process τ) :
    (List.range p.threads.length).map p.threadAt = p.threads := by
  refine List.ext_getElem (by rw [List.length_map, List.length_range]) fun n h _ => ?_
  rw [List.length_map, List.length_range] at h
  rw [List.getElem_map, List.getElem_range, threadAt, List.getElem?_eq_getElem h]
  rfl

theorem length_step (p : Process τ) (c : SlotCall τ) :
    (p.step c).threads.length = p.threads.length + added [c] := by
  cases c with
  | addThread t => exact List.length_append
  | removeThread idx =>
    rw [step, removeThread]
    split
    · exact List.length_set
    · rfl

theorem length_run (calls : List (SlotCall τ)) :
    (run step ({} : Process τ) calls).threads.length = added calls := by
  induction calls using List.reverseRecOn with
  | nil => rfl
  | append_singleton calls c ih => rw [run_snoc, length_step, ih, added, added, added,
      List.countP_append]

/-- In every run: `add_thread` hands out the number of the calls of it before, so that no slot
    comes twice; a slot has the thread it was made for until it is removed. -/
theorem after_slots (calls : List (SlotCall τ)) :
    let p := run step ({} : Process τ) calls
    (∀ t, (p.addThread t).1 = added calls) ∧
      (∀ idx t, p.threadAt idx = some t ↔
        Since (fun pre c => c = .addThread (some t) ∧ added pre = idx)
          (fun _ c => c ≠ .removeThread idx) calls) ∧
      p.threadCount = (List.range (added calls)).countP fun idx => (p.threadAt idx).isSome := by
  refine ⟨fun t => length_run calls, fun idx t => ?_, ?_⟩
  · induction calls using List.reverseRecOn with
    | nil => exact iff_of_false (fun h => nomatch h) not_since_nil
    | append_singleton calls c ih =>
      rw [run_snoc, since_snoc, ← ih]
      cases c with
      | addThread u =>
        rw [step, threadAt_addThread, length_run]
        split
        · next heq =>
          have hfree : (run step ({} : Process τ) calls).threadAt (added calls) = none :=
            threadAt_of_le (Nat.le_of_eq (length_run calls))
          simp [heq, hfree]
        · next hne => simp [Ne.symm hne]
      | removeThread i =>
        rw [step, threadAt_removeThread]
        by_cases hi : i = idx <;> simp [hi]
  · rw [threadCount, ← length_run calls]
    conv_lhs => rw [← map_threadAt, List.countP_map]
    rfl

end Process

end NeuroVerse.Proc
