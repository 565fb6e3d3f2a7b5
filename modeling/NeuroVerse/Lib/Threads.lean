/-
  A list of threads, each at its place in its program. One thread moves at a time, which sets one
  entry of the list, or a new thread starts at the end. These are the facts about such a move:
  which entries stay, which places are still taken, and how a count of the threads at certain
  places changes.

  Nothing here names a program.
-/
import Mathlib.Data.List.Basic

namespace NeuroVerse.Lib

variable {π : Type*} {threads : List π} {k : Nat} {pc pc' : π}

theorem getElem?_spawned {j : Nat} {x : π} (h : (threads ++ [pc])[j]? = some x) :
    threads[j]? = some x ∨ x = pc := by
  rw [List.getElem?_append] at h
  split at h
  · exact Or.inl h
  · exact Or.inr (List.mem_singleton.mp (List.mem_of_getElem? h))

/-- After thread `k` moved, each thread is the one that moved or stands where it stood. -/
theorem getElem?_moved {j : Nat} {x : π} (h : (threads.set k pc')[j]? = some x) :
    (j = k ∧ x = pc') ∨ (j ≠ k ∧ threads[j]? = some x) := by
  by_cases hj : k = j
  · subst hj
    rw [List.getElem?_set_self'] at h
    obtain ⟨_, -, hx⟩ := Option.map_eq_some_iff.mp h
    exact Or.inl ⟨rfl, hx.symm⟩
  · rw [List.getElem?_set_ne hj] at h
    exact Or.inr ⟨Ne.symm hj, h⟩

theorem getElem?_moved_self (hk : threads[k]? = some pc) : (threads.set k pc')[k]? = some pc' := by
  rw [List.getElem?_set_self', hk]
  rfl

theorem mem_moved (hk : threads[k]? = some pc) : pc' ∈ threads.set k pc' :=
  List.mem_of_getElem? (getElem?_moved_self hk)

theorem mem_of_mem_moved {x : π} (h : x ∈ threads.set k pc') (hx : x ≠ pc') : x ∈ threads :=
  (List.mem_or_eq_of_mem_set h).resolve_right hx

theorem mem_moved_of_mem {x : π} (hk : threads[k]? = some pc) (h : x ∈ threads) (hx : x ≠ pc) :
    x ∈ threads.set k pc' := by
  obtain ⟨j, hj⟩ := List.mem_iff_getElem?.mp h
  have hne : k ≠ j := by
    rintro rfl
    exact hx (Option.some.inj (hj.symm.trans hk))
  exact List.mem_of_getElem? ((List.getElem?_set_ne hne).trans hj)

/-- A count of places changes by what the thread that moved counts for. -/
theorem countP_moved (p : π → Bool) (pc' : π) (hk : threads[k]? = some pc) :
    (threads.set k pc').countP p + (if p pc then 1 else 0) =
      threads.countP p + if p pc' then 1 else 0 := by
  obtain ⟨hlt, hget⟩ := List.getElem?_eq_some_iff.mp hk
  have hle := List.boole_getElem_le_countP (p := p) hlt
  rw [List.countP_set hlt, hget]
  rw [hget] at hle
  omega

/-- A count of places goes up when the thread that moved does not leave them. -/
theorem countP_le_moved {p : π → Bool} (hk : threads[k]? = some pc) (h : p pc → p pc') :
    threads.countP p ≤ (threads.set k pc').countP p := by
  have hcount := countP_moved p pc' hk
  by_cases hpc : p pc
  · rw [if_pos hpc, if_pos (h hpc)] at hcount
    omega
  · rw [if_neg hpc] at hcount
    omega

/-- A count of places goes down when the thread that moved does not come to them. -/
theorem countP_moved_le {p : π → Bool} (hk : threads[k]? = some pc) (h : p pc' → p pc) :
    (threads.set k pc').countP p ≤ threads.countP p := by
  have hcount := countP_moved p pc' hk
  by_cases hpc : p pc'
  · rw [if_pos hpc, if_pos (h hpc)] at hcount
    omega
  · rw [if_neg hpc] at hcount
    omega

/-- A count of places stays when the thread that moved counts as before. -/
theorem countP_eq_moved {p : π → Bool} (hk : threads[k]? = some pc) (h : p pc' = p pc) :
    (threads.set k pc').countP p = threads.countP p := by
  have hcount := countP_moved p pc' hk
  rw [h] at hcount
  exact Nat.add_right_cancel hcount

/-- A thread that is at one of the places `q` and at none of the places `p` among them makes
    the difference. -/
theorem countP_lt_of_mem {p q : π → Bool} (hmem : pc ∈ threads) (hq : q pc = true)
    (hp : p pc = false) (h : ∀ x, p x = true → q x = true) :
    threads.countP p < threads.countP q := by
  obtain ⟨pre, post, rfl⟩ := List.append_of_mem hmem
  have hpre := List.countP_mono_left (l := pre) fun x _ => h x
  have hpost := List.countP_mono_left (l := post) fun x _ => h x
  rw [List.countP_append, List.countP_append, List.countP_cons_of_pos hq,
    List.countP_cons_of_neg (ne_true_of_eq_false hp)]
  omega

/-- What a thread had not given before its move is given now, and the others give what they gave. -/
theorem filterMap_moved {α : Type*} (f : π → Option α) (pc' : π) (hk : threads[k]? = some pc)
    (hpc : f pc = none) :
    ((threads.set k pc').filterMap f).Perm (threads.filterMap f ++ (f pc').toList) := by
  induction threads generalizing k with
  | nil => simp at hk
  | cons x xs ih =>
    cases k with
    | zero =>
      obtain rfl := Option.some.inj hk
      rw [List.set_cons_zero, List.filterMap_cons, List.filterMap_cons, hpc]
      cases f pc' with
      | none => simp
      | some a => exact (List.perm_append_singleton a _).symm
    | succ k =>
      rw [List.set_cons_succ, List.filterMap_cons, List.filterMap_cons]
      cases f x with
      | none => exact ih hk
      | some a => exact (ih hk).cons a

theorem filterMap_moved_same {α : Type*} {f : π → Option α} (hk : threads[k]? = some pc)
    (h : f pc' = f pc) : (threads.set k pc').filterMap f = threads.filterMap f := by
  obtain ⟨hlt, hget⟩ := List.getElem?_eq_some_iff.mp hk
  have hsame : (threads.set k pc').map f = threads.map f := by
    rw [List.map_set, h, ← hget, ← List.getElem_map f (h := by rwa [List.length_map]),
      List.set_getElem_self]
  have hid := congrArg (List.filterMap id) hsame
  rwa [List.filterMap_map, List.filterMap_map, Function.id_comp] at hid

/-- What the thread that moved had given is gone, and the others give what they gave. -/
theorem filterMap_moved_gone {α : Type*} {f : π → Option α} (hk : threads[k]? = some pc)
    (hpc : f pc' = none) :
    (threads.filterMap f).Perm ((threads.set k pc').filterMap f ++ (f pc).toList) := by
  have hhere : (threads.set k pc')[k]? = some pc' := getElem?_moved_self hk
  have hback := filterMap_moved f pc hhere hpc
  obtain ⟨hlt, hget⟩ := List.getElem?_eq_some_iff.mp hk
  rwa [List.set_set, ← hget, List.set_getElem_self, hget] at hback

end NeuroVerse.Lib
