/-
  The ordered map of the C++ standard library, as its interface describes it: entries in the
  order of a comparator, and two keys count as one when neither is less than the other. Nothing
  else is ever asked of a key.

  With a comparator that is a strict total order this is a map by equality of keys: `find_emplace`
  and `find_assign` say what the operations do to what is found. Nothing here names a program.
-/
import Mathlib.Data.List.Pairwise

namespace NeuroVerse.Lib

/-- What the library asks of a comparator, and that only equal keys are equivalent. -/
structure StrictTotal {κ : Type*} (less : κ → κ → Bool) : Prop where
  irrefl : ∀ k, less k k = false
  trans : ∀ {k l m}, less k l = true → less l m = true → less k m = true
  total : ∀ {k l}, less k l = false → less l k = false → k = l

/-- No key stands before itself, so that of two keys at most one comes first. -/
theorem StrictTotal.asymm {κ : Type*} {less : κ → κ → Bool} (h : StrictTotal less) {k l : κ}
    (hlt : less k l = true) : less l k = false := by
  by_contra hgt
  have hself := h.trans hlt (Bool.not_eq_false _ ▸ hgt)
  rw [h.irrefl] at hself
  cases hself

namespace OrderedMap

variable {κ β : Type*} (less : κ → κ → Bool)

def Sorted (es : List (κ × β)) : Prop := es.Pairwise fun e e' => less e.1 e'.1 = true

/-- The first entry that is not less than the key, if the key is not less than it either. -/
def find (k : κ) : List (κ × β) → Option β
  | [] => none
  | e :: es => if less e.1 k then find k es else if less k e.1 then none else some e.2

/-- Nothing happens when the key is there. -/
def emplace (k : κ) (v : β) : List (κ × β) → List (κ × β)
  | [] => [(k, v)]
  | e :: es =>
    if less e.1 k then e :: emplace k v es
    else if less k e.1 then (k, v) :: e :: es
    else e :: es

/-- The value that is found is replaced. -/
def assign (k : κ) (f : β → β) : List (κ × β) → List (κ × β)
  | [] => []
  | e :: es =>
    if less e.1 k then e :: assign k f es
    else if less k e.1 then e :: es
    else (e.1, f e.2) :: es

variable {less} {k k' : κ} {v : β} {es : List (κ × β)}

theorem sorted_cons {e : κ × β} :
    Sorted less (e :: es) ↔ (∀ e' ∈ es, less e.1 e'.1 = true) ∧ Sorted less es :=
  List.pairwise_cons

/-- A key before all entries is not found. -/
theorem find_before (h : StrictTotal less) (hlt : ∀ e ∈ es, less k e.1 = true) :
    find less k es = none := by
  cases es with
  | nil => rfl
  | cons e es =>
    have he := hlt e List.mem_cons_self
    rw [find, h.asymm he, if_neg Bool.false_ne_true, he, if_pos rfl]

/-- The key of an entry gives its value. -/
theorem find_head (h : StrictTotal less) (e : κ × β) (es : List (κ × β)) :
    find less e.1 (e :: es) = some e.2 := by
  rw [find, h.irrefl, if_neg Bool.false_ne_true, if_neg Bool.false_ne_true]

/-- Another key is looked for behind the entry, in a sorted list. -/
theorem find_tail (h : StrictTotal less) {e : κ × β} (hs : Sorted less (e :: es)) (hk : k ≠ e.1) :
    find less k (e :: es) = find less k es := by
  cases hlt : less e.1 k with
  | true => rw [find, hlt, if_pos rfl]
  | false =>
    have hgt : less k e.1 = true := by
      by_contra hge
      exact hk (h.total (Bool.not_eq_true _ ▸ hge) hlt)
    rw [find, hlt, if_neg Bool.false_ne_true, hgt, if_pos rfl]
    exact (find_before h fun e' he' => h.trans hgt ((sorted_cons.mp hs).1 e' he')).symm

/-- What has changed behind an entry is found there. -/
theorem find_behind [DecidableEq κ] (h : StrictTotal less) {e : κ × β} {es' : List (κ × β)}
    {found : Option β} (hs : Sorted less (e :: es)) (hs' : Sorted less (e :: es'))
    (hlt : less e.1 k = true)
    (hfind : find less k' es' = if k' = k then found else find less k' es) :
    find less k' (e :: es') = if k' = k then found else find less k' (e :: es) := by
  by_cases hk' : k' = e.1
  · have hne : k' ≠ k := by
      rintro rfl
      rw [hk', h.irrefl] at hlt
      cases hlt
    rw [if_neg hne, hk', find_head h, find_head h]
  · rw [find_tail h hs' hk', hfind, find_tail h hs hk']

theorem mem_emplace {e : κ × β} (he : e ∈ emplace less k v es) : e = (k, v) ∨ e ∈ es := by
  induction es with
  | nil => exact Or.inl (List.mem_singleton.mp he)
  | cons d es ih =>
    rw [emplace] at he
    split at he
    · rcases List.mem_cons.mp he with rfl | he
      · exact Or.inr List.mem_cons_self
      · exact (ih he).imp_right (List.mem_cons_of_mem d)
    · split at he
      · exact List.mem_cons.mp he
      · exact Or.inr he

theorem sorted_emplace (h : StrictTotal less) (hs : Sorted less es) (k : κ) (v : β) :
    Sorted less (emplace less k v es) := by
  induction es with
  | nil => exact List.pairwise_singleton _ _
  | cons e es ih =>
    obtain ⟨hfirst, hrest⟩ := sorted_cons.mp hs
    rw [emplace]
    split
    · rename_i hlt
      refine sorted_cons.mpr ⟨fun e' he' => ?_, ih hrest⟩
      rcases mem_emplace he' with rfl | he'
      · exact hlt
      · exact hfirst e' he'
    · split
      · rename_i hgt
        refine sorted_cons.mpr ⟨fun e' he' => ?_, hs⟩
        rcases List.mem_cons.mp he' with rfl | he'
        · exact hgt
        · exact h.trans hgt (hfirst e' he')
      · exact hs

/-- After `emplace` the key is there, with its old value if it had one. -/
theorem find_emplace [DecidableEq κ] (h : StrictTotal less) (hs : Sorted less es) (k k' : κ)
    (v : β) :
    find less k' (emplace less k v es) =
      if k' = k then some ((find less k es).getD v) else find less k' es := by
  induction es with
  | nil =>
    split
    · rename_i heq
      rw [heq]
      exact find_head h (k, v) []
    · rename_i hne
      exact find_tail h (List.pairwise_singleton _ (k, v)) hne
  | cons e es ih =>
    obtain ⟨hfirst, hrest⟩ := sorted_cons.mp hs
    have hsorted := sorted_emplace h hs k v
    rw [emplace] at hsorted ⊢
    cases hlt : less e.1 k with
    | true =>
      rw [hlt, if_pos rfl] at hsorted
      rw [if_pos rfl]
      have hfind : find less k (e :: es) = find less k es := by rw [find, hlt, if_pos rfl]
      rw [hfind]
      exact find_behind h hs hsorted hlt (ih hrest)
    | false =>
      rw [hlt, if_neg Bool.false_ne_true] at hsorted
      rw [if_neg Bool.false_ne_true]
      cases hgt : less k e.1 with
      | true =>
        rw [hgt, if_pos rfl] at hsorted
        rw [if_pos rfl]
        have hnone : find less k (e :: es) = none := by
          rw [find, hlt, if_neg Bool.false_ne_true, hgt, if_pos rfl]
        split
        · rename_i heq
          rw [heq, hnone]
          exact find_head h (k, v) (e :: es)
        · rename_i hne
          exact find_tail h hsorted hne
      | false =>
        rw [if_neg Bool.false_ne_true]
        obtain rfl := h.total hgt hlt
        split
        · rename_i heq
          rw [heq, find_head h]
          rfl
        · rfl

theorem assign_keys (k : κ) (f : β → β) (es : List (κ × β)) :
    (assign less k f es).map Prod.fst = es.map Prod.fst := by
  induction es with
  | nil => rfl
  | cons e es ih =>
    rw [assign]
    split
    · exact congrArg (e.1 :: ·) ih
    · split <;> rfl

theorem sorted_assign (hs : Sorted less es) (k : κ) (f : β → β) :
    Sorted less (assign less k f es) := by
  have hkeys : (es.map Prod.fst).Pairwise fun k l => less k l = true := List.pairwise_map.mpr hs
  rw [← assign_keys k f es] at hkeys
  exact List.pairwise_map.mp hkeys

theorem find_assign [DecidableEq κ] (h : StrictTotal less) (hs : Sorted less es) (k k' : κ)
    (f : β → β) :
    find less k' (assign less k f es) =
      if k' = k then (find less k es).map f else find less k' es := by
  induction es with
  | nil =>
    split <;> rfl
  | cons e es ih =>
    obtain ⟨hfirst, hrest⟩ := sorted_cons.mp hs
    have hsorted := sorted_assign hs k f
    rw [assign] at hsorted ⊢
    cases hlt : less e.1 k with
    | true =>
      rw [hlt, if_pos rfl] at hsorted
      rw [if_pos rfl]
      have hfind : find less k (e :: es) = find less k es := by rw [find, hlt, if_pos rfl]
      rw [hfind]
      exact find_behind h hs hsorted hlt (ih hrest)
    | false =>
      rw [hlt, if_neg Bool.false_ne_true] at hsorted
      rw [if_neg Bool.false_ne_true]
      cases hgt : less k e.1 with
      | true =>
        rw [if_pos rfl]
        have hnone : find less k (e :: es) = none := by
          rw [find, hlt, if_neg Bool.false_ne_true, hgt, if_pos rfl]
        split
        · rename_i heq
          rw [heq, hnone]
          rfl
        · rfl
      | false =>
        rw [hgt, if_neg Bool.false_ne_true] at hsorted
        rw [if_neg Bool.false_ne_true]
        obtain rfl := h.total hgt hlt
        split
        · rename_i heq
          rw [heq, find_head h]
          exact find_head h (e.1, f e.2) es
        · rename_i hne
          rw [find_tail h hs hne]
          exact find_tail h hsorted hne

end OrderedMap

end NeuroVerse.Lib
