/-
  The registry of virtual memory areas (`mem/vma_tree.hpp`): a vector of half-open address ranges
  with rights and a backing, kept sorted by start address.

  `insert` checks the whole vector for an overlap, but `erase`, `split` and `find` trust the
  order: each does one binary search by start address. `Ok` is what they trust, and every
  operation keeps it. `std::sort` is the merge sort of the standard library here; under `Ok` the
  start addresses are distinct, so that any sort gives the same vector.
-/
import NeuroVerse.Lib.BinarySearch
import NeuroVerse.Lib.Intervals
import NeuroVerse.Lib.Run
import Mathlib.Data.BitVec
import Mathlib.Order.Nat

namespace NeuroVerse.Mem

open Lib

/-- `endAddr` is the source's `end`, exclusive. -/
structure VMA where
  start : BitVec 64
  endAddr : BitVec 64
  rights : BitVec 32
  backing : BitVec 64
deriving DecidableEq

def VMA.contains (v : VMA) (addr : BitVec 64) : Bool :=
  decide (addr ≥ v.start) && decide (addr < v.endAddr)

def VMA.size (v : VMA) : BitVec 64 := v.endAddr - v.start

structure VMATree where
  entries : List VMA := []
deriving DecidableEq

namespace VMATree

def overlap (a b : VMA) : Bool :=
  !(decide (a.endAddr ≤ b.start) || decide (b.endAddr ≤ a.start))

/-- `std::sort` by start address. -/
def sortByStart (entries : List VMA) : List VMA :=
  entries.mergeSort fun a b => decide (a.start ≤ b.start)

def insert (t : VMATree) (v : VMA) : Bool × VMATree :=
  if v.start ≥ v.endAddr then (false, t)
  else if t.entries.any fun e => overlap e v then (false, t)
  else (true, { t with entries := sortByStart (t.entries ++ [v]) })

def erase (t : VMATree) (start : BitVec 64) : Bool × VMATree :=
  let it := lowerBound (fun (v : VMA) s => decide (v.start < s)) t.entries start
  match t.entries[it]? with
  | none => (false, t)
  | some v =>
    if v.start ≠ start then (false, t)
    else (true, { t with entries := t.entries.eraseIdx it })

/-- `std::upper_bound` by start address: `it == begin` is 0. -/
def upper (t : VMATree) (addr : BitVec 64) : Nat :=
  upperBound (fun a (v : VMA) => decide (a < v.start)) t.entries addr

def split (t : VMATree) (addr : BitVec 64) : Bool × VMATree :=
  let it := t.upper addr
  if it = 0 then (false, t)
  else
    match t.entries[it - 1]? with
    | none => (false, t)
    | some v =>
      if !v.contains addr then (false, t)
      else if addr = v.start then (false, t)
      else if addr = v.endAddr then (false, t)
      else
        let right : VMA :=
          { start := addr, endAddr := v.endAddr, rights := v.rights, backing := v.backing }
        let entries := t.entries.set (it - 1) { v with endAddr := addr }
        (true, { t with entries := sortByStart (entries ++ [right]) })

/-- The loop of `coalesce_equal`: the merges and the entries from index `i` on. The entries before
    `i` are final. -/
def coalesceLoop : List VMA → Nat × List VMA
  | a :: b :: rest =>
    if a.endAddr = b.start ∧ a.rights = b.rights ∧ a.backing = b.backing then
      let r := coalesceLoop ({ a with endAddr := b.endAddr } :: rest)
      (r.1 + 1, r.2)
    else
      let r := coalesceLoop (b :: rest)
      (r.1, a :: r.2)
  | entries => (0, entries)
termination_by entries => entries.length

def coalesceEqual (t : VMATree) : Nat × VMATree :=
  ((coalesceLoop t.entries).1, { t with entries := (coalesceLoop t.entries).2 })

def find (t : VMATree) (addr : BitVec 64) : Option VMA :=
  let it := t.upper addr
  if it = 0 then none
  else
    match t.entries[it - 1]? with
    | some v => if v.contains addr then some v else none
    | none => none

def size (t : VMATree) : Nat := t.entries.length

def totalSize (t : VMATree) : BitVec 64 := t.entries.foldl (fun s v => s + v.size) 0

/-! ## The invariant -/

/-- The ends of an area as numbers. -/
def lo (v : VMA) : Nat := v.start.toNat
def hi (v : VMA) : Nat := v.endAddr.toNat

/-- No area is empty, none overlaps another, and they stand in the order of their addresses. -/
def Ok (t : VMATree) : Prop := Laid lo hi t.entries

theorem contains_iff (v : VMA) (addr : BitVec 64) :
    v.contains addr = true ↔ Within lo hi v addr.toNat := by
  unfold VMA.contains Within lo hi
  rw [Bool.and_eq_true, decide_eq_true_eq, decide_eq_true_eq]
  rfl

/-- Two areas that share a point share an address. -/
theorem exists_contains_iff (v w : VMA) :
    (∃ a, v.contains a = true ∧ w.contains a = true) ↔
      ∃ x, Within lo hi v x ∧ Within lo hi w x := by
  constructor
  · intro h
    obtain ⟨a, hv, hw⟩ := h
    exact ⟨a.toNat, (contains_iff v a).mp hv, (contains_iff w a).mp hw⟩
  · intro h
    obtain ⟨x, hv, hw⟩ := h
    have hlt : x < 2 ^ 64 := Nat.lt_trans hv.2 v.endAddr.isLt
    have hx : (BitVec.ofNat 64 x).toNat = x := by
      rw [BitVec.toNat_ofNat, Nat.mod_eq_of_lt hlt]
    refine ⟨BitVec.ofNat 64 x, (contains_iff v _).mpr ?_, (contains_iff w _).mpr ?_⟩
    · rw [hx]
      exact hv
    · rw [hx]
      exact hw

theorem overlap_eq_false (a b : VMA) : overlap a b = false ↔ Apart lo hi a b := by
  unfold overlap Apart lo hi
  rw [Bool.not_eq_false', Bool.or_eq_true, decide_eq_true_eq, decide_eq_true_eq]
  rfl

theorem sortByStart_perm (entries : List VMA) : (sortByStart entries).Perm entries :=
  List.mergeSort_perm entries _

theorem sortByStart_sorted (entries : List VMA) :
    (sortByStart entries).Pairwise fun a b => lo a ≤ lo b := by
  refine (List.pairwise_mergeSort ?_ ?_ entries).imp fun h => of_decide_eq_true h
  · intro a b c hab hbc
    exact decide_eq_true (BitVec.le_trans (of_decide_eq_true hab) (of_decide_eq_true hbc))
  · intro a b
    rw [Bool.or_eq_true, decide_eq_true_eq, decide_eq_true_eq]
    exact BitVec.le_total a.start b.start

section

variable {t : VMATree}

/-- Where the search for the last area that starts at or before an address ends. -/
theorem upper_cases (h : t.Ok) (addr : BitVec 64) :
    (t.upper addr = 0 ∧ ∀ w ∈ t.entries, addr < w.start) ∨
    ∃ l v r, t.entries = l ++ v :: r ∧ t.upper addr = l.length + 1 ∧ v.start ≤ addr ∧
      ∀ w ∈ r, addr < w.start := by
  have hsorted : t.entries.Pairwise fun (v w : VMA) =>
      (!decide (addr < w.start)) = true → (!decide (addr < v.start)) = true := by
    refine h.strict.imp fun {v w} hvw => ?_
    rw [Bool.not_eq_true', Bool.not_eq_true', decide_eq_false_iff_not, decide_eq_false_iff_not]
    exact fun hw hv => hw (BitVec.lt_trans hv hvw)
  obtain ⟨l, r, heq, hl, hr⟩ := partition_split hsorted
  have hupper : t.upper addr = l.length := by
    unfold upper upperBound
    rw [heq]
    exact partitionPoint_append hl hr
  have hafter : ∀ w ∈ r, addr < w.start := by
    intro w hw
    have := hr w hw
    rw [Bool.not_eq_false'] at this
    exact of_decide_eq_true this
  rcases List.eq_nil_or_concat' l with rfl | ⟨l', v, rfl⟩
  · left
    rw [heq]
    exact ⟨hupper, hafter⟩
  · right
    refine ⟨l', v, r, ?_, ?_, ?_, hafter⟩
    · rw [heq, List.append_assoc]
      rfl
    · rw [hupper, List.length_append]
      rfl
    · have := hl v (List.mem_append_right _ List.mem_cons_self)
      rw [Bool.not_eq_true', decide_eq_false_iff_not] at this
      exact BitVec.not_lt.mp this

theorem getElem?_upper {l r : List VMA} {v : VMA} {n : Nat} (h : t.entries = l ++ v :: r)
    (hn : n = l.length + 1) : t.entries[n - 1]? = some v := by
  rw [h, hn, Nat.add_sub_cancel, List.getElem?_append_right (Nat.le_refl _), Nat.sub_self]
  rfl

theorem find_eq_some (h : t.Ok) {addr : BitVec 64} {v : VMA} :
    t.find addr = some v ↔ v ∈ t.entries ∧ v.contains addr = true := by
  unfold find
  dsimp only
  rcases upper_cases h addr with ⟨hupper, hafter⟩ | ⟨l, w, r, heq, hupper, hle, hafter⟩
  · rw [if_pos hupper]
    constructor
    · intro hnone
      cases hnone
    · intro h
      obtain ⟨hmem, hin⟩ := h
      have hstart := ((contains_iff v addr).mp hin).1
      exact absurd (Nat.lt_of_lt_of_le (hafter v hmem) hstart) (Nat.lt_irrefl _)
  · rw [if_neg (by omega), getElem?_upper heq hupper]
    dsimp only
    constructor
    · intro hsome
      split at hsome
      · next hin =>
        obtain rfl := Option.some.inj hsome
        exact ⟨heq ▸ List.mem_append_right _ List.mem_cons_self, hin⟩
      · cases hsome
    · intro h
      obtain ⟨hmem, hin⟩ := h
      unfold Ok at h
      rw [heq] at h hmem
      obtain rfl : v = w := h.eq_of_within hle hafter hmem ((contains_iff v addr).mp hin)
      rw [if_pos hin]

/-! ## The operations keep it -/

theorem insert_unchanged {v : VMA} (hf : (t.insert v).1 = false) : (t.insert v).2 = t := by
  unfold insert at hf ⊢
  split
  · rfl
  · next hne =>
    split
    · rfl
    · next hfree =>
      rw [if_neg hne, if_neg hfree] at hf
      cases hf

/-- `insert` succeeds for an area that is not empty and apart from every stored one. -/
theorem insert_eq_true {v : VMA} : (t.insert v).1 = true ↔
    v.start < v.endAddr ∧ ∀ e ∈ t.entries, Apart lo hi e v := by
  have hany : (t.entries.any fun e => overlap e v) = false ↔ ∀ e ∈ t.entries, Apart lo hi e v := by
    rw [List.any_eq_false]
    refine forall₂_congr fun e _ => ?_
    rw [Bool.not_eq_true, overlap_eq_false]
  unfold insert
  split
  · next hempty =>
    constructor
    · intro hf
      cases hf
    · intro h
      exact absurd (Nat.lt_of_lt_of_le h.1 hempty) (Nat.lt_irrefl _)
  · next hne =>
    rw [← hany]
    split
    · next hover => simp [hover]
    · next hfree => simpa [BitVec.not_le.mp hne] using hfree

/-- A successful `insert` stores the area, at its place by start address. -/
theorem insert_stored {v : VMA} (hr : (t.insert v).1 = true) :
    (t.insert v).2 = { t with entries := sortByStart (t.entries ++ [v]) } := by
  unfold insert at hr ⊢
  split
  · next hempty =>
    rw [if_pos hempty] at hr
    cases hr
  · next hlt =>
    rw [if_neg hlt] at hr
    split
    · next hover =>
      rw [if_pos hover] at hr
      cases hr
    · rfl

theorem insert_ok (h : t.Ok) (v : VMA) : (t.insert v).2.Ok := by
  cases hr : (t.insert v).1 with
  | false =>
    rw [insert_unchanged hr]
    exact h
  | true =>
    obtain ⟨hne, hapart⟩ := insert_eq_true.mp hr
    rw [insert_stored hr]
    exact h.of_perm hne hapart (sortByStart_perm _) (sortByStart_sorted _)

theorem insert_perm {v : VMA} (hr : (t.insert v).1 = true) :
    (t.insert v).2.entries.Perm (v :: t.entries) := by
  rw [insert_stored hr]
  exact (sortByStart_perm _).trans (List.perm_append_singleton v t.entries)

/-- `erase` takes out the area that starts at the address, and fails if there is none. -/
theorem erase_cases (h : t.Ok) (start : BitVec 64) :
    (∃ l v r, t.entries = l ++ v :: r ∧ v.start = start ∧
      t.erase start = (true, { t with entries := l ++ r })) ∨
    (∀ v ∈ t.entries, v.start ≠ start) ∧ t.erase start = (false, t) := by
  have hsorted : t.entries.Pairwise fun (v w : VMA) =>
      decide (w.start < start) = true → decide (v.start < start) = true := by
    refine h.strict.imp fun {v w} hvw hw => ?_
    exact decide_eq_true (BitVec.lt_trans hvw (of_decide_eq_true hw))
  obtain ⟨l, r, heq, hl, hr⟩ := partition_split hsorted
  have hit : lowerBound (fun (v : VMA) s => decide (v.start < s)) t.entries start = l.length := by
    unfold lowerBound
    rw [heq]
    exact partitionPoint_append hl hr
  have hbefore : ∀ w ∈ l, w.start ≠ start := fun w hw =>
    BitVec.ne_of_lt (of_decide_eq_true (hl w hw))
  unfold erase
  dsimp only
  rw [hit]
  cases r with
  | nil =>
    rw [List.append_nil] at heq
    rw [heq, List.getElem?_eq_none (Nat.le_refl _)]
    exact Or.inr ⟨hbefore, rfl⟩
  | cons v r =>
    have hget : t.entries[l.length]? = some v := by
      rw [heq, List.getElem?_append_right (Nat.le_refl _), Nat.sub_self]
      rfl
    rw [hget]
    dsimp only
    by_cases hstart : v.start = start
    · left
      refine ⟨l, v, r, heq, hstart, ?_⟩
      rw [if_neg (not_not.mpr hstart), heq, List.eraseIdx_append_of_length_le (Nat.le_refl _),
        Nat.sub_self]
      rfl
    · rw [if_pos hstart]
      refine Or.inr ⟨fun w hw => ?_, rfl⟩
      have hge : start ≤ v.start := BitVec.not_lt.mp (of_decide_eq_false (hr v List.mem_cons_self))
      rw [heq] at hw
      rcases List.mem_append.mp hw with hw | hw
      · exact hbefore w hw
      · rcases List.mem_cons.mp hw with rfl | hw
        · exact hstart
        · -- the areas after `v` start above it
          have horder := h.strict
          rw [heq] at horder
          have hvw := List.rel_of_pairwise_cons (List.pairwise_append.mp horder).2.1 hw
          exact (BitVec.ne_of_lt (Nat.lt_of_le_of_lt hge hvw)).symm

theorem erase_ok (h : t.Ok) (start : BitVec 64) : (t.erase start).2.Ok := by
  rcases erase_cases h start with ⟨l, v, r, heq, -, herase⟩ | ⟨-, herase⟩
  · rw [herase]
    refine h.sublist ?_
    rw [heq]
    exact (List.sublist_cons_self v r).append_left l
  · rw [herase]
    exact h

/-- The tree after the area `v` between `l` and `r` has been cut at `addr`. -/
def cutAt (l : List VMA) (v : VMA) (r : List VMA) (addr : BitVec 64) : VMATree where
  entries := sortByStart (l ++ { v with endAddr := addr } :: r ++
    [{ start := addr, endAddr := v.endAddr, rights := v.rights, backing := v.backing }])

/-- What `split` makes of the last area that starts at or before the address. -/
theorem split_found {l r : List VMA} {v : VMA} {addr : BitVec 64} (heq : t.entries = l ++ v :: r)
    (hupper : t.upper addr = l.length + 1) (hle : v.start ≤ addr) :
    t.split addr =
      if v.start < addr ∧ addr < v.endAddr then (true, cutAt l v r addr) else (false, t) := by
  have hset : t.entries.set (t.upper addr - 1) { v with endAddr := addr } =
      l ++ { v with endAddr := addr } :: r := by
    rw [heq, hupper, Nat.add_sub_cancel, List.set_append_right _ _ (Nat.le_refl _), Nat.sub_self]
    rfl
  unfold split
  dsimp only
  rw [if_neg (by omega), getElem?_upper heq hupper]
  dsimp only
  rw [hset]
  by_cases hin : v.start < addr ∧ addr < v.endAddr
  · have hcontains : v.contains addr = true :=
      (contains_iff v addr).mpr ⟨Nat.le_of_lt hin.1, hin.2⟩
    rw [if_pos hin, hcontains, if_neg (by decide), if_neg (BitVec.ne_of_lt hin.1).symm,
      if_neg (BitVec.ne_of_lt hin.2)]
    rfl
  · rw [if_neg hin]
    split
    · rfl
    · next hcontains =>
      have hwithin := (contains_iff v addr).mp (by simpa using hcontains)
      split
      · rfl
      · next hstart =>
        have hlt : v.start < addr :=
          Nat.lt_of_le_of_ne hle fun hsame => hstart (BitVec.eq_of_toNat_eq hsame.symm)
        exact absurd ⟨hlt, hwithin.2⟩ hin

/-- `split` cuts the area that has the address strictly inside, and fails if there is none. -/
theorem split_cases (h : t.Ok) (addr : BitVec 64) :
    (∃ l v r, t.entries = l ++ v :: r ∧ v.start < addr ∧ addr < v.endAddr ∧
      t.split addr = (true, cutAt l v r addr)) ∨
    (∀ v ∈ t.entries, ¬ (v.start < addr ∧ addr < v.endAddr)) ∧ t.split addr = (false, t) := by
  rcases upper_cases h addr with ⟨hupper, hafter⟩ | ⟨l, v, r, heq, hupper, hle, hafter⟩
  · right
    refine ⟨fun v hv hin => Nat.lt_asymm (hafter v hv) hin.1, ?_⟩
    unfold split
    exact if_pos hupper
  · rw [split_found heq hupper hle]
    by_cases hin : v.start < addr ∧ addr < v.endAddr
    · exact Or.inl ⟨l, v, r, heq, hin.1, hin.2, if_pos hin⟩
    · refine Or.inr ⟨fun w hw hw' => hin ?_, if_neg hin⟩
      -- no other area can have the address inside
      unfold Ok at h
      rw [heq] at h hw
      obtain rfl : w = v := h.eq_of_within hle hafter hw ⟨Nat.le_of_lt hw'.1, hw'.2⟩
      exact hw'

theorem split_ok (h : t.Ok) (addr : BitVec 64) : (t.split addr).2.Ok := by
  rcases split_cases h addr with ⟨l, v, r, heq, hlt, hgt, hsplit⟩ | ⟨-, hsplit⟩
  · rw [hsplit]
    unfold Ok at h ⊢
    rw [heq] at h
    have hleft : Laid lo hi (l ++ { v with endAddr := addr } :: r) :=
      h.shorten rfl hlt (Nat.le_of_lt hgt)
    refine hleft.of_perm (v := ⟨addr, v.endAddr, v.rights, v.backing⟩) hgt ?_
      (sortByStart_perm _) (sortByStart_sorted _)
    -- the right half is apart from what was apart from `v`, and from the left half
    obtain ⟨-, hvr, hlvr⟩ := List.pairwise_append.mp h.ordered
    intro w hw
    rcases List.mem_append.mp hw with hw | hw
    · exact Or.inl (Nat.le_trans (hlvr w hw v List.mem_cons_self) (Nat.le_of_lt hlt))
    · rcases List.mem_cons.mp hw with rfl | hw
      · exact Or.inl (Nat.le_refl _)
      · exact Or.inr (List.rel_of_pairwise_cons hvr hw)
  · rw [hsplit]
    exact h

omit t in
/-- The entries before the loop's index stay in order with what the loop makes of the rest. -/
theorem coalesceLoop_laid {l entries : List VMA} (h : Laid lo hi (l ++ entries)) :
    Laid lo hi (l ++ (coalesceLoop entries).2) := by
  fun_induction coalesceLoop entries generalizing l with
  | case1 a b rest heq r =>
    rename_i ih
    exact ih (h.join rfl rfl)
  | case2 a b rest heq r =>
    rename_i ih
    have hkeep : Laid lo hi ((l ++ [a]) ++ (coalesceLoop (b :: rest)).2) :=
      ih (by rwa [List.append_assoc])
    rwa [List.append_assoc] at hkeep
  | case3 entries hshort => exact h

theorem coalesceEqual_ok (h : t.Ok) : t.coalesceEqual.2.Ok :=
  coalesceLoop_laid (l := []) h

end

/-! ## Runs -/

inductive VmaOp where
  | insert (v : VMA)
  | erase (start : BitVec 64)
  | split (addr : BitVec 64)
  | coalesceEqual

def step (t : VMATree) : VmaOp → VMATree
  | .insert v => (t.insert v).2
  | .erase start => (t.erase start).2
  | .split addr => (t.split addr).2
  | .coalesceEqual => t.coalesceEqual.2

theorem step_ok (t : VMATree) (o : VmaOp) (h : t.Ok) : (t.step o).Ok := by
  cases o with
  | insert v => exact insert_ok h v
  | erase start => exact erase_ok h start
  | split addr => exact split_ok h addr
  | coalesceEqual => exact coalesceEqual_ok h

theorem run_ok (ops : List VmaOp) : (run step {} ops).Ok :=
  run_invariant (I := Ok) Laid.nil step_ok ops

/-- After any calls the stored areas are not empty, disjoint and strictly sorted by start; `insert`
    refuses exactly the empty areas and those that share an address with a stored one, and then
    changes nothing, and otherwise stores the area; `erase` takes out the one stored area with the
    start address, if there is one; and `find` returns the one stored area with the address, if
    there is one. -/
theorem vma_tree_sorted_disjoint (ops : List VmaOp) :
    let t := run step {} ops
    (∀ v ∈ t.entries, v.start < v.endAddr) ∧
    (t.entries.Pairwise fun v w => ¬ ∃ a, v.contains a = true ∧ w.contains a = true) ∧
    (t.entries.Pairwise fun v w => v.start < w.start) ∧
    (∀ v, ((t.insert v).1 = false ↔
        v.endAddr ≤ v.start ∨ ∃ e ∈ t.entries, ∃ a, e.contains a = true ∧ v.contains a = true) ∧
      ((t.insert v).1 = false → (t.insert v).2 = t) ∧
      ((t.insert v).1 = true → (t.insert v).2.entries.Perm (v :: t.entries))) ∧
    (∀ start, ((t.erase start).1 = true ∧ ∃ v, v.start = start ∧
        t.entries.Perm (v :: (t.erase start).2.entries)) ∨
      (∀ v ∈ t.entries, v.start ≠ start) ∧ t.erase start = (false, t)) ∧
    ∀ a v, t.find a = some v ↔ v ∈ t.entries ∧ v.contains a = true := by
  intro t
  have h : t.Ok := run_ok ops
  refine ⟨h.nonempty, ?_, h.strict, fun v => ⟨?_, insert_unchanged, insert_perm⟩,
    fun start => (erase_cases h start).imp_left ?_, fun a v => find_eq_some h⟩
  · refine h.disjoint.imp fun {v w} hvw => ?_
    rw [exists_contains_iff]
    exact hvw
  · rw [← Bool.not_eq_true, insert_eq_true, not_and_or, BitVec.not_lt]
    by_cases hempty : v.endAddr ≤ v.start
    · simp only [hempty, true_or]
    · have hne := BitVec.not_le.mp hempty
      simp only [hempty, false_or, not_forall]
      refine exists_congr fun e => ?_
      rw [exists_prop]
      refine and_congr_right fun he => ?_
      rw [apart_iff (h.nonempty e he) hne, not_not, exists_contains_iff]
  · rintro ⟨l, v, r, heq, hstart, herase⟩
    rw [herase, heq]
    exact ⟨rfl, v, hstart, List.perm_middle⟩

end VMATree

end NeuroVerse.Mem
