/-
  The deadline queue (`sched/deadline.hpp`): a binary heap of entries ordered by deadline, then
  by the sequence number of their push.

  Time points are any linear order, values any type, and the sequence number has its 64 bits.
  `clock::now()` is an argument. The local variable `top` of `pop` is a result of `popTop`, so
  that the entry taken out can be spoken of and not only its value.

  `Item` is an entry as its caller sees it, with the number of its push in place of the
  sequence number. `Traced` runs a queue with a ledger of the items pushed and popped since the
  last clear; `Kept` is what holds of the two along a run.
-/
import NeuroVerse.Lib.Heap
import NeuroVerse.Lib.Run
import Mathlib.Data.BitVec
import Mathlib.Data.Multiset.AddSub
import Mathlib.Data.Prod.Lex
import Mathlib.Order.Bounds.Basic

namespace NeuroVerse.Sched

open NeuroVerse.Lib

structure DeadlineQueue.Entry (δ τ : Type*) where
  deadline : δ
  /-- Tie-breaker: earlier pushes first. -/
  seq : BitVec 64
  value : τ

structure DeadlineQueue (δ τ : Type*) where
  entries : Array (DeadlineQueue.Entry δ τ) := #[]
  nextSeq : BitVec 64 := 0

variable {δ τ : Type*} [LinearOrder δ]

namespace DeadlineQueue

def Entry.higherPriorityThan (e other : Entry δ τ) : Bool :=
  if e.deadline ≠ other.deadline then e.deadline < other.deadline else e.seq < other.seq

def push (q : DeadlineQueue δ τ) (deadline : δ) (value : τ) : DeadlineQueue δ τ :=
  let entries := q.entries.push ⟨deadline, q.nextSeq, value⟩
  { entries := Heap.siftUp Entry.higherPriorityThan entries (entries.size - 1)
      (by simp [entries])
    nextSeq := q.nextSeq + 1 }

/-- `pop` with the whole of the entry it takes out. -/
def popTop (q : DeadlineQueue δ τ) : Option (Entry δ τ) × DeadlineQueue δ τ :=
  if h : 0 < q.entries.size then
    let top := q.entries[0]
    let entries := Heap.dropRoot q.entries h
    (some top, { q with
      entries :=
        if entries.isEmpty then entries
        else Heap.siftDown Entry.higherPriorityThan entries 0 })
  else (none, q)

def pop (q : DeadlineQueue δ τ) : Option τ × DeadlineQueue δ τ :=
  (q.popTop.1.map Entry.value, q.popTop.2)

def nextDeadline (q : DeadlineQueue δ τ) : Option δ := q.entries[0]?.map Entry.deadline

/-- `tryPop` with the whole of the entry it takes out. -/
def tryPopTop (q : DeadlineQueue δ τ) (now : δ) : Option (Entry δ τ) × DeadlineQueue δ τ :=
  if h : 0 < q.entries.size then
    if now < q.entries[0].deadline then (none, q) else q.popTop
  else (none, q)

def tryPop (q : DeadlineQueue δ τ) (now : δ) : Option τ × DeadlineQueue δ τ :=
  ((q.tryPopTop now).1.map Entry.value, (q.tryPopTop now).2)

def clear (q : DeadlineQueue δ τ) : DeadlineQueue δ τ := { q with entries := #[] }

inductive Op (δ τ : Type*) where
  | push (deadline : δ) (value : τ)
  | pop
  | tryPop (now : δ)
  | clear

def Op.isPush : Op δ τ → Bool
  | .push _ _ => true
  | _ => false

/-- One operation, with the entry it takes out. -/
def step (q : DeadlineQueue δ τ) : Op δ τ → Option (Entry δ τ) × DeadlineQueue δ τ
  | .push deadline value => (none, q.push deadline value)
  | .pop => q.popTop
  | .tryPop now => q.tryPopTop now
  | .clear => (none, q.clear)

/-! ## What the caller sees -/

/-- What was pushed, and how many pushes came before it. -/
structure Item (δ τ : Type*) where
  deadline : δ
  order : Nat
  value : τ

/-- The order of the queue: by deadline, then by push. -/
def Item.Before (x y : Item δ τ) : Prop :=
  x.deadline < y.deadline ∨ x.deadline = y.deadline ∧ x.order < y.order

def Entry.item (e : Entry δ τ) : Item δ τ := ⟨e.deadline, e.seq.toNat, e.value⟩

/-- The items in the queue. -/
def queued (q : DeadlineQueue δ τ) : Multiset (Item δ τ) :=
  ↑(q.entries.toList.map Entry.item)

/-- A queue, the number of pushes made, and what was pushed and popped since the last clear. -/
structure Traced (δ τ : Type*) where
  queue : DeadlineQueue δ τ := {}
  pushes : Nat := 0
  pushed : Multiset (Item δ τ) := 0
  popped : Multiset (Item δ τ) := 0

def Traced.step (t : Traced δ τ) (o : Op δ τ) : Traced δ τ :=
  let t' := { t with queue := (t.queue.step o).2 }
  match o with
  | .push deadline value =>
    { t' with pushes := t.pushes + 1, pushed := ⟨deadline, t.pushes, value⟩ ::ₘ t.pushed }
  | .pop | .tryPop _ =>
    match (t.queue.step o).1 with
    | some top => { t' with popped := top.item ::ₘ t.popped }
    | none => t'
  | .clear => { t' with pushed := 0, popped := 0 }

/-! ## The order of the entries -/

/-- Entries are compared by their deadline, then by their sequence number. -/
def Entry.key (e : Entry δ τ) : δ ×ₗ Nat := toLex (e.deadline, e.seq.toNat)

theorem Entry.higherPriorityThan_iff (e other : Entry δ τ) :
    e.higherPriorityThan other = true ↔ e.key < other.key := by
  unfold Entry.higherPriorityThan Entry.key
  rw [Prod.Lex.toLex_lt_toLex]
  split
  · rename_i hne
    simp [hne]
  · rename_i heq
    rw [not_not] at heq
    simp [heq, BitVec.lt_def]

theorem Entry.before_of_key_le {e f : Entry δ τ} (h : e.key ≤ f.key)
    (hne : e.item.order ≠ f.item.order) : e.item.Before f.item := by
  unfold Entry.key at h
  rw [Prod.Lex.toLex_le_toLex] at h
  rcases h with h | ⟨heq, hle⟩
  · exact Or.inl h
  · exact Or.inr ⟨heq, lt_of_le_of_ne hle hne⟩

/-! ## What each operation does -/

section Operations

variable {q : DeadlineQueue δ τ}

theorem ordered_push (h : Heap.Ordered Entry.key q.entries) (deadline : δ) (value : τ) :
    Heap.Ordered Entry.key (q.push deadline value).entries := by
  refine Heap.siftUp_ordered Entry.higherPriorityThan_iff _ ?_
  have hsize : (q.entries.push ⟨deadline, q.nextSeq, value⟩).size - 1 = q.entries.size := by
    rw [Array.size_push, Nat.add_sub_cancel]
  rw [hsize]
  exact h.upReady_push _

theorem queued_push (q : DeadlineQueue δ τ) (deadline : δ) (value : τ) :
    (q.push deadline value).queued = ⟨deadline, q.nextSeq.toNat, value⟩ ::ₘ q.queued := by
  have hperm : (q.push deadline value).entries.toList.Perm
      (q.entries.push ⟨deadline, q.nextSeq, value⟩).toList :=
    (Heap.siftUp_perm Entry.higherPriorityThan _ _ _).toList
  unfold queued
  rw [Multiset.cons_coe, Multiset.coe_eq_coe]
  refine (hperm.map Entry.item).trans ?_
  rw [Array.toList_push, List.map_append]
  exact List.perm_append_singleton _ _

theorem popTop_empty (h : q.queued = 0) : q.popTop = (none, q) := by
  have hsize : ¬ 0 < q.entries.size := by
    unfold queued at h
    rw [Multiset.coe_eq_zero, List.map_eq_nil_iff] at h
    rw [← Array.length_toList, h]
    exact Nat.lt_irrefl 0
  rw [popTop, dif_neg hsize]

omit [LinearOrder δ] in
theorem size_pos_of_queued (h : q.queued ≠ 0) : 0 < q.entries.size := by
  rw [← Array.length_toList, List.length_pos_iff]
  intro hnil
  exact h (by rw [queued, hnil]; rfl)

theorem popTop_fst (h : 0 < q.entries.size) : q.popTop.1 = some q.entries[0] := by
  rw [popTop, dif_pos h]

theorem nextSeq_popTop (q : DeadlineQueue δ τ) : q.popTop.2.nextSeq = q.nextSeq := by
  unfold popTop
  split <;> rfl

theorem ordered_popTop (hq : Heap.Ordered Entry.key q.entries) :
    Heap.Ordered Entry.key q.popTop.2.entries := by
  unfold popTop
  split
  · rename_i h
    dsimp only
    split
    · rename_i hempty
      rw [Array.isEmpty_iff.mp hempty]
      exact Heap.ordered_empty Entry.key
    · exact Heap.siftDown_ordered Entry.higherPriorityThan_iff (hq.downReady_dropRoot h)
  · exact hq

theorem queued_popTop (h : 0 < q.entries.size) :
    q.queued = q.entries[0].item ::ₘ q.popTop.2.queued := by
  have hrest : q.popTop.2.entries.toList.Perm (Heap.dropRoot q.entries h).toList := by
    rw [popTop, dif_pos h]
    dsimp only
    split
    · exact List.Perm.refl _
    · exact (Heap.siftDown_perm Entry.higherPriorityThan _ 0).toList
  have hperm := (hrest.cons q.entries[0]).trans (Heap.dropRoot_perm q.entries h)
  unfold queued
  rw [Multiset.cons_coe, Multiset.coe_eq_coe]
  exact (hperm.map Entry.item).symm

/-- The root comes first of all items in the queue, in the order of the keys. -/
theorem root_key_le (hq : Heap.Ordered Entry.key q.entries) (h : 0 < q.entries.size)
    {x : Item δ τ} (hx : x ∈ q.queued) :
    ∃ e : Entry δ τ, e.item = x ∧ q.entries[0].key ≤ e.key := by
  obtain ⟨e, he, rfl⟩ := List.mem_map.mp (Multiset.mem_coe.mp hx)
  obtain ⟨i, hi, rfl⟩ := List.mem_iff_getElem.mp he
  exact ⟨_, rfl, hq.root_le (by simpa using hi)⟩

/-- `next_deadline` is the least deadline in the queue. -/
theorem nextDeadline_iff (hq : Heap.Ordered Entry.key q.entries) (d : δ) :
    q.nextDeadline = some d ↔ IsLeast { d | ∃ x ∈ q.queued, x.deadline = d } d := by
  by_cases h : 0 < q.entries.size
  · have hroot : q.entries[0].item ∈ q.queued := by
      rw [queued_popTop h]
      exact Multiset.mem_cons_self _ _
    have hleast : IsLeast { d | ∃ x ∈ q.queued, x.deadline = d } q.entries[0].deadline := by
      refine ⟨⟨_, hroot, rfl⟩, ?_⟩
      rintro _ ⟨x, hx, rfl⟩
      obtain ⟨e, rfl, hle⟩ := root_key_le hq h hx
      rcases Prod.Lex.toLex_le_toLex.mp hle with hlt | ⟨heq, -⟩
      · exact hlt.le
      · exact heq.le
    rw [nextDeadline, Array.getElem?_eq_getElem h, Option.map_some, Option.some_inj]
    constructor
    · rintro rfl
      exact hleast
    · exact hleast.unique
  · have hnone : q.nextDeadline = none := by
      rw [nextDeadline, Array.getElem?_eq_none (Nat.not_lt.mp h), Option.map_none]
    rw [hnone]
    constructor
    · intro heq
      cases heq
    · rintro ⟨⟨x, hx, -⟩, -⟩
      exact absurd (size_pos_of_queued fun h0 => Multiset.notMem_zero x (h0 ▸ hx)) h

end Operations

/-! ## Runs -/

/-- What holds of a queue and its ledger as long as no sequence number is used twice. -/
structure Kept (t : Traced δ τ) : Prop where
  ordered : Heap.Ordered Entry.key t.queue.entries
  next : t.queue.nextSeq = BitVec.ofNat 64 t.pushes
  balance : t.popped + t.queue.queued = t.pushed
  older : ∀ x ∈ t.pushed, x.order < t.pushes
  distinct : (t.pushed.map Item.order).Nodup

theorem kept_start : Kept ({} : Traced δ τ) where
  ordered := Heap.ordered_empty Entry.key
  next := rfl
  balance := rfl
  older x hx := absurd hx (Multiset.notMem_zero x)
  distinct := Multiset.nodup_zero

section Steps

variable {t : Traced δ τ}

theorem Kept.push (h : Kept t) (hroom : t.pushes < 2 ^ 64) (deadline : δ) (value : τ) :
    Kept (t.step (.push deadline value)) where
  ordered := ordered_push h.ordered deadline value
  next := by
    show t.queue.nextSeq + 1 = BitVec.ofNat 64 (t.pushes + 1)
    rw [h.next, BitVec.ofNat_add]
    rfl
  balance := by
    show t.popped + (t.queue.push deadline value).queued = _ ::ₘ t.pushed
    rw [queued_push, h.next, BitVec.toNat_ofNat, Nat.mod_eq_of_lt hroom, Multiset.add_cons,
      h.balance]
  older x hx := by
    rcases Multiset.mem_cons.mp hx with rfl | hx
    · exact Nat.lt_succ_self t.pushes
    · exact (h.older x hx).trans (Nat.lt_succ_self t.pushes)
  distinct := by
    show (Multiset.map Item.order (_ ::ₘ t.pushed)).Nodup
    rw [Multiset.map_cons, Multiset.nodup_cons]
    refine ⟨fun hmem => ?_, h.distinct⟩
    obtain ⟨x, hx, hxo⟩ := Multiset.mem_map.mp hmem
    exact absurd hxo (h.older x hx).ne

theorem Kept.clear (h : Kept t) : Kept (t.step .clear) where
  ordered := Heap.ordered_empty Entry.key
  next := h.next
  balance := rfl
  older x hx := absurd hx (Multiset.notMem_zero x)
  distinct := Multiset.nodup_zero

/-- The two operations that take an entry out. -/
theorem Kept.pop (h : Kept t) : Kept (t.step .pop) := by
  by_cases hsize : 0 < t.queue.entries.size
  · have hstep : t.step .pop = { t with
        queue := t.queue.popTop.2
        popped := t.queue.entries[0].item ::ₘ t.popped } := by
      simp only [Traced.step, DeadlineQueue.step, popTop_fst hsize]
    rw [hstep]
    refine ⟨ordered_popTop h.ordered, (nextSeq_popTop _).trans h.next, ?_, h.older, h.distinct⟩
    show t.queue.entries[0].item ::ₘ t.popped + t.queue.popTop.2.queued = t.pushed
    rw [Multiset.cons_add, ← Multiset.add_cons, ← queued_popTop hsize, h.balance]
  · have hstep : t.step .pop = t := by
      simp only [Traced.step, DeadlineQueue.step, popTop, dif_neg hsize]
    rw [hstep]
    exact h

theorem step_tryPop (t : Traced δ τ) (now : δ) :
    t.step (.tryPop now) = t.step .pop ∨ t.step (.tryPop now) = t := by
  by_cases hsize : 0 < t.queue.entries.size
  · by_cases hnow : now < t.queue.entries[0].deadline
    · right
      simp only [Traced.step, DeadlineQueue.step, tryPopTop, dif_pos hsize, if_pos hnow]
    · left
      simp only [Traced.step, DeadlineQueue.step, tryPopTop, dif_pos hsize, if_neg hnow]
  · right
    simp only [Traced.step, DeadlineQueue.step, tryPopTop, dif_neg hsize]

theorem Kept.step (h : Kept t) {o : Op δ τ} (hroom : o.isPush = true → t.pushes < 2 ^ 64) :
    Kept (t.step o) := by
  cases o with
  | push deadline value => exact h.push (hroom rfl) deadline value
  | pop => exact h.pop
  | tryPop now =>
    rcases step_tryPop t now with hstep | hstep
    · rw [hstep]
      exact h.pop
    · rw [hstep]
      exact h
  | clear => exact h.clear

/-- The entry taken out comes strictly before all that stay. -/
theorem Kept.pop_before (h : Kept t) (hsize : 0 < t.queue.entries.size) {y : Item δ τ}
    (hy : y ∈ t.queue.popTop.2.queued) : t.queue.entries[0].item.Before y := by
  have hcons := queued_popTop hsize
  have hmem : y ∈ t.queue.queued := by
    rw [hcons]
    exact Multiset.mem_cons_of_mem hy
  obtain ⟨e, rfl, hle⟩ := root_key_le h.ordered hsize hmem
  refine Entry.before_of_key_le hle fun heq => ?_
  have hdistinct := h.distinct
  rw [← h.balance, hcons, Multiset.add_cons, Multiset.map_cons, Multiset.nodup_cons,
    heq] at hdistinct
  exact hdistinct.1 (Multiset.mem_map_of_mem Item.order (Multiset.mem_add.mpr (Or.inr hy)))

theorem pushes_step (t : Traced δ τ) (o : Op δ τ) :
    (t.step o).pushes = t.pushes + o.isPush.toNat := by
  cases o with
  | push deadline value => rfl
  | clear => rfl
  | pop => unfold Traced.step; dsimp only; split <;> rfl
  | tryPop now => unfold Traced.step; dsimp only; split <;> rfl

theorem queue_step (t : Traced δ τ) (o : Op δ τ) :
    (t.step o).queue = (t.queue.step o).2 := by
  cases o with
  | push deadline value => rfl
  | clear => rfl
  | pop => unfold Traced.step; dsimp only; split <;> rfl
  | tryPop now => unfold Traced.step; dsimp only; split <;> rfl

end Steps

theorem pushes_run (ops : List (Op δ τ)) :
    (run Traced.step {} ops).pushes = ops.countP Op.isPush := by
  induction ops using List.reverseRecOn with
  | nil => rfl
  | append_singleton ops o ih =>
    rw [run_snoc, pushes_step, ih, List.countP_append, List.countP_singleton]
    cases o.isPush <;> rfl

theorem queue_run (ops : List (Op δ τ)) :
    (run Traced.step {} ops).queue = finalState DeadlineQueue.step {} ops := by
  induction ops using List.reverseRecOn with
  | nil => rfl
  | append_singleton ops o ih =>
    rw [run_snoc, queue_step, ih]
    exact (run_snoc (fun q o => (DeadlineQueue.step q o).2) {} ops o).symm

theorem kept_run {ops : List (Op δ τ)} (h : ops.countP Op.isPush < 2 ^ 64) :
    Kept (run Traced.step {} ops) := by
  induction ops using List.reverseRecOn with
  | nil => exact kept_start
  | append_singleton ops o ih =>
    rw [List.countP_append] at h
    rw [run_snoc]
    refine (ih (by omega)).step fun _ => ?_
    rw [pushes_run]
    omega

/-- In a run of fewer than 2^64 pushes `pop` takes out the item that comes first by deadline
    and push, or nothing when there is none; `next_deadline` is the least deadline; what was
    pushed since the last clear has been popped or is still there; and the array is a heap. -/
theorem stable_priority_queue (ops : List (Op δ τ)) (h : ops.countP Op.isPush < 2 ^ 64) :
    let q := finalState DeadlineQueue.step {} ops
    let t := run Traced.step {} ops
    (q.queued = 0 → q.pop = (none, q)) ∧
      (q.queued ≠ 0 → ∃ x, q.pop.1 = some x.value ∧ q.queued = x ::ₘ q.pop.2.queued ∧
        ∀ y ∈ q.pop.2.queued, x.Before y) ∧
      (∀ d, q.nextDeadline = some d ↔ IsLeast { d | ∃ x ∈ q.queued, x.deadline = d } d) ∧
      t.popped + q.queued = t.pushed ∧
      Heap.Ordered Entry.key q.entries := by
  intro q t
  have hkept : Kept t := kept_run h
  have hq : t.queue = q := queue_run ops
  rw [← hq]
  refine ⟨fun h0 => ?_, fun h0 => ?_, nextDeadline_iff hkept.ordered, hkept.balance,
    hkept.ordered⟩
  · rw [pop, popTop_empty h0]
    rfl
  · have hsize := size_pos_of_queued h0
    refine ⟨t.queue.entries[0].item, ?_, queued_popTop hsize, fun y hy => ?_⟩
    · rw [pop, popTop_fst hsize]
      rfl
    · exact hkept.pop_before hsize hy

/-- Of two pushes with one deadline, `pop` takes out the first one. -/
theorem stable_priority_queue_two :
    (finalState DeadlineQueue.step ({} : DeadlineQueue Nat Char)
      [.push 5 'a', .push 5 'b']).pop.1 = some 'a' := by
  obtain ⟨-, hpop, -, hledger, -⟩ :=
    stable_priority_queue (δ := Nat) [.push 5 'a', .push 5 'b'] (by decide)
  have hqueued : (finalState DeadlineQueue.step ({} : DeadlineQueue Nat Char)
      [.push 5 'a', .push 5 'b']).queued = {⟨5, 1, 'b'⟩, ⟨5, 0, 'a'⟩} :=
    (Multiset.zero_add _).symm.trans hledger
  obtain ⟨x, hx, hsplit, hfirst⟩ := hpop (by rw [hqueued]; exact Multiset.cons_ne_zero)
  rw [hqueued] at hsplit
  have hmem : x ∈ ({⟨5, 1, 'b'⟩, ⟨5, 0, 'a'⟩} : Multiset (Item Nat Char)) :=
    hsplit ▸ Multiset.mem_cons_self x _
  rcases Multiset.mem_cons.mp hmem with rfl | hmem
  · -- the second push would come before the first
    have hrest := (Multiset.cons_inj_right _).mp hsplit
    have hbefore := hfirst ⟨5, 0, 'a'⟩ (hrest ▸ Multiset.mem_singleton_self _)
    exact absurd hbefore (by simp [Item.Before])
  · rw [hx, Multiset.mem_singleton.mp hmem]

end DeadlineQueue

end NeuroVerse.Sched
