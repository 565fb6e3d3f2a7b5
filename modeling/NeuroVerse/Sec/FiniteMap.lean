/-
  The capability space as a finite map.

  `CapMap` says what a space is for: an association list from handles to capabilities, and the
  number of handles issued, which are 1, 2, 3 and so on. `Refines` connects a trie to it; every
  operation of the trie returns what the map returns and keeps the relation, as long as the
  64-bit counter has a handle left to issue.
-/
import NeuroVerse.Lib.Run
import NeuroVerse.Sec.CapSpace
import Mathlib.Data.List.AList

namespace NeuroVerse.Sec

open NeuroVerse.Core NeuroVerse.Lib

inductive MapOp where
  | insert (cap : Capability)
  | erase (h : Handle)
  | lookup (h : Handle)
  | contains (h : Handle)
  | size

/-- What an operation returns. -/
inductive MapResult where
  | handle (h : Handle)
  | cap (c : Option Capability)
  | held (b : Bool)
  | count (n : Nat)
deriving DecidableEq

def CapabilitySpace.step (s : CapabilitySpace) : MapOp → MapResult × CapabilitySpace
  | .insert cap => (.handle (s.insert cap).1, (s.insert cap).2)
  | .erase h => (.cap (s.erase h).1, (s.erase h).2)
  | .lookup h => (.cap (s.lookup h), s)
  | .contains h => (.held (s.contains h), s)
  | .size => (.count s.size, s)

/-! ## The abstract map -/

/-- The bindings, and how many handles have been issued. -/
structure CapMap where
  bound : AList fun _ : Handle => Capability := ∅
  issued : Nat := 0

namespace CapMap

def step (m : CapMap) : MapOp → MapResult × CapMap
  | .insert cap =>
    let h := BitVec.ofNat 64 (m.issued + 1)
    (.handle h, { bound := m.bound.insert h cap, issued := m.issued + 1 })
  | .erase h => (.cap (m.bound.lookup h), { m with bound := m.bound.erase h })
  | .lookup h => (.cap (m.bound.lookup h), m)
  | .contains h => (.held (m.bound.lookup h).isSome, m)
  | .size => (.count m.bound.keys.length, m)

/-- The counter has a handle left for an insert. -/
def Room (m : CapMap) : MapOp → Prop
  | .insert _ => m.issued + 1 < 2 ^ 64
  | _ => True

end CapMap

def MapOp.isInsert : MapOp → Bool
  | .insert _ => true
  | _ => false

/-! ## The refinement -/

/-- The trie stands for the map. -/
structure Refines (s : CapabilitySpace) (m : CapMap) : Prop where
  ok : s.Ok
  binding : ∀ h, s.binding h = m.bound.lookup h
  size : s.size = m.bound.keys.length
  next : s.nextHandle.toNat = (m.issued + 1) % 2 ^ 64
  fresh : ∀ h, m.issued < h.toNat → m.bound.lookup h = none

theorem refines_empty : Refines {} {} where
  ok := CapabilitySpace.ok_empty
  binding h := CapabilitySpace.binding_empty h
  size := rfl
  next := rfl
  fresh _ _ := rfl

section Steps

variable {s : CapabilitySpace} {m : CapMap}

theorem Refines.insert (h : Refines s m) (cap : Capability) (hroom : m.issued + 1 < 2 ^ 64) :
    (s.insert cap).1 = BitVec.ofNat 64 (m.issued + 1) ∧
      Refines (s.insert cap).2 (m.step (.insert cap)).2 := by
  have hval : s.nextHandle.toNat = m.issued + 1 := by rw [h.next, Nat.mod_eq_of_lt hroom]
  have hnext : s.nextHandle = BitVec.ofNat 64 (m.issued + 1) := by
    apply BitVec.eq_of_toNat_eq
    rw [hval, BitVec.toNat_ofNat, Nat.mod_eq_of_lt hroom]
  have h0 : s.nextHandle ≠ kInvalidHandle := by
    intro heq
    rw [heq] at hval
    exact absurd hval (Nat.succ_ne_zero m.issued).symm
  have hunbound : m.bound.lookup s.nextHandle = none := h.fresh _ (by omega)
  have hfree : s.binding s.nextHandle = none := (h.binding _).trans hunbound
  have hfree' : ({ s with nextHandle := s.nextHandle + 1 } : CapabilitySpace).binding
      s.nextHandle = none := hfree
  have hok := (CapabilitySpace.insert_spec h.ok cap).1
  rw [CapabilitySpace.insert_next cap h0 hfree] at hok ⊢
  refine ⟨hnext, hok, ?_, ?_, ?_, ?_⟩
  · intro k
    refine ((CapabilitySpace.binding_insertAt cap hfree').2 k).trans ?_
    show _ = AList.lookup k (m.bound.insert (BitVec.ofNat 64 (m.issued + 1)) cap)
    rw [← hnext]
    by_cases hk : k = s.nextHandle
    · rw [if_pos hk, hk, AList.lookup_insert]
    · rw [if_neg hk, AList.lookup_insert_ne hk]
      exact h.binding k
  · refine (CapabilitySpace.size_insertAt cap hfree').trans ?_
    show s.size + 1 = (m.bound.insert (BitVec.ofNat 64 (m.issued + 1)) cap).keys.length
    have hkeys : s.nextHandle ∉ m.bound.keys := AList.lookup_eq_none.mp hunbound
    rw [← hnext, AList.keys_insert, List.length_cons, List.erase_of_not_mem hkeys, h.size]
  · rw [CapabilitySpace.nextHandle_insertAt]
    show (s.nextHandle + 1).toNat = (m.issued + 1 + 1) % 2 ^ 64
    rw [BitVec.toNat_add, hval]
    rfl
  · intro k hk
    have hlt : m.issued + 1 < k.toNat := hk
    have hne : k ≠ BitVec.ofNat 64 (m.issued + 1) := by
      intro heq
      rw [heq, BitVec.toNat_ofNat, Nat.mod_eq_of_lt hroom] at hlt
      exact Nat.lt_irrefl _ hlt
    exact (AList.lookup_insert_ne hne).trans (h.fresh k (by omega))

theorem Refines.erase (h : Refines s m) (k : Handle) :
    (s.erase k).1 = m.bound.lookup k ∧ Refines (s.erase k).2 (m.step (.erase k)).2 := by
  refine ⟨(CapabilitySpace.erase_eq_binding h.ok k).trans (h.binding k),
    CapabilitySpace.ok_erase h.ok k, ?_, ?_, ?_, ?_⟩
  · intro j
    rw [CapabilitySpace.binding_erase h.ok]
    by_cases hj : j = k
    · rw [if_pos hj, hj]
      exact (AList.lookup_erase k m.bound).symm
    · rw [if_neg hj]
      exact (h.binding j).trans (AList.lookup_erase_ne hj).symm
  · show _ = (m.bound.erase k).keys.length
    rw [AList.keys_erase]
    cases hb : s.binding k with
    | none =>
      have hkeys : k ∉ m.bound.keys := AList.lookup_eq_none.mp ((h.binding k).symm.trans hb)
      rw [CapabilitySpace.erase_unbound hb, List.erase_of_not_mem hkeys]
      exact h.size
    | some c =>
      have hne : s.binding k ≠ none := by rw [hb]; exact Option.some_ne_none c
      have hkeys : k ∈ m.bound.keys := by
        apply AList.lookup_isSome.mp
        rw [← h.binding k, hb]
        rfl
      rw [CapabilitySpace.size_erase h.ok hne, List.length_erase_of_mem hkeys, h.size]
  · rw [CapabilitySpace.nextHandle_erase]
    exact h.next
  · intro j hj
    by_cases hjk : j = k
    · rw [hjk]
      exact AList.lookup_erase k m.bound
    · exact (AList.lookup_erase_ne hjk).trans (h.fresh j hj)

theorem Refines.lookup (h : Refines s m) (k : Handle) : s.lookup k = m.bound.lookup k :=
  (CapabilitySpace.lookup_eq h.ok k).trans (h.binding k)

theorem Refines.contains (h : Refines s m) (k : Handle) :
    s.contains k = (m.bound.lookup k).isSome := by
  rw [CapabilitySpace.contains_eq, h.binding]

theorem Refines.step (h : Refines s m) {o : MapOp} (ho : m.Room o) :
    (s.step o).1 = (m.step o).1 ∧ Refines (s.step o).2 (m.step o).2 := by
  cases o with
  | insert cap =>
    obtain ⟨hr, hs⟩ := h.insert cap ho
    exact ⟨congrArg MapResult.handle hr, hs⟩
  | erase k =>
    obtain ⟨hr, hs⟩ := h.erase k
    exact ⟨congrArg MapResult.cap hr, hs⟩
  | lookup k => exact ⟨congrArg MapResult.cap (h.lookup k), h⟩
  | contains k => exact ⟨congrArg MapResult.held (h.contains k), h⟩
  | size => exact ⟨congrArg MapResult.count h.size, h⟩

end Steps

theorem issued_run (ops : List MapOp) :
    (run (fun m o => (CapMap.step m o).2) {} ops).issued = ops.countP MapOp.isInsert := by
  induction ops using List.reverseRecOn with
  | nil => rfl
  | append_singleton ops o ih =>
    rw [run_snoc, List.countP_append, ← ih]
    cases o <;> rfl

/-- A run of few inserts never exhausts the counter. -/
theorem room_of_few {ops : List MapOp} (h : ops.countP MapOp.isInsert < 2 ^ 64 - 1) :
    StepsMeet (fun m o => (CapMap.step m o).2) CapMap.Room {} ops := by
  intro pre o hp
  cases o with
  | insert cap =>
    have hle : (pre ++ [MapOp.insert cap]).countP MapOp.isInsert ≤ ops.countP MapOp.isInsert :=
      hp.sublist.countP_le
    rw [List.countP_append] at hle
    have hone : [MapOp.insert cap].countP MapOp.isInsert = 1 := rfl
    show (run (fun m o => (CapMap.step m o).2) {} pre).issued + 1 < 2 ^ 64
    rw [issued_run]
    omega
  | _ => trivial

/-- A run of a space with fewer than 2^64 - 1 inserts returns what the finite map returns, and
    ends in a space that reads as the map: `erase` gives back what a handle is bound to and
    unbinds that handle only, and changes nothing at an unbound one. -/
theorem space_is_finite_map (ops : List MapOp)
    (h : ops.countP MapOp.isInsert < 2 ^ 64 - 1) :
    let s := finalState CapabilitySpace.step {} ops
    let m := finalState CapMap.step {} ops
    results CapabilitySpace.step {} ops = results CapMap.step {} ops ∧
      (∀ k, s.lookup k = m.bound.lookup k) ∧
      (∀ k, s.contains k = (s.lookup k).isSome) ∧
      s.size = m.bound.keys.length ∧
      (∀ k c, s.lookup k = some c → (s.erase k).1 = some c ∧
        ∀ j, (s.erase k).2.lookup j = if j = k then none else s.lookup j) ∧
      ∀ k, s.lookup k = none → s.erase k = (none, s) := by
  intro s m
  obtain ⟨hresults, hrel⟩ := refinement CapabilitySpace.step CapMap.step
    (fun _ _ _ hr ho => hr.step ho) refines_empty (room_of_few h)
  have hlookup : ∀ k, s.lookup k = s.binding k := CapabilitySpace.lookup_eq hrel.ok
  refine ⟨hresults, hrel.lookup, ?_, hrel.size, ?_, ?_⟩
  · intro k
    rw [CapabilitySpace.contains_eq, hlookup]
  · intro k c hc
    refine ⟨(CapabilitySpace.erase_eq_binding hrel.ok k).trans ((hlookup k).symm.trans hc), ?_⟩
    intro j
    rw [CapabilitySpace.lookup_eq (CapabilitySpace.ok_erase hrel.ok k),
      CapabilitySpace.binding_erase hrel.ok, hlookup]
  · intro k hk
    exact CapabilitySpace.erase_unbound ((hlookup k).symm.trans hk)

/-- Two inserts, an erase of the first handle and a lookup of the second. -/
theorem space_is_finite_map_churn :
    results CapabilitySpace.step {}
        [.insert (.mint 7 .read 0 0), .insert (.mint 9 .write 0 0), .erase 1, .lookup 2, .size] =
      results CapMap.step {}
        [.insert (.mint 7 .read 0 0), .insert (.mint 9 .write 0 0), .erase 1, .lookup 2, .size] :=
  (space_is_finite_map _ (by decide)).1

/-! ## Fresh handles -/

/-- A run of few inserts leaves a trie that stands for the abstract map, with a handle left for
    the insert that comes next. -/
theorem refines_at_insert {ops pre : List MapOp} {cap : Capability}
    (h : ops.countP MapOp.isInsert < 2 ^ 64 - 1) (hp : pre ++ [.insert cap] <+: ops) :
    ∃ m, Refines (finalState CapabilitySpace.step {} pre) m ∧
      m.issued = pre.countP MapOp.isInsert ∧ m.issued + 1 < 2 ^ 64 := by
  have hroom := room_of_few h
  have hpre := hroom.restrict ((List.prefix_append pre [.insert cap]).trans hp)
  obtain ⟨-, hrel⟩ := refinement CapabilitySpace.step CapMap.step
    (fun _ _ _ hr ho => hr.step ho) refines_empty hpre
  exact ⟨_, hrel, issued_run pre, hroom pre (.insert cap) hp⟩

/-- The handle of an insert counts the inserts so far. -/
theorem handle_of_insert {ops pre : List MapOp} {cap : Capability}
    (h : ops.countP MapOp.isInsert < 2 ^ 64 - 1) (hp : pre ++ [.insert cap] <+: ops) :
    ((finalState CapabilitySpace.step {} pre).insert cap).1.toNat =
      pre.countP MapOp.isInsert + 1 := by
  obtain ⟨m, hrel, hissued, hroom⟩ := refines_at_insert h hp
  rw [(hrel.insert cap hroom).1, BitVec.toNat_ofNat, Nat.mod_eq_of_lt hroom, hissued]

/-- In a run with fewer than 2^64 - 1 inserts, no insert returns the null handle or a handle
    that an earlier insert returned, and each binds a handle that is unbound and leaves every
    other binding as it is. -/
theorem handles_never_reused (ops : List MapOp) (h : ops.countP MapOp.isInsert < 2 ^ 64 - 1)
    (pre : List MapOp) (cap : Capability) (hp : pre ++ [.insert cap] <+: ops) :
    let s := finalState CapabilitySpace.step {} pre
    (s.insert cap).1 ≠ kInvalidHandle ∧
      (∀ pre' cap', pre' ++ [.insert cap'] <+: pre →
        ((finalState CapabilitySpace.step {} pre').insert cap').1 ≠ (s.insert cap).1) ∧
      s.lookup (s.insert cap).1 = none ∧
      ∀ k c, s.lookup k = some c → (s.insert cap).2.lookup k = some c := by
  intro s
  have hval := handle_of_insert h hp
  have h0 : (s.insert cap).1 ≠ kInvalidHandle := by
    intro heq
    rw [heq] at hval
    exact absurd hval (Nat.succ_ne_zero _).symm
  obtain ⟨m, hrel, -, -⟩ := refines_at_insert h hp
  obtain ⟨hok, hspec⟩ := CapabilitySpace.insert_spec hrel.ok cap
  rw [if_neg h0] at hspec
  obtain ⟨hfree, hbind⟩ := hspec
  refine ⟨h0, fun pre' cap' hp' heq => ?_, ?_, fun k c hk => ?_⟩
  · have hpre := (List.prefix_append pre [.insert cap]).trans hp
    have hval' := handle_of_insert h (hp'.trans hpre)
    -- the earlier insert is one of those that the later handle counts
    have hcount := hp'.sublist.countP_le (p := MapOp.isInsert)
    rw [List.countP_append] at hcount
    have hone : [MapOp.insert cap'].countP MapOp.isInsert = 1 := rfl
    rw [heq, hval] at hval'
    omega
  · rw [CapabilitySpace.lookup_eq hrel.ok, hfree]
  · rw [CapabilitySpace.lookup_eq hrel.ok] at hk
    have hne : k ≠ (s.insert cap).1 := by
      intro heq
      rw [heq, hfree] at hk
      cases hk
    rw [CapabilitySpace.lookup_eq hok, hbind, if_neg hne, hk]

/-- The handle of an erased capability is not handed out again. -/
theorem handles_never_reused_erased :
    ((finalState CapabilitySpace.step {} []).insert (.mint 7 .read 0 0)).1 ≠
      ((finalState CapabilitySpace.step {} [.insert (.mint 7 .read 0 0), .erase 1]).insert
        (.mint 9 .write 0 0)).1 :=
  (handles_never_reused [.insert (.mint 7 .read 0 0), .erase 1, .insert (.mint 9 .write 0 0)]
    (by decide) [.insert (.mint 7 .read 0 0), .erase 1] (.mint 9 .write 0 0)
    ⟨[], rfl⟩).2.1 [] (.mint 7 .read 0 0) ⟨[.erase 1], rfl⟩

end NeuroVerse.Sec
