/-
  A capability space (`sec/cap_space.hpp`): a radix-16 trie of depth 16 keyed by 64-bit
  handles, low nibble first, with a monotonic handle counter.

  `CapabilitySpace` and its operations follow the source on the trie library of
  `Lib.Trie`; the `path` and `idxs` arrays of `erase` are the nibble path itself, and
  counters of type `size_t` are natural numbers. `binding` is the finite map the space stands
  for, `Ok` the invariant under which `lookup` reads it: the source's `lookup` returns the
  value cell of a leaf without asking whether the cell is in use.
-/
import NeuroVerse.Core.Capability
import NeuroVerse.Lib.Trie
import Mathlib.Data.Fintype.Basic
import Mathlib.Tactic.IntervalCases

namespace NeuroVerse.Sec

open NeuroVerse.Core NeuroVerse.Lib

abbrev Handle := BitVec 64

def kRadixBits : Nat := 4
def kRadixSize : Nat := 1 <<< kRadixBits
def kMaxDepth : Nat := 64 / kRadixBits
def kInvalidHandle : Handle := 0

/-- `UINT64_MAX`, the number of counter values `mintHandle` is ready to try. -/
def uint64Max : Nat := 2 ^ 64 - 1

abbrev Node := Trie.Node (Fin kRadixSize) Capability

/-- Digit `depth` of a handle; depth 0 is the least significant nibble. -/
def nibbleAt (h : Handle) (depth : Nat) : Fin kRadixSize :=
  Fin.ofNat 16 ((h >>> (depth * kRadixBits)) &&& 0xF).toNat

/-- The digits of a handle in the order the trie is descended. -/
def path (h : Handle) : List (Fin kRadixSize) := (List.range kMaxDepth).map (nibbleAt h)

structure CapabilitySpace where
  root : Node := .null
  size : Nat := 0
  /-- The root counts as allocated although it is allocated on first insert. -/
  nodeCount : Nat := 1
  nextHandle : Handle := 1

namespace CapabilitySpace

def lookup (s : CapabilitySpace) (h : Handle) : Option Capability :=
  if h = kInvalidHandle then none
  else
    match s.root.walk (path h) with
    | .null => none
    | .node _ value _ => some value

def handleInUse (s : CapabilitySpace) (h : Handle) : Bool :=
  match s.root.walk (path h) with
  | .null => false
  | .node _ _ hasValue => hasValue

def contains (s : CapabilitySpace) (h : Handle) : Bool := s.handleInUse h

/-- The loop of `mintHandle`: the handle found, or 0, and the counter afterwards. -/
def mintHandleLoop (inUse : Handle → Bool) : Nat → Handle → Handle × Handle
  | 0, next => (kInvalidHandle, next)
  | attempt + 1, next =>
    if next = kInvalidHandle then mintHandleLoop inUse attempt (next + 1)
    else if inUse next then mintHandleLoop inUse attempt (next + 1)
    else (next, next + 1)

def mintHandle (s : CapabilitySpace) : Handle × CapabilitySpace :=
  let r := mintHandleLoop s.handleInUse uint64Max s.nextHandle
  (r.1, { s with nextHandle := r.2 })

def insertAt (s : CapabilitySpace) (h : Handle) (cap : Capability) :
    Bool × CapabilitySpace :=
  let root := s.root.alloc
  let s := { s with
    root := root.extend (path h)
    nodeCount := s.nodeCount + root.missing (path h) }
  if s.handleInUse h then (false, s)
  else (true, { s with root := s.root.setValue (path h) cap, size := s.size + 1 })

def insert (s : CapabilitySpace) (cap : Capability) : Handle × CapabilitySpace :=
  match s.mintHandle with
  | (h, s) =>
    if h = kInvalidHandle then (kInvalidHandle, s)
    else
      match s.insertAt h cap with
      | (true, s) => (h, s)
      | (false, s) => (kInvalidHandle, s)

def erase (s : CapabilitySpace) (h : Handle) : Option Capability × CapabilitySpace :=
  if h = kInvalidHandle then (none, s)
  else
    match s.root.walk (path h) with
    | .null => (none, s)
    | .node _ value hasValue =>
      if !hasValue then (none, s)
      else
        let root := s.root.takeValue (path h)
        (some value, { s with
          root := root.prune (path h)
          size := s.size - 1
          nodeCount := s.nodeCount - root.pruned (path h) })

/-! ## Paths -/

theorem path_length (h : Handle) : (path h).length = 16 := by simp [path, kMaxDepth, kRadixBits]

theorem nibbleAt_testBit (h : Handle) (depth i : Nat) (hi : i < 4) :
    (nibbleAt h depth).val.testBit i = h.getLsbD (depth * 4 + i) := by
  have hlt : ((h >>> (depth * 4)) &&& 0xF#64).toNat < 16 := by
    rw [BitVec.toNat_and]
    exact lt_of_le_of_lt Nat.and_le_right (by decide)
  have hval : (nibbleAt h depth).val = ((h >>> (depth * 4)) &&& 0xF#64).toNat :=
    Nat.mod_eq_of_lt hlt
  have hmask : (0xF#64).getLsbD i = true := by
    interval_cases i <;> rfl
  rw [hval, BitVec.testBit_toNat, BitVec.getLsbD_and, hmask, Bool.and_true,
    BitVec.getLsbD_ushiftRight]

/-- Two handles with the same digits are the same handle. -/
theorem path_injective {h h' : Handle} (hp : path h = path h') : h = h' := by
  have hdig : ∀ d, d < 16 → nibbleAt h d = nibbleAt h' d := by
    intro d hd
    have := congrArg (fun l => l[d]?) hp
    simpa [path, kMaxDepth, kRadixBits, hd] using this
  apply BitVec.eq_of_getLsbD_eq
  intro i hi
  have hsplit : i / 4 * 4 + i % 4 = i := Nat.div_add_mod' i 4
  rw [← hsplit, ← nibbleAt_testBit h _ _ (by omega), ← nibbleAt_testBit h' _ _ (by omega),
    hdig (i / 4) (by omega)]

/-! ## The finite map of a space -/

/-- The capability a handle is bound to. -/
def binding (s : CapabilitySpace) (h : Handle) : Option Capability := s.root.get (path h)

/-- The trie is tight and the reserved handle is unbound. -/
structure Ok (s : CapabilitySpace) : Prop where
  tight : s.root.TightRoot 15
  zero : s.binding kInvalidHandle = none

@[simp] theorem binding_empty (h : Handle) : ({} : CapabilitySpace).binding h = none :=
  Trie.Node.get_null (path h)

theorem ok_empty : ({} : CapabilitySpace).Ok := ⟨trivial, binding_empty _⟩

theorem handleInUse_eq (s : CapabilitySpace) (h : Handle) :
    s.handleInUse h = (s.binding h).isSome := by
  unfold handleInUse binding Trie.Node.get
  cases s.root.walk (path h) with
  | null => rfl
  | node c v b => cases b <;> rfl

theorem lookup_eq {s : CapabilitySpace} (hs : s.Ok) (h : Handle) : s.lookup h = s.binding h := by
  unfold lookup
  split
  · rename_i h0
    rw [h0, hs.zero]
  · obtain ⟨a, p, hp⟩ : ∃ a p, path h = a :: p :=
      List.exists_cons_of_length_eq_add_one (path_length h)
    have hlen : p.length = 15 := by simpa [hp] using path_length h
    unfold binding Trie.Node.get
    rw [hp, Trie.Node.walk_cons]
    cases hw : (s.root.child a).walk p with
    | null => rfl
    | node c v b => simp [(hs.tight.child a).hasValue hlen hw]

theorem contains_eq (s : CapabilitySpace) (h : Handle) : s.contains h = (s.binding h).isSome :=
  handleInUse_eq s h

/-! ## Allocating a handle -/

/-- A handle the search returns is not the reserved one and is not in use. -/
theorem mintHandleLoop_free (inUse : Handle → Bool) (n : Nat) (next : Handle)
    (h : (mintHandleLoop inUse n next).1 ≠ kInvalidHandle) :
    inUse (mintHandleLoop inUse n next).1 = false := by
  induction n generalizing next with
  | zero => exact absurd rfl h
  | succ n ih =>
    unfold mintHandleLoop at h ⊢
    split at h
    · rename_i h0
      rw [if_pos h0]
      exact ih _ h
    · rename_i h0
      rw [if_neg h0]
      split at h
      · rename_i hu
        rw [if_pos hu]
        exact ih _ h
      · rename_i hu
        rw [if_neg hu]
        simpa using hu

/-- A counter value that is not reserved and not in use is the handle returned. -/
theorem mintHandleLoop_next (inUse : Handle → Bool) (n : Nat) {next : Handle}
    (h0 : next ≠ kInvalidHandle) (hu : inUse next = false) :
    mintHandleLoop inUse (n + 1) next = (next, next + 1) := by
  rw [mintHandleLoop, if_neg h0, if_neg (by simp [hu])]

/-! ## What each operation does to the finite map -/

theorem binding_insertAt {s : CapabilitySpace} {h : Handle} (cap : Capability)
    (hfree : s.binding h = none) :
    (s.insertAt h cap).1 = true ∧
      ∀ k, (s.insertAt h cap).2.binding k = if k = h then some cap else s.binding k := by
  have hget : (s.root.alloc.extend (path h)).get (path h) = none := by
    rw [Trie.Node.get_extend, Trie.Node.get_alloc]; exact hfree
  unfold insertAt
  simp only [handleInUse_eq, binding, hget, Option.isSome_none, Bool.false_eq_true, if_false,
    true_and]
  intro k
  rw [Trie.Node.get_setValue _ (by rw [path_length, path_length])
    (Trie.Node.walk_extend_ne_null _ _), Trie.Node.get_extend, Trie.Node.get_alloc]
  by_cases hk : k = h
  · rw [if_pos hk, if_pos (congrArg path hk)]
  · rw [if_neg hk, if_neg (fun hp => hk (path_injective hp))]

theorem ok_insertAt {s : CapabilitySpace} (hs : s.Ok) {h : Handle} (h0 : h ≠ kInvalidHandle)
    (cap : Capability) (hfree : s.binding h = none) : (s.insertAt h cap).2.Ok := by
  refine ⟨?_, ?_⟩
  · have hget : (s.root.alloc.extend (path h)).get (path h) = none := by
      rw [Trie.Node.get_extend, Trie.Node.get_alloc]; exact hfree
    unfold insertAt
    simp only [handleInUse_eq, binding, hget, Option.isSome_none, Bool.false_eq_true, if_false]
    exact hs.tight.alloc.insert (path_length h) cap
  · rw [(binding_insertAt cap hfree).2, if_neg (Ne.symm h0), hs.zero]

theorem nextHandle_insertAt (s : CapabilitySpace) (h : Handle) (cap : Capability) :
    (s.insertAt h cap).2.nextHandle = s.nextHandle := by
  simp only [insertAt]
  split <;> rfl

/-- `insert` once the counter search has found a free handle. -/
theorem insert_of_mintHandle {s s' : CapabilitySpace} {h : Handle} (cap : Capability)
    (hm : s.mintHandle = (h, s')) (h0 : h ≠ kInvalidHandle) (hfree : s'.binding h = none) :
    s.insert cap = (h, (s'.insertAt h cap).2) := by
  have hfst := (binding_insertAt cap hfree).1
  simp only [insert, hm, if_neg h0]
  cases hc : s'.insertAt h cap with
  | mk b t =>
    rw [hc] at hfst
    simp only at hfst
    subst hfst
    rfl

/-- The two ways an `insert` ends: no handle was found and only the counter has moved, or a
    handle that was unbound is written at. -/
theorem insert_cases (s : CapabilitySpace) (cap : Capability) :
    (∃ n, s.insert cap = (kInvalidHandle, { s with nextHandle := n })) ∨
      ∃ h n, h ≠ kInvalidHandle ∧ s.binding h = none ∧
        s.insert cap = (h, (insertAt { s with nextHandle := n } h cap).2) := by
  cases hm : s.mintHandle with
  | mk h s' =>
    have hh : h = (mintHandleLoop s.handleInUse uint64Max s.nextHandle).1 :=
      congrArg Prod.fst hm.symm
    have hs' : s' = { s with nextHandle :=
        (mintHandleLoop s.handleInUse uint64Max s.nextHandle).2 } :=
      congrArg Prod.snd hm.symm
    by_cases h0 : h = kInvalidHandle
    · refine Or.inl ⟨(mintHandleLoop s.handleInUse uint64Max s.nextHandle).2, ?_⟩
      simp only [insert, hm, h0, if_true, hs']
    · have hfree : s.binding h = none := by
        have hu := mintHandleLoop_free s.handleInUse uint64Max s.nextHandle (hh ▸ h0)
        rw [← hh, handleInUse_eq] at hu
        simpa using hu
      have hfree' : s'.binding h = none := by rw [hs']; exact hfree
      exact Or.inr ⟨h, _, h0, hfree, hs' ▸ insert_of_mintHandle cap hm h0 hfree'⟩

/-- A failed `insert` leaves the map as it was; a successful one binds a handle that was
    unbound, and nothing else changes. -/
theorem insert_spec {s : CapabilitySpace} (hs : s.Ok) (cap : Capability) :
    (s.insert cap).2.Ok ∧
      if (s.insert cap).1 = kInvalidHandle then (s.insert cap).2.binding = s.binding
      else s.binding (s.insert cap).1 = none ∧
        ∀ k, (s.insert cap).2.binding k =
          if k = (s.insert cap).1 then some cap else s.binding k := by
  have hok : ∀ n, ({ s with nextHandle := n } : CapabilitySpace).Ok :=
    fun _ => ⟨hs.tight, hs.zero⟩
  obtain ⟨n, hins⟩ | ⟨h, n, h0, hfree, hins⟩ := s.insert_cases cap
  · rw [hins]
    exact ⟨hok n, by rw [if_pos rfl]; rfl⟩
  · have hfree' : ({ s with nextHandle := n } : CapabilitySpace).binding h = none := hfree
    rw [hins]
    refine ⟨ok_insertAt (hok n) h0 cap hfree', ?_⟩
    rw [if_neg h0]
    exact ⟨hfree, (binding_insertAt cap hfree').2⟩

/-- While the counter has not wrapped and its value is unbound, `insert` binds the counter's
    value. -/
theorem insert_next {s : CapabilitySpace} (cap : Capability)
    (h0 : s.nextHandle ≠ kInvalidHandle) (hfree : s.binding s.nextHandle = none) :
    s.insert cap = (s.nextHandle,
      (insertAt { s with nextHandle := s.nextHandle + 1 } s.nextHandle cap).2) := by
  have hu : s.handleInUse s.nextHandle = false := by rw [handleInUse_eq, hfree]; rfl
  have hmax : uint64Max = 2 ^ 64 - 2 + 1 := by decide
  have hm : s.mintHandle = (s.nextHandle, { s with nextHandle := s.nextHandle + 1 }) := by
    simp only [mintHandle]
    rw [hmax, mintHandleLoop_next s.handleInUse _ h0 hu]
  exact insert_of_mintHandle cap hm h0 hfree

theorem insert_fresh {s : CapabilitySpace} (cap : Capability)
    (h0 : s.nextHandle ≠ kInvalidHandle) (hfree : s.binding s.nextHandle = none) :
    (s.insert cap).1 = s.nextHandle ∧ (s.insert cap).2.nextHandle = s.nextHandle + 1 := by
  rw [insert_next cap h0 hfree]
  exact ⟨rfl, nextHandle_insertAt _ _ _⟩

theorem erase_eq_binding {s : CapabilitySpace} (hs : s.Ok) (h : Handle) :
    (s.erase h).1 = s.binding h := by
  unfold erase
  split
  · rename_i h0
    rw [h0, hs.zero]
  · unfold binding Trie.Node.get
    cases s.root.walk (path h) with
    | null => rfl
    | node c v b => cases b <;> rfl

theorem binding_erase {s : CapabilitySpace} (hs : s.Ok) (h k : Handle) :
    (s.erase h).2.binding k = if k = h then none else s.binding k := by
  have hskip : s.binding h = none → s.binding k = if k = h then none else s.binding k := by
    intro hn
    split
    · rename_i hk
      rw [hk, hn]
    · rfl
  unfold erase
  split
  · rename_i h0
    exact hskip (by rw [h0, hs.zero])
  · cases hw : s.root.walk (path h) with
    | null => exact hskip (by unfold binding Trie.Node.get; rw [hw])
    | node c v b =>
      cases b with
      | false => exact hskip (by unfold binding Trie.Node.get; rw [hw]; rfl)
      | true =>
        simp only [binding, Bool.not_true, Bool.false_eq_true, if_false]
        rw [Trie.Node.get_prune, Trie.Node.get_takeValue _ (by rw [path_length, path_length])]
        by_cases hk : k = h
        · rw [if_pos hk, if_pos (congrArg path hk)]
        · rw [if_neg hk, if_neg (fun hp => hk (path_injective hp))]

theorem ok_erase {s : CapabilitySpace} (hs : s.Ok) (h : Handle) : (s.erase h).2.Ok := by
  refine ⟨?_, ?_⟩
  · unfold erase
    split
    · exact hs.tight
    · split
      · exact hs.tight
      · split
        · exact hs.tight
        · exact hs.tight.erase (path_length h)
  · rw [binding_erase hs, hs.zero, ite_self]

theorem nextHandle_erase (s : CapabilitySpace) (h : Handle) :
    (s.erase h).2.nextHandle = s.nextHandle := by
  unfold erase
  split
  · rfl
  · split
    · rfl
    · split <;> rfl

/-! ## Sizes -/

theorem size_insertAt {s : CapabilitySpace} {h : Handle} (cap : Capability)
    (hfree : s.binding h = none) : (s.insertAt h cap).2.size = s.size + 1 := by
  have hget : (s.root.alloc.extend (path h)).get (path h) = none := by
    rw [Trie.Node.get_extend, Trie.Node.get_alloc]; exact hfree
  simp only [insertAt, handleInUse_eq, binding, hget, Option.isSome_none, Bool.false_eq_true,
    if_false]

/-- Erasing an unbound handle changes nothing. -/
theorem erase_unbound {s : CapabilitySpace} {h : Handle} (hn : s.binding h = none) :
    s.erase h = (none, s) := by
  unfold binding Trie.Node.get at hn
  unfold erase
  split
  · rfl
  · cases hw : s.root.walk (path h) with
    | null => rfl
    | node c v b =>
      rw [hw] at hn
      cases b with
      | false => rfl
      | true => cases hn

theorem size_erase {s : CapabilitySpace} (hs : s.Ok) {h : Handle} (hb : s.binding h ≠ none) :
    (s.erase h).2.size = s.size - 1 := by
  have h0 : h ≠ kInvalidHandle := fun heq => hb (heq ▸ hs.zero)
  unfold binding Trie.Node.get at hb
  unfold erase
  rw [if_neg h0]
  cases hw : s.root.walk (path h) with
  | null => rw [hw] at hb; exact absurd rfl hb
  | node c v b =>
    rw [hw] at hb
    cases b with
    | false => exact absurd rfl hb
    | true => rfl

end CapabilitySpace

end NeuroVerse.Sec
