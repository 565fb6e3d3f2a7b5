/-
  The nodes a capability space keeps allocated.

  `Counted` is the invariant of `node_count`: the counter is the number of nodes of the trie,
  with the root counted from the start although it is allocated on the first insert. With the
  tightness of the trie it says that the counter is one more than the number of non-empty
  prefixes of the bound handles' nibble paths: `erase` leaves no node behind that no bound
  handle needs, and frees none that one does.
-/
import NeuroVerse.Lib.TrieNodes
import NeuroVerse.Sec.FiniteMap
import Mathlib.Data.Fintype.BigOperators
import Mathlib.Data.FinEnum
import Mathlib.Data.Set.Card

namespace NeuroVerse.Sec

open NeuroVerse.Core NeuroVerse.Lib

namespace CapabilitySpace

/-- The path of a handle with its length. -/
def nibbles (h : Handle) : List.Vector (Fin kRadixSize) 16 := ⟨path h, path_length h⟩

/-- Every sequence of sixteen nibbles is the path of a handle: there are 2^64 of both. -/
theorem path_surjective {p : List (Fin kRadixSize)} (hp : p.length = 16) : ∃ h, path h = p := by
  have hcard : Fintype.card Handle = Fintype.card (List.Vector (Fin kRadixSize) 16) := by
    rw [card_vector, Fintype.card_fin, ← FinEnum.card_eq_fintypeCard, FinEnum.card_bitVec]
    decide
  have hinj : Function.Injective nibbles :=
    fun _ _ heq => path_injective (congrArg Subtype.val heq)
  have hbij := (Fintype.bijective_iff_injective_and_card nibbles).mpr ⟨hinj, hcard⟩
  obtain ⟨h, hh⟩ := hbij.surjective ⟨p, hp⟩
  exact ⟨h, congrArg Subtype.val hh⟩

/-- The non-empty prefixes, low nibble first, of the bound handles. -/
def boundPrefixes (s : CapabilitySpace) : Set (List (Fin kRadixSize)) :=
  { p | p ≠ [] ∧ ∃ h, s.contains h = true ∧ p <+: path h }

/-- The counter is the number of allocated nodes. -/
structure Counted (s : CapabilitySpace) : Prop where
  ok : s.Ok
  count : s.nodeCount = s.root.alloc.nodes.card

theorem counted_empty : ({} : CapabilitySpace).Counted := ⟨ok_empty, rfl⟩

section Step

variable {s : CapabilitySpace}

theorem counted_insertAt (hs : s.Counted) {h : Handle} (h0 : h ≠ kInvalidHandle)
    (cap : Capability) (hfree : s.binding h = none) : (s.insertAt h cap).2.Counted := by
  refine ⟨ok_insertAt hs.ok h0 cap hfree, ?_⟩
  have hget : (s.root.alloc.extend (path h)).get (path h) = none := by
    rw [Trie.Node.get_extend, Trie.Node.get_alloc]
    exact hfree
  unfold insertAt
  simp only [handleInUse_eq, binding, hget, Option.isSome_none, Bool.false_eq_true, if_false]
  rw [Trie.Node.alloc_eq_self (Trie.Node.setValue_extend_ne_null _ _ cap),
    Trie.Node.nodes_setValue, Trie.Node.card_nodes_extend, hs.count]

theorem counted_insert (hs : s.Counted) (cap : Capability) : (s.insert cap).2.Counted := by
  have hnext : ∀ n, ({ s with nextHandle := n } : CapabilitySpace).Counted :=
    fun _ => ⟨⟨hs.ok.tight, hs.ok.zero⟩, hs.count⟩
  obtain ⟨n, hins⟩ | ⟨h, n, h0, hfree, hins⟩ := s.insert_cases cap
  · rw [hins]
    exact hnext n
  · rw [hins]
    exact counted_insertAt (hnext n) h0 cap hfree

theorem counted_erase (hs : s.Counted) (h : Handle) : (s.erase h).2.Counted := by
  refine ⟨ok_erase hs.ok h, ?_⟩
  unfold erase
  split
  · exact hs.count
  · cases hw : s.root.walk (path h) with
    | null => exact hs.count
    | node c v b =>
      cases b with
      | false => exact hs.count
      | true =>
        have hroot : s.root ≠ .null := by
          intro hnull
          rw [hnull, Trie.Node.walk_null] at hw
          cases hw
        have htake : s.root.takeValue (path h) ≠ .null := Trie.Node.modify_ne_null _ hroot _
        have hcount := hs.count
        have hfreed := Trie.Node.card_nodes_prune (s.root.takeValue (path h)) (path h)
        rw [Trie.Node.nodes_takeValue] at hfreed
        rw [Trie.Node.alloc_eq_self hroot] at hcount
        simp only [Bool.not_true, Bool.false_eq_true, if_false]
        rw [Trie.Node.alloc_eq_self (Trie.Node.prune_ne_null htake _), hcount]
        omega

theorem counted_step (hs : s.Counted) (o : MapOp) : (s.step o).2.Counted := by
  cases o with
  | insert cap => exact counted_insert hs cap
  | erase h => exact counted_erase hs h
  | _ => exact hs

/-- The root pointer reaches a bound handle's prefixes and no other node. -/
theorem walk_iff_boundPrefix (hs : s.Ok) {p : List (Fin kRadixSize)} (hne : p ≠ []) :
    s.root.walk p ≠ .null ↔ p ∈ s.boundPrefixes := by
  constructor
  · intro hp
    obtain ⟨q, hq, hpre, hget⟩ := hs.tight.get_of_walk hne hp
    obtain ⟨h, rfl⟩ := path_surjective hq
    refine ⟨hne, h, ?_, hpre⟩
    rw [contains_eq]
    exact Option.isSome_iff_ne_none.mpr hget
  · rintro ⟨-, h, hh, hpre⟩
    rw [contains_eq] at hh
    exact Trie.Node.walk_of_prefix hpre
      (Trie.Node.walk_of_get (Option.isSome_iff_ne_none.mp hh))

theorem nodeCount_eq (hs : s.Counted) : s.nodeCount = 1 + s.boundPrefixes.ncard := by
  have hroot : [] ∈ s.root.alloc.nodes :=
    Trie.Node.mem_nodes.mpr (by rw [Trie.Node.walk_nil]; exact Trie.Node.alloc_ne_null _)
  have hset : s.boundPrefixes = ↑(s.root.alloc.nodes.erase []) := by
    ext p
    cases p with
    | nil => simp [boundPrefixes]
    | cons a p =>
      rw [← walk_iff_boundPrefix hs.ok (List.cons_ne_nil a p), Finset.mem_coe, Finset.mem_erase,
        Trie.Node.mem_nodes, Trie.Node.walk_cons, Trie.Node.walk_cons, Trie.Node.child_alloc]
      simp
  rw [hset, Set.ncard_coe_finset, hs.count, Nat.add_comm,
    Finset.card_erase_add_one hroot]

/-- Erasing the handle an insert has just returned leaves the bindings as they were. -/
theorem binding_erase_insert (hs : s.Ok) (cap : Capability) :
    ((s.insert cap).2.erase (s.insert cap).1).2.binding = s.binding := by
  obtain ⟨hok, hspec⟩ := insert_spec hs cap
  funext k
  rw [binding_erase hok]
  by_cases h0 : (s.insert cap).1 = kInvalidHandle
  · rw [if_pos h0] at hspec
    rw [h0, hspec]
    split
    · rename_i hk
      rw [hk, hs.zero]
    · rfl
  · rw [if_neg h0] at hspec
    obtain ⟨hfree, hbind⟩ := hspec
    split
    · rename_i hk
      rw [hk, hfree]
    · rename_i hk
      rw [hbind, if_neg hk]

theorem boundPrefixes_congr {s t : CapabilitySpace} (h : s.binding = t.binding) :
    s.boundPrefixes = t.boundPrefixes := by
  unfold boundPrefixes
  simp only [contains_eq, h]

end Step

end CapabilitySpace

/-- After any sequence of operations every allocated node below the root lies on the path of a
    bound handle, the node counter is one more than the number of their non-empty prefixes, and
    an insert followed by the erase of its handle leaves the counter where it was. -/
theorem no_node_leaked (ops : List MapOp) :
    let s := finalState CapabilitySpace.step {} ops
    (∀ p, p ≠ [] → s.root.walk p ≠ .null → ∃ h, s.contains h = true ∧ p <+: path h) ∧
      s.nodeCount = 1 + s.boundPrefixes.ncard ∧
      ∀ cap, ((s.insert cap).2.erase (s.insert cap).1).2.nodeCount = s.nodeCount := by
  intro s
  have hs : s.Counted := run_invariant CapabilitySpace.counted_empty
    (fun _ o h => CapabilitySpace.counted_step h o) ops
  refine ⟨fun p hne hp => ((CapabilitySpace.walk_iff_boundPrefix hs.ok hne).mp hp).2,
    CapabilitySpace.nodeCount_eq hs, fun cap => ?_⟩
  have hback : ((s.insert cap).2.erase (s.insert cap).1).2.Counted :=
    CapabilitySpace.counted_erase (CapabilitySpace.counted_insert hs cap) _
  rw [CapabilitySpace.nodeCount_eq hback, CapabilitySpace.nodeCount_eq hs,
    CapabilitySpace.boundPrefixes_congr (CapabilitySpace.binding_erase_insert hs.ok cap)]

end NeuroVerse.Sec
