/-
  What `split` and `coalesce_equal` leave alone (`mem/vma_tree.hpp`).

  A registry stands for a partial function from addresses to rights and backing (`attrsAt`).
  Both operations only move borders between areas of the same attributes: `split` cuts one area
  in two and sorts, `coalesce_equal` undoes such cuts. `SameMap` is what either keeps, and the
  rule for a cut (`SameMap.cut`) serves both.

  `coalesce_equal` compares neighbours while it changes them. A merge leaves the start and the
  attributes of the first area as they are (`coalesceLoop_head`), so a comparison that failed
  with an area also fails with what the loop makes of it.
-/
import NeuroVerse.Mem.VmaTree
import Mathlib.Algebra.BigOperators.Group.List.Basic
import Mathlib.Data.List.Chain

namespace NeuroVerse.Mem

open Lib

def VMA.attrs (v : VMA) : BitVec 32 × BitVec 64 := (v.rights, v.backing)

namespace VMATree

/-- The rights and the backing of an address. -/
def attrsAt (t : VMATree) (addr : BitVec 64) : Option (BitVec 32 × BitVec 64) :=
  (t.find addr).map VMA.attrs

/-- The areas of both lists give every address the same attributes, and their sizes the same
    sum. -/
structure SameMap (xs ys : List VMA) : Prop where
  maps : ∀ x a, MapsTo lo hi VMA.attrs xs x a ↔ MapsTo lo hi VMA.attrs ys x a
  total : (xs.map VMA.size).sum = (ys.map VMA.size).sum

namespace SameMap

variable {xs ys zs : List VMA}

theorem refl (xs : List VMA) : SameMap xs xs := ⟨fun _ _ => Iff.rfl, rfl⟩

theorem symm (h : SameMap xs ys) : SameMap ys xs := ⟨fun x a => (h.maps x a).symm, h.total.symm⟩

theorem trans (h : SameMap xs ys) (h' : SameMap ys zs) : SameMap xs zs :=
  ⟨fun x a => (h.maps x a).trans (h'.maps x a), h.total.trans h'.total⟩

theorem of_perm (h : xs.Perm ys) : SameMap xs ys :=
  ⟨mapsTo_perm h, (h.map VMA.size).sum_eq⟩

theorem cons (v : VMA) (h : SameMap xs ys) : SameMap (v :: xs) (v :: ys) := by
  refine ⟨fun x a => ?_, ?_⟩
  · rw [mapsTo_cons, mapsTo_cons, h.maps]
  · rw [List.map_cons, List.map_cons, List.sum_cons, List.sum_cons, h.total]

/-- An area and its two parts. -/
theorem cut {v u w : VMA} (h : Cut lo hi v u w) (hu : u.attrs = v.attrs) (hw : w.attrs = v.attrs)
    (xs : List VMA) : SameMap (v :: xs) (u :: w :: xs) := by
  refine ⟨mapsTo_cut h hu hw xs, ?_⟩
  have hleft : u.start = v.start := BitVec.eq_of_toNat_eq h.left
  have hmeet : u.endAddr = w.start := BitVec.eq_of_toNat_eq h.meet
  have hright : w.endAddr = v.endAddr := BitVec.eq_of_toNat_eq h.right
  have hsize : v.size = u.size + w.size := by
    rw [VMA.size, VMA.size, VMA.size, hleft, hmeet, hright]
    exact (sub_add_sub_cancel' _ _ _).symm
  rw [List.map_cons, List.map_cons, List.map_cons, List.sum_cons, List.sum_cons, List.sum_cons,
    hsize, add_assoc]

end SameMap

theorem totalSize_eq_sum (t : VMATree) : t.totalSize = (t.entries.map VMA.size).sum := by
  rw [totalSize, List.sum_eq_foldl, List.foldl_map]

section

variable {t t' : VMATree}

theorem attrsAt_eq_some (h : t.Ok) (addr : BitVec 64) (a : BitVec 32 × BitVec 64) :
    t.attrsAt addr = some a ↔ MapsTo lo hi VMA.attrs t.entries addr.toNat a := by
  rw [attrsAt, Option.map_eq_some_iff]
  refine exists_congr fun v => ?_
  rw [find_eq_some h, contains_iff, and_assoc]

theorem SameMap.attrsAt_eq (h : t.Ok) (h' : t'.Ok) (hs : SameMap t.entries t'.entries)
    (addr : BitVec 64) : t.attrsAt addr = t'.attrsAt addr := by
  apply Option.ext
  intro a
  rw [attrsAt_eq_some h, attrsAt_eq_some h', hs.maps]

theorem SameMap.totalSize_eq (hs : SameMap t.entries t'.entries) :
    t.totalSize = t'.totalSize := by
  rw [totalSize_eq_sum, totalSize_eq_sum, hs.total]

end

/-! ## Split -/

theorem cutAt_perm (l : List VMA) (v : VMA) (r : List VMA) (addr : BitVec 64) :
    (cutAt l v r addr).entries.Perm ({ v with endAddr := addr } ::
      { start := addr, endAddr := v.endAddr, rights := v.rights, backing := v.backing } ::
        (l ++ r)) :=
  (sortByStart_perm _).trans <| (List.perm_append_singleton _ _).trans <|
    (List.perm_middle.cons _).trans (List.Perm.swap _ _ _)

theorem cutAt_sameMap {l r : List VMA} {v : VMA} {addr : BitVec 64} (hlt : v.start < addr)
    (hgt : addr < v.endAddr) : SameMap (cutAt l v r addr).entries (l ++ v :: r) := by
  have hcut : Cut lo hi v { v with endAddr := addr }
      { start := addr, endAddr := v.endAddr, rights := v.rights, backing := v.backing } :=
    ⟨rfl, rfl, rfl, Nat.le_of_lt hlt, Nat.le_of_lt hgt⟩
  have hparts : SameMap (cutAt l v r addr).entries (v :: (l ++ r)) :=
    (SameMap.of_perm (cutAt_perm l v r addr)).trans (SameMap.cut hcut rfl rfl (l ++ r)).symm
  exact hparts.trans (SameMap.of_perm List.perm_middle.symm)

theorem cutAt_length (l : List VMA) (v : VMA) (r : List VMA) (addr : BitVec 64) :
    (cutAt l v r addr).entries.length = (l ++ v :: r).length + 1 := by
  rw [(cutAt_perm l v r addr).length_eq, List.perm_middle.length_eq]
  rfl

/-- What `split` gives: the map and the total stay, and a border comes to `addr` if there is an
    area around it. -/
structure Splits (t : VMATree) (addr : BitVec 64) (r : Bool × VMATree) : Prop where
  attrsAt : ∀ a, r.2.attrsAt a = t.attrsAt a
  totalSize : r.2.totalSize = t.totalSize
  inside : r.1 = true ↔ ∃ v ∈ t.entries, v.start < addr ∧ addr < v.endAddr
  done : r.1 = true → r.2.size = t.size + 1 ∧ ∃ v ∈ r.2.entries, v.start = addr
  refused : r.1 = false → r.2 = t

theorem splits {t : VMATree} (h : t.Ok) (addr : BitVec 64) : Splits t addr (t.split addr) := by
  have hok := split_ok h addr
  rcases split_cases h addr with ⟨l, v, r, heq, hlt, hgt, hsplit⟩ | ⟨hnone, hsplit⟩
  · rw [hsplit] at hok ⊢
    have hsame : SameMap (cutAt l v r addr).entries t.entries := heq ▸ cutAt_sameMap hlt hgt
    refine ⟨hsame.attrsAt_eq hok h, hsame.totalSize_eq, ?_, ?_, ?_⟩
    · exact iff_of_true rfl ⟨v, heq ▸ List.mem_append_right _ List.mem_cons_self, hlt, hgt⟩
    · refine fun _ => ⟨?_, ⟨addr, v.endAddr, v.rights, v.backing⟩, ?_, rfl⟩
      · rw [VMATree.size, VMATree.size, cutAt_length, heq]
      · exact (cutAt_perm l v r addr).mem_iff.mpr (List.mem_cons_of_mem _ List.mem_cons_self)
    · exact fun hf => absurd hf.symm Bool.false_ne_true
  · rw [hsplit]
    refine ⟨fun _ => rfl, rfl, ?_, ?_, fun _ => rfl⟩
    · refine iff_of_false Bool.false_ne_true ?_
      rintro ⟨v, hv, hin⟩
      exact hnone v hv hin
    · exact fun hf => absurd hf Bool.false_ne_true

/-! ## Coalesce -/

/-- The second of two neighbours goes on where the first ends, with the same attributes. -/
def Joinable (a b : VMA) : Prop :=
  a.endAddr = b.start ∧ a.rights = b.rights ∧ a.backing = b.backing

/-- The loop keeps the start and the attributes of the area it stands at. -/
theorem coalesceLoop_head (a : VMA) (rest : List VMA) :
    ∃ a' rest', (coalesceLoop (a :: rest)).2 = a' :: rest' ∧ a'.start = a.start ∧
      a'.rights = a.rights ∧ a'.backing = a.backing := by
  induction rest generalizing a with
  | nil => exact ⟨a, [], by simp [coalesceLoop], rfl, rfl, rfl⟩
  | cons b rest ih =>
    rw [coalesceLoop]
    split
    · exact ih { a with endAddr := b.endAddr }
    · exact ⟨a, _, rfl, rfl, rfl, rfl⟩

theorem coalesceLoop_sameMap {entries : List VMA} (hne : ∀ v ∈ entries, lo v < hi v) :
    SameMap (coalesceLoop entries).2 entries := by
  fun_induction coalesceLoop entries with
  | case1 a b rest heq r ih =>
    obtain ⟨hend, hrights, hbacking⟩ := heq
    have ha := hne a List.mem_cons_self
    have hb := hne b (List.mem_cons_of_mem _ List.mem_cons_self)
    have hmeet : hi a = lo b := congrArg BitVec.toNat hend
    have hcut : Cut lo hi { a with endAddr := b.endAddr } a b :=
      ⟨rfl, hmeet, rfl, Nat.le_of_lt ha, Nat.le_of_lt hb⟩
    have hattrs : b.attrs = a.attrs := Prod.ext hrights.symm hbacking.symm
    refine SameMap.trans (ih fun v hv => ?_) (SameMap.cut hcut rfl hattrs rest)
    rcases List.mem_cons.mp hv with rfl | hv
    · exact Nat.lt_trans (hmeet ▸ ha) hb
    · exact hne v (List.mem_cons_of_mem _ (List.mem_cons_of_mem _ hv))
  | case2 a b rest heq r ih =>
    exact (ih fun v hv => hne v (List.mem_cons_of_mem _ hv)).cons a
  | case3 entries hshort => exact SameMap.refl entries

/-- No two neighbours are left to join. -/
theorem coalesceLoop_isChain (entries : List VMA) :
    (coalesceLoop entries).2.IsChain fun a b => ¬ Joinable a b := by
  fun_induction coalesceLoop entries with
  | case1 a b rest heq r ih => exact ih
  | case2 a b rest heq r ih =>
    obtain ⟨b', rest', hhead, hstart, hrights, hbacking⟩ := coalesceLoop_head b rest
    refine List.isChain_cons.mpr ⟨fun y hy => ?_, ih⟩
    rw [show r = coalesceLoop (b :: rest) from rfl, hhead] at hy
    obtain rfl := Option.some.inj hy
    rw [Joinable, hstart, hrights, hbacking]
    exact heq
  | case3 entries hshort =>
    cases entries with
    | nil => exact List.isChain_nil
    | cons a rest =>
      cases rest with
      | nil => exact List.isChain_singleton a
      | cons b rest => exact absurd rfl (hshort a b rest)

theorem coalesceLoop_length (entries : List VMA) :
    (coalesceLoop entries).1 + (coalesceLoop entries).2.length = entries.length := by
  fun_induction coalesceLoop entries with
  | case1 a b rest heq r ih =>
    have ih : r.1 + r.2.length = rest.length + 1 := ih
    show r.1 + 1 + r.2.length = rest.length + 1 + 1
    omega
  | case2 a b rest heq r ih =>
    have ih : r.1 + r.2.length = rest.length + 1 := ih
    show r.1 + (r.2.length + 1) = rest.length + 1 + 1
    omega
  | case3 entries hshort => exact Nat.zero_add _

/-- What `coalesce_equal` gives: the map and the total stay, nothing is left to join, and the
    result counts the areas that are gone. -/
structure Coalesces (t : VMATree) (r : Nat × VMATree) : Prop where
  attrsAt : ∀ a, r.2.attrsAt a = t.attrsAt a
  totalSize : r.2.totalSize = t.totalSize
  joined : r.2.entries.IsChain fun a b => ¬ Joinable a b
  merges : r.1 + r.2.size = t.size

theorem coalesces {t : VMATree} (h : t.Ok) : Coalesces t t.coalesceEqual :=
  have hsame : SameMap t.coalesceEqual.2.entries t.entries := coalesceLoop_sameMap h.nonempty
  ⟨hsame.attrsAt_eq (coalesceEqual_ok h) h, hsame.totalSize_eq, coalesceLoop_isChain t.entries,
    coalesceLoop_length t.entries⟩

/-- In every reachable registry, `split` and `coalesce_equal` leave the attributes of all
    addresses and the total size as they are. -/
theorem split_coalesce_sameMap (ops : List VmaOp) :
    let t := run step {} ops
    (∀ addr, Splits t addr (t.split addr)) ∧ Coalesces t t.coalesceEqual :=
  ⟨splits (run_ok ops), coalesces (run_ok ops)⟩

end VMATree

end NeuroVerse.Mem
