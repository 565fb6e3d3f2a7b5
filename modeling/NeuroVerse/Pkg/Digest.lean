/-
  Digests as keys: their order, byte by byte, their text of hexadecimal digits, and the store as
  it is built on them.

  The store's `std::map` compares digests with `operator<` only, and takes two for one when
  neither is less. `operator<` is a strict total order, so that in every run the store gives the
  answers of a map by equality of digests (`after_agrees`), which is what the results about
  `HostStore` are about. The order is that of the texts as well, and different digests have
  different texts (`less_toHex`).
-/
import NeuroVerse.Lib.OrderedMap
import NeuroVerse.Lib.StdString
import NeuroVerse.Pkg.Store

namespace NeuroVerse.Pkg

open Lib

/-! ## The order -/

/-- The loop of `operator<` from some byte on. -/
def lessFrom : List Byte → List Byte → Bool
  | x :: xs, y :: ys => if x ≠ y then decide (x < y) else lessFrom xs ys
  | _, _ => false

namespace DigestN

variable {n : Nat}

/-- `operator<`. -/
def less (d o : Vector Byte n) : Bool := lessFrom d.toList o.toList

end DigestN

theorem lessFrom_irrefl (xs : List Byte) : lessFrom xs xs = false := by
  induction xs with
  | nil => rfl
  | cons x xs ih => rw [lessFrom, if_neg (not_not_intro rfl), ih]

/-- The first byte in which the two differ decides. -/
theorem lessFrom_cons {x y : Byte} {xs ys : List Byte} :
    lessFrom (x :: xs) (y :: ys) = true ↔ x < y ∨ x = y ∧ lessFrom xs ys = true := by
  rw [lessFrom]
  by_cases hxy : x = y
  · subst hxy
    simp
  · simp [hxy]

theorem lessFrom_trans {xs ys zs : List Byte} (h : lessFrom xs ys = true)
    (h' : lessFrom ys zs = true) : lessFrom xs zs = true := by
  induction xs generalizing ys zs with
  | nil => cases h
  | cons x xs ih =>
    cases ys with
    | nil => cases h
    | cons y ys =>
      cases zs with
      | nil => cases h'
      | cons z zs =>
        rw [lessFrom_cons] at h h' ⊢
        rcases h with hlt | ⟨rfl, hrest⟩
        · rcases h' with hlt' | ⟨rfl, -⟩
          · exact Or.inl (BitVec.lt_trans hlt hlt')
          · exact Or.inl hlt
        · exact h'.imp_right fun hr => ⟨hr.1, ih hrest hr.2⟩

theorem lessFrom_total {xs ys : List Byte} (hlength : xs.length = ys.length)
    (h : lessFrom xs ys = false) (h' : lessFrom ys xs = false) : xs = ys := by
  induction xs generalizing ys with
  | nil => exact (List.length_eq_zero_iff.mp hlength.symm).symm
  | cons x xs ih =>
    cases ys with
    | nil => cases hlength
    | cons y ys =>
      have hxy : x = y := by
        by_contra hne
        rw [lessFrom, if_pos hne, decide_eq_false_iff_not] at h
        rw [lessFrom, if_pos (Ne.symm hne), decide_eq_false_iff_not] at h'
        bv_omega
      subst hxy
      rw [lessFrom, if_neg (not_not_intro rfl)] at h h'
      rw [ih (Nat.succ.inj hlength) h h']

namespace DigestN

variable {n : Nat}

theorem less_strictTotal : StrictTotal (less : Vector Byte n → Vector Byte n → Bool) where
  irrefl d := lessFrom_irrefl d.toList
  trans h h' := lessFrom_trans h h'
  total {d o} h h' := by
    have hlength : d.toList.length = o.toList.length := by
      rw [Vector.length_toList, Vector.length_toList]
    exact Vector.toList_inj.mp (lessFrom_total hlength h h')

end DigestN

/-! ## The text -/

def kHex (i : Nat) : Byte := ("0123456789abcdef".toList.map StdString.ch)[i]?.getD 0

def hexByte (x : Byte) : List Byte := [kHex ((x >>> 4) &&& 0xF).toNat, kHex (x &&& 0xF).toNat]

def toHex {n : Nat} (d : Vector Byte n) : List Byte := d.toList.flatMap hexByte

/-- The digits stand in the order of their characters. -/
theorem kHex_lt {i j : Nat} (hi : i < 16) (hj : j < 16) : kHex i < kHex j ↔ i < j := by
  have hall : ∀ i j : Fin 16, kHex i < kHex j ↔ i < j := by decide +kernel
  exact hall ⟨i, hi⟩ ⟨j, hj⟩

theorem kHex_inj {i j : Nat} (hi : i < 16) (hj : j < 16) (h : kHex i = kHex j) : i = j := by
  have hlt := kHex_lt hi hj
  have hgt := kHex_lt hj hi
  rw [h] at hlt hgt
  have hirrefl : ¬ kHex j < kHex j := BitVec.lt_irrefl _
  exact Nat.le_antisymm (Nat.not_lt.mp fun hji => hirrefl (hgt.mpr hji))
    (Nat.not_lt.mp fun hij => hirrefl (hlt.mpr hij))

theorem lessFrom_hexByte (x y : Byte) (xs ys : List Byte) :
    lessFrom (hexByte x ++ xs) (hexByte y ++ ys) = true ↔
      x < y ∨ x = y ∧ lessFrom xs ys = true := by
  have hlow : ∀ z : Byte, (z &&& 0xF).toNat = z.toNat % 16 := fun z =>
    (BitVec.toNat_and z 0xF).trans (Nat.and_two_pow_sub_one_eq_mod z.toNat 4)
  have hhigh : ∀ z : Byte, ((z >>> 4) &&& 0xF).toNat = z.toNat / 16 := by
    intro z
    have hz := z.isLt
    rw [hlow, BitVec.toNat_ushiftRight, Nat.shiftRight_eq_div_pow]
    omega
  have hx := x.isLt
  have hy := y.isLt
  show lessFrom (kHex _ :: kHex _ :: xs) (kHex _ :: kHex _ :: ys) = true ↔ _
  rw [lessFrom_cons, lessFrom_cons, hhigh, hhigh, hlow, hlow, kHex_lt (by omega) (by omega),
    kHex_lt (by omega) (by omega)]
  constructor
  · intro h
    rcases h with hlt | ⟨heq, hlt | ⟨heq', hrest⟩⟩
    · exact Or.inl (by bv_omega)
    · have := kHex_inj (by omega) (by omega) heq
      exact Or.inl (by bv_omega)
    · have := kHex_inj (by omega) (by omega) heq
      have := kHex_inj (by omega) (by omega) heq'
      exact Or.inr ⟨by bv_omega, hrest⟩
  · intro h
    rcases h with hlt | ⟨rfl, hrest⟩
    · by_cases hq : x.toNat / 16 < y.toNat / 16
      · exact Or.inl hq
      · have heq : x.toNat / 16 = y.toNat / 16 := by bv_omega
        exact Or.inr ⟨congrArg kHex heq, Or.inl (by bv_omega)⟩
    · exact Or.inr ⟨rfl, Or.inr ⟨rfl, hrest⟩⟩

theorem lessFrom_hex (xs ys : List Byte) :
    lessFrom (xs.flatMap hexByte) (ys.flatMap hexByte) = lessFrom xs ys := by
  induction xs generalizing ys with
  | nil => cases ys <;> rfl
  | cons x xs ih =>
    cases ys with
    | nil => rfl
    | cons y ys =>
      rw [Bool.eq_iff_iff, List.flatMap_cons, List.flatMap_cons, lessFrom_hexByte, ih,
        lessFrom_cons]

/-- The texts of digests stand in the order of the digests, and different digests have different
    texts. -/
theorem less_toHex {n : Nat} (d o : Vector Byte n) :
    lessFrom (toHex d) (toHex o) = DigestN.less d o ∧ (toHex d = toHex o → d = o) := by
  have hless : ∀ d o : Vector Byte n, lessFrom (toHex d) (toHex o) = DigestN.less d o :=
    fun d o => lessFrom_hex d.toList o.toList
  refine ⟨hless d o, fun heq => DigestN.less_strictTotal.total ?_ ?_⟩
  · rw [← hless, heq]
    exact lessFrom_irrefl _
  · rw [← hless, heq]
    exact lessFrom_irrefl _

/-! ## The store -/

/-- The store with its `std::map`. -/
structure OrderedStore where
  artifacts : List (Digest × Artifact) := []

namespace OrderedStore

def get (s : OrderedStore) (d : Digest) : Option Artifact :=
  OrderedMap.find DigestN.less d s.artifacts

section

variable (hash : List Byte → Digest)

def put (s : OrderedStore) (bytes : List Byte) : Digest × OrderedStore :=
  let d := hash bytes
  if (s.get d).isSome then (d, s)
  else
    (d, { artifacts := OrderedMap.emplace DigestN.less d { digest := d, bytes := bytes }
            s.artifacts })

def putFile (s : OrderedStore) (path : String) (contents : Option (List Byte)) :
    Digest × OrderedStore :=
  match contents with
  | none => (Vector.replicate 64 0, s)
  | some v =>
    let (d, s) := s.put hash v
    (d, { artifacts := OrderedMap.assign DigestN.less d (fun a => { a with sourcePath := path })
            s.artifacts })

def step (s : OrderedStore) : StoreOp → OrderedStore
  | .put bytes => (s.put hash bytes).2
  | .putFile path contents => (s.putFile hash path contents).2
  | .has _ => s
  | .get _ => s

/-- In order, and the same under every digest as the map by equality. -/
structure Agrees (s : OrderedStore) (t : HostStore) : Prop where
  sorted : OrderedMap.Sorted DigestN.less s.artifacts
  same : ∀ d, s.get d = t.get d

variable {hash} {s : OrderedStore} {t : HostStore}

theorem put_agrees (h : s.Agrees t) (bytes : List Byte) :
    (s.put hash bytes).1 = (t.put hash bytes).1 ∧
      (s.put hash bytes).2.Agrees (t.put hash bytes).2 := by
  unfold put HostStore.put
  dsimp only
  have hmem : (s.get (hash bytes)).isSome = true ↔ hash bytes ∈ t.artifacts := by
    rw [h.same]
    exact AList.lookup_isSome
  by_cases hd : hash bytes ∈ t.artifacts
  · rw [if_pos (hmem.mpr hd), if_pos hd]
    exact ⟨rfl, h⟩
  · rw [if_neg (mt hmem.mp hd), if_neg hd]
    refine ⟨rfl, OrderedMap.sorted_emplace DigestN.less_strictTotal h.sorted _ _, fun d => ?_⟩
    have hnone : OrderedMap.find DigestN.less (hash bytes) s.artifacts = none :=
      (h.same (hash bytes)).trans (AList.lookup_eq_none.mpr hd)
    rw [get, OrderedMap.find_emplace DigestN.less_strictTotal h.sorted, HostStore.get]
    split
    · rename_i heq
      rw [heq, hnone, AList.lookup_insert]
      rfl
    · rename_i hne
      rw [AList.lookup_insert_ne hne]
      exact h.same d

theorem putFile_agrees (h : s.Agrees t) (path : String) (contents : Option (List Byte)) :
    (s.putFile hash path contents).1 = (t.putFile hash path contents).1 ∧
      (s.putFile hash path contents).2.Agrees (t.putFile hash path contents).2 := by
  cases contents with
  | none => exact ⟨rfl, h⟩
  | some v =>
    obtain ⟨hdigest, hput⟩ := @put_agrees hash _ _ h v
    unfold putFile HostStore.putFile
    dsimp only
    rw [hdigest]
    generalize (t.put hash v).1 = d at hput ⊢
    generalize (s.put hash v).2 = s' at hput ⊢
    generalize (t.put hash v).2 = t' at hput ⊢
    have hsorted := OrderedMap.sorted_assign hput.sorted d
      fun a : Artifact => { a with sourcePath := path }
    have hfind := fun d' => OrderedMap.find_assign DigestN.less_strictTotal hput.sorted d d'
      fun a : Artifact => { a with sourcePath := path }
    have hd : OrderedMap.find DigestN.less d s'.artifacts = t'.artifacts.lookup d := hput.same d
    cases ht : t'.artifacts.lookup d with
    | none =>
      refine ⟨rfl, hsorted, fun d' => ?_⟩
      rw [get, hfind, hd, ht]
      split
      · rename_i heq
        rw [heq]
        exact ht.symm
      · exact hput.same d'
    | some a =>
      refine ⟨rfl, hsorted, fun d' => ?_⟩
      rw [get, hfind, hd, ht, HostStore.get]
      split
      · rename_i heq
        rw [heq, AList.lookup_insert]
        rfl
      · rename_i hne
        rw [AList.lookup_insert_ne hne]
        exact hput.same d'

end

theorem step_agrees {hash : List Byte → Digest} {s : OrderedStore} {t : HostStore}
    (h : s.Agrees t) (op : StoreOp) : (s.step hash op).Agrees (t.step hash op) := by
  cases op with
  | put bytes => exact (put_agrees h bytes).2
  | putFile path contents => exact (putFile_agrees h path contents).2
  | has d => exact h
  | get d => exact h

/-- Whatever the hash, the store as it is built gives in every run the answers of the map by
    equality of digests: what stands under each digest, and the digests that the next calls
    return. -/
theorem after_agrees (hash : List Byte → Digest) (ops : List StoreOp) :
    let s := run (step hash) {} ops
    let t := HostStore.after hash ops
    (∀ d, s.get d = t.get d) ∧ (∀ bytes, (s.put hash bytes).1 = (t.put hash bytes).1) ∧
      ∀ path contents, (s.putFile hash path contents).1 = (t.putFile hash path contents).1 := by
  suffices h : (run (step hash) {} ops).Agrees (HostStore.after hash ops) from
    ⟨h.same, fun bytes => (put_agrees h bytes).1,
      fun path contents => (putFile_agrees h path contents).1⟩
  induction ops using List.reverseRecOn with
  | nil => exact ⟨List.Pairwise.nil, fun _ => rfl⟩
  | append_singleton ops op ih =>
    rw [HostStore.after, run_snoc, run_snoc]
    exact step_agrees ih op

end OrderedStore

end NeuroVerse.Pkg
