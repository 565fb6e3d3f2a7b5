/-
  The sponge construction of FIPS 202 over strings of bits (section 4), the functions KECCAK[c]
  (section 5) and the six functions built from them (section 6).

  The step mappings are those of `StepMappings`; a state array is read from a string and written
  to one by section 3.1. Bytes are strings of eight bits, the low bit first (`bitsOf`). Output
  bit `i` of a sponge is bit `i % r` of the state that `i / r` applications of `f` give
  (`squeeze_eq`), and the length of pad10*1 is what is missing to the next multiple of the rate
  that has room for two bits (`pad10s1_eq`).

  Nothing here names a program.
-/
import NeuroVerse.Lib.Blocks
import NeuroVerse.Lib.StepMappings
import Mathlib.Data.List.FinRange
import Mathlib.Data.List.GetD
import Mathlib.Tactic.Ring

namespace NeuroVerse.Lib

/-! ## Strings of pieces of one length -/

section

variable {α β : Type*} {f : α → List β} {n : Nat}

theorem length_flatMap_const (h : ∀ a, (f a).length = n) (l : List α) :
    (l.flatMap f).length = l.length * n := by
  induction l with
  | nil => exact (Nat.zero_mul n).symm
  | cons a l ih =>
    rw [List.flatMap_cons, List.length_append, ih, h, List.length_cons, Nat.succ_mul, Nat.add_comm]

theorem getElem?_flatMap_const (hn : 0 < n) (h : ∀ a, (f a).length = n) (l : List α) (i : Nat) :
    (l.flatMap f)[i]? = l[i / n]?.bind fun a => (f a)[i % n]? := by
  induction l generalizing i with
  | nil => rfl
  | cons a l ih =>
    rw [List.flatMap_cons]
    by_cases hi : i < n
    · rw [List.getElem?_append_left (by rw [h]; exact hi), Nat.div_eq_of_lt hi, Nat.mod_eq_of_lt hi]
      rfl
    · have hle : n ≤ i := Nat.le_of_not_lt hi
      rw [List.getElem?_append_right (by rw [h]; exact hle), h, ih, Nat.div_eq_sub_div hn hle,
        List.getElem?_cons_succ, Nat.mod_eq_sub_mod hle]

/-- Cutting a string of such pieces where a number of pieces ends. -/
theorem flatMap_take (h : ∀ a, (f a).length = n) (l : List α) (k : Nat) :
    (l.flatMap f).take (k * n) = (l.take k).flatMap f := by
  induction l generalizing k with
  | nil => simp
  | cons a l ih =>
    cases k with
    | zero => simp
    | succ k =>
      rw [List.flatMap_cons, List.take_succ_cons, List.flatMap_cons, Nat.succ_mul, Nat.add_comm,
        ← h a, List.take_length_add_append, h a, ih]

theorem flatMap_drop (h : ∀ a, (f a).length = n) (l : List α) (k : Nat) :
    (l.flatMap f).drop (k * n) = (l.drop k).flatMap f := by
  induction l generalizing k with
  | nil => simp
  | cons a l ih =>
    cases k with
    | zero => simp
    | succ k =>
      rw [List.flatMap_cons, List.drop_succ_cons, Nat.succ_mul, Nat.add_comm, ← h a,
        List.drop_length_add_append, h a, ih]

theorem blocks_flatMap (hn : 0 < n) (h : ∀ a, (f a).length = n) (r : Nat) (l : List α) :
    blocks (r * n) (l.flatMap f) = (blocks r l).map fun b => b.flatMap f := by
  rw [blocks, blocks, List.map_map, length_flatMap_const h, Nat.mul_div_mul_right _ _ hn]
  refine List.map_congr_left fun i _ => ?_
  rw [← Nat.mul_assoc, flatMap_drop h, flatMap_take h]
  rfl

end

/-- The bits of words, each from its low end. For bytes it is section B.1, for the lanes of a
    state, in their order, section 3.1.3. -/
def bitsOf {w : Nat} (words : List (BitVec w)) : List Bool :=
  words.flatMap fun b => List.ofFn fun i : Fin w => b.getLsbD i

section

variable {w : Nat}

theorem length_bitsOf (words : List (BitVec w)) : (bitsOf words).length = words.length * w :=
  length_flatMap_const (fun _ => List.length_ofFn) words

theorem bitsOf_append (xs ys : List (BitVec w)) : bitsOf (xs ++ ys) = bitsOf xs ++ bitsOf ys :=
  List.flatMap_append

theorem getElem?_bitsOf (hw : 0 < w) (words : List (BitVec w)) (i : Nat) :
    (bitsOf words)[i]? = words[i / w]?.map fun b => b.getLsbD (i % w) := by
  rw [bitsOf, getElem?_flatMap_const hw (fun _ => List.length_ofFn)]
  cases words[i / w]? with
  | none => rfl
  | some b =>
    show (List.ofFn fun i : Fin w => b.getLsbD i)[i % w]? = some (b.getLsbD (i % w))
    rw [List.getElem?_ofFn, dif_pos (Nat.mod_lt i hw)]

theorem bitsOf_replicate_zero (n : Nat) :
    bitsOf (List.replicate n (0 : BitVec w)) = List.replicate (n * w) false := by
  have hword : (List.ofFn fun i : Fin w => (0 : BitVec w).getLsbD i) = List.replicate w false := by
    refine List.ext_getElem (by simp) fun i _ _ => ?_
    simp
  induction n with
  | zero => simp [bitsOf]
  | succ n ih =>
    rw [List.replicate_succ, bitsOf, List.flatMap_cons, hword]
    show _ ++ bitsOf (List.replicate n 0) = _
    rw [ih, List.replicate_append_replicate, Nat.succ_mul, Nat.add_comm]

end

namespace Sponge

abbrev Bits := List Bool

def xorBits (a b : Bits) : Bits := List.zipWith xor a b

/-- Algorithm 9: `1 0^j 1` with `j = (-m - 2) mod x`. -/
def pad10s1 (x m : Nat) : Bits :=
  true :: List.replicate ((-(m : Int) - 2) % x).toNat false ++ [true]

/-- Steps 7 to 10 of algorithm 8, with `d` bits still to give. -/
def squeeze (f : Bits → Bits) (r : Nat) (S : Bits) (d : Nat) : Bits :=
  if 0 < r ∧ r < d then S.take r ++ squeeze f r (f S) (d - r) else S.take d
termination_by d
decreasing_by omega

/-- Step 6 of algorithm 8: each block and `0^c` are added to the state, and `f` is applied. -/
def absorb (f : Bits → Bits) (b r : Nat) (P : List Bits) : Bits :=
  P.foldl (fun S block => f (xorBits S (block ++ List.replicate (b - r) false)))
    (List.replicate b false)

/-- Algorithm 8, SPONGE[f, pad, r], for an `f` on strings of `b` bits. -/
def sponge (f : Bits → Bits) (pad : Nat → Nat → Bits) (b r : Nat) (N : Bits) (d : Nat) : Bits :=
  squeeze f r (absorb f b r (blocks r (N ++ pad r N.length))) d

/-- Section 3.1.2: bit `A[x, y, z]` is bit `w * (5 * y + x) + z` of the string. -/
def ofString (w : Nat) (S : Bits) : StateArray w := fun x y z =>
  S.getD (w * (5 * y.val + x.val) + z.val) false

/-- Section 3.1.3: the planes one after the other, a plane being its lanes one after the other. -/
def toString {w : Nat} (A : StateArray w) : Bits :=
  (List.finRange 5).flatMap fun y => (List.finRange 5).flatMap fun x => List.ofFn (A x y)

/-- The permutation on strings of `25 * w` bits. -/
def keccakP (w : Nat) [NeZero w] (S : Bits) : Bits := toString (ofString w S).keccakF

/-- KECCAK[c]. -/
def keccak (c : Nat) (N : Bits) (d : Nat) : Bits :=
  sponge (keccakP 64) pad10s1 1600 (1600 - c) N d

/-- SHA3-224, SHA3-256, SHA3-384 and SHA3-512, for their length `d`. -/
def sha3 (d : Nat) (M : Bits) : Bits := keccak (2 * d) (M ++ [false, true]) d

def shake128 (M : Bits) (d : Nat) : Bits := keccak 256 (M ++ [true, true, true, true]) d

def shake256 (M : Bits) (d : Nat) : Bits := keccak 512 (M ++ [true, true, true, true]) d

/-! ## Squeezing -/

/-- The first `d` bits of `Trunc_r(S) Trunc_r(f(S)) Trunc_r(f(f(S)))` and so on. -/
theorem squeeze_eq {f : Bits → Bits} {r : Nat} (hr : 0 < r) {S : Bits}
    (hlen : ∀ k, r ≤ (f^[k] S).length) (d : Nat) :
    squeeze f r S d = (List.range d).map fun i => (f^[i / r] S).getD (i % r) false := by
  induction d using Nat.strongRecOn generalizing S with
  | ind d ih =>
    have htake : ∀ n ≤ r, S.take n =
        (List.range n).map fun i => (f^[i / r] S).getD (i % r) false := by
      intro n hn
      have hS : r ≤ S.length := hlen 0
      refine List.ext_getElem (by simp; omega) fun i hi hi' => ?_
      have hin : i < n := by simpa using hi'
      have hir : i < r := by omega
      rw [List.getElem_take, List.getElem_map, List.getElem_range, Nat.div_eq_of_lt hir,
        Nat.mod_eq_of_lt hir, Function.iterate_zero, id, List.getD_eq_getElem _ _ (by omega)]
    rw [squeeze]
    split
    · next hd =>
      obtain ⟨k, rfl⟩ := Nat.exists_eq_add_of_le (Nat.le_of_lt hd.2)
      rw [Nat.add_sub_cancel_left, ih k (by omega) fun k => hlen (k + 1), htake r (Nat.le_refl r),
        List.range_add, List.map_append, List.map_map]
      congr 1
      refine List.map_congr_left fun i _ => ?_
      show _ = (f^[(r + i) / r] S).getD ((r + i) % r) false
      rw [Nat.add_div_left _ hr, Nat.add_mod_left]
      rfl
    · next hd => exact htake d (by omega)

/-! ## Padding -/

/-- The padding fills up to the next multiple `q * x` of the rate with room for its two ones. -/
theorem pad10s1_eq {x m q : Nat} (hlow : m + 2 ≤ q * x) (hhigh : q * x < m + 2 + x) :
    pad10s1 x m = true :: List.replicate (q * x - (m + 2)) false ++ [true] := by
  have hj : ((-(m : Int) - 2) % x).toNat = q * x - (m + 2) := by
    have hsum : (-(m : Int) - 2) = ((q * x - (m + 2) : Nat) : Int) + (x : Int) * -(q : Int) := by
      rw [Nat.cast_sub hlow]
      push_cast
      ring
    rw [hsum, Int.add_mul_emod_self_left, Int.emod_eq_of_lt (by omega) (by omega),
      Int.toNat_natCast]
  rw [pad10s1, hj]

end Sponge

end NeuroVerse.Lib
