/-
  The SHA3 hashes, written out to be evaluated.

  The definitions of the source reach every lane and every byte through array updates. Here a
  state is five planes of five numbers (`planes`), the steps of a round are written out on them,
  and the numbers are reduced to numerals between the steps (`forced`). `toList_oneshot` says that
  the digest that comes out is the one of the source, for every message.
-/
import NeuroVerse.Pkg.Padding
import NeuroVerse.Pkg.Sponge
import Mathlib.Tactic.IntervalCases

namespace NeuroVerse.Pkg

open NeuroVerse.Lib

/-- `k` of a number that has been reduced to a numeral. -/
def forced {α : Type*} (x : Nat) (k : Nat → α) : α := Nat.rec (k 0) (fun n _ => k n.succ) x

theorem forced_eq {α : Type*} (x : Nat) (k : Nat → α) : forced x k = k x := by
  cases x <;> rfl

/-! ## Lanes -/

/-- `rotl`. -/
def turn (x n : Nat) : Nat :=
  ((x.shiftLeft n).mod 0x10000000000000000).lor (x.shiftRight (64 - n))

/-- `~`. -/
def flip (x : Nat) : Nat := x.xor 0xFFFFFFFFFFFFFFFF

theorem toNat_rotl (x : Lane) (n : Nat) : (rotl x n).toNat = turn x.toNat n := by
  have hturn : turn x.toNat n = x.toNat <<< n % 2 ^ 64 ||| x.toNat >>> (64 - n) := rfl
  rw [hturn, rotl]
  split
  · next h0 =>
    rw [h0, Nat.shiftLeft_zero, Nat.mod_eq_of_lt x.isLt, Nat.shiftRight_eq_div_pow,
      Nat.div_eq_of_lt x.isLt, Nat.or_zero]
  · rw [BitVec.toNat_or, BitVec.toNat_shiftLeft, BitVec.toNat_ushiftRight]

theorem toNat_not (x : Lane) : (~~~x).toNat = flip x.toNat := by
  rw [BitVec.not_def, BitVec.toNat_xor, BitVec.toNat_allOnes, Nat.xor_comm]
  rfl

/-! ## Planes -/

/-- The lanes `(0, y)` to `(4, y)`. -/
structure Plane where
  (l0 l1 l2 l3 l4 : Nat)

structure Planes where
  (p0 p1 p2 p3 p4 : Plane)

namespace Plane

def xor (p q : Plane) : Plane :=
  ⟨p.l0.xor q.l0, p.l1.xor q.l1, p.l2.xor q.l2, p.l3.xor q.l3, p.l4.xor q.l4⟩

def chi (p : Plane) : Plane :=
  ⟨p.l0.xor ((flip p.l1).land p.l2), p.l1.xor ((flip p.l2).land p.l3),
    p.l2.xor ((flip p.l3).land p.l4), p.l3.xor ((flip p.l4).land p.l0),
    p.l4.xor ((flip p.l0).land p.l1)⟩

def forced {α : Type*} (p : Plane) (k : Plane → α) : α :=
  Pkg.forced p.l0 fun l0 => Pkg.forced p.l1 fun l1 => Pkg.forced p.l2 fun l2 =>
    Pkg.forced p.l3 fun l3 => Pkg.forced p.l4 fun l4 => k ⟨l0, l1, l2, l3, l4⟩

theorem forced_eq {α : Type*} (p : Plane) (k : Plane → α) : p.forced k = k p := by
  simp only [forced, Pkg.forced_eq]

end Plane

namespace Planes

def theta (s : Planes) : Planes :=
  Plane.forced ((((s.p0.xor s.p1).xor s.p2).xor s.p3).xor s.p4) fun c =>
    Plane.forced ⟨c.l4.xor (turn c.l1 1), c.l0.xor (turn c.l2 1), c.l1.xor (turn c.l3 1),
        c.l2.xor (turn c.l4 1), c.l3.xor (turn c.l0 1)⟩ fun d =>
      ⟨s.p0.xor d, s.p1.xor d, s.p2.xor d, s.p3.xor d, s.p4.xor d⟩

def rhoPi (s : Planes) : Planes where
  p0 := ⟨turn s.p0.l0 0, turn s.p1.l1 44, turn s.p2.l2 43, turn s.p3.l3 21, turn s.p4.l4 14⟩
  p1 := ⟨turn s.p0.l3 28, turn s.p1.l4 20, turn s.p2.l0 3, turn s.p3.l1 45, turn s.p4.l2 61⟩
  p2 := ⟨turn s.p0.l1 1, turn s.p1.l2 6, turn s.p2.l3 25, turn s.p3.l4 8, turn s.p4.l0 18⟩
  p3 := ⟨turn s.p0.l4 27, turn s.p1.l0 36, turn s.p2.l1 10, turn s.p3.l2 15, turn s.p4.l3 56⟩
  p4 := ⟨turn s.p0.l2 62, turn s.p1.l3 55, turn s.p2.l4 39, turn s.p3.l0 41, turn s.p4.l1 2⟩

def chi (s : Planes) : Planes := ⟨s.p0.chi, s.p1.chi, s.p2.chi, s.p3.chi, s.p4.chi⟩

def iota (rc : Nat) (s : Planes) : Planes :=
  { s with p0 := { s.p0 with l0 := s.p0.l0.xor rc } }

def xor (s t : Planes) : Planes :=
  ⟨s.p0.xor t.p0, s.p1.xor t.p1, s.p2.xor t.p2, s.p3.xor t.p3, s.p4.xor t.p4⟩

def forced {α : Type*} (s : Planes) (k : Planes → α) : α :=
  s.p0.forced fun p0 => s.p1.forced fun p1 => s.p2.forced fun p2 => s.p3.forced fun p3 =>
    s.p4.forced fun p4 => k ⟨p0, p1, p2, p3, p4⟩

theorem forced_eq {α : Type*} (s : Planes) (k : Planes → α) : s.forced k = k s := by
  simp only [forced, Plane.forced_eq]

/-- One round for each of the constants. -/
def rounds : List Nat → Planes → Planes
  | [], s => s
  | rc :: rcs, s =>
    s.theta.forced fun t => t.rhoPi.forced fun t => (t.chi.iota rc).forced (rounds rcs)

/-- The lanes in the order of the source. -/
def lanes (s : Planes) : List Nat :=
  [s.p0, s.p1, s.p2, s.p3, s.p4].flatMap fun p => [p.l0, p.l1, p.l2, p.l3, p.l4]

/-- The first `n` bytes. -/
def bytes (s : Planes) (n : Nat) : List Byte :=
  (List.range n).map fun i => BitVec.ofNat 8 (s.lanes.getD (i / 8) 0 >>> (8 * (i % 8)))

end Planes

def planes (s : State) : Planes :=
  let l (x y : Fin 5) : Nat := (lane s x y).toNat
  let plane (y : Fin 5) : Plane := ⟨l 0 y, l 1 y, l 2 y, l 3 y, l 4 y⟩
  ⟨plane 0, plane 1, plane 2, plane 3, plane 4⟩

/-- The constants of the 24 rounds. -/
def constants : List Nat := RC.toList.map BitVec.toNat

/-! ## Rounds -/

theorem planes_theta (s : State) : planes (theta s) = (planes s).theta := by
  simp only [planes, theta_lane, columnDiff, BitVec.toNat_xor, toNat_rotl, Planes.theta,
    Plane.forced_eq]
  rfl

theorem planes_rhoPi (s : State) : planes (rhoPi s) = (planes s).rhoPi := by
  have hlane : ∀ x y, lane (rhoPi s) x y =
      rotl (lane s (x + 3 * y) x) (StateArray.offset (x + 3 * y) x % 64) := by
    intro x y
    have h := rhoPi_lane s (x + 3 * y) x
    rwa [show 2 * (x + 3 * y) + 3 * x = y by omega] at h
  simp only [planes, hlane, toNat_rotl]
  rfl

theorem planes_chi (s : State) : planes (chi s) = (planes s).chi := by
  simp only [planes, chi_lane, BitVec.toNat_xor, BitVec.toNat_and, toNat_not]
  rfl

theorem planes_iota (round : Nat) (s : State) :
    planes (iota round s) = (planes s).iota RC[round]!.toNat := by
  simp only [planes, iota_lane]
  rfl

theorem planes_rounds (rs : List Nat) (s : State) :
    planes (rs.foldl (fun s round => iota round (chi (rhoPi (theta s)))) s) =
      (planes s).rounds (rs.map fun round => RC[round]!.toNat) := by
  induction rs generalizing s with
  | nil => rfl
  | cons round rs ih =>
    rw [List.foldl_cons, ih, List.map_cons, Planes.rounds, Planes.forced_eq, Planes.forced_eq,
      Planes.forced_eq, planes_iota, planes_chi, planes_rhoPi, planes_theta]

theorem planes_keccakF1600 (s : State) : planes (keccakF1600 s) = (planes s).rounds constants := by
  have hRC : ((List.range 24).map fun round => RC[round]!.toNat) = constants := rfl
  rw [keccakF1600, planes_rounds, hRC]

/-! ## Blocks -/

/-- The number of a lane's bytes, the low one first. -/
def word : List Byte → Nat
  | [] => 0
  | b :: bs => b.toNat + 256 * word bs

theorem word_bit (bs : List Byte) (z : Nat) :
    (word bs).testBit z = (bs.getD (z / 8) 0).getLsbD (z % 8) := by
  induction bs generalizing z with
  | nil => simp [word]
  | cons b bs ih =>
    rw [word, show b.toNat + 256 * word bs = 2 ^ 8 * word bs + b.toNat by omega,
      Nat.testBit_two_pow_mul_add _ b.isLt]
    split
    · next hlow =>
      rw [Nat.div_eq_of_lt hlow, Nat.mod_eq_of_lt hlow, BitVec.testBit_toNat]
      rfl
    · next hhigh =>
      rw [ih, show z / 8 = (z - 8) / 8 + 1 by omega, List.getD_cons_succ,
        show z % 8 = (z - 8) % 8 by omega]

/-- The first `n` lanes of a block. -/
def words : Nat → List Byte → List Nat
  | 0, _ => []
  | n + 1, b => word (b.take 8) :: words n (b.drop 8)

theorem getD_words {n k : Nat} (hk : k < n) (b : List Byte) :
    (words n b).getD k 0 = word ((b.drop (8 * k)).take 8) := by
  induction n generalizing k b with
  | zero => omega
  | succ n ih =>
    cases k with
    | zero => rfl
    | succ k =>
      rw [words, List.getD_cons_succ, ih (Nat.lt_of_succ_lt_succ hk), List.drop_drop,
        show 8 + 8 * k = 8 * (k + 1) by omega]

def blockPlanes (b : List Byte) : Planes :=
  let l (x y : Fin 5) : Nat := (words 25 b).getD (5 * y.val + x.val) 0
  let plane (y : Fin 5) : Plane := ⟨l 0 y, l 1 y, l 2 y, l 3 y, l 4 y⟩
  ⟨plane 0, plane 1, plane 2, plane 3, plane 4⟩

theorem lane_xorBytes {rate : Nat} (data : Vector Byte rate) (s : State) (x y : Fin 5) :
    (lane (xorBytes data rate s) x y).toNat =
      (lane s x y).toNat ^^^ (words 25 data.toList).getD (5 * y.val + x.val) 0 := by
  apply Nat.eq_of_testBit_eq
  intro z
  rw [getD_words (by omega), Nat.testBit_xor, word_bit, BitVec.testBit_toNat, BitVec.testBit_toNat]
  rcases Nat.lt_or_ge z 64 with hz | hz
  · rw [lane, xorBytes_bit data s rate (by omega) hz]
    congr 1
    have hbyte : ((data.toList.drop (8 * (5 * y.val + x.val))).take 8).getD (z / 8) 0 =
        data.toList.getD (8 * (5 * y.val + x.val) + z / 8) 0 := by
      rw [List.getD_eq_getElem?_getD, List.getD_eq_getElem?_getD,
        List.getElem?_take_of_lt (by omega), List.getElem?_drop]
    rw [hbyte]
    split
    · next hlt =>
      rw [getElem!_pos data _ hlt, List.getD_eq_getElem _ _ (by simpa using hlt)]
      rfl
    · next hge =>
      rw [List.getD_eq_default _ _ (by simpa using hge)]
      simp
  · have hshort : ((data.toList.drop (8 * (5 * y.val + x.val))).take 8).length ≤ z / 8 :=
      Nat.le_trans (List.length_take_le 8 _) (by omega)
    rw [BitVec.getLsbD_of_ge _ _ hz, BitVec.getLsbD_of_ge _ _ hz, List.getD_eq_default _ _ hshort]
    simp

theorem planes_absorbBlock {rate : Nat} (s : State) (data : Vector Byte rate) :
    planes (absorbBlock s data) =
      ((planes s).xor (blockPlanes data.toList)).rounds constants := by
  have hxor : planes (xorBytes data rate s) = (planes s).xor (blockPlanes data.toList) := by
    simp only [planes, lane_xorBytes, blockPlanes, Planes.xor, Plane.xor]
    rfl
  rw [← hxor, ← planes_keccakF1600]
  rfl

/-! ## Messages -/

/-- The planes after blocks. -/
def evalBlocks : List (List Byte) → Planes → Planes
  | [], s => s
  | b :: bs, s => (s.xor (blockPlanes b)).forced fun t => evalBlocks bs (t.rounds constants)

theorem planes_foldl {rate : Nat} (bs : List (Vector Byte rate)) (s : State) :
    planes (bs.foldl absorbBlock s) = evalBlocks (bs.map Vector.toList) (planes s) := by
  induction bs generalizing s with
  | nil => rfl
  | cons b bs ih =>
    rw [List.foldl_cons, ih, planes_absorbBlock, List.map_cons, evalBlocks, Planes.forced_eq]

theorem getD_lanes (s : State) {k : Nat} (hk : k < 25) :
    (planes s).lanes.getD k 0 = s[k]!.toNat := by
  interval_cases k <;> rfl

theorem digest_eq_bytes {out rate : Nat} (hout : out ≤ rate) (hrate : rate ≤ 200) (s : State) :
    (Sha3T.digest out rate s).toList = (planes s).bytes out := by
  refine List.ext_getElem (by simp [Planes.bytes]) fun i hi _ => ?_
  have hlt : i < out := by simpa using hi
  have hget : (squeezeBytes s rate)[i]! = (s[i / 8]! >>> (8 * (i % 8))).setWidth 8 := by
    rw [List.getElem!_eq_getElem?_getD, squeezeBytes_getElem? s (by omega)]
    rfl
  have hbyte : ∀ (x : Lane) n, (x >>> n).setWidth 8 = BitVec.ofNat 8 (x.toNat >>> n) := by
    intro x n
    apply BitVec.eq_of_toNat_eq
    rw [BitVec.toNat_setWidth, BitVec.toNat_ushiftRight, BitVec.toNat_ofNat]
  simp only [Sha3T.digest, Vector.toList_ofFn, List.getElem_ofFn, hget, hbyte, Planes.bytes,
    List.getElem_map, List.getElem_range, getD_lanes s (show i / 8 < 25 by omega)]

/-- The digest, as `Sha3T::oneshot` computes it. -/
def evalOneshot (out rate : Nat) (data : List Byte) : List Byte :=
  (evalBlocks (finalBlocks rate 0x06 data) (planes (Vector.replicate 25 0))).bytes out

theorem toList_oneshot {out rate : Nat} [NeZero rate] (hout : out ≤ rate) (hrate : rate ≤ 200)
    (data : List Byte) : (Sha3T.oneshot out rate data).toList = evalOneshot out rate data := by
  obtain ⟨bs, hbs, hst⟩ := Sha3Base.finalise_state
    (Sha3Base.absorb_holds (Sha3Base.new_holds (K := keccak rate)) data) 0x06
  have hstate : Sha3T.oneshot out rate data =
      Sha3T.digest out rate (bs.foldl absorbBlock (Vector.replicate 25 0)) :=
    congrArg (Sha3T.digest out rate) hst
  rw [hstate, digest_eq_bytes hout hrate, planes_foldl, hbs]
  rfl

theorem oneshot_ne {out rate : Nat} [NeZero rate] (hout : out ≤ rate) (hrate : rate ≤ 200)
    {a b : List Byte} (h : evalOneshot out rate a ≠ evalOneshot out rate b) :
    Sha3T.oneshot out rate a ≠ Sha3T.oneshot out rate b := by
  intro heq
  apply h
  rw [← toList_oneshot hout hrate, heq, toList_oneshot hout hrate]

/-- The digest of the empty message. -/
example : (Sha3T.oneshot 32 136 []).toList = [
    0xa7, 0xff, 0xc6, 0xf8, 0xbf, 0x1e, 0xd7, 0x66, 0x51, 0xc1, 0x47, 0x56, 0xa0, 0x61, 0xd6, 0x62,
    0xf5, 0x80, 0xff, 0x4d, 0xe4, 0x3b, 0x49, 0xfa, 0x82, 0xd8, 0x0a, 0x4b, 0x80, 0xf8, 0x43,
    0x4a] := by
  rw [toList_oneshot (by decide) (by decide)]
  decide +kernel

end NeuroVerse.Pkg
