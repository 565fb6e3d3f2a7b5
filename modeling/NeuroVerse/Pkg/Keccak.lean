/-
  The Keccak-f[1600] permutation and its byte interface (`pkg/sha3.hpp`, namespace detail).

  The state is 25 lanes of 64 bits; byte `i` of a block goes into lane `i / 8` at bit
  `8 * (i % 8)`. Loops over lane indices are folds over the index list, in the source's order.
-/
import Mathlib.Data.BitVec
import Mathlib.Data.Vector.Basic

namespace NeuroVerse.Pkg

abbrev Byte := BitVec 8
abbrev Lane := BitVec 64
abbrev State := Vector Lane 25

def rotl (x : Lane) (n : Nat) : Lane :=
  if n = 0 then x else (x <<< n) ||| (x >>> (64 - n))

/-- Round constants. -/
def RC : Vector Lane 24 := #v[
  0x0000000000000001, 0x0000000000008082, 0x800000000000808A, 0x8000000080008000,
  0x000000000000808B, 0x0000000080000001, 0x8000000080008081, 0x8000000000008009,
  0x000000000000008A, 0x0000000000000088, 0x0000000080008009, 0x000000008000000A,
  0x000000008000808B, 0x800000000000008B, 0x8000000000008089, 0x8000000000008003,
  0x8000000000008002, 0x8000000000000080, 0x000000000000800A, 0x800000008000000A,
  0x8000000080008081, 0x8000000000008080, 0x0000000080000001, 0x8000000080008008]

/-- Lane rotation offsets. -/
def kOffset : Vector Nat 25 := #v[
   0,  1, 62, 28, 27,
  36, 44,  6, 55, 20,
   3, 10, 43, 25, 39,
  41, 45, 15, 21,  8,
  18,  2, 61, 56, 14]

/-- Source and target lanes of the combined rotation and transposition; lane 0 is fixed. -/
def kSrc : Vector Nat 24 := #v[
   1,  5, 14, 18, 22,
   2,  6, 10, 19, 23,
   3,  7, 11, 15, 24,
   4,  8, 12, 16, 20,
  21, 17, 13,  9]

def kTgt : Vector Nat 24 := #v[
  10, 16, 22,  3,  9,
  20,  1,  7, 13, 19,
   5, 11, 17, 23,  4,
  15, 21,  2,  8, 14,
  24, 18, 12,  6]

def theta (s : State) : State :=
  let c0 := s[0] ^^^ s[5] ^^^ s[10] ^^^ s[15] ^^^ s[20]
  let c1 := s[1] ^^^ s[6] ^^^ s[11] ^^^ s[16] ^^^ s[21]
  let c2 := s[2] ^^^ s[7] ^^^ s[12] ^^^ s[17] ^^^ s[22]
  let c3 := s[3] ^^^ s[8] ^^^ s[13] ^^^ s[18] ^^^ s[23]
  let c4 := s[4] ^^^ s[9] ^^^ s[14] ^^^ s[19] ^^^ s[24]
  let d0 := c4 ^^^ rotl c1 1
  let d1 := c0 ^^^ rotl c2 1
  let d2 := c1 ^^^ rotl c3 1
  let d3 := c2 ^^^ rotl c4 1
  let d4 := c3 ^^^ rotl c0 1
  [0, 5, 10, 15, 20].foldl (fun s i =>
    let s := s.set! (i + 0) (s[i + 0]! ^^^ d0)
    let s := s.set! (i + 1) (s[i + 1]! ^^^ d1)
    let s := s.set! (i + 2) (s[i + 2]! ^^^ d2)
    let s := s.set! (i + 3) (s[i + 3]! ^^^ d3)
    s.set! (i + 4) (s[i + 4]! ^^^ d4)) s

def rhoPi (s : State) : State :=
  (List.range 24).foldl (fun t k => t.set! kTgt[k]! (rotl s[kSrc[k]!]! kOffset[kSrc[k]!]!)) s

def chi (s : State) : State :=
  [0, 5, 10, 15, 20].foldl (fun s y =>
    let a := s[y + 0]!
    let b := s[y + 1]!
    let c := s[y + 2]!
    let d := s[y + 3]!
    let e := s[y + 4]!
    let s := s.set! (y + 0) (a ^^^ (~~~b &&& c))
    let s := s.set! (y + 1) (b ^^^ (~~~c &&& d))
    let s := s.set! (y + 2) (c ^^^ (~~~d &&& e))
    let s := s.set! (y + 3) (d ^^^ (~~~e &&& a))
    s.set! (y + 4) (e ^^^ (~~~a &&& b))) s

def iota (round : Nat) (s : State) : State := s.set! 0 (s[0] ^^^ RC[round]!)

def keccakF1600 (s : State) : State :=
  (List.range 24).foldl (fun s round => iota round (chi (rhoPi (theta s)))) s

/-- Absorb one rate-block of bytes into the state. -/
def absorbBlock {rate : Nat} (state : State) (data : Vector Byte rate) : State :=
  keccakF1600 ((List.range rate).foldl (fun s i =>
    s.set! (i / 8) (s[i / 8]! ^^^ (data[i]!.setWidth 64 <<< (8 * (i % 8))))) state)

/-- The first `n` bytes of the state. -/
def squeezeBytes (state : State) (n : Nat) : List Byte :=
  (List.range n).map fun i => (state[i / 8]! >>> (8 * (i % 8))).setWidth 8

end NeuroVerse.Pkg
