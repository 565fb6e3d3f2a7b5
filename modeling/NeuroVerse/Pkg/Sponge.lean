/-
  The hashers of `pkg/sha3.hpp` compute the functions of FIPS 202, over bits.

  A state is the string of the bits of its lanes, a byte string the string of the bits of its
  bytes. The permutation (`keccakP_bits`), one block (`absorbBlock_bits`), the absorbed blocks
  (`absorb_bits`), the padding (`padded_bits`) and the output (`stream_bits`) are each the
  sponge's. Together, for a message that is not one byte short of full blocks, they give
  `output_is_fips`: however it is delivered, the digest of a SHA3 instance and the first call of
  a SHAKE instance are what the standard says.
-/
import NeuroVerse.Lib.Sponge
import NeuroVerse.Pkg.Fips202
import NeuroVerse.Pkg.Padding
import NeuroVerse.Pkg.Squeeze

namespace NeuroVerse.Pkg

open NeuroVerse.Lib
open NeuroVerse.Lib.Sponge (Bits xorBits pad10s1 squeeze absorb sponge ofString keccakP)

/-- The string of a state. -/
def stateBits (s : State) : Bits := bitsOf s.toList

theorem length_stateBits (s : State) : (stateBits s).length = 1600 := by
  rw [stateBits, length_bitsOf, Vector.length_toList]

theorem getElem?_stateBits (s : State) {i : Nat} (hi : i < 1600) :
    (stateBits s)[i]? = some (s[i / 64]!.getLsbD (i % 64)) := by
  have hlane : i / 64 < 25 := by omega
  rw [stateBits, getElem?_bitsOf (by decide), List.getElem?_eq_getElem (by simpa using hlane),
    Vector.getElem_toList, getElem!_pos s _ hlane]
  rfl

/-- Two strings of the bits of a state are equal when their bits are. -/
theorem eq_stateBits {S : Bits} {s : State} (hlen : S.length = 1600)
    (h : ∀ i < 1600, S[i]? = some (s[i / 64]!.getLsbD (i % 64))) : S = stateBits s := by
  refine List.ext_getElem? fun i => ?_
  by_cases hi : i < 1600
  · rw [h i hi, getElem?_stateBits s hi]
  · rw [List.getElem?_eq_none (by omega), List.getElem?_eq_none (by rw [length_stateBits]; omega)]

/-! ## The permutation -/

theorem ofString_stateBits (s : State) : ofString 64 (stateBits s) = toBits s := by
  funext x y z
  have hi : 64 * (5 * y.val + x.val) + z.val < 1600 := by omega
  rw [ofString, List.getD_eq_getElem?_getD, getElem?_stateBits s hi,
    show (64 * (5 * y.val + x.val) + z.val) / 64 = 5 * y.val + x.val by omega,
    show (64 * (5 * y.val + x.val) + z.val) % 64 = z.val by omega]
  rfl

theorem toString_toBits (s : State) : Sponge.toString (toBits s) = stateBits s := by
  have hplane : ∀ y : Fin 5, ((List.finRange 5).flatMap fun x : Fin 5 =>
      List.ofFn (toBits s x y)).length = 5 * 64 := by
    intro y
    rw [length_flatMap_const (fun _ => List.length_ofFn), List.length_finRange]
  refine eq_stateBits ?_ fun i hi => ?_
  · rw [Sponge.toString, length_flatMap_const hplane, List.length_finRange]
  · have hy : i / (5 * 64) < 5 := by omega
    have hx : i % (5 * 64) / 64 < 5 := by omega
    have hz : i % (5 * 64) % 64 < 64 := Nat.mod_lt _ (by decide)
    rw [Sponge.toString, getElem?_flatMap_const (by decide) hplane,
      List.getElem?_eq_getElem (by rw [List.length_finRange]; exact hy), Option.bind_some,
      getElem?_flatMap_const (by decide) (fun _ => List.length_ofFn),
      List.getElem?_eq_getElem (by rw [List.length_finRange]; exact hx), Option.bind_some,
      List.getElem?_ofFn, dif_pos hz, List.getElem_finRange, List.getElem_finRange]
    have hlane : 5 * (i / (5 * 64)) + i % (5 * 64) / 64 = i / 64 := by omega
    have hbit : i % (5 * 64) % 64 = i % 64 := by omega
    simp only [toBits, lane, Fin.val_cast, hlane, hbit]

theorem keccakP_bits (s : State) : keccakP 64 (stateBits s) = stateBits (keccakF1600 s) := by
  have hrounds : toBits (keccakF1600 s) = (toBits s).keccakF :=
    rounds_bits (fun _ h => List.mem_range.mp h) s
  rw [keccakP, ofString_stateBits, ← toString_toBits (keccakF1600 s)]
  exact congrArg Sponge.toString hrounds.symm

theorem iterate_keccakP (s : State) (k : Nat) :
    (keccakP 64)^[k] (stateBits s) = stateBits (Shake.permuted s k) := by
  induction k with
  | zero => rfl
  | succ k ih =>
    rw [Function.iterate_succ_apply', ih, keccakP_bits, Shake.permuted, Shake.permuted,
      Function.iterate_succ_apply']

/-! ## One block -/

/-- A byte moved to its place in a lane. -/
theorem getLsbD_byte (b : Byte) {m z : Nat} (hm : m < 8) (hz : z < 64) :
    (b.setWidth 64 <<< (8 * m)).getLsbD z = if z / 8 = m then b.getLsbD (z % 8) else false := by
  rw [BitVec.getLsbD_shiftLeft, BitVec.getLsbD_setWidth, decide_eq_true hz, Bool.true_and]
  by_cases hlt : z < 8 * m
  · rw [if_neg (by omega), decide_eq_true hlt]
    rfl
  · rw [decide_eq_false hlt, decide_eq_true (show z - 8 * m < 64 by omega), Bool.not_false,
      Bool.true_and, Bool.true_and]
    by_cases hbyte : z / 8 = m
    · rw [if_pos hbyte, show z - 8 * m = z % 8 by omega]
    · rw [if_neg hbyte, BitVec.getLsbD_of_ge b _ (by omega)]

/-- The loop of `absorb_block` over the first `k` bytes. -/
def xorBytes {rate : Nat} (data : Vector Byte rate) (k : Nat) (s : State) : State :=
  (List.range k).foldl (fun s i =>
    s.set! (i / 8) (s[i / 8]! ^^^ (data[i]!.setWidth 64 <<< (8 * (i % 8))))) s

theorem xorBytes_bit {rate : Nat} (data : Vector Byte rate) (s : State) (k : Nat) {l z : Nat}
    (hl : l < 25) (hz : z < 64) :
    (xorBytes data k s)[l]!.getLsbD z = (s[l]!.getLsbD z ^^
      if 8 * l + z / 8 < k then data[8 * l + z / 8]!.getLsbD (z % 8) else false) := by
  induction k with
  | zero => rw [if_neg (Nat.not_lt_zero _), Bool.xor_false]; rfl
  | succ k ih =>
    have hsucc : xorBytes data (k + 1) s = (xorBytes data k s).set! (k / 8)
        ((xorBytes data k s)[k / 8]! ^^^ (data[k]!.setWidth 64 <<< (8 * (k % 8)))) := by
      rw [xorBytes, List.range_succ, List.foldl_append]
      rfl
    rw [hsucc]
    by_cases hlane : k / 8 = l
    · subst hlane
      rw [getElem!_set!_self hl, BitVec.getLsbD_xor, ih,
        getLsbD_byte _ (Nat.mod_lt k (by decide)) hz]
      by_cases hbyte : z / 8 = k % 8
      · rw [if_neg (by omega), if_pos hbyte, if_pos (by omega), Bool.xor_false,
          show 8 * (k / 8) + z / 8 = k by omega]
      · rw [if_neg hbyte, Bool.xor_false]
        by_cases hlt : 8 * (k / 8) + z / 8 < k
        · rw [if_pos hlt, if_pos (by omega)]
        · rw [if_neg hlt, if_neg (by omega)]
    · rw [getElem!_set!_ne hlane, ih]
      by_cases hlt : 8 * l + z / 8 < k
      · rw [if_pos hlt, if_pos (by omega)]
      · rw [if_neg hlt, if_neg (by omega)]

section

variable {rate : Nat}

theorem xorBytes_bits (hrate : rate ≤ 200) (data : Vector Byte rate) (s : State) :
    xorBits (stateBits s) (bitsOf data.toList ++ List.replicate (1600 - rate * 8) false) =
      stateBits (xorBytes data rate s) := by
  have hdata : (bitsOf data.toList).length = rate * 8 := by
    rw [length_bitsOf, Vector.length_toList]
  refine eq_stateBits ?_ fun i hi => ?_
  · rw [xorBits, List.length_zipWith, length_stateBits, List.length_append, hdata,
      List.length_replicate]
    omega
  · rw [xorBits, List.getElem?_zipWith, getElem?_stateBits s hi,
      xorBytes_bit data s rate (by omega) (Nat.mod_lt i (by decide)),
      show 8 * (i / 64) + i % 64 / 8 = i / 8 by omega, show i % 64 % 8 = i % 8 by omega]
    by_cases hlt : i / 8 < rate
    · rw [List.getElem?_append_left (by omega), getElem?_bitsOf (by decide),
        List.getElem?_eq_getElem (by simpa using hlt), Vector.getElem_toList, if_pos hlt,
        getElem!_pos data _ hlt]
      rfl
    · rw [List.getElem?_append_right (by omega), List.getElem?_replicate, if_pos (by omega),
        if_neg hlt]

theorem absorbBlock_bits (hrate : rate ≤ 200) (data : Vector Byte rate) (s : State) :
    keccakP 64 (xorBits (stateBits s)
      (bitsOf data.toList ++ List.replicate (1600 - rate * 8) false)) =
      stateBits (absorbBlock s data) := by
  rw [xorBytes_bits hrate, keccakP_bits]
  rfl

theorem absorb_bits (hrate : rate ≤ 200) (bs : List (Vector Byte rate)) :
    absorb (keccakP 64) 1600 (rate * 8) (bs.map fun b => bitsOf b.toList) =
      stateBits (bs.foldl (keccak rate).absorbBlock (keccak rate).init) := by
  have hfold : ∀ s : State, (bs.map fun b => bitsOf b.toList).foldl
      (fun S block => keccakP 64 (xorBits S (block ++ List.replicate (1600 - rate * 8) false)))
      (stateBits s) = stateBits (bs.foldl (keccak rate).absorbBlock s) := by
    induction bs with
    | nil => exact fun _ => rfl
    | cons b bs ih =>
      intro s
      rw [List.map_cons, List.foldl_cons, List.foldl_cons, absorbBlock_bits hrate, ih]
      rfl
  have hzero : stateBits (keccak rate).init = List.replicate 1600 false :=
    bitsOf_replicate_zero 25
  rw [absorb, ← hzero]
  exact hfold _

/-! ## The padding -/

/-- A byte with its top bit set. -/
theorem bitsOf_or_top (b : Byte) : bitsOf [b ||| 0x80] = (bitsOf [b]).take 7 ++ [true] := by
  simp [bitsOf, List.ofFn_succ]

theorem bitsOf_modifyLast (l : List Byte) (b : Byte) :
    bitsOf ((l ++ [b]).modifyLast (· ||| 0x80)) = bitsOf l ++ (bitsOf [b]).take 7 ++ [true] := by
  rw [List.modifyLast_concat, bitsOf_append, bitsOf_or_top, List.append_assoc]

/-- The bits of a suffix byte: the domain bits, the first one of the padding, and zeros. -/
def SuffixBits (suffix : Byte) (dom : Bits) : Prop :=
  dom.length ≤ 6 ∧ bitsOf [suffix] = dom ++ true :: List.replicate (7 - dom.length) false

instance (suffix : Byte) (dom : Bits) : Decidable (SuffixBits suffix dom) :=
  inferInstanceAs (Decidable (_ ∧ _))

/-- The padded bytes are the message, the domain bits and pad10*1. -/
theorem padded_bits (hr : 0 < rate) {suffix : Byte} {dom : Bits} (hs : SuffixBits suffix dom)
    (msg : List Byte) :
    bitsOf (padded rate suffix msg) =
      bitsOf msg ++ dom ++ pad10s1 (rate * 8) (bitsOf msg ++ dom).length := by
  obtain ⟨hdom, hsuffix⟩ := hs
  have hmod := Nat.mod_lt msg.length hr
  have hdiv := Nat.div_add_mod' msg.length rate
  have hmul : (msg.length / rate + 1) * rate = msg.length / rate * rate + rate :=
    Nat.succ_mul _ _
  have hbits : (msg.length / rate + 1) * (rate * 8) = (msg.length / rate + 1) * rate * 8 :=
    (Nat.mul_assoc _ _ _).symm
  have hlen : (bitsOf msg ++ dom).length = msg.length * 8 + dom.length := by
    rw [List.length_append, length_bitsOf]
  set k := (msg.length / rate + 1) * rate - msg.length - 1 with hk
  have hpad : pad10s1 (rate * 8) (bitsOf msg ++ dom).length =
      true :: List.replicate (6 - dom.length + k * 8) false ++ [true] := by
    rw [hlen, Sponge.pad10s1_eq (q := msg.length / rate + 1) (by omega) (by omega)]
    congr 3
    omega
  rw [hpad, padded, ← hk]
  cases k with
  | zero =>
    have htake : (bitsOf [suffix]).take 7 =
        dom ++ true :: List.replicate (6 - dom.length) false := by
      rw [hsuffix, List.take_append, List.take_of_length_le (by omega),
        show 7 - dom.length = 6 - dom.length + 1 by omega, List.take_succ_cons,
        List.take_replicate, Nat.min_eq_left (by omega)]
    rw [List.replicate_zero, bitsOf_modifyLast, htake]
    simp
  | succ k =>
    have hzeros : bitsOf (suffix :: List.replicate k 0) ++ (bitsOf [(0 : Byte)]).take 7 =
        dom ++ true :: List.replicate (6 - dom.length + (k + 1) * 8) false := by
      rw [show suffix :: List.replicate k 0 = [suffix] ++ List.replicate k 0 from rfl,
        bitsOf_append, hsuffix, bitsOf_replicate_zero,
        show (bitsOf [(0 : Byte)]).take 7 = List.replicate 7 false by decide, List.append_assoc,
        List.append_assoc, List.cons_append, List.replicate_append_replicate,
        List.replicate_append_replicate]
      congr 3
      omega
    rw [List.replicate_succ', ← List.cons_append, ← List.append_assoc, bitsOf_modifyLast,
      bitsOf_append, List.append_assoc (bitsOf msg), hzeros]
    simp

theorem blocks_padded_bits (hr : 0 < rate) {suffix : Byte} {dom : Bits}
    (hs : SuffixBits suffix dom) (msg : List Byte) :
    blocks (rate * 8) (bitsOf msg ++ dom ++ pad10s1 (rate * 8) (bitsOf msg ++ dom).length) =
      (blocks rate (padded rate suffix msg)).map bitsOf := by
  rw [← padded_bits hr hs]
  exact blocks_flatMap (by decide) (fun _ => List.length_ofFn) rate _

/-! ## The output -/

theorem squeezeBytes_getElem? (s : State) {n i : Nat} (hi : i < n) :
    (squeezeBytes s n)[i]? = some ((s[i / 8]! >>> (8 * (i % 8))).setWidth 8) := by
  rw [squeezeBytes, List.getElem?_map, List.getElem?_range hi]
  rfl

/-- The output stream of a finalised hasher is what the sponge squeezes. -/
theorem stream_bits (hr : 0 < rate) (hrate : rate ≤ 200) (s : State) (n : Nat) :
    bitsOf ((List.range n).map (Shake.stream rate s)) =
      squeeze (keccakP 64) (rate * 8) (stateBits s) (n * 8) := by
  have hlen : ∀ k, rate * 8 ≤ ((keccakP 64)^[k] (stateBits s)).length := by
    intro k
    rw [iterate_keccakP, length_stateBits]
    omega
  rw [Sponge.squeeze_eq (by omega) hlen]
  refine List.ext_getElem? fun i => ?_
  by_cases hi : i < n * 8
  · have hbyte : i / 8 < n := by omega
    have hmod : i / 8 % rate < rate := Nat.mod_lt _ hr
    have hsplit : i % (rate * 8) = 8 * (i / 8 % rate) + i % 8 := by
      rw [Nat.mul_comm rate 8, Nat.mod_mul, Nat.add_comm]
    have hdiv : i / (rate * 8) = i / 8 / rate := by
      rw [Nat.mul_comm, Nat.div_div_eq_div_mul]
    rw [getElem?_bitsOf (by decide), List.getElem?_map, List.getElem?_range hbyte,
      List.getElem?_map, List.getElem?_range hi]
    simp only [Option.map_some]
    rw [iterate_keccakP, hdiv, hsplit, List.getD_eq_getElem?_getD,
      getElem?_stateBits _ (by omega), Shake.stream, squeezeBytes_getElem? _ hmod]
    simp only [Option.getD_some]
    rw [BitVec.getLsbD_setWidth, BitVec.getLsbD_ushiftRight,
      decide_eq_true (Nat.mod_lt i (by decide)), Bool.true_and]
    congr 2
    · congr 1
      omega
    · omega
  · rw [List.getElem?_eq_none (by rw [length_bitsOf]; simp; omega),
      List.getElem?_eq_none (by simp; omega)]

end

/-! ## The six instances -/

namespace Member

/-- What `n` bytes of output are asked for with: `final` gives a digest of the instance's own
    length, `squeeze_bytes` any number of bytes. -/
def output (m : Member) (beyond : Nat → Byte) (h : Sha3Base State m.rate) (n : Nat) : List Byte :=
  match m, h with
  | sha3_224, h => (Sha3T.final 28 h).2.toList
  | sha3_256, h => (Sha3T.final 32 h).2.toList
  | sha3_384, h => (Sha3T.final 48 h).2.toList
  | sha3_512, h => (Sha3T.final 64 h).2.toList
  | shake128, h => (Shake.squeezeBytes beyond h n).out
  | shake256, h => (Shake.squeezeBytes beyond h n).out

/-- The function of the standard, for a message of whole bytes. -/
def fips (m : Member) (M : Bits) (n : Nat) : Bits :=
  match m with
  | sha3_224 => Sponge.sha3 224 M
  | sha3_256 => Sponge.sha3 256 M
  | sha3_384 => Sponge.sha3 384 M
  | sha3_512 => Sponge.sha3 512 M
  | shake128 => Sponge.shake128 M (n * 8)
  | shake256 => Sponge.shake256 M (n * 8)

/-- The bits that the suffix byte puts between the message and the padding. -/
def domain : Member → Bits
  | shake128 => [true, true, true, true]
  | shake256 => [true, true, true, true]
  | _ => [false, true]

theorem suffix_bits (m : Member) : SuffixBits m.suffix m.domain := by
  cases m <;> decide

theorem rate_le (m : Member) : m.rate ≤ 200 := by
  cases m <;> decide

/-- The state after finalisation is what the sponge absorbs the message, the domain bits and the
    padding into. -/
theorem finalState_bits (m : Member) {chunks : List (List Byte)}
    (hlen : chunks.flatten.length % m.rate ≠ m.rate - 1) :
    stateBits (m.finalState (keccak m.rate) chunks) =
      absorb (keccakP 64) 1600 (m.rate * 8) (blocks (m.rate * 8)
        (bitsOf chunks.flatten ++ m.domain ++
          pad10s1 (m.rate * 8) (bitsOf chunks.flatten ++ m.domain).length)) := by
  have hr := Nat.pos_of_neZero m.rate
  obtain ⟨bs, hbs, hstate⟩ := m.finalState_blocks (keccak m.rate) chunks
  have hpads := (m.padsAsFips_iff chunks).mpr (by rw [rest_length]; exact hlen)
  rw [PadsAsFips, absorbedBlocks_toList, ← hbs] at hpads
  rw [hstate, ← absorb_bits m.rate_le, blocks_padded_bits hr m.suffix_bits, ← hpads, List.map_map]
  rfl

/-- The output stream of a finalised instance. -/
theorem stream_is_sponge (m : Member) {chunks : List (List Byte)}
    (hlen : chunks.flatten.length % m.rate ≠ m.rate - 1) (n : Nat) :
    bitsOf ((List.range n).map (Shake.stream m.rate (m.finalState (keccak m.rate) chunks))) =
      sponge (keccakP 64) pad10s1 1600 (m.rate * 8) (bitsOf chunks.flatten ++ m.domain)
        (n * 8) := by
  rw [stream_bits (Nat.pos_of_neZero m.rate) m.rate_le, finalState_bits m hlen]
  rfl

/-- A digest is the beginning of the stream. -/
theorem digest_eq_stream {rate out : Nat} (h : out ≤ rate) (s : State) :
    (Sha3T.digest out rate s).toList = (List.range out).map (Shake.stream rate s) := by
  refine List.ext_getElem (by simp) fun i hi _ => ?_
  have hout : i < out := by simpa using hi
  have hrate : i < rate := Nat.lt_of_lt_of_le hout h
  have hlen : i < (squeezeBytes s rate).length := by rw [Shake.squeezeBytes_length]; exact hrate
  have hdigest : (Sha3T.digest out rate s).toList[i] = (squeezeBytes s rate)[i]! := by
    rw [Vector.getElem_toList]
    exact Vector.getElem_ofFn hout
  rw [hdigest, List.getElem_map, List.getElem_range, Shake.stream, Nat.div_eq_of_lt hrate,
    Nat.mod_eq_of_lt hrate, getElem!_pos (squeezeBytes s rate) i hlen]
  show _ = (squeezeBytes s rate)[i]?.getD 0
  rw [List.getElem?_eq_getElem hlen]
  rfl

/-- The first call squeezes the beginning of the stream. -/
theorem squeezeBytes_eq_stream {rate : Nat} [NeZero rate] (beyond : Nat → Byte)
    {h : Sha3Base State rate} (hopen : h.finalized = false) (n : Nat) :
    (Shake.squeezeBytes beyond h n).out =
      (List.range n).map (Shake.stream rate (h.finalise (keccak rate) 0x1F).state) := by
  have hwithin : Shake.WithinBlock rate 0 n := Or.inl (Nat.zero_mod rate)
  rw [Shake.squeezeBytes,
    (Shake.squeezeLoop_at beyond (Shake.finalise_at hopen) hwithin).2.1, List.range_eq_range']

/-- Unless the message is one byte short of full blocks, every instance gives what the standard
    says, however the message is cut into pieces. -/
theorem output_is_fips (m : Member) (chunks : List (List Byte))
    (hlen : chunks.flatten.length % m.rate ≠ m.rate - 1) (beyond : Nat → Byte) (n : Nat) :
    bitsOf (m.output beyond
      (chunks.foldl (Sha3Base.absorb (keccak m.rate)) (Sha3Base.new (keccak m.rate))) n) =
      m.fips (bitsOf chunks.flatten) n := by
  have hopen : (chunks.foldl (Sha3Base.absorb (keccak m.rate))
      (Sha3Base.new (keccak m.rate))).finalized = false :=
    (Sha3Base.absorb_chunks_holds chunks Sha3Base.new_holds).open_
  cases m with
  | sha3_224 =>
    refine Eq.trans ?_ (stream_is_sponge sha3_224 hlen 28)
    exact congrArg bitsOf (digest_eq_stream (by decide) _)
  | sha3_256 =>
    refine Eq.trans ?_ (stream_is_sponge sha3_256 hlen 32)
    exact congrArg bitsOf (digest_eq_stream (by decide) _)
  | sha3_384 =>
    refine Eq.trans ?_ (stream_is_sponge sha3_384 hlen 48)
    exact congrArg bitsOf (digest_eq_stream (by decide) _)
  | sha3_512 =>
    refine Eq.trans ?_ (stream_is_sponge sha3_512 hlen 64)
    exact congrArg bitsOf (digest_eq_stream (by decide) _)
  | shake128 =>
    refine Eq.trans ?_ (stream_is_sponge shake128 hlen n)
    exact congrArg bitsOf (squeezeBytes_eq_stream beyond hopen n)
  | shake256 =>
    refine Eq.trans ?_ (stream_is_sponge shake256 hlen n)
    exact congrArg bitsOf (squeezeBytes_eq_stream beyond hopen n)

/-- SHA3-256 of three bytes given in two pieces. -/
theorem output_is_fips_sha3_256 :
    bitsOf (sha3_256.output (fun _ => 0)
      (([[0x61, 0x62], [0x63]] : List (List Byte)).foldl (Sha3Base.absorb (keccak 136))
        (Sha3Base.new (keccak 136))) 0) =
      Sponge.sha3 256 (bitsOf ([0x61, 0x62, 0x63] : List Byte)) :=
  output_is_fips sha3_256 [[0x61, 0x62], [0x63]] (by decide) (fun _ => 0) 0

end Member

end NeuroVerse.Pkg
