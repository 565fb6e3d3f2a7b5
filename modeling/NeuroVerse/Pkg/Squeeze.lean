/-
  Squeezing a SHAKE hasher in pieces (`pkg/sha3.hpp`, `Shake::squeeze_bytes`).

  The output of a finalised hasher is one stream: byte `p` is byte `p % rate` of the block that
  `p / rate` permutations give (`stream`). `At h s p` says that a hasher finalised in the state
  `s` has handed out the first `p` bytes of it: one round that stays in its block keeps it
  (`copyOut_at`), and so does a call that starts on a block boundary or ends within the block
  it starts in (`squeezeLoop_at`).

  The amount a round takes is bounded by the rate alone and not by the position that earlier
  calls left. Any other call copies from behind the scratch block (`squeezeLoop_overruns`), and
  what is there is not the hasher's: `beyond` stands for it.
-/
import NeuroVerse.Lib.Run
import NeuroVerse.Pkg.Sha3

namespace NeuroVerse.Pkg

open NeuroVerse.Lib

/-- What a call gives: the hasher after it, the bytes, and the indices of the scratch block that
    were read for them. -/
structure Squeezed (rate : Nat) where
  hasher : Sha3Base State rate
  out : List Byte
  reads : List Nat

namespace Shake

variable {rate : Nat}

/-- One round of the loop: copies `take` bytes out of the scratch block and moves on. -/
def copyOut (beyond : Nat → Byte) (h : Sha3Base State rate) (take : Nat) : Squeezed rate :=
  let scratch := Pkg.squeezeBytes h.state rate
  let indices := List.range' h.absorbPos take
  let pos := h.absorbPos + take
  { hasher :=
      if pos = rate then { h with state := keccakF1600 h.state, absorbPos := 0 }
      else { h with absorbPos := pos }
    out := indices.map fun i => scratch[i]?.getD (beyond i)
    reads := indices }

/-- The loop of `squeeze_bytes` with `n` bytes left to produce. -/
def squeezeLoop [NeZero rate] (beyond : Nat → Byte) (h : Sha3Base State rate) (n : Nat) :
    Squeezed rate :=
  if 0 < n then
    let take := min rate n
    let r := copyOut beyond h take
    let rs := squeezeLoop beyond r.hasher (n - take)
    { hasher := rs.hasher, out := r.out ++ rs.out, reads := r.reads ++ rs.reads }
  else { hasher := h, out := [], reads := [] }
termination_by n
decreasing_by
  have hr := Nat.pos_of_neZero rate
  omega

def squeezeBytes [NeZero rate] (beyond : Nat → Byte) (h : Sha3Base State rate) (n : Nat) :
    Squeezed rate :=
  squeezeLoop beyond (h.finalise (keccak rate) 0x1F) n

/-- Calls of the lengths `ns`, one after the other. -/
def squeezes [NeZero rate] (beyond : Nat → Byte) (h : Sha3Base State rate) :
    List Nat → Squeezed rate
  | [] => { hasher := h, out := [], reads := [] }
  | n :: ns =>
    let r := squeezeBytes beyond h n
    let rs := squeezes beyond r.hasher ns
    { hasher := rs.hasher, out := r.out ++ rs.out, reads := r.reads ++ rs.reads }

/-- A fresh hasher that has absorbed `input`. -/
def absorbed (rate : Nat) [NeZero rate] (input : List Byte) : Sha3Base State rate :=
  (Sha3Base.new (keccak rate)).absorb (keccak rate) input

/-- After `input`, calls of the lengths `ns` give together what one call of their sum gives, and
    no call reads behind the scratch block. -/
def SqueezesAsOne (beyond : Nat → Byte) (rate : Nat) [NeZero rate] (input : List Byte)
    (ns : List Nat) : Prop :=
  (squeezes beyond (absorbed rate input) ns).out =
      (squeezeBytes beyond (absorbed rate input) ns.sum).out ∧
    (∀ i ∈ (squeezes beyond (absorbed rate input) ns).reads, i < rate) ∧
    ∀ i ∈ (squeezeBytes beyond (absorbed rate input) ns.sum).reads, i < rate

/-- After `done` bytes, a call of `n` bytes starts on a block boundary or ends within the block it
    starts in. -/
def WithinBlock (rate done n : Nat) : Prop := done % rate = 0 ∨ done % rate + n ≤ rate

instance (rate done n : Nat) : Decidable (WithinBlock rate done n) :=
  inferInstanceAs (Decidable (_ ∨ _))

/-- All calls of the lengths `ns` do so. -/
def WithinBlocks (rate : Nat) (ns : List Nat) : Prop :=
  StepsMeet (· + ·) (WithinBlock rate) 0 ns

instance (rate : Nat) (ns : List Nat) : Decidable (WithinBlocks rate ns) :=
  inferInstanceAs (Decidable (StepsMeet _ _ _ _))

/-! ## The output stream -/

/-- The state after the first `k` blocks. -/
def permuted (s : State) (k : Nat) : State := keccakF1600^[k] s

/-- Byte `p` of the output of a hasher finalised in the state `s`. -/
def stream (rate : Nat) (s : State) (p : Nat) : Byte :=
  ((Pkg.squeezeBytes (permuted s (p / rate)) rate)[p % rate]?).getD 0

/-- The hasher was finalised in the state `s` and has handed out `done` bytes. -/
structure At (h : Sha3Base State rate) (s : State) (done : Nat) : Prop where
  closed : h.finalized = true
  state : h.state = permuted s (done / rate)
  pos : h.absorbPos = done % rate

theorem squeezeBytes_length (s : State) (n : Nat) : (Pkg.squeezeBytes s n).length = n := by
  rw [Pkg.squeezeBytes, List.length_map, List.length_range]

/-- Positions of one block. -/
theorem add_within {done i : Nat} (h : done % rate + i < rate) :
    (done + i) / rate = done / rate ∧ (done + i) % rate = done % rate + i := by
  have hsplit : done + i = done % rate + i + rate * (done / rate) := by
    have := Nat.mod_add_div done rate
    omega
  rw [hsplit, Nat.add_mul_div_left _ _ (by omega), Nat.add_mul_mod_self_left, Nat.div_eq_of_lt h,
    Nat.mod_eq_of_lt h]
  exact ⟨Nat.zero_add _, rfl⟩

/-- The position after the last of a block. -/
theorem add_to_end (hr : 0 < rate) {done i : Nat} (h : done % rate + i = rate) :
    (done + i) / rate = done / rate + 1 ∧ (done + i) % rate = 0 := by
  have hsplit : done + i = rate * (done / rate + 1) := by
    have := Nat.mod_add_div done rate
    rw [Nat.mul_add]
    omega
  rw [hsplit, Nat.mul_div_cancel_left _ hr, Nat.mul_mod_right]
  exact ⟨rfl, rfl⟩

/-- The scratch block holds the stretch of the stream that its permutation gives. -/
theorem scratch_eq_stream {s : State} {done i : Nat} (hi : done % rate + i < rate)
    (beyond : Nat → Byte) :
    (Pkg.squeezeBytes (permuted s (done / rate)) rate)[done % rate + i]?.getD
      (beyond (done % rate + i)) = stream rate s (done + i) := by
  obtain ⟨hdiv, hmod⟩ := add_within hi
  have hlen : done % rate + i < (Pkg.squeezeBytes (permuted s (done / rate)) rate).length := by
    rw [squeezeBytes_length]
    exact hi
  rw [stream, hdiv, hmod, List.getElem?_eq_getElem hlen]
  rfl

theorem finalise_at {h : Sha3Base State rate} (hopen : h.finalized = false) :
    At (h.finalise (keccak rate) 0x1F) (h.finalise (keccak rate) 0x1F).state 0 := by
  have hne : ¬ h.finalized = true := by rw [hopen]; exact Bool.false_ne_true
  rw [Sha3Base.finalise, if_neg hne]
  exact ⟨rfl, by rw [Nat.zero_div]; rfl, (Nat.zero_mod rate).symm⟩

section

variable [NeZero rate] (beyond : Nat → Byte)

/-- A round that stays in its block hands out the next bytes of the stream. -/
theorem copyOut_at {h : Sha3Base State rate} {s : State} {done take : Nat} (ha : At h s done)
    (hfit : done % rate + take ≤ rate) :
    At (copyOut beyond h take).hasher s (done + take) ∧
      (copyOut beyond h take).out = (List.range' done take).map (stream rate s) ∧
      ∀ i ∈ (copyOut beyond h take).reads, i < rate := by
  refine ⟨?_, ?_, ?_⟩
  · simp only [copyOut, ha.pos]
    split
    · rename_i hfull
      obtain ⟨hdiv, hmod⟩ := add_to_end (Nat.pos_of_neZero rate) hfull
      refine ⟨ha.closed, ?_, hmod.symm⟩
      show keccakF1600 h.state = _
      rw [ha.state, hdiv, permuted, permuted, Function.iterate_succ_apply']
    · rename_i hpart
      obtain ⟨hdiv, hmod⟩ := add_within (Nat.lt_of_le_of_ne hfit hpart)
      refine ⟨ha.closed, ?_, hmod.symm⟩
      rw [hdiv]
      exact ha.state
  · simp only [copyOut, ha.pos, ha.state]
    rw [List.range'_eq_map_range, List.range'_eq_map_range, List.map_map, List.map_map]
    apply List.map_congr_left
    intro i hi
    have hi := List.mem_range.mp hi
    exact scratch_eq_stream (by omega) beyond
  · intro i hi
    simp only [copyOut, ha.pos] at hi
    have hi := List.mem_range'_1.mp hi
    omega

/-- What a call within its block hands out, and where it leaves the hasher. -/
theorem squeezeLoop_at {h : Sha3Base State rate} {s : State} {done : Nat} (ha : At h s done)
    {n : Nat} (hw : WithinBlock rate done n) :
    At (squeezeLoop beyond h n).hasher s (done + n) ∧
      (squeezeLoop beyond h n).out = (List.range' done n).map (stream rate s) ∧
      ∀ i ∈ (squeezeLoop beyond h n).reads, i < rate := by
  have hr := Nat.pos_of_neZero rate
  induction n using Nat.strongRecOn generalizing h done with
  | ind n ih =>
    rw [squeezeLoop]
    split
    · rename_i hn
      -- the round fits: from a boundary it takes at most a block, and inside a block the call does
      have hfit : done % rate + min rate n ≤ rate := by
        rcases hw with h0 | hle <;> omega
      have hnext : WithinBlock rate (done + min rate n) (n - min rate n) := by
        rcases hw with h0 | hle
        · rcases Nat.le_total n rate with hle | hle
          · rw [Nat.min_eq_right hle, Nat.sub_self]
            exact Or.inr (Nat.mod_lt _ hr).le
          · left
            rw [Nat.min_eq_left hle, Nat.add_mod_right, h0]
        · rw [Nat.min_eq_right (by omega), Nat.sub_self]
          exact Or.inr (Nat.mod_lt _ hr).le
      obtain ⟨ha₁, hout₁, hread₁⟩ := copyOut_at beyond ha hfit
      obtain ⟨ha₂, hout₂, hread₂⟩ := ih (n - min rate n) (by omega) ha₁ hnext
      have hsum : done + min rate n + (n - min rate n) = done + n := by omega
      rw [hsum] at ha₂
      refine ⟨ha₂, ?_, ?_⟩
      · show (copyOut beyond h (min rate n)).out ++ _ = _
        rw [hout₁, hout₂, ← List.map_append, List.range'_append_1]
        congr 2
        omega
      · exact List.forall_mem_append.mpr ⟨hread₁, hread₂⟩
    · obtain rfl : n = 0 := by omega
      exact ⟨ha, rfl, fun i hi => absurd hi List.not_mem_nil⟩

/-- A call that leaves the block it starts in reads behind the scratch block. -/
theorem squeezeLoop_overruns {h : Sha3Base State rate} {s : State} {done : Nat} (ha : At h s done)
    {n : Nat} (hw : ¬ WithinBlock rate done n) : rate ∈ (squeezeLoop beyond h n).reads := by
  have hlt := Nat.mod_lt done (Nat.pos_of_neZero rate)
  simp only [WithinBlock, not_or, not_le] at hw
  rw [squeezeLoop, if_pos (by omega)]
  apply List.mem_append_left
  show rate ∈ List.range' h.absorbPos (min rate n)
  rw [ha.pos, List.mem_range'_1]
  omega

/-! ## Successive calls -/

theorem squeezeBytes_at {h : Sha3Base State rate} {s : State} {done : Nat} (ha : At h s done)
    (n : Nat) : squeezeBytes beyond h n = squeezeLoop beyond h n := by
  rw [squeezeBytes, Sha3Base.finalise, if_pos ha.closed]

/-- Calls within their blocks hand out consecutive stretches of the stream. -/
theorem squeezes_at {ns : List Nat} {h : Sha3Base State rate} {s : State} {done : Nat}
    (ha : At h s done) (hw : StepsMeet (· + ·) (WithinBlock rate) done ns) :
    (squeezes beyond h ns).out = (List.range' done ns.sum).map (stream rate s) ∧
      ∀ i ∈ (squeezes beyond h ns).reads, i < rate := by
  induction ns generalizing h done with
  | nil => exact ⟨rfl, fun i hi => absurd hi List.not_mem_nil⟩
  | cons n ns ih =>
    obtain ⟨hn, hns⟩ := (stepsMeet_cons _ _ _ _ _).mp hw
    obtain ⟨ha₁, hout₁, hread₁⟩ := squeezeLoop_at beyond ha hn
    obtain ⟨hout₂, hread₂⟩ := ih ha₁ hns
    rw [squeezes, squeezeBytes_at beyond ha]
    refine ⟨?_, ?_⟩
    · show (squeezeLoop beyond h n).out ++ _ = _
      rw [hout₁, hout₂, ← List.map_append, List.range'_append_1, List.sum_cons]
    · exact List.forall_mem_append.mpr ⟨hread₁, hread₂⟩

theorem squeezes_overrun {ns : List Nat} {h : Sha3Base State rate} {s : State} {done : Nat}
    (ha : At h s done) (hw : ¬ StepsMeet (· + ·) (WithinBlock rate) done ns) :
    rate ∈ (squeezes beyond h ns).reads := by
  induction ns generalizing h done with
  | nil => exact absurd (stepsMeet_nil _ _ _) hw
  | cons n ns ih =>
    rw [squeezes, squeezeBytes_at beyond ha]
    by_cases hn : WithinBlock rate done n
    · apply List.mem_append_right
      apply ih (squeezeLoop_at beyond ha hn).1
      intro hns
      exact hw ((stepsMeet_cons _ _ _ _ _).mpr ⟨hn, hns⟩)
    · exact List.mem_append_left _ (squeezeLoop_overruns beyond ha hn)

/-- The first call finalises, so the hasher might as well be finalised before it. -/
theorem squeezes_finalise {h : Sha3Base State rate} (hopen : h.finalized = false) (ns : List Nat) :
    (squeezes beyond h ns).out =
        (squeezes beyond (h.finalise (keccak rate) 0x1F) ns).out ∧
      (squeezes beyond h ns).reads =
        (squeezes beyond (h.finalise (keccak rate) 0x1F) ns).reads := by
  cases ns with
  | nil => exact ⟨rfl, rfl⟩
  | cons n ns =>
    rw [squeezes, squeezes, squeezeBytes_at beyond (finalise_at hopen), squeezeBytes]
    exact ⟨rfl, rfl⟩

theorem absorbed_open (rate : Nat) [NeZero rate] (input : List Byte) :
    (absorbed rate input).finalized = false :=
  (Sha3Base.absorb_holds Sha3Base.new_holds input).open_

theorem squeezesAsOne_of_withinBlocks (input : List Byte) {ns : List Nat}
    (hw : WithinBlocks rate ns) : SqueezesAsOne beyond rate input ns := by
  have ha := finalise_at (absorbed_open rate input)
  obtain ⟨hout, hreads⟩ := squeezes_finalise beyond (absorbed_open rate input) ns
  obtain ⟨hs, hsr⟩ := squeezes_at beyond ha hw
  obtain ⟨-, h1, h1r⟩ := squeezeLoop_at beyond ha (n := ns.sum)
    (Or.inl (Nat.zero_mod rate))
  refine ⟨?_, ?_, h1r⟩
  · rw [hout, hs, squeezeBytes, h1]
  · rw [hreads]
    exact hsr

theorem overrun_of_not_withinBlocks (input : List Byte) {ns : List Nat}
    (hw : ¬ WithinBlocks rate ns) : ¬ SqueezesAsOne beyond rate input ns := by
  rintro ⟨-, hr, -⟩
  obtain ⟨-, hreads⟩ := squeezes_finalise beyond (absorbed_open rate input) ns
  have hover := squeezes_overrun beyond (finalise_at (absorbed_open rate input)) hw
  rw [← hreads] at hover
  exact Nat.lt_irrefl rate (hr rate hover)

/-- Whatever has been absorbed, successive calls squeeze like one exactly when each of them starts
    on a block boundary or ends within the block it starts in. -/
theorem squeezesAsOne_iff (input : List Byte) (ns : List Nat) :
    SqueezesAsOne beyond rate input ns ↔ WithinBlocks rate ns :=
  ⟨fun h => not_not.mp fun hw => overrun_of_not_withinBlocks beyond input hw h,
    squeezesAsOne_of_withinBlocks beyond input⟩

end

/-- SHAKE128 in two halves that stay in the first block. -/
theorem squeezesAsOne_iff_halves :
    SqueezesAsOne (fun _ => 0) 168 [0x71] [64, 64] ↔ WithinBlocks 168 [64, 64] :=
  squeezesAsOne_iff (fun _ => 0) [0x71] [64, 64]

/-- SHAKE256 in two calls of 100 bytes: the second reads 64 bytes behind the block of 136. -/
theorem second_call_overruns : ¬ SqueezesAsOne (fun _ => 0) 136 [] [100, 100] :=
  overrun_of_not_withinBlocks (fun _ => 0) [] (by decide)

end Shake

end NeuroVerse.Pkg
