/-
  The incremental SHA3 and SHAKE hashers (`pkg/sha3.hpp`): buffering, padding, finalisation.

  The hasher uses its state only through `absorb_block`, so it is written over any
  `BlockSponge`. `keccak` is the source's; `recorder` keeps the list of the blocks it is given,
  and every other sponge ends in the fold of that list (`Holds.state`).

  `Holds K h msg` says what a hasher that has been given `msg` looks like: the full blocks of
  `msg` absorbed, the rest buffered. `absorb` keeps it for any data (`absorb_holds`), so
  chunking does not matter. `final` and `squeeze_bytes` share their padding step, here
  `finalise`; `finalise_state` says which block it absorbs.
-/
import NeuroVerse.Lib.Blocks
import NeuroVerse.Pkg.Keccak

namespace NeuroVerse.Pkg

open NeuroVerse.Lib

/-- A state that takes blocks of `rate` bytes. -/
structure BlockSponge (σ : Type*) (rate : Nat) where
  init : σ
  absorbBlock : σ → Vector Byte rate → σ

/-- The Keccak state of the source. -/
def keccak (rate : Nat) : BlockSponge State rate where
  init := Vector.replicate 25 0
  absorbBlock := absorbBlock

/-- The sequence of the blocks absorbed. -/
def recorder (rate : Nat) : BlockSponge (List (Vector Byte rate)) rate where
  init := []
  absorbBlock bs b := bs ++ [b]

structure Sha3Base (σ : Type*) (rate : Nat) where
  state : σ
  buf : Vector Byte rate := Vector.replicate rate 0
  buffered : Nat := 0
  absorbPos : Nat := 0
  finalized : Bool := false

namespace Sha3Base

variable {σ : Type*} {rate : Nat} (K : BlockSponge σ rate)

/-- A new hasher. -/
def new : Sha3Base σ rate := { state := K.init }

def reset (h : Sha3Base σ rate) : Sha3Base σ rate :=
  { h with state := K.init, buffered := 0, finalized := false }

/-- The head of `absorb`: completes a started block, and absorbs it when it is full. The
    data not taken is returned. -/
def topUp (h : Sha3Base σ rate) (p : List Byte) : Sha3Base σ rate × List Byte :=
  if 0 < h.buffered then
    let take := min (rate - h.buffered) p.length
    let h := { h with buf := memcpy h.buf h.buffered (p.take take), buffered := h.buffered + take }
    if h.buffered = rate then
      ({ h with state := K.absorbBlock h.state h.buf, buffered := 0 }, p.drop take)
    else (h, p.drop take)
  else (h, p)

/-- The loop of `absorb`: absorbs straight from the data while a full block is left. -/
def absorbFull [NeZero rate] (h : Sha3Base σ rate) (p : List Byte) : Sha3Base σ rate × List Byte :=
  if hp : rate ≤ p.length then
    absorbFull { h with state := K.absorbBlock h.state ⟨(p.take rate).toArray, by simp [hp]⟩ }
      (p.drop rate)
  else (h, p)
termination_by p.length
decreasing_by
  have hr := Nat.pos_of_neZero rate
  rw [List.length_drop]
  omega

/-- The tail of `absorb`: buffers what is left. -/
def keep (h : Sha3Base σ rate) (p : List Byte) : Sha3Base σ rate :=
  if 0 < p.length then
    { h with buf := memcpy h.buf h.buffered p, buffered := h.buffered + p.length }
  else h

def absorb [NeZero rate] (h : Sha3Base σ rate) (data : List Byte) : Sha3Base σ rate :=
  if h.finalized then h
  else
    let (h, p) := h.topUp K data
    let (h, p) := h.absorbFull K p
    h.keep p

/-- The padding step of `Sha3T::final` and `Shake::squeeze_bytes`. -/
def finalise (h : Sha3Base σ rate) (pad : Byte) : Sha3Base σ rate :=
  if h.finalized then h
  else
    let buf := memcpy h.buf h.buffered (List.replicate (rate - h.buffered) 0)
    let buf := memcpy buf h.buffered [pad]
    let buf := memcpy buf (rate - 1) [0x80]
    { h with
      state := K.absorbBlock h.state buf, buf := buf, buffered := 0, absorbPos := 0
      finalized := true }

/-- The buffered bytes. -/
def pending (h : Sha3Base σ rate) : List Byte := h.buf.toList.take h.buffered

end Sha3Base

namespace Sha3T

variable {rate : Nat} (out : Nat)

/-- The tail of `final`: the first `out` bytes of the squeezed block. -/
def digest (rate : Nat) (state : State) : Vector Byte out :=
  let scratch := squeezeBytes state rate
  Vector.ofFn fun i => scratch[i.val]!

/-- The finalised hasher and the digest. -/
def final (h : Sha3Base State rate) : Sha3Base State rate × Vector Byte out :=
  let h := h.finalise (keccak rate) 0x06
  (h, digest out rate h.state)

def oneshot (rate : Nat) [NeZero rate] (data : List Byte) : Vector Byte out :=
  (final out ((Sha3Base.new (keccak rate)).absorb (keccak rate) data)).2

end Sha3T

/-- The bytes `finalise` absorbs when `t` is buffered. -/
def lastBlock (rate : Nat) (pad : Byte) (t : List Byte) : List Byte :=
  (t ++ pad :: List.replicate (rate - t.length - 1) 0).take (rate - 1) ++ [0x80]

/-! ## Absorbing -/

namespace Sha3Base

variable {σ : Type*} {rate : Nat} {K : BlockSponge σ rate}

/-- The hasher has been given `msg`, in whatever pieces, and has not been finalised. -/
structure Holds (K : BlockSponge σ rate) (h : Sha3Base σ rate) (msg : List Byte) : Prop where
  open_ : h.finalized = false
  buffered : h.buffered = (rest rate msg).length
  pending : h.pending = rest rate msg
  state : ∃ bs : List (Vector Byte rate),
    bs.map Vector.toList = blocks rate msg ∧ h.state = bs.foldl K.absorbBlock K.init

theorem holds_nil [NeZero rate] {h : Sha3Base σ rate} (hopen : h.finalized = false)
    (hbuf : h.buffered = 0) (hstate : h.state = K.init) : h.Holds K [] := by
  have hr : ([] : List Byte).length < rate := Nat.pos_of_neZero rate
  refine ⟨hopen, ?_, ?_, [], ?_, hstate⟩
  · rw [rest_of_lt hr, hbuf]
    rfl
  · rw [rest_of_lt hr, pending, hbuf, List.take_zero]
  · rw [blocks_of_lt hr]
    rfl

theorem new_holds [NeZero rate] : (new K).Holds K [] := holds_nil rfl rfl rfl

theorem reset_holds [NeZero rate] (h : Sha3Base σ rate) : (h.reset K).Holds K [] :=
  holds_nil rfl rfl rfl

/-- Bytes copied behind the buffered ones. -/
theorem pending_memcpy (h : Sha3Base σ rate) {p : List Byte} (hp : h.buffered + p.length ≤ rate) :
    (memcpy h.buf h.buffered p).toList.take (h.buffered + p.length) = h.pending ++ p := by
  have hlen : (h.buf.toList.take h.buffered).length = h.buffered := by simp; omega
  rw [memcpy_toList _ hp, List.take_append_of_le_length (by simp; omega),
    List.take_of_length_le (by rw [List.length_append, hlen])]
  rfl

theorem buffer_holds {h : Sha3Base σ rate} {msg p : List Byte} (hh : h.Holds K msg)
    (hp : h.buffered + p.length < rate) :
    ({ h with buf := memcpy h.buf h.buffered p, buffered := h.buffered + p.length } :
      Sha3Base σ rate).Holds K (msg ++ p) := by
  have hlt : (rest rate msg ++ p).length < rate := by
    rw [List.length_append, ← hh.buffered]
    exact hp
  obtain ⟨hb, ht⟩ := blocks_append_lt hlt
  obtain ⟨bs, hbs, hst⟩ := hh.state
  refine ⟨hh.open_, ?_, ?_, bs, hbs.trans hb.symm, hst⟩
  · rw [ht, List.length_append, ← hh.buffered]
  · show (memcpy h.buf h.buffered p).toList.take (h.buffered + p.length) = _
    rw [pending_memcpy h (by omega), hh.pending, ht]

theorem Holds.not_finalized {h : Sha3Base σ rate} {msg : List Byte} (hh : h.Holds K msg) :
    ¬ h.finalized = true := by
  rw [hh.open_]
  exact Bool.false_ne_true

section

variable [NeZero rate]

theorem Holds.buffered_lt {h : Sha3Base σ rate} {msg : List Byte} (hh : h.Holds K msg) :
    h.buffered < rate := by
  rw [hh.buffered]
  exact rest_length_lt (Nat.pos_of_neZero rate) msg

/-- What absorbing the buffered bytes, completed by `p` to a full block, leaves behind. -/
theorem absorbBlock_holds {h h' : Sha3Base σ rate} {msg p : List Byte} (hh : h.Holds K msg)
    {block : Vector Byte rate} (hb : block.toList = h.pending ++ p)
    (hopen : h'.finalized = h.finalized) (hbuf : h'.buffered = 0)
    (hstate : h'.state = K.absorbBlock h.state block) : h'.Holds K (msg ++ p) := by
  rw [hh.pending] at hb
  have hlen : (rest rate msg ++ p).length = rate := by rw [← hb]; simp
  obtain ⟨hbl, ht⟩ := blocks_append_full (Nat.pos_of_neZero rate) hlen
  obtain ⟨bs, hbs, hst⟩ := hh.state
  refine ⟨hopen.trans hh.open_, ?_, ?_, bs ++ [block], ?_, ?_⟩
  · rw [ht, hbuf]
    rfl
  · rw [ht, pending, hbuf, List.take_zero]
  · rw [hbl, List.map_append, hbs, ← hb]
    rfl
  · rw [hstate, hst, List.foldl_append]
    rfl

theorem topUp_holds {h : Sha3Base σ rate} {msg : List Byte} (hh : h.Holds K msg)
    (p : List Byte) :
    ∃ d, p = d ++ (h.topUp K p).2 ∧ (h.topUp K p).1.Holds K (msg ++ d) ∧
      ((h.topUp K p).2 = [] ∨ (h.topUp K p).1.buffered = 0) := by
  have hlt := hh.buffered_lt
  unfold topUp
  split
  · set k := min (rate - h.buffered) p.length with hk
    have htake : (p.take k).length = k := by rw [List.length_take]; omega
    refine ⟨p.take k, ?_⟩
    by_cases hfull : h.buffered + k = rate
    · have hblock := pending_memcpy h (p := p.take k) (by omega)
      rw [htake, hfull, List.take_of_length_le (by simp)] at hblock
      simp only [if_pos hfull]
      exact ⟨(List.take_append_drop k p).symm, absorbBlock_holds hh hblock rfl rfl rfl,
        Or.inr trivial⟩
    · have hkeep := buffer_holds hh (p := p.take k) (by omega)
      rw [htake] at hkeep
      simp only [if_neg hfull]
      exact ⟨(List.take_append_drop k p).symm, hkeep,
        Or.inl (List.drop_eq_nil_of_le (by omega))⟩
  · exact ⟨[], rfl, by rw [List.append_nil]; exact hh, Or.inr (Nat.eq_zero_of_not_pos ‹_›)⟩

theorem absorbFull_holds {h : Sha3Base σ rate} {msg : List Byte} (hh : h.Holds K msg)
    (p : List Byte) (h0 : p = [] ∨ h.buffered = 0) :
    ∃ d, p = d ++ (h.absorbFull K p).2 ∧ (h.absorbFull K p).1.Holds K (msg ++ d) ∧
      (h.absorbFull K p).1.buffered + (h.absorbFull K p).2.length < rate := by
  have hr := Nat.pos_of_neZero rate
  induction hn : p.length using Nat.strongRecOn generalizing h msg p with
  | ind n ih =>
    rw [absorbFull]
    split
    · rename_i hp
      have hb0 : h.buffered = 0 := by
        rcases h0 with rfl | h0
        · exact absurd hp (Nat.not_le_of_lt hr)
        · exact h0
      have hblock : (⟨(p.take rate).toArray, by simp [hp]⟩ : Vector Byte rate).toList =
          h.pending ++ p.take rate := by
        simp [pending, hb0]
      have hstep : ({ h with
          state := K.absorbBlock h.state ⟨(p.take rate).toArray, by simp [hp]⟩ } :
          Sha3Base σ rate).Holds K (msg ++ p.take rate) :=
        absorbBlock_holds hh hblock rfl hb0 rfl
      obtain ⟨d, hd, hholds, hlt⟩ :=
        ih (p.drop rate).length (by rw [List.length_drop]; omega) hstep (p.drop rate)
          (Or.inr hb0) rfl
      refine ⟨p.take rate ++ d, ?_, ?_, hlt⟩
      · rw [List.append_assoc, ← hd, List.take_append_drop]
      · rw [← List.append_assoc]
        exact hholds
    · refine ⟨[], rfl, by rw [List.append_nil]; exact hh, ?_⟩
      have hlt := hh.buffered_lt
      show h.buffered + p.length < rate
      rcases h0 with rfl | h0
      · exact hlt
      · omega

/-- Absorbing data adds it to the message, whatever has been buffered before. -/
theorem absorb_holds {h : Sha3Base σ rate} {msg : List Byte} (hh : h.Holds K msg)
    (data : List Byte) : (h.absorb K data).Holds K (msg ++ data) := by
  obtain ⟨d₁, hd₁, hh₁, h0⟩ := topUp_holds hh data
  obtain ⟨d₂, hd₂, hh₂, hlt⟩ := absorbFull_holds hh₁ (h.topUp K data).2 h0
  set r := (h.topUp K data).1.absorbFull K (h.topUp K data).2 with hr
  have hdata : msg ++ data = msg ++ d₁ ++ d₂ ++ r.2 := by
    rw [List.append_assoc _ d₂, ← hd₂, List.append_assoc, ← hd₁]
  have habs : h.absorb K data = r.1.keep r.2 := by rw [absorb, if_neg hh.not_finalized]
  rw [habs, hdata]
  unfold keep
  split
  · exact buffer_holds hh₂ hlt
  · rw [List.eq_nil_of_length_eq_zero (l := r.2) (by omega), List.append_nil]
    exact hh₂

/-- Absorbing pieces one after the other adds up to absorbing their concatenation. -/
theorem absorb_chunks_holds (chunks : List (List Byte)) {h : Sha3Base σ rate} {msg : List Byte}
    (hh : h.Holds K msg) : (chunks.foldl (absorb K) h).Holds K (msg ++ chunks.flatten) := by
  induction chunks generalizing h msg with
  | nil => rw [List.flatten_nil, List.append_nil]; exact hh
  | cons c chunks ih =>
    rw [List.flatten_cons, ← List.append_assoc]
    exact ih (absorb_holds hh c)

/-! ## Finalising -/

/-- Finalising absorbs the full blocks of the message and one block made of the rest. -/
theorem finalise_state {h : Sha3Base σ rate} {msg : List Byte} (hh : h.Holds K msg) (pad : Byte) :
    ∃ bs : List (Vector Byte rate),
      bs.map Vector.toList = blocks rate msg ++ [lastBlock rate pad (rest rate msg)] ∧
        (h.finalise K pad).state = bs.foldl K.absorbBlock K.init := by
  have hlt := hh.buffered_lt
  obtain ⟨bs, hbs, hst⟩ := hh.state
  have hbuf : (h.buf.toList.take h.buffered).length = h.buffered := by simp; omega
  have h1 : (memcpy h.buf h.buffered (List.replicate (rate - h.buffered) 0)).toList =
      h.pending ++ List.replicate (rate - h.buffered) 0 := by
    rw [memcpy_toList _ (by rw [List.length_replicate]; omega), List.length_replicate,
      List.drop_eq_nil_of_le (by simp; omega), List.append_nil]
    rfl
  set b₁ := memcpy h.buf h.buffered (List.replicate (rate - h.buffered) 0)
  have hpend : h.pending.length = h.buffered := hbuf
  have h2 : (memcpy b₁ h.buffered [pad]).toList =
      h.pending ++ pad :: List.replicate (rate - h.pending.length - 1) 0 := by
    rw [memcpy_toList _ (by rw [List.length_singleton]; omega), h1,
      List.take_left' hpend, List.drop_append, List.drop_eq_nil_of_le (by simp; omega), hpend]
    simp
  set b₂ := memcpy b₁ h.buffered [pad]
  have h3 : (memcpy b₂ (rate - 1) [0x80]).toList = lastBlock rate pad h.pending := by
    rw [memcpy_toList _ (by rw [List.length_singleton]; omega), h2, lastBlock,
      List.drop_eq_nil_of_le (by simp; omega), List.append_nil]
  refine ⟨bs ++ [memcpy b₂ (rate - 1) [0x80]], ?_, ?_⟩
  · rw [List.map_append, hbs, ← hh.pending, ← h3]
    rfl
  · rw [finalise, if_neg hh.not_finalized, List.foldl_append, ← hst]
    rfl

end

end Sha3Base

end NeuroVerse.Pkg
