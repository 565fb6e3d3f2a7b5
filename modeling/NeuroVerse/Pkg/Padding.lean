/-
  The padding of the SHA3 and SHAKE hashers against FIPS 202.

  `padded` is the FIPS 202 padding of a message, `Member` the six instances of the header.
  `padding_iff`: a member absorbs the blocks of the padded message, however the message is cut
  into pieces, exactly when the message is not one byte short of full blocks. There the suffix
  and the final 0x80 share a byte, and `final` overwrites the one with the other.

  `lastBlock_inj` says what that costs: two messages end in the same blocks when they are equal
  or when one is the other followed by the padding bytes without the final 0x80 (`PadClash`).
-/
import NeuroVerse.Pkg.Sha3
import Mathlib.Data.List.ModifyLast

namespace NeuroVerse.Pkg

open NeuroVerse.Lib

/-- The padding of FIPS 202 for a suffix of less than a byte: the suffix byte carries the first
    pad bit, the last bit of the last byte is the final pad bit, and the length is the least
    multiple of `rate` above the message's. -/
def padded (rate : Nat) (suffix : Byte) (msg : List Byte) : List Byte :=
  (msg ++ suffix ::
    List.replicate ((msg.length / rate + 1) * rate - msg.length - 1) 0).modifyLast (· ||| 0x80)

section

variable {rate : Nat}

theorem modifyLast_append_cons (l r : List Byte) (b : Byte) (f : Byte → Byte) :
    (l ++ b :: r).modifyLast f = l ++ (b :: r).modifyLast f :=
  List.modifyLast_append_of_right_ne_nil f l (b :: r) (List.cons_ne_nil b r)

theorem length_modifyLast (f : Byte → Byte) (l : List Byte) :
    (l.modifyLast f).length = l.length := by
  induction l using List.reverseRecOn with
  | nil => rfl
  | append_singleton l b _ =>
    rw [List.modifyLast_concat, List.length_append, List.length_append]
    rfl

theorem blocks_padded (hr : 0 < rate) (suffix : Byte) (msg : List Byte) :
    blocks rate (padded rate suffix msg) = blocks rate msg ++
      [(rest rate msg ++ suffix ::
        List.replicate (rate - (rest rate msg).length - 1) 0).modifyLast (· ||| 0x80)] := by
  have hlt := rest_length_lt hr msg
  have hrest := rest_length rate msg
  have hdiv := Nat.div_add_mod' msg.length rate
  have hmul : (msg.length / rate + 1) * rate = msg.length / rate * rate + rate :=
    Nat.succ_mul _ _
  have hzeros : (msg.length / rate + 1) * rate - msg.length - 1 =
      rate - (rest rate msg).length - 1 := by omega
  set t := (suffix :: List.replicate (rate - (rest rate msg).length - 1) (0 : Byte)).modifyLast
    (· ||| 0x80) with ht
  have htlen : (rest rate msg ++ t).length = rate := by
    rw [List.length_append, ht, length_modifyLast, List.length_cons, List.length_replicate]
    omega
  rw [padded, hzeros, modifyLast_append_cons, modifyLast_append_cons]
  exact (blocks_append_full hr htlen).1

theorem lastBlock_short (pad : Byte) {t : List Byte} (h : t.length + 1 < rate) :
    lastBlock rate pad t = t ++ pad :: List.replicate (rate - 2 - t.length) 0 ++ [0x80] := by
  have hsplit : List.replicate (rate - t.length - 1) (0 : Byte) =
      List.replicate (rate - 2 - t.length) 0 ++ [0] := by
    rw [show rate - t.length - 1 = rate - 2 - t.length + 1 by omega, List.replicate_succ']
  rw [lastBlock, hsplit, ← List.cons_append, ← List.append_assoc, List.take_left' (by simp; omega)]

theorem lastBlock_full (pad : Byte) {t : List Byte} (h : t.length + 1 = rate) :
    lastBlock rate pad t = t ++ [0x80] := by
  rw [lastBlock, List.take_left' (by omega)]

/-- The block absorbed is the FIPS 202 block unless the suffix would share the last byte. -/
theorem lastBlock_eq_iff {suffix : Byte} (hs : suffix ||| 0x80 ≠ 0x80) {t : List Byte}
    (ht : t.length < rate) :
    lastBlock rate suffix t = (t ++ suffix ::
      List.replicate (rate - t.length - 1) 0).modifyLast (· ||| 0x80) ↔ t.length ≠ rate - 1 := by
  rcases Nat.lt_or_ge (t.length + 1) rate with hlt | hge
  · have hsplit : t ++ suffix :: List.replicate (rate - t.length - 1) 0 =
        t ++ suffix :: List.replicate (rate - 2 - t.length) 0 ++ [0] := by
      rw [show rate - t.length - 1 = rate - 2 - t.length + 1 by omega, List.replicate_succ',
        ← List.cons_append, ← List.append_assoc]
    rw [lastBlock_short suffix hlt, hsplit, List.modifyLast_concat]
    exact ⟨fun _ => by omega, fun _ => rfl⟩
  · have hzero : List.replicate (rate - t.length - 1) (0 : Byte) = [] := by
      rw [show rate - t.length - 1 = 0 by omega]
      rfl
    rw [lastBlock_full suffix (by omega), hzero, List.modifyLast_concat]
    constructor
    · intro h
      have hb := List.append_cancel_left h
      exact absurd (List.cons.inj hb).1.symm hs
    · intro h
      omega

/-! ## Messages that end in the same blocks -/

/-- `b` is `b'` followed by the padding `b'` gets, without the final 0x80. -/
def PadClash (rate : Nat) (pad : Byte) (b b' : List Byte) : Prop :=
  b'.length % rate + 1 < rate ∧
    b = b' ++ pad :: List.replicate (rate - 2 - b'.length % rate) 0

instance (rate : Nat) (pad : Byte) (b b' : List Byte) : Decidable (PadClash rate pad b b') :=
  inferInstanceAs (Decidable (_ ∧ _))

/-- A nonzero byte followed by zeros can be found from the end. -/
theorem append_zeros_inj {pad : Byte} (hp : pad ≠ 0) {t t' : List Byte} {k k' : Nat}
    (h : t ++ pad :: List.replicate k 0 = t' ++ pad :: List.replicate k' 0) : t = t' := by
  have hdrop : ∀ (l : List Byte) (n : Nat),
      (l ++ pad :: List.replicate n 0).reverse.dropWhile (· == 0) = pad :: l.reverse := by
    intro l n
    induction n with
    | zero => simp [show pad ≠ 0#8 from hp]
    | succ n ih => simpa [List.replicate_succ'] using ih
  have heq : pad :: t.reverse = pad :: t'.reverse := by rw [← hdrop t k, h, hdrop t' k']
  exact List.reverse_injective (List.cons.inj heq).2

theorem lastBlock_inj {pad : Byte} (hp : pad ≠ 0) {t t' : List Byte} (ht : t.length < rate)
    (ht' : t'.length < rate) (h : lastBlock rate pad t = lastBlock rate pad t') :
    t = t' ∨ PadClash rate pad t t' ∨ PadClash rate pad t' t := by
  have hclash : ∀ {s s' : List Byte}, s.length + 1 = rate → s'.length + 1 < rate →
      lastBlock rate pad s = lastBlock rate pad s' → PadClash rate pad s s' := by
    intro s s' hs hs' hss
    rw [lastBlock_full pad hs, lastBlock_short pad hs'] at hss
    have hmod : s'.length % rate = s'.length := Nat.mod_eq_of_lt (by omega)
    exact ⟨by rw [hmod]; exact hs', by rw [hmod]; exact List.append_cancel_right hss⟩
  rcases Nat.lt_or_ge (t.length + 1) rate with h1 | h1
  · rcases Nat.lt_or_ge (t'.length + 1) rate with h2 | h2
    · rw [lastBlock_short pad h1, lastBlock_short pad h2] at h
      exact Or.inl (append_zeros_inj hp (List.append_cancel_right h))
    · exact Or.inr (Or.inr (hclash (by omega) h1 h.symm))
  · rcases Nat.lt_or_ge (t'.length + 1) rate with h2 | h2
    · exact Or.inr (Or.inl (hclash (by omega) h2 h))
    · rw [lastBlock_full pad (by omega), lastBlock_full pad (by omega)] at h
      exact Or.inl (List.append_cancel_right h)

theorem lastBlock_clash {pad : Byte} {t t' : List Byte} (ht : t'.length < rate)
    (h : PadClash rate pad t t') : lastBlock rate pad t = lastBlock rate pad t' := by
  obtain ⟨hlt, heq⟩ := h
  rw [Nat.mod_eq_of_lt ht] at hlt heq
  have hlen : t.length + 1 = rate := by
    rw [heq, List.length_append, List.length_cons, List.length_replicate]
    omega
  rw [lastBlock_full pad hlen, lastBlock_short pad hlt, heq]

/-- A message clashes with another exactly when their full blocks agree and the rests clash. -/
theorem padClash_iff_rest (hr : 0 < rate) (pad : Byte) (b b' : List Byte) :
    PadClash rate pad b b' ↔
      blocks rate b = blocks rate b' ∧ PadClash rate pad (rest rate b) (rest rate b') := by
  have hlt := rest_length_lt hr b'
  have hlen := rest_length rate b'
  constructor
  · rintro ⟨hs, rfl⟩
    have happ := blocks_append_lt (l := b')
      (t := pad :: List.replicate (rate - 2 - b'.length % rate) 0) (r := rate) (by
        rw [List.length_append, List.length_cons, List.length_replicate]
        omega)
    refine ⟨happ.1, ?_⟩
    unfold PadClash
    rw [happ.2, Nat.mod_eq_of_lt hlt, hlen]
    exact ⟨hs, rfl⟩
  · rintro ⟨hb, hs, ht⟩
    rw [Nat.mod_eq_of_lt hlt, hlen] at hs ht
    refine ⟨hs, ?_⟩
    rw [← flatten_blocks_append_rest hr b, hb, ht, ← List.append_assoc,
      flatten_blocks_append_rest hr b']

/-- The blocks absorbed for a message. -/
def finalBlocks (rate : Nat) (pad : Byte) (msg : List Byte) : List (List Byte) :=
  blocks rate msg ++ [lastBlock rate pad (rest rate msg)]

theorem finalBlocks_eq_iff (hr : 0 < rate) {pad : Byte} (hp : pad ≠ 0) (b b' : List Byte) :
    finalBlocks rate pad b = finalBlocks rate pad b' ↔
      b = b' ∨ PadClash rate pad b b' ∨ PadClash rate pad b' b := by
  have hlt := rest_length_lt hr b
  have hlt' := rest_length_lt hr b'
  rw [padClash_iff_rest hr pad b b', padClash_iff_rest hr pad b' b]
  constructor
  · intro h
    obtain ⟨hb, hl⟩ := List.append_inj' h rfl
    rcases lastBlock_inj hp hlt hlt' (List.cons.inj hl).1 with ht | ht | ht
    · exact Or.inl (eq_of_blocks_rest hr hb ht)
    · exact Or.inr (Or.inl ⟨hb, ht⟩)
    · exact Or.inr (Or.inr ⟨hb.symm, ht⟩)
  · rintro (rfl | ⟨hb, ht⟩ | ⟨hb, ht⟩)
    · rfl
    · rw [finalBlocks, finalBlocks, hb, lastBlock_clash hlt' ht]
    · rw [finalBlocks, finalBlocks, hb, lastBlock_clash hlt ht]

end

/-! ## The six instances -/

/-- The instances of the header. -/
inductive Member where
  | sha3_224
  | sha3_256
  | sha3_384
  | sha3_512
  | shake128
  | shake256

namespace Member

def rate : Member → Nat
  | sha3_224 => 144
  | sha3_256 => 136
  | sha3_384 => 104
  | sha3_512 => 72
  | shake128 => 168
  | shake256 => 136

/-- The domain suffix with the first pad bit. -/
def suffix : Member → Byte
  | sha3_224 => 0x06
  | sha3_256 => 0x06
  | sha3_384 => 0x06
  | sha3_512 => 0x06
  | shake128 => 0x1F
  | shake256 => 0x1F

instance (m : Member) : NeZero m.rate := ⟨by cases m <;> decide⟩

/-- The state of a hasher of this instance that was given `chunks` and then finalised. -/
def finalState {σ : Type*} (m : Member) (K : BlockSponge σ m.rate) (chunks : List (List Byte)) :
    σ :=
  ((chunks.foldl (Sha3Base.absorb K) (Sha3Base.new K)).finalise K m.suffix).state

/-- The blocks absorbed up to and including finalisation. -/
def absorbedBlocks (m : Member) (chunks : List (List Byte)) : List (Vector Byte m.rate) :=
  m.finalState (recorder m.rate) chunks

/-- The blocks absorbed are those of the padded message. -/
def PadsAsFips (m : Member) (chunks : List (List Byte)) : Prop :=
  (m.absorbedBlocks chunks).map Vector.toList =
    blocks m.rate (padded m.rate m.suffix chunks.flatten)

theorem finalState_blocks {σ : Type*} (m : Member) (K : BlockSponge σ m.rate)
    (chunks : List (List Byte)) :
    ∃ bs : List (Vector Byte m.rate),
      bs.map Vector.toList = finalBlocks m.rate m.suffix chunks.flatten ∧
        m.finalState K chunks = bs.foldl K.absorbBlock K.init :=
  Sha3Base.finalise_state (Sha3Base.absorb_chunks_holds chunks Sha3Base.new_holds) m.suffix

theorem foldl_recorder {rate : Nat} (bs : List (Vector Byte rate)) :
    bs.foldl (recorder rate).absorbBlock (recorder rate).init = bs := by
  have h : ∀ acc, bs.foldl (recorder rate).absorbBlock acc = acc ++ bs := by
    induction bs with
    | nil => intro acc; rw [List.foldl_nil, List.append_nil]
    | cons b bs ih => intro acc; rw [List.foldl_cons, ih]; simp [recorder]
  exact h []

theorem absorbedBlocks_toList (m : Member) (chunks : List (List Byte)) :
    (m.absorbedBlocks chunks).map Vector.toList = finalBlocks m.rate m.suffix chunks.flatten := by
  obtain ⟨bs, hbs, hst⟩ := m.finalState_blocks (recorder m.rate) chunks
  rw [absorbedBlocks, hst, foldl_recorder, hbs]

/-- The recorded blocks are what any sponge, the Keccak state among them, has absorbed. -/
theorem finalState_eq_foldl {σ : Type*} (m : Member) (K : BlockSponge σ m.rate)
    (chunks : List (List Byte)) :
    m.finalState K chunks = (m.absorbedBlocks chunks).foldl K.absorbBlock K.init := by
  obtain ⟨bs, hbs, hst⟩ := m.finalState_blocks K chunks
  rw [hst, map_toList_inj (hbs.trans (m.absorbedBlocks_toList chunks).symm)]

theorem padsAsFips_iff (m : Member) (chunks : List (List Byte)) :
    m.PadsAsFips chunks ↔ (rest m.rate chunks.flatten).length ≠ m.rate - 1 := by
  have hr := Nat.pos_of_neZero m.rate
  have hs : m.suffix ||| 0x80 ≠ 0x80 := by cases m <;> decide
  rw [PadsAsFips, absorbedBlocks_toList, blocks_padded hr, finalBlocks,
    ← lastBlock_eq_iff hs (rest_length_lt hr chunks.flatten)]
  constructor
  · intro h
    exact (List.cons.inj (List.append_cancel_left h)).1
  · intro h
    rw [h]

/-- Every instance pads a message as FIPS 202 does, however it is delivered, exactly when the
    message is not one byte short of full blocks. -/
theorem padding_iff (m : Member) (chunks : List (List Byte)) :
    m.PadsAsFips chunks ↔ chunks.flatten.length % m.rate ≠ m.rate - 1 := by
  rw [padsAsFips_iff, rest_length]

/-- SHA3-512 loses the suffix of a message of 71 bytes. -/
theorem sha3_512_loses_suffix : ¬ ∀ (m : Member) chunks, m.PadsAsFips chunks := by
  intro h
  have hne := (padsAsFips_iff .sha3_512 [List.replicate 71 0]).mp (h _ _)
  exact hne (by rw [rest_length]; rfl)

end Member

end NeuroVerse.Pkg
