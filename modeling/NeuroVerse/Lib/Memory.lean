/-
  A flat 64-bit address space of bytes, with little-endian words of any number of bytes.

  Addresses wrap at 2^64. `Span a n` is the set of the `n` addresses from `a` on; a word read
  depends on its span only (`readWord_congr`), a word written changes its span only
  (`writeWord_frame`), and reading back gives the word written (`readWord_writeWord`). The last
  section has the words of 64 bits, the size of an address.
-/
import Mathlib.Data.BitVec
import Mathlib.Data.Set.Lattice
import Mathlib.Order.CompletePartialOrder

namespace NeuroVerse.Lib

abbrev Address := BitVec 64
abbrev Byte := BitVec 8
abbrev Memory := Address → Byte

/-- The address `k` bytes after `a`. -/
abbrev off (a : Address) (k : Nat) : Address := a + BitVec.ofNat 64 k

/-- The `n` addresses from `a` on. -/
def Span (a : Address) (n : Nat) : Set Address := {x | (x - a).toNat < n}

/-- The little-endian word of `n` bytes at `a`. -/
def readWord (m : Memory) (a : Address) : (n : Nat) → BitVec (8 * n)
  | 0 => 0#0
  | n + 1 => readWord m (a + 1) n ++ m a

/-- Stores the bytes of `v` from `a` on, least significant first. -/
def writeWord (m : Memory) (a : Address) {n : Nat} (v : BitVec (8 * n)) : Memory :=
  fun x => if (x - a).toNat < n then v.extractLsb' (8 * (x - a).toNat) 8 else m x

/-- The bytes `bs` stand at `a`. -/
def BytesAt (m : Memory) (a : Address) (bs : List Byte) : Prop :=
  ∀ k (hk : k < bs.length), m (off a k) = bs[k]

theorem off_zero (a : Address) : off a 0 = a := by simp

theorem off_off (a : Address) (j k : Nat) : off (off a j) k = off a (j + k) := by
  simp [BitVec.ofNat_add, BitVec.add_assoc]

theorem off_one (a : Address) : off a 1 = a + 1 := rfl

theorem off_sub_toNat (a : Address) {k : Nat} (hk : k < 2 ^ 64) : (off a k - a).toNat = k := by
  have h : off a k - a = BitVec.ofNat 64 k := by
    rw [off, BitVec.add_comm, BitVec.add_sub_cancel]
  rw [h, BitVec.toNat_ofNat, Nat.mod_eq_of_lt hk]

/-- An address is reached from any other by its distance. -/
theorem off_sub (a x : Address) : off a (x - a).toNat = x := by
  rw [off, BitVec.ofNat_toNat, BitVec.setWidth_eq, BitVec.add_comm, BitVec.sub_add_cancel]

theorem mem_span_off (a : Address) {k n : Nat} (hk : k < n) : off a k ∈ Span a n := by
  show (off a k - a).toNat < n
  have h : off a k - a = BitVec.ofNat 64 k := by
    rw [off, BitVec.add_comm, BitVec.add_sub_cancel]
  rw [h, BitVec.toNat_ofNat]
  exact lt_of_le_of_lt (Nat.mod_le _ _) hk

theorem mem_span_self (a : Address) {n : Nat} (hn : 0 < n) : a ∈ Span a n := by
  have h := mem_span_off a hn
  rwa [off_zero] at h

theorem span_mono (a : Address) {n n' : Nat} (h : n ≤ n') : Span a n ⊆ Span a n' :=
  fun _ hx => lt_of_lt_of_le hx h

theorem off_inj (a : Address) {j k : Nat} (hj : j < 2 ^ 64) (hk : k < 2 ^ 64)
    (h : off a j = off a k) : j = k := by
  rw [← off_sub_toNat a hj, h, off_sub_toNat a hk]

theorem span_off_subset (a : Address) {k n N : Nat} (h : k + n ≤ N) :
    Span (off a k) n ⊆ Span a N := by
  intro x hx
  have hn : (x - off a k).toNat < n := hx
  rw [← off_sub (off a k) x, off_off]
  exact mem_span_off a (by omega)

/-- Two runs of bytes one after the other share no address. -/
theorem span_disjoint_off (a : Address) {j n k l N : Nat} (hN : N ≤ 2 ^ 64) (h : j + n ≤ k)
    (h' : k + l ≤ N) : Disjoint (Span (off a j) n) (Span (off a k) l) := by
  rw [Set.disjoint_left]
  intro x hx hx'
  have hn : (x - off a j).toNat < n := hx
  have hn' : (x - off a k).toNat < l := hx'
  have hsame : off a (j + (x - off a j).toNat) = off a (k + (x - off a k).toNat) := by
    rw [← off_off, ← off_off, off_sub, off_sub]
  have hidx := off_inj a (by omega) (by omega) hsame
  omega

theorem span_disjoint {a b : Address} {n k : Nat} (h : n ≤ (b - a).toNat)
    (h' : (b - a).toNat + k ≤ 2 ^ 64) : Disjoint (Span a n) (Span b k) := by
  have hd := span_disjoint_off a (j := 0) (n := n) (k := (b - a).toNat) (l := k) (Nat.le_refl _)
    (by omega) h'
  rwa [off_zero, off_sub] at hd

theorem off_not_mem_span (a : Address) {n : Nat} (hn : n < 2 ^ 64) : off a n ∉ Span a n := by
  intro h
  have hlt : (off a n - a).toNat < n := h
  rw [off_sub_toNat a hn] at hlt
  omega

/-- A span as long as the address space holds every address. -/
theorem span_univ (a : Address) {n : Nat} (hn : 2 ^ 64 ≤ n) : Span a n = Set.univ := by
  ext x
  have hx : (x - a).toNat < 2 ^ 64 := (x - a).isLt
  exact iff_of_true (lt_of_lt_of_le hx hn) trivial

/-! ## Words -/

theorem readWord_succ (m : Memory) (a : Address) (n : Nat) :
    readWord m a (n + 1) = readWord m (a + 1) n ++ m a :=
  rfl

theorem getLsbD_readWord (m : Memory) (a : Address) (n i : Nat) (hi : i < 8 * n) :
    (readWord m a n).getLsbD i = (m (off a (i / 8))).getLsbD (i % 8) := by
  induction n generalizing a i with
  | zero => omega
  | succ n ih =>
    rw [readWord_succ, BitVec.getLsbD_append]
    by_cases h8 : i < 8
    · rw [if_pos h8, Nat.div_eq_of_lt h8, Nat.mod_eq_of_lt h8, off_zero]
    · rw [if_neg h8, ih (a + 1) (i - 8) (by omega), ← off_one, off_off]
      rw [show 1 + (i - 8) / 8 = i / 8 by omega, show (i - 8) % 8 = i % 8 by omega]

theorem readWord_congr {m m' : Memory} {a : Address} {n : Nat}
    (h : ∀ k, k < n → m (off a k) = m' (off a k)) : readWord m a n = readWord m' a n := by
  apply BitVec.eq_of_getLsbD_eq
  intro i hi
  rw [getLsbD_readWord m a n i hi, getLsbD_readWord m' a n i hi, h (i / 8) (by omega)]

theorem readWord_congr_span {m m' : Memory} {a : Address} {n : Nat}
    (h : ∀ x ∈ Span a n, m x = m' x) : readWord m a n = readWord m' a n :=
  readWord_congr fun _ hk => h _ (mem_span_off a hk)

theorem writeWord_frame (m : Memory) {a x : Address} {n : Nat} (v : BitVec (8 * n))
    (hx : x ∉ Span a n) : writeWord m a v x = m x := by
  rw [writeWord]
  exact if_neg hx

/-- The same word written into two memories leaves equal bytes equal. -/
theorem writeWord_congr {m m' : Memory} {a x : Address} {n : Nat} (v : BitVec (8 * n))
    (hx : m x = m' x) : writeWord m a v x = writeWord m' a v x := by
  rw [writeWord, writeWord, hx]

theorem readWord_writeWord (m : Memory) (a : Address) {n : Nat} (hn : n ≤ 2 ^ 64)
    (v : BitVec (8 * n)) : readWord (writeWord m a v) a n = v := by
  apply BitVec.eq_of_getLsbD_eq
  intro i hi
  have hk : (off a (i / 8) - a).toNat = i / 8 := off_sub_toNat a (by omega)
  rw [getLsbD_readWord _ a n i hi, writeWord, hk, if_pos (by omega), BitVec.getLsbD_extractLsb']
  have h8 : i % 8 < 8 := Nat.mod_lt _ (by decide)
  rw [show 8 * (i / 8) + i % 8 = i by omega]
  simp [h8]

-- A word is used through the lemmas above; unfolding it drags its bits into every goal.
attribute [irreducible] readWord writeWord

/-! ## Byte strings -/

theorem bytesAt_append {m : Memory} {a : Address} {xs ys : List Byte} :
    BytesAt m a (xs ++ ys) ↔ BytesAt m a xs ∧ BytesAt m (off a xs.length) ys := by
  constructor
  · intro h
    refine ⟨fun k hk => ?_, fun k hk => ?_⟩
    · rw [h k (by rw [List.length_append]; omega), List.getElem_append_left hk]
    · rw [off_off, h (xs.length + k) (by rw [List.length_append]; omega),
        List.getElem_append_right (by omega)]
      simp
  · rintro ⟨h1, h2⟩ k hk
    rw [List.length_append] at hk
    by_cases hlt : k < xs.length
    · rw [List.getElem_append_left hlt, h1 k hlt]
    · rw [List.getElem_append_right (by omega), ← h2 (k - xs.length) (by omega), off_off,
        show xs.length + (k - xs.length) = k by omega]

theorem BytesAt.head {m : Memory} {a : Address} {b : Byte} {bs : List Byte}
    (h : BytesAt m a (b :: bs)) : m a = b := by
  have h0 := h 0 (by simp)
  rwa [off_zero] at h0

/-- Two memories that hold the same bytes agree on their span. -/
theorem BytesAt.agree {m m' : Memory} {a : Address} {bs : List Byte} (h : BytesAt m a bs)
    (h' : BytesAt m' a bs) : ∀ x ∈ Span a bs.length, m' x = m x := by
  intro x hx
  rw [← off_sub a x, h _ hx, h' _ hx]

/-- Bytes stay where they are when memory changes elsewhere only. -/
theorem BytesAt.congr {m m' : Memory} {a : Address} {bs : List Byte} (h : BytesAt m a bs)
    (hm : ∀ x ∈ Span a bs.length, m' x = m x) : BytesAt m' a bs := by
  intro k hk
  rw [hm _ (mem_span_off a hk), h k hk]

/-- The bytes `bs` at `a`, zeros elsewhere. -/
def loaded (a : Address) (bs : List Byte) : Memory := fun x => bs.getD (x - a).toNat 0

theorem bytesAt_loaded (a : Address) {bs : List Byte} (h : bs.length ≤ 2 ^ 64) :
    BytesAt (loaded a bs) a bs := by
  intro k hk
  rw [loaded, off_sub_toNat a (by omega), List.getD_eq_getElem?_getD, List.getElem?_eq_getElem hk,
    Option.getD_some]

/-! ## Words of 64 bits -/

/-- The 64-bit word at `a`. -/
def word (m : Memory) (a : Address) : BitVec 64 := readWord m a 8

def setWord (m : Memory) (a : Address) (v : BitVec 64) : Memory := writeWord (n := 8) m a v

theorem word_congr {m m' : Memory} {a : Address} (h : ∀ x ∈ Span a 8, m x = m' x) :
    word m a = word m' a :=
  readWord_congr_span h

theorem word_setWord (m : Memory) (a : Address) (v : BitVec 64) : word (setWord m a v) a = v :=
  readWord_writeWord m a (n := 8) (by decide) v

theorem setWord_frame (m : Memory) {a x : Address} (v : BitVec 64) (hx : x ∉ Span a 8) :
    setWord m a v x = m x :=
  writeWord_frame m (n := 8) v hx

/-- The bytes of a word, least significant first. -/
def wordBytes (v : BitVec 64) : List Byte := (List.range 8).map fun k => v.extractLsb' (8 * k) 8

theorem word_of_bytesAt {m : Memory} {a : Address} {v : BitVec 64}
    (h : BytesAt m a (wordBytes v)) : word m a = v := by
  apply BitVec.eq_of_getLsbD_eq
  intro i hi
  have hk : i / 8 < (wordBytes v).length := by simp [wordBytes]; omega
  have hbyte := h (i / 8) hk
  have h8 : i % 8 < 8 := Nat.mod_lt _ (by decide)
  rw [word, getLsbD_readWord m a 8 i hi, hbyte]
  simp only [wordBytes, List.getElem_map, List.getElem_range, BitVec.getLsbD_extractLsb']
  rw [show 8 * (i / 8) + i % 8 = i by omega]
  simp [h8]

/-- The words `ws` stand one after the other from `a` on. -/
def WordsAt (m : Memory) (a : Address) (ws : List (BitVec 64)) : Prop :=
  ∀ i (hi : i < ws.length), word m (off a (8 * i)) = ws[i]

theorem wordsAt_cons {m : Memory} {a : Address} {w : BitVec 64} {ws : List (BitVec 64)} :
    WordsAt m a (w :: ws) ↔ word m a = w ∧ WordsAt m (off a 8) ws := by
  constructor
  · intro h
    refine ⟨?_, fun i hi => ?_⟩
    · have h0 := h 0 (by simp)
      rwa [Nat.mul_zero, off_zero] at h0
    · rw [off_off, show 8 + 8 * i = 8 * (i + 1) by omega]
      exact h (i + 1) (by simpa using hi)
  · rintro ⟨h0, hs⟩ i hi
    cases i with
    | zero => rw [Nat.mul_zero, off_zero, h0, List.getElem_cons_zero]
    | succ i =>
      rw [List.getElem_cons_succ, ← hs i (by simpa using hi), off_off,
        show 8 + 8 * i = 8 * (i + 1) by omega]

theorem WordsAt.congr {m m' : Memory} {a : Address} {ws : List (BitVec 64)}
    (h : WordsAt m a ws) (hm : ∀ x ∈ Span a (8 * ws.length), m' x = m x) : WordsAt m' a ws := by
  intro i hi
  rw [← h i hi]
  exact word_congr fun x hx => hm x (span_off_subset a (by omega) hx)

end NeuroVerse.Lib
