/-
  Encodings that delimit themselves: an encoding of a set of values is framed when it can be split
  off the front of any longer string. Framed encodings are injective and prefix-free, and they can
  be put one after the other. Encodings of one length are framed, and so are strings and lists
  with their length in front.

  Nothing here names a program.
-/
import Mathlib.Data.Set.Function
import Mathlib.Data.Set.Prod
import Mathlib.Algebra.Order.Ring.Nat

namespace NeuroVerse.Lib

variable {α γ β : Type*}

/-- Two strings that begin with encodings of values of `S` are the same only if they begin with the
    encoding of the same value and go on in the same way. -/
def Framed (S : Set α) (enc : α → List β) : Prop :=
  ∀ x ∈ S, ∀ y ∈ S, ∀ s t, enc x ++ s = enc y ++ t → x = y ∧ s = t

namespace Framed

variable {S : Set α} {enc : α → List β}

theorem injOn (h : Framed S enc) : Set.InjOn enc S := by
  intro x hx y hy hxy
  exact (h x hx y hy [] [] (by rw [hxy])).1

/-- No encoding is a proper prefix of another one. -/
theorem eq_of_prefix (h : Framed S enc) {x y : α} (hx : x ∈ S) (hy : y ∈ S)
    (hp : enc x <+: enc y) : x = y := by
  obtain ⟨t, ht⟩ := hp
  exact (h x hx y hy t [] (by rw [ht, List.append_nil])).1

theorem mono {T : Set α} (h : Framed T enc) (hST : S ⊆ T) : Framed S enc :=
  fun x hx y hy => h x (hST hx) y (hST hy)

theorem congr {enc' : α → List β} (h : Framed S enc) (he : ∀ x, enc' x = enc x) :
    Framed S enc' := by
  have : enc' = enc := funext he
  rwa [this]

/-- Encodings that all have the same length. -/
theorem ofLength {n : Nat} (hlen : ∀ x ∈ S, (enc x).length = n) (hinj : Set.InjOn enc S) :
    Framed S enc := by
  intro x hx y hy s t h
  obtain ⟨hxy, hst⟩ := List.append_inj h ((hlen x hx).trans (hlen y hy).symm)
  exact ⟨hinj hx hy hxy, hst⟩

/-- Values that are known from their images. -/
theorem comap {f : γ → α} {R : Set γ} (h : Framed S enc) (hmaps : Set.MapsTo f R S)
    (hinj : Set.InjOn f R) : Framed R fun z => enc (f z) := by
  intro x hx y hy s t hst
  obtain ⟨hf, hrest⟩ := h _ (hmaps hx) _ (hmaps hy) s t hst
  exact ⟨hinj hx hy hf, hrest⟩

/-- One encoding after the other. -/
theorem pair {T : Set γ} {enc' : γ → List β} (h : Framed S enc) (h' : Framed T enc') :
    Framed (S ×ˢ T) fun p => enc p.1 ++ enc' p.2 := by
  rintro ⟨x, x'⟩ ⟨hx, hx'⟩ ⟨y, y'⟩ ⟨hy, hy'⟩ s t hst
  rw [List.append_assoc, List.append_assoc] at hst
  obtain ⟨rfl, hrest⟩ := h x hx y hy _ _ hst
  obtain ⟨rfl, hst'⟩ := h' x' hx' y' hy' _ _ hrest
  exact ⟨rfl, hst'⟩

/-- Lists of one length, their encodings one after the other. -/
theorem flatMap_inj (h : Framed S enc) : ∀ xs ys : List α, xs.length = ys.length →
    (∀ x ∈ xs, x ∈ S) → (∀ y ∈ ys, y ∈ S) → ∀ s t,
    xs.flatMap enc ++ s = ys.flatMap enc ++ t → xs = ys ∧ s = t
  | [], [], _, _, _, s, t, hst => ⟨rfl, hst⟩
  | [], _ :: _, hlen, _, _, _, _, _ => nomatch hlen
  | _ :: _, [], hlen, _, _, _, _, _ => nomatch hlen
  | x :: xs, y :: ys, hlen, hxs, hys, s, t, hst => by
    rw [List.flatMap_cons, List.flatMap_cons, List.append_assoc, List.append_assoc] at hst
    obtain ⟨rfl, hrest⟩ := h x (hxs x List.mem_cons_self) y (hys y List.mem_cons_self) _ _ hst
    obtain ⟨rfl, hst'⟩ := flatMap_inj h xs ys (Nat.succ.inj hlen)
      (fun z hz => hxs z (List.mem_cons_of_mem x hz))
      (fun z hz => hys z (List.mem_cons_of_mem x hz)) s t hrest
    exact ⟨rfl, hst'⟩

/-- A list with its length in front, whose elements delimit themselves. -/
theorem list {N : Set Nat} {len : Nat → List β} (hlen : Framed N len) (h : Framed S enc) :
    Framed {xs : List α | xs.length ∈ N ∧ ∀ x ∈ xs, x ∈ S}
      fun xs => len xs.length ++ xs.flatMap enc := by
  rintro xs ⟨hn, hxs⟩ ys ⟨hn', hys⟩ s t hst
  rw [List.append_assoc, List.append_assoc] at hst
  obtain ⟨heq, hrest⟩ := hlen _ hn _ hn' _ _ hst
  exact h.flatMap_inj xs ys heq hxs hys s t hrest

/-- A string with its length in front. -/
theorem string {N : Set Nat} {len : Nat → List β} (hlen : Framed N len) :
    Framed {l : List β | l.length ∈ N} fun l => len l.length ++ l := by
  intro x hx y hy s t hst
  rw [List.append_assoc, List.append_assoc] at hst
  obtain ⟨heq, hrest⟩ := hlen _ hx _ hy _ _ hst
  exact List.append_inj hrest heq

end Framed

/-! ## Numbers in a fixed number of bytes -/

/-- The last `k` base-256 digits of `n`, the highest first. -/
def bigEndian : Nat → Nat → List (BitVec 8)
  | 0, _ => []
  | k + 1, n => BitVec.ofNat 8 (n / 256 ^ k) :: bigEndian k n

/-- A byte of a word, taken out by a shift and a mask. -/
theorem setWidth_shift_mask {w : Nat} (hw : 8 ≤ w) (n : BitVec w) (k : Nat) :
    ((n >>> k) &&& 0xFF).setWidth 8 = BitVec.ofNat 8 (n.toNat / 2 ^ k) := by
  have hlt : 2 ^ 8 - 1 < 2 ^ w :=
    Nat.lt_of_lt_of_le (by decide) (Nat.pow_le_pow_right (by decide) hw)
  have hmask : (0xFF : BitVec w).toNat = 2 ^ 8 - 1 :=
    (BitVec.toNat_ofNat 0xFF w).trans (Nat.mod_eq_of_lt hlt)
  apply BitVec.eq_of_toNat_eq
  rw [BitVec.toNat_setWidth, BitVec.toNat_and, hmask, Nat.and_two_pow_sub_one_eq_mod, Nat.mod_mod,
    BitVec.toNat_ushiftRight, Nat.shiftRight_eq_div_pow, BitVec.toNat_ofNat]

theorem length_bigEndian (k n : Nat) : (bigEndian k n).length = k := by
  induction k with
  | zero => rfl
  | succ k ih => rw [bigEndian, List.length_cons, ih]

theorem bigEndian_inj {k n m : Nat} (h : bigEndian k n = bigEndian k m) :
    n % 256 ^ k = m % 256 ^ k := by
  induction k with
  | zero => rw [Nat.pow_zero, Nat.mod_one, Nat.mod_one]
  | succ k ih =>
    obtain ⟨hhead, htail⟩ := List.cons.inj h
    have hdigit : n / 256 ^ k % 256 = m / 256 ^ k % 256 := by
      simpa using congrArg BitVec.toNat hhead
    rw [Nat.pow_succ, Nat.mod_mul, Nat.mod_mul, ih htail, hdigit]

theorem framed_bigEndian (k : Nat) : Framed {n | n < 256 ^ k} (bigEndian k) := by
  refine Framed.ofLength (fun n _ => length_bigEndian k n) fun n hn m hm h => ?_
  rw [← Nat.mod_eq_of_lt hn, ← Nat.mod_eq_of_lt hm]
  exact bigEndian_inj h

/-- The last `k` base-256 digits of `n`, the lowest first. -/
def littleEndian (k n : Nat) : List (BitVec 8) := (bigEndian k n).reverse

theorem length_littleEndian (k n : Nat) : (littleEndian k n).length = k := by
  rw [littleEndian, List.length_reverse, length_bigEndian]

theorem littleEndian_inj {k n m : Nat} (h : littleEndian k n = littleEndian k m) :
    n % 256 ^ k = m % 256 ^ k :=
  bigEndian_inj (List.reverse_inj.mp h)

/-- A length as a 32-bit field. -/
def length32 (n : Nat) : List (BitVec 8) := bigEndian 4 (n % 2 ^ 32)

theorem framed_length32 : Framed {n | n < 2 ^ 32} length32 := by
  refine (framed_bigEndian 4).comap (fun n _ => Nat.mod_lt n (by decide)) fun n hn m hm h => ?_
  rwa [Nat.mod_eq_of_lt hn, Nat.mod_eq_of_lt hm] at h

/-- A string of bytes with its length in front. -/
def field (l : List (BitVec 8)) : List (BitVec 8) := length32 l.length ++ l

theorem framed_field : Framed {l | l.length < 2 ^ 32} field := framed_length32.string

end NeuroVerse.Lib
