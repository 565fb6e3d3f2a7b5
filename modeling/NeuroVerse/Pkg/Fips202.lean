/-
  The table-driven permutation of `pkg/sha3.hpp` is Keccak-f[1600] of FIPS 202.

  `toBits` reads a state of 25 lanes as a bit array: lane `(x, y)` is number `5 * y + x`, and bit
  `z` of a lane counts from its low end. Each step of `keccakF1600` is described lane by lane
  (`theta_lane`, `rhoPi_lane`, `chi_lane`, `iota_lane`) and then bit by bit against its mapping
  (`theta_bits` and so on). `theta` and `chi` rewrite the state row by row and read no row but
  the one they rewrite (`foldl_rows`); `rhoPi` writes 24 different lanes (`getElem!_foldl_set!`),
  and its three tables are the walk of the standard (`tables_eq_walk`).
-/
import NeuroVerse.Lib.StepMappings
import NeuroVerse.Pkg.Keccak
import Mathlib.Data.List.FinRange

namespace NeuroVerse.Pkg

open NeuroVerse.Lib

/-- Lane `(x, y)`. -/
def lane (s : State) (x y : Fin 5) : Lane := s[5 * y.val + x.val]!

def toBits (s : State) : StateArray 64 := fun x y z => (lane s x y).getLsbD z

/-! ## Writing lanes -/

theorem getElem!_set!_self {s : State} {i : Nat} (hi : i < 25) (v : Lane) :
    (s.set! i v)[i]! = v := by
  rw [getElem!_pos _ i hi, Vector.getElem_set!_self]

theorem getElem!_set!_ne {s : State} {i j : Nat} (h : i ≠ j) (v : Lane) :
    (s.set! i v)[j]! = s[j]! := by
  by_cases hj : j < 25
  · rw [getElem!_pos _ j hj, getElem!_pos s j hj, Vector.getElem_set!_ne hj h]
  · rw [getElem!_neg _ j hj, getElem!_neg s j hj]

section

variable {ι : Type*} (tgt : ι → Nat) (v : ι → Lane)

theorem getElem!_foldl_set!_ne {ks : List ι} {j : Nat} (h : ∀ k ∈ ks, tgt k ≠ j) (s : State) :
    (ks.foldl (fun t k => t.set! (tgt k) (v k)) s)[j]! = s[j]! := by
  induction ks generalizing s with
  | nil => rfl
  | cons k ks ih =>
    rw [List.foldl_cons, ih fun k' hk' => h k' (List.mem_cons_of_mem k hk'),
      getElem!_set!_ne (h k List.mem_cons_self)]

/-- Writes to different lanes are all found. -/
theorem getElem!_foldl_set! {ks : List ι} (hd : (ks.map tgt).Nodup) {k : ι} (hk : k ∈ ks)
    (hlt : tgt k < 25) (s : State) :
    (ks.foldl (fun t k => t.set! (tgt k) (v k)) s)[tgt k]! = v k := by
  induction ks generalizing s with
  | nil => exact absurd hk List.not_mem_nil
  | cons k' ks ih =>
    obtain ⟨hnot, hd⟩ := List.nodup_cons.mp hd
    rw [List.foldl_cons]
    rcases List.mem_cons.mp hk with rfl | hk
    · have hother : ∀ k' ∈ ks, tgt k' ≠ tgt k := fun k' hk' heq =>
        hnot (heq ▸ List.mem_map_of_mem hk')
      rw [getElem!_foldl_set!_ne tgt v hother, getElem!_set!_self hlt]
    · exact ih hd hk _

end

/-- Rewrites the row that starts at lane `i`. -/
def setRow (s : State) (i : Nat) (v : Fin 5 → Lane) : State :=
  (List.finRange 5).foldl (fun s x => s.set! (i + x.val) (v x)) s

theorem setRow_self {s : State} {i : Nat} (hi : i + 5 ≤ 25) (v : Fin 5 → Lane) (x : Fin 5) :
    (setRow s i v)[i + x.val]! = v x := by
  have hd : ((List.finRange 5).map fun x : Fin 5 => i + x.val).Nodup := by
    refine (List.nodup_finRange 5).map fun x x' h => ?_
    have h : i + x.val = i + x'.val := h
    omega
  exact getElem!_foldl_set! (fun x : Fin 5 => i + x.val) v hd (List.mem_finRange x) (by omega) s

theorem setRow_ne {s : State} {i j : Nat} (h : j < i ∨ i + 5 ≤ j) (v : Fin 5 → Lane) :
    (setRow s i v)[j]! = s[j]! :=
  getElem!_foldl_set!_ne (fun x : Fin 5 => i + x.val) v (fun x _ => by omega) s

/-- Rewriting row after row, each from its own lanes, gives every lane its new value. -/
theorem foldl_rows {F : State → Nat → Fin 5 → Lane}
    (hF : ∀ s s' i, (∀ x : Fin 5, s[i + x.val]! = s'[i + x.val]!) → F s i = F s' i)
    {ys : List (Fin 5)} (hd : ys.Nodup) (s : State) (x y : Fin 5) :
    (ys.foldl (fun s y => setRow s (5 * y.val) (F s (5 * y.val))) s)[5 * y.val + x.val]! =
      if y ∈ ys then F s (5 * y.val) x else s[5 * y.val + x.val]! := by
  induction ys generalizing s with
  | nil => rfl
  | cons y' ys ih =>
    obtain ⟨hnot, hd⟩ := List.nodup_cons.mp hd
    rw [List.foldl_cons, ih hd]
    by_cases hy : y = y'
    · rw [hy, if_neg hnot, if_pos List.mem_cons_self, setRow_self (by omega)]
    · have hkeep : ∀ x : Fin 5, (setRow s (5 * y'.val) (F s (5 * y'.val)))[5 * y.val + x.val]! =
          s[5 * y.val + x.val]! := fun x => setRow_ne (by omega) _
      have hmem : y ∈ y' :: ys ↔ y ∈ ys := by rw [List.mem_cons, or_iff_right hy]
      simp only [hmem, hkeep, hF _ s _ hkeep]

/-- What a pass over all rows makes of a lane. -/
theorem foldl_rows_lane {F : State → Nat → Fin 5 → Lane}
    (hF : ∀ s s' i, (∀ x : Fin 5, s[i + x.val]! = s'[i + x.val]!) → F s i = F s' i)
    (s : State) (x y : Fin 5) :
    lane ([0, 5, 10, 15, 20].foldl (fun s i => setRow s i (F s i)) s) x y =
      F s (5 * y.val) x := by
  have h := foldl_rows hF (List.nodup_finRange 5) s x y
  rw [if_pos (List.mem_finRange y)] at h
  exact h

/-! ## The steps lane by lane -/

/-- The exclusive or of the column `x`. -/
def column (s : State) (x : Fin 5) : Lane :=
  lane s x 0 ^^^ lane s x 1 ^^^ lane s x 2 ^^^ lane s x 3 ^^^ lane s x 4

/-- What `theta` adds to the lanes of the column `x`. -/
def columnDiff (s : State) (x : Fin 5) : Lane := column s (x - 1) ^^^ rotl (column s (x + 1)) 1

theorem theta_eq_rows (s : State) :
    theta s = [0, 5, 10, 15, 20].foldl
      (fun t i => setRow t i fun x => t[i + x.val]! ^^^ columnDiff s x) s := by
  refine List.foldl_ext _ _ _ fun t i _ => ?_
  -- a lane is read before the pass has written it
  simp (disch := omega) only [getElem!_set!_ne]
  rfl

theorem theta_lane (s : State) (x y : Fin 5) :
    lane (theta s) x y = lane s x y ^^^ columnDiff s x := by
  rw [theta_eq_rows]
  refine foldl_rows_lane (F := fun t i x => t[i + x.val]! ^^^ columnDiff s x) ?_ s x y
  intro t t' i h
  simp only [h]

theorem chi_eq_rows (s : State) :
    chi s = [0, 5, 10, 15, 20].foldl (fun t i => setRow t i fun x =>
      t[i + x.val]! ^^^ (~~~t[i + (x + 1).val]! &&& t[i + (x + 2).val]!)) s := rfl

theorem chi_lane (s : State) (x y : Fin 5) :
    lane (chi s) x y = lane s x y ^^^ (~~~lane s (x + 1) y &&& lane s (x + 2) y) := by
  rw [chi_eq_rows]
  refine foldl_rows_lane
    (F := fun t i x => t[i + x.val]! ^^^ (~~~t[i + (x + 1).val]! &&& t[i + (x + 2).val]!)) ?_ s x y
  intro t t' i h
  simp only [h]

theorem iota_lane (round : Nat) (s : State) (x y : Fin 5) :
    lane (iota round s) x y =
      if x = 0 ∧ y = 0 then lane s 0 0 ^^^ RC[round]! else lane s x y := by
  split
  · rename_i h
    obtain ⟨rfl, rfl⟩ := h
    exact getElem!_set!_self (by decide) _
  · rename_i h
    refine getElem!_set!_ne (fun h0 => h ?_) _
    constructor <;> omega

/-- The tables are the walk: the offset of every lane, and for every lane but the first an entry
    that takes it to the lane `pi` moves it to. -/
theorem tables_eq_walk :
    (∀ x y : Fin 5, kOffset[5 * y.val + x.val]! = StateArray.offset x y % 64) ∧
      ∀ x y : Fin 5, (x, y) ≠ (0, 0) → ∃ k ∈ List.range 24, kSrc[k]! = 5 * y.val + x.val ∧
        kTgt[k]! = 5 * (2 * x + 3 * y).val + y.val := by
  decide +kernel

theorem kTgt_nodup : ((List.range 24).map fun k => kTgt[k]!).Nodup := by decide +kernel

theorem rhoPi_lane (s : State) (x y : Fin 5) :
    lane (rhoPi s) y (2 * x + 3 * y) = rotl (lane s x y) (StateArray.offset x y % 64) := by
  obtain ⟨hoff, hmove⟩ := tables_eq_walk
  by_cases h0 : (x, y) = (0, 0)
  · obtain ⟨rfl, rfl⟩ := Prod.mk.inj h0
    have hfix : ∀ k ∈ List.range 24, kTgt[k]! ≠ 0 := by decide +kernel
    rw [← hoff]
    exact getElem!_foldl_set!_ne (fun k => kTgt[k]!) _ hfix s
  · obtain ⟨k, hk, hsrc, htgt⟩ := hmove x y h0
    have h := getElem!_foldl_set! (fun k => kTgt[k]!)
      (fun k => rotl s[kSrc[k]!]! kOffset[kSrc[k]!]!) kTgt_nodup hk (by omega) s
    rw [hsrc, htgt, hoff] at h
    exact h

/-! ## Bit by bit -/

/-- Rotating to the left reads every bit from below. -/
theorem getLsbD_rotl (a : Lane) {n : Nat} (hn : n < 64) (z : Fin 64) :
    (rotl a n).getLsbD z = a.getLsbD (z - Fin.ofNat 64 n : Fin 64) := by
  have hz := z.isLt
  have hsub : (z - Fin.ofNat 64 n : Fin 64).val = (64 - n + z.val) % 64 := by
    rw [Fin.sub_def]
    show (64 - n % 64 + z.val) % 64 = _
    rw [Nat.mod_eq_of_lt hn]
  rw [rotl, hsub]
  split
  · rename_i h0
    rw [h0, Nat.sub_zero, Nat.add_mod_left, Nat.mod_eq_of_lt hz]
  · rename_i h0
    rw [BitVec.getLsbD_or, BitVec.getLsbD_shiftLeft, BitVec.getLsbD_ushiftRight]
    rcases Nat.lt_or_ge z.val n with hlt | hge
    · rw [Nat.mod_eq_of_lt (by omega)]
      simp [hlt]
    · have hwrap : 64 - n + z.val = 64 + (z.val - n) := by omega
      rw [hwrap, Nat.add_mod_left, Nat.mod_eq_of_lt (by omega),
        BitVec.getLsbD_of_ge a (64 + (z.val - n)) (by omega)]
      simp [hz, hge]

theorem theta_bits (s : State) : toBits (theta s) = (toBits s).theta := by
  funext x y z
  have hcol : ∀ x (z : Fin 64), (column s x).getLsbD z = (toBits s).parity x z := by
    intro x z
    simp only [column, BitVec.getLsbD_xor]
    rfl
  rw [toBits, theta_lane, columnDiff, BitVec.getLsbD_xor, BitVec.getLsbD_xor,
    getLsbD_rotl _ (by decide), hcol, hcol]
  rfl

theorem rhoPi_bits (s : State) : toBits (rhoPi s) = (toBits s).rho.pi := by
  have hmoved : ∀ x y, toBits (rhoPi s) y (2 * x + 3 * y) = (toBits s).rho x y := by
    intro x y
    funext z
    rw [toBits, rhoPi_lane, getLsbD_rotl _ (Nat.mod_lt _ (by decide))]
    show _ = (lane s x y).getLsbD (z - Fin.ofNat 64 (StateArray.offset x y) : Fin 64)
    congr 3
    exact Fin.ext (Nat.mod_mod _ _)
  funext x y
  rw [← StateArray.pi_source x y, hmoved, StateArray.pi_moves]

theorem chi_bits (s : State) : toBits (chi s) = (toBits s).chi := by
  funext x y z
  rw [toBits, chi_lane, BitVec.getLsbD_xor, BitVec.getLsbD_and, BitVec.getLsbD_not,
    decide_eq_true z.isLt, Bool.true_and]
  rfl

theorem RC_bits : ∀ ir < 24, ∀ z : Fin 64,
    (RC[ir]!).getLsbD z = StateArray.roundConstant 64 ir z := by
  decide +kernel

theorem iota_bits {ir : Nat} (h : ir < 24) (s : State) :
    toBits (iota ir s) = StateArray.iota ir (toBits s) := by
  funext x y z
  rw [toBits, iota_lane, StateArray.iota]
  split
  · rw [BitVec.getLsbD_xor, RC_bits ir h]
    rfl
  · rfl

theorem round_bits {ir : Nat} (h : ir < 24) (s : State) :
    toBits (iota ir (chi (rhoPi (theta s)))) = (toBits s).round ir := by
  rw [iota_bits h, chi_bits, rhoPi_bits, theta_bits]
  rfl

/-- The lanes of a state are determined by its bits. -/
theorem toBits_injective : Function.Injective toBits := by
  intro s s' h
  ext i hi : 1
  have hl : lane s ⟨i % 5, by omega⟩ ⟨i / 5, by omega⟩ =
      lane s' ⟨i % 5, by omega⟩ ⟨i / 5, by omega⟩ := by
    apply BitVec.eq_of_getLsbD_eq
    intro z hz
    exact congrFun (congrFun (congrFun h _) _) ⟨z, hz⟩
  have hi' : 5 * (i / 5) + i % 5 = i := Nat.div_add_mod i 5
  simp only [lane, hi', getElem!_pos s i hi, getElem!_pos s' i hi] at hl
  exact hl

theorem rounds_bits {rounds : List Nat} (h : ∀ ir ∈ rounds, ir < 24) (s : State) :
    toBits (rounds.foldl (fun s ir => iota ir (chi (rhoPi (theta s)))) s) =
      rounds.foldl StateArray.round (toBits s) := by
  induction rounds generalizing s with
  | nil => rfl
  | cons ir rounds ih =>
    rw [List.foldl_cons, List.foldl_cons, ih fun ir' h' => h ir' (List.mem_cons_of_mem ir h'),
      round_bits (h ir List.mem_cons_self)]

/-- `keccakF1600` is Keccak-f[1600] on every state, and the fused pass is `rho` followed by `pi`. -/
theorem keccakF1600_is_keccakF :
    Function.Injective toBits ∧
      ∀ s : State, toBits (keccakF1600 s) = (toBits s).keccakF ∧
        toBits (rhoPi s) = (toBits s).rho.pi :=
  ⟨toBits_injective, fun s =>
    ⟨rounds_bits (fun _ h => List.mem_range.mp h) s, rhoPi_bits s⟩⟩

end NeuroVerse.Pkg
