/-
  Cutting a sequence into blocks of a fixed length.

  `blocks r l` are the full blocks of `l`, `rest r l` what is left, shorter than a block.
  Both are determined by what they add up to (`blocks_eq`, `rest_eq`), which gives how one
  more piece changes them (`blocks_append`, `rest_append`) without computing any index.
  `memcpy` overwrites a stretch of a fixed-length buffer.
-/
import Mathlib.Data.List.Basic
import Mathlib.Data.Vector.Basic

namespace NeuroVerse.Lib

variable {β : Type*}

/-- The full blocks of `r` elements that `l` starts with. -/
def blocks (r : Nat) (l : List β) : List (List β) :=
  (List.range (l.length / r)).map fun i => (l.drop (i * r)).take r

/-- What `l` has after its full blocks. -/
def rest (r : Nat) (l : List β) : List β := l.drop (l.length / r * r)

theorem rest_length (r : Nat) (l : List β) : (rest r l).length = l.length % r := by
  have h := Nat.div_add_mod l.length r
  rw [Nat.mul_comm] at h
  rw [rest, List.length_drop]
  omega

theorem rest_length_lt {r : Nat} (hr : 0 < r) (l : List β) : (rest r l).length < r := by
  rw [rest_length]
  exact Nat.mod_lt _ hr

theorem blocks_of_lt {r : Nat} {l : List β} (h : l.length < r) : blocks r l = [] := by
  simp [blocks, Nat.div_eq_of_lt h]

theorem rest_of_lt {r : Nat} {l : List β} (h : l.length < r) : rest r l = l := by
  simp [rest, Nat.div_eq_of_lt h]

theorem blocks_cons {r : Nat} (hr : 0 < r) {b : List β} (hb : b.length = r) (l : List β) :
    blocks r (b ++ l) = b :: blocks r l := by
  have hlen : (b ++ l).length / r = l.length / r + 1 := by
    rw [List.length_append, hb, Nat.add_comm, Nat.add_div_right _ hr]
  rw [blocks, blocks, hlen, List.range_succ_eq_map, List.map_cons, List.map_map]
  congr 1
  · simp [← hb]
  · apply List.map_congr_left
    intro i _
    have hdrop : (i + 1) * r = b.length + i * r := by rw [hb, Nat.add_mul]; omega
    simp only [Function.comp_apply, hdrop, List.drop_append, Nat.add_sub_cancel_left]
    rw [List.drop_eq_nil_of_le (by omega), List.nil_append]

theorem rest_cons {r : Nat} (hr : 0 < r) {b : List β} (hb : b.length = r) (l : List β) :
    rest r (b ++ l) = rest r l := by
  have hlen : (b ++ l).length / r = l.length / r + 1 := by
    rw [List.length_append, hb, Nat.add_comm, Nat.add_div_right _ hr]
  have hdrop : (l.length / r + 1) * r = b.length + l.length / r * r := by
    rw [hb, Nat.add_mul]; omega
  rw [rest, rest, hlen, hdrop, List.drop_append, Nat.add_sub_cancel_left,
    List.drop_eq_nil_of_le (by omega), List.nil_append]

/-- Full blocks followed by less than a block are the decomposition of their sum. -/
theorem blocks_rest_flatten {r : Nat} (hr : 0 < r) {bs : List (List β)} {t : List β}
    (hbs : ∀ b ∈ bs, b.length = r) (ht : t.length < r) :
    blocks r (bs.flatten ++ t) = bs ∧ rest r (bs.flatten ++ t) = t := by
  induction bs with
  | nil => exact ⟨blocks_of_lt ht, rest_of_lt ht⟩
  | cons b bs ih =>
    have hb := hbs b List.mem_cons_self
    obtain ⟨h1, h2⟩ := ih fun b' hb' => hbs b' (List.mem_cons_of_mem b hb')
    rw [List.flatten_cons, List.append_assoc]
    exact ⟨by rw [blocks_cons hr hb, h1], by rw [rest_cons hr hb, h2]⟩

theorem flatten_blocks_append_rest {r : Nat} (hr : 0 < r) (l : List β) :
    (blocks r l).flatten ++ rest r l = l := by
  induction hn : l.length using Nat.strongRecOn generalizing l with
  | ind n ih =>
    rcases Nat.lt_or_ge l.length r with hlt | hge
    · rw [blocks_of_lt hlt, rest_of_lt hlt]
      rfl
    · have hb : (l.take r).length = r := by rw [List.length_take]; omega
      have hd := ih (l.drop r).length (by rw [List.length_drop]; omega) (l.drop r) rfl
      rw [← List.take_append_drop r l, blocks_cons hr hb, rest_cons hr hb, List.flatten_cons,
        List.append_assoc, hd]

theorem length_of_mem_blocks {r : Nat} {l b : List β} (h : b ∈ blocks r l) : b.length = r := by
  obtain ⟨i, hi, rfl⟩ := List.mem_map.mp h
  have hi := List.mem_range.mp hi
  have hle : (i + 1) * r ≤ l.length / r * r := Nat.mul_le_mul_right r hi
  have hdiv := Nat.div_mul_le_self l.length r
  rw [Nat.add_mul] at hle
  rw [List.length_take, List.length_drop]
  omega

/-- A piece that does not fill the rest up to a block is added to the rest. -/
theorem blocks_append_lt {r : Nat} {l t : List β} (h : (rest r l ++ t).length < r) :
    blocks r (l ++ t) = blocks r l ∧ rest r (l ++ t) = rest r l ++ t := by
  have hr : 0 < r := by omega
  have hsum : l ++ t = (blocks r l).flatten ++ (rest r l ++ t) := by
    rw [← List.append_assoc, flatten_blocks_append_rest hr]
  rw [hsum]
  exact blocks_rest_flatten hr (fun b hb => length_of_mem_blocks hb) h

/-- A piece that fills the rest up to a block makes it the next block. -/
theorem blocks_append_full {r : Nat} (hr : 0 < r) {l t : List β}
    (h : (rest r l ++ t).length = r) :
    blocks r (l ++ t) = blocks r l ++ [rest r l ++ t] ∧ rest r (l ++ t) = [] := by
  have hsum : l ++ t = (blocks r l ++ [rest r l ++ t]).flatten ++ [] := by
    rw [List.flatten_append, List.flatten_singleton, List.append_nil, ← List.append_assoc,
      flatten_blocks_append_rest hr]
  rw [hsum]
  refine blocks_rest_flatten hr ?_ hr
  intro b hb
  rcases List.mem_append.mp hb with hb | hb
  · exact length_of_mem_blocks hb
  · rw [List.mem_singleton.mp hb, h]

/-- Two sequences with the same blocks and the same rest are the same. -/
theorem eq_of_blocks_rest {r : Nat} (hr : 0 < r) {l l' : List β} (hb : blocks r l = blocks r l')
    (ht : rest r l = rest r l') : l = l' := by
  rw [← flatten_blocks_append_rest hr l, hb, ht, flatten_blocks_append_rest hr l']

/-! ## Buffers -/

/-- Blocks of a fixed length are determined by their elements. -/
theorem map_toList_inj {n : Nat} {bs bs' : List (Vector β n)}
    (h : bs.map Vector.toList = bs'.map Vector.toList) : bs = bs' :=
  List.map_injective_iff.mpr (fun _ _ hv => Vector.toList_inj.mp hv) h

/-- Overwrites `dst` from `pos` on with `src`; what does not fit is dropped. -/
def memcpy {n : Nat} (dst : Vector β n) (pos : Nat) (src : List β) : Vector β n :=
  Vector.ofFn fun i => (if pos ≤ i.val then src[i.val - pos]? else none).getD dst[i]

theorem memcpy_toList {n : Nat} (dst : Vector β n) {pos : Nat} {src : List β}
    (h : pos + src.length ≤ n) :
    (memcpy dst pos src).toList =
      dst.toList.take pos ++ src ++ dst.toList.drop (pos + src.length) := by
  have hlen : dst.toList.length = n := by simp
  apply List.ext_getElem
  · simp
    omega
  · intro i h1 h2
    have hi : i < n := by simpa using h1
    have hL : (memcpy dst pos src).toList[i] =
        (if pos ≤ i then src[i - pos]? else none).getD dst[i] := by
      simp [memcpy]
    have htake : (dst.toList.take pos).length = pos := by rw [List.length_take]; omega
    rw [hL]
    rcases Nat.lt_or_ge i pos with hp | hp
    · rw [if_neg (by omega), List.getElem_append_left (by rw [List.length_append]; omega),
        List.getElem_append_left (by omega)]
      simp
    · rw [if_pos hp]
      rcases Nat.lt_or_ge (i - pos) src.length with hs | hs
      · rw [List.getElem_append_left (by rw [List.length_append]; omega),
          List.getElem_append_right (by omega), List.getElem?_eq_getElem hs]
        simp [htake]
      · rw [List.getElem_append_right (by rw [List.length_append]; omega),
          List.getElem?_eq_none hs]
        simp [htake, show pos + src.length + (i - (pos + src.length)) = i by omega]

end NeuroVerse.Lib
