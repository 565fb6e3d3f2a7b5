/-
  Binary heaps in an array: the children of index `p` are at `2 * p + 1` and `2 * p + 2`.

  `siftUp` and `siftDown` are the two loops that repair a heap along one path, over any
  comparison `before`. The rules are stated for a comparison that compares the values of a
  function `key` into a linear order: `UpReady` and `DownReady` are the loop invariants, a heap
  whose order fails at most between an index and its parent, or its children. Both loops
  only permute the array and end in a heap (`siftUp_ordered`, `siftDown_ordered`), and the root
  of a heap has the least key (`Ordered.root_le`).
-/
import Mathlib.Order.Lattice
import Mathlib.Data.List.Perm.Basic

namespace NeuroVerse.Lib.Heap

variable {α κ : Type*}

/-- Index `c` is a child of index `p`. -/
def Child (p c : Nat) : Prop := c = 2 * p + 1 ∨ c = 2 * p + 2

section Loops

variable (before : α → α → Bool)

/-- Moves the entry at `i` towards the root while it comes before its parent. -/
def siftUp (a : Array α) (i : Nat) (hi : i < a.size) : Array α :=
  if h0 : 0 < i then
    have hp : (i - 1) / 2 < a.size := by omega
    if before a[i] a[(i - 1) / 2] then
      siftUp (a.swap i ((i - 1) / 2)) ((i - 1) / 2) (by rw [Array.size_swap]; exact hp)
    else a
  else a
termination_by i

/-- The child that comes first; the left one when neither comes before the other. -/
def firstChild (a : Array α) (i : Nat) (h : 2 * i + 1 < a.size) : Fin a.size :=
  if hr : 2 * i + 1 + 1 < a.size then
    if before a[2 * i + 1 + 1] a[2 * i + 1] then ⟨2 * i + 1 + 1, hr⟩ else ⟨2 * i + 1, h⟩
  else ⟨2 * i + 1, h⟩

theorem child_firstChild (a : Array α) (i : Nat) (h : 2 * i + 1 < a.size) :
    Child i (firstChild before a i h) := by
  unfold firstChild
  split
  · split
    · exact Or.inr rfl
    · exact Or.inl rfl
  · exact Or.inl rfl

/-- Moves the entry at `i` away from the root while one of its children comes before it. -/
def siftDown (a : Array α) (i : Nat) : Array α :=
  if h : 2 * i + 1 < a.size then
    have hi : i < a.size := by omega
    if before a[firstChild before a i h] a[i] then
      siftDown (a.swap i (firstChild before a i h)) (firstChild before a i h)
    else a
  else a
termination_by a.size - i
decreasing_by
  have hc := child_firstChild before a i h
  unfold Child at hc
  rw [Array.size_swap]
  omega

theorem siftUp_perm (a : Array α) (i : Nat) (hi : i < a.size) :
    (siftUp before a i hi).Perm a := by
  fun_induction siftUp with
  | case1 a i hi h0 hp hb ih => exact ih.trans (Array.swap_perm _ _)
  | case2 a i hi h0 hp hb => exact Array.Perm.refl a
  | case3 a i hi h0 => exact Array.Perm.refl a

theorem siftDown_perm (a : Array α) (i : Nat) : (siftDown before a i).Perm a := by
  fun_induction siftDown with
  | case1 a i h hi hb ih => exact ih.trans (Array.swap_perm _ _)
  | case2 a i h hi hb => exact Array.Perm.refl a
  | case3 a i h => exact Array.Perm.refl a

end Loops

/-! ## Taking the root out -/

/-- Drops the root: the last entry takes its place. -/
def dropRoot (a : Array α) (h : 0 < a.size) : Array α :=
  (if 1 < a.size then a.set 0 a.back else a).pop

@[simp] theorem size_dropRoot (a : Array α) (h : 0 < a.size) :
    (dropRoot a h).size = a.size - 1 := by
  unfold dropRoot
  split <;> simp

theorem getElem_dropRoot {a : Array α} {h : 0 < a.size} {j : Nat}
    (hj : j < (dropRoot a h).size) (hja : j < a.size) (hj0 : j ≠ 0) :
    (dropRoot a h)[j] = a[j] := by
  unfold dropRoot
  split
  · rw [Array.getElem_pop, Array.getElem_set_ne _ _ (Ne.symm hj0)]
  · rw [Array.getElem_pop]

theorem dropRoot_perm (a : Array α) (h : 0 < a.size) :
    (a[0] :: (dropRoot a h).toList).Perm a.toList := by
  obtain ⟨l⟩ := a
  cases l with
  | nil => exact absurd h (Nat.lt_irrefl 0)
  | cons x m =>
    rcases List.eq_nil_or_concat m with rfl | ⟨m, z, rfl⟩
    · simp [dropRoot]
    · have hlast : (z :: (m ++ [z])).dropLast = z :: m := by
        rw [← List.cons_append, List.dropLast_concat]
      simpa [dropRoot, hlast] using (List.perm_append_singleton z m).symm

/-! ## The heap order -/

section Order

variable [LinearOrder κ] (key : α → κ)

/-- No entry has a smaller key than its parent. -/
def Ordered (a : Array α) : Prop :=
  ∀ p c (_ : p < a.size) (_ : c < a.size), Child p c → key a[p] ≤ key a[c]

theorem ordered_empty : Ordered key #[] := fun _ _ h => absurd h (Nat.not_lt_zero _)

variable {key} {a : Array α} {i : Nat}

/-- The root of a heap has the least key. -/
theorem Ordered.root_le (h : Ordered key a) (hi : i < a.size) :
    key (a[0]) ≤ key a[i] := by
  induction i using Nat.strongRecOn with
  | ind i ih =>
    rcases Nat.eq_zero_or_pos i with rfl | h0
    · exact le_rfl
    · have hchild : Child ((i - 1) / 2) i := by unfold Child; omega
      exact (ih ((i - 1) / 2) (by omega) (by omega)).trans (h _ _ _ hi hchild)

/-- The order fails at most between `i` and its parent, and would not fail if `i` were cut
    out. -/
structure UpReady (key : α → κ) (a : Array α) (i : Nat) : Prop where
  rest : ∀ p c (_ : p < a.size) (_ : c < a.size), Child p c → c ≠ i → key a[p] ≤ key a[c]
  across : ∀ g c (_ : g < a.size) (_ : c < a.size), Child g i → Child i c → key a[g] ≤ key a[c]

/-- The order fails at most between `i` and its children, and would not fail if `i` were cut
    out. -/
structure DownReady (key : α → κ) (a : Array α) (i : Nat) : Prop where
  rest : ∀ p c (_ : p < a.size) (_ : c < a.size), Child p c → p ≠ i → key a[p] ≤ key a[c]
  across : ∀ g c (_ : g < a.size) (_ : c < a.size), Child g i → Child i c → key a[g] ≤ key a[c]

/-- One turn of `siftUp`: exchanging `i` with its parent moves the failure to the parent. -/
theorem UpReady.swap (h : UpReady key a i) (hi : i < a.size) {p : Nat} (hp : p < a.size)
    (hpi : Child p i) (hlt : key a[i] < key a[p]) : UpReady key (a.swap i p) p := by
  have hne : p ≠ i := by unfold Child at hpi; omega
  constructor
  · intro q c hq' hc' hqc hcp
    have hq : q < a.size := by simpa using hq'
    have hc : c < a.size := by simpa using hc'
    by_cases hci : c = i
    · -- the pair that was out of order
      obtain rfl : q = p := by unfold Child at hpi hqc; omega
      subst hci
      rw [Array.getElem_swap_right, Array.getElem_swap_left]
      exact hlt.le
    · rw [Array.getElem_swap_of_ne (k := c) hci hcp]
      by_cases hqi : q = i
      · subst hqi
        rw [Array.getElem_swap_left]
        exact h.across p c hp hc hpi hqc
      · by_cases hqp : q = p
        · subst hqp
          rw [Array.getElem_swap_right]
          exact hlt.le.trans (h.rest q c hq hc hqc hci)
        · rw [Array.getElem_swap_of_ne hqi hqp]
          exact h.rest q c hq hc hqc hci
  · intro g c hg' hc' hgp hpc
    have hg : g < a.size := by simpa using hg'
    have hc : c < a.size := by simpa using hc'
    have hgi : g ≠ i := by unfold Child at hpi hgp; omega
    have hgne : g ≠ p := by unfold Child at hgp; omega
    have hcp : c ≠ p := by unfold Child at hpc; omega
    have habove : key a[g] ≤ key a[p] := h.rest g p hg hp hgp hne
    rw [Array.getElem_swap_of_ne hgi hgne]
    by_cases hci : c = i
    · subst hci
      rw [Array.getElem_swap_left]
      exact habove
    · rw [Array.getElem_swap_of_ne hci hcp]
      exact habove.trans (h.rest p c hp hc hpc hci)

/-- One turn of `siftDown`: exchanging `i` with its first child moves the failure there. -/
theorem DownReady.swap (h : DownReady key a i) (hi : i < a.size) {c : Nat} (hc : c < a.size)
    (hic : Child i c) (hlt : key a[c] < key a[i])
    (hleast : ∀ d (_ : d < a.size), Child i d → key a[c] ≤ key a[d]) :
    DownReady key (a.swap i c) c := by
  have hne : i ≠ c := by unfold Child at hic; omega
  constructor
  · intro p d hp' hd' hpd hpc
    have hp : p < a.size := by simpa using hp'
    have hd : d < a.size := by simpa using hd'
    by_cases hpi : p = i
    · subst hpi
      rw [Array.getElem_swap_left]
      by_cases hdc : d = c
      · subst hdc
        rw [Array.getElem_swap_right]
        exact hlt.le
      · have hdp : d ≠ p := by unfold Child at hpd; omega
        rw [Array.getElem_swap_of_ne hdp hdc]
        exact hleast d hd hpd
    · rw [Array.getElem_swap_of_ne hpi hpc]
      have hdc : d ≠ c := by unfold Child at hpd hic; omega
      by_cases hdi : d = i
      · subst hdi
        rw [Array.getElem_swap_left]
        exact h.across p c hp hc hpd hic
      · rw [Array.getElem_swap_of_ne hdi hdc]
        exact h.rest p d hp hd hpd hpi
  · intro g d hg' hd' hgc hcd
    have hg : g < a.size := by simpa using hg'
    have hd : d < a.size := by simpa using hd'
    obtain rfl : g = i := by unfold Child at hgc hic; omega
    have hdg : d ≠ g := by unfold Child at hcd hgc; omega
    have hdc : d ≠ c := by unfold Child at hcd; omega
    rw [Array.getElem_swap_left, Array.getElem_swap_of_ne hdg hdc]
    exact h.rest c d hc hd hcd hne.symm

variable {before : α → α → Bool}

theorem siftUp_ordered (hkey : ∀ x y, before x y = true ↔ key x < key y) (hi : i < a.size)
    (h : UpReady key a i) : Ordered key (siftUp before a i hi) := by
  fun_induction siftUp with
  | case1 a i hi h0 hp hb ih =>
    exact ih (h.swap hi hp (by unfold Child; omega) ((hkey _ _).mp hb))
  | case2 a i hi h0 hp hb =>
    intro p c hp' hc hchild
    by_cases hci : c = i
    · obtain rfl : p = (i - 1) / 2 := by unfold Child at hchild; omega
      subst hci
      rw [hkey] at hb
      exact not_lt.mp hb
    · exact h.rest p c hp' hc hchild hci
  | case3 a i hi h0 =>
    intro p c hp hc hchild
    exact h.rest p c hp hc hchild (by unfold Child at hchild; omega)

/-- No child comes before the one `firstChild` picks. -/
theorem firstChild_le (hkey : ∀ x y, before x y = true ↔ key x < key y)
    (h : 2 * i + 1 < a.size) {d : Nat} (hd : d < a.size) (hchild : Child i d) :
    key a[firstChild before a i h] ≤ key a[d] := by
  unfold firstChild
  split
  · rename_i hr
    split
    · rename_i hb
      rw [hkey] at hb
      rcases hchild with rfl | rfl
      · exact hb.le
      · exact le_rfl
    · rename_i hb
      rw [hkey] at hb
      rcases hchild with rfl | rfl
      · exact le_rfl
      · exact not_lt.mp hb
  · rcases hchild with rfl | rfl
    · exact le_rfl
    · omega

theorem siftDown_ordered (hkey : ∀ x y, before x y = true ↔ key x < key y)
    (h : DownReady key a i) : Ordered key (siftDown before a i) := by
  fun_induction siftDown with
  | case1 a i hl hi hb ih =>
    exact ih (h.swap hi (firstChild before a i hl).isLt (child_firstChild before a i hl)
      ((hkey _ _).mp hb) fun d hd hchild => firstChild_le hkey hl hd hchild)
  | case2 a i hl hi hb =>
    intro p c hp hc hchild
    by_cases hpi : p = i
    · subst hpi
      rw [hkey] at hb
      exact (not_lt.mp hb).trans (firstChild_le hkey hl hc hchild)
    · exact h.rest p c hp hc hchild hpi
  | case3 a i hl =>
    intro p c hp hc hchild
    exact h.rest p c hp hc hchild (by unfold Child at hchild; omega)

/-- Appending an entry leaves the order in doubt at the last index only. -/
theorem Ordered.upReady_push (h : Ordered key a) (x : α) : UpReady key (a.push x) a.size := by
  constructor
  · intro p c hp hc hchild hne
    rw [Array.size_push] at hp hc
    have hca : c < a.size := by omega
    have hpa : p < a.size := by unfold Child at hchild; omega
    rw [Array.getElem_push_lt hpa, Array.getElem_push_lt hca]
    exact h p c hpa hca hchild
  · intro g c _ hc _ hchild
    rw [Array.size_push] at hc
    unfold Child at hchild
    omega

/-- Dropping the root leaves the order in doubt at the root only. -/
theorem Ordered.downReady_dropRoot (h : Ordered key a) (h0 : 0 < a.size) :
    DownReady key (dropRoot a h0) 0 := by
  constructor
  · intro p c hp hc hchild hne
    have hcne : c ≠ 0 := by unfold Child at hchild; omega
    have hpa : p < a.size := by rw [size_dropRoot] at hp; omega
    have hca : c < a.size := by rw [size_dropRoot] at hc; omega
    rw [getElem_dropRoot hp hpa hne, getElem_dropRoot hc hca hcne]
    exact h p c hpa hca hchild
  · intro g c _ _ hchild
    unfold Child at hchild
    omega

end Order

end NeuroVerse.Lib.Heap
