/-
  Half-open intervals in a linear order, laid out one after the other.

  An element of any type is an interval through its two ends, `lo` and `hi`. `Laid` says that a
  list of intervals is ordered from left to right, that none is empty and that no two overlap;
  the rules below keep it when an interval is added, taken out, cut in two or joined with its
  neighbour.

  Intervals that carry a tag map points to tags (`MapsTo`). Cutting an interval into two of the
  same tag changes nothing there (`mapsTo_cut`), and neither does any rearrangement. Nothing here
  names a program.
-/
import Mathlib.Order.Lattice
import Mathlib.Data.List.Basic

namespace NeuroVerse.Lib

variable {ι α : Type*} [LinearOrder α] {lo hi : ι → α}

/-- The point lies in the interval. -/
def Within (lo hi : ι → α) (v : ι) (x : α) : Prop := lo v ≤ x ∧ x < hi v

def Apart (lo hi : ι → α) (v w : ι) : Prop := hi v ≤ lo w ∨ hi w ≤ lo v

structure Laid (lo hi : ι → α) (xs : List ι) : Prop where
  nonempty : ∀ v ∈ xs, lo v < hi v
  ordered : xs.Pairwise fun v w => hi v ≤ lo w

theorem Apart.symm {v w : ι} (h : Apart lo hi v w) : Apart lo hi w v := Or.symm h

/-- Two intervals that are not empty are apart exactly when they share no point. -/
theorem apart_iff {v w : ι} (hv : lo v < hi v) (hw : lo w < hi w) :
    Apart lo hi v w ↔ ¬ ∃ x, Within lo hi v x ∧ Within lo hi w x := by
  constructor
  · rintro (h | h) ⟨x, ⟨hlv, hhv⟩, hlw, hhw⟩
    · exact absurd (lt_of_lt_of_le hhv (le_trans h hlw)) (lt_irrefl _)
    · exact absurd (lt_of_lt_of_le hhw (le_trans h hlv)) (lt_irrefl _)
  · intro h
    by_contra hnot
    obtain ⟨hvw, hwv⟩ := not_or.mp hnot
    rcases le_total (lo v) (lo w) with hle | hle
    · exact h ⟨lo w, ⟨hle, lt_of_not_ge hvw⟩, le_refl _, hw⟩
    · exact h ⟨lo v, ⟨le_refl _, hv⟩, hle, lt_of_not_ge hwv⟩

namespace Laid

variable {xs ys l r : List ι} {v w : ι}

theorem nil : Laid lo hi [] := ⟨nofun, List.Pairwise.nil⟩

theorem sublist (h : Laid lo hi xs) (hs : ys.Sublist xs) : Laid lo hi ys :=
  ⟨fun v hv => h.nonempty v (hs.mem hv), h.ordered.sublist hs⟩

theorem strict (h : Laid lo hi xs) : xs.Pairwise fun v w => lo v < lo w :=
  h.ordered.imp_of_mem fun hv _ hle => lt_of_lt_of_le (h.nonempty _ hv) hle

theorem apart (h : Laid lo hi xs) : xs.Pairwise (Apart lo hi) := h.ordered.imp Or.inl

theorem disjoint (h : Laid lo hi xs) :
    xs.Pairwise fun v w => ¬ ∃ x, Within lo hi v x ∧ Within lo hi w x :=
  h.apart.imp_of_mem fun hv hw => (apart_iff (h.nonempty _ hv) (h.nonempty _ hw)).mp

/-- Any arrangement from left to right of the intervals and one that is apart from all of
    them. -/
theorem of_perm (h : Laid lo hi xs) (hv : lo v < hi v) (hapart : ∀ w ∈ xs, Apart lo hi w v)
    (hperm : ys.Perm (xs ++ [v])) (hsorted : ys.Pairwise fun v w => lo v ≤ lo w) :
    Laid lo hi ys := by
  have hall : (xs ++ [v]).Pairwise (Apart lo hi) := by
    refine List.pairwise_append.mpr ⟨h.apart, List.pairwise_singleton _ _, fun w hw u hu => ?_⟩
    rw [List.mem_singleton.mp hu]
    exact hapart w hw
  have hne : ∀ w ∈ ys, lo w < hi w := by
    intro w hw
    rcases List.mem_append.mp (hperm.mem_iff.mp hw) with hw | hw
    · exact h.nonempty w hw
    · rw [List.mem_singleton.mp hw]
      exact hv
  have happ : ys.Pairwise (Apart lo hi) := hall.perm hperm.symm Apart.symm
  refine ⟨hne, (hsorted.and happ).imp_of_mem fun {a b} ha hb hab => ?_⟩
  -- of two intervals that are apart, the one that starts first ends first
  rcases hab with ⟨hle, hlt | hgt⟩
  · exact hlt
  · exact absurd (lt_of_lt_of_le (hne b hb) (le_trans hgt hle)) (lt_irrefl _)

/-- An interval cut short on the right. -/
theorem shorten (h : Laid lo hi (l ++ v :: r)) (hlo : lo w = lo v) (hlt : lo w < hi w)
    (hhi : hi w ≤ hi v) : Laid lo hi (l ++ w :: r) := by
  obtain ⟨hl, hvr, hlvr⟩ := List.pairwise_append.mp h.ordered
  obtain ⟨hv, hr⟩ := List.pairwise_cons.mp hvr
  refine ⟨fun u hu => ?_, List.pairwise_append.mpr ⟨hl, List.pairwise_cons.mpr ⟨?_, hr⟩, ?_⟩⟩
  · rcases List.mem_append.mp hu with hu | hu
    · exact h.nonempty u (List.mem_append_left _ hu)
    · rcases List.mem_cons.mp hu with rfl | hu
      · exact hlt
      · exact h.nonempty u (List.mem_append_right _ (List.mem_cons_of_mem _ hu))
  · exact fun u hu => le_trans hhi (hv u hu)
  · intro u hu x hx
    rcases List.mem_cons.mp hx with rfl | hx
    · rw [hlo]
      exact hlvr u hu v List.mem_cons_self
    · exact hlvr u hu x (List.mem_cons_of_mem _ hx)

/-- Two neighbours joined into one. -/
theorem join {u : ι} (h : Laid lo hi (l ++ v :: w :: r)) (hlo : lo u = lo v)
    (hhi : hi u = hi w) : Laid lo hi (l ++ u :: r) := by
  obtain ⟨hl, hvwr, hlvwr⟩ := List.pairwise_append.mp h.ordered
  obtain ⟨hv, hwr⟩ := List.pairwise_cons.mp hvwr
  obtain ⟨hw, hr⟩ := List.pairwise_cons.mp hwr
  have hvne := h.nonempty v (List.mem_append_right _ List.mem_cons_self)
  have hwne := h.nonempty w
    (List.mem_append_right _ (List.mem_cons_of_mem _ List.mem_cons_self))
  refine ⟨fun x hx => ?_, List.pairwise_append.mpr ⟨hl, List.pairwise_cons.mpr ⟨?_, hr⟩, ?_⟩⟩
  · rcases List.mem_append.mp hx with hx | hx
    · exact h.nonempty x (List.mem_append_left _ hx)
    · rcases List.mem_cons.mp hx with rfl | hx
      · rw [hlo, hhi]
        exact lt_trans (lt_of_lt_of_le hvne (hv w List.mem_cons_self)) hwne
      · exact h.nonempty x
          (List.mem_append_right _ (List.mem_cons_of_mem _ (List.mem_cons_of_mem _ hx)))
  · intro x hx
    rw [hhi]
    exact hw x hx
  · intro y hy x hx
    rcases List.mem_cons.mp hx with rfl | hx
    · rw [hlo]
      exact hlvwr y hy v List.mem_cons_self
    · exact hlvwr y hy x (List.mem_cons_of_mem _ (List.mem_cons_of_mem _ hx))

/-- A point that lies before everything to the right of an interval can only lie in this one. -/
theorem eq_of_within {x : α} (h : Laid lo hi (l ++ v :: r)) (hv : lo v ≤ x)
    (hr : ∀ w ∈ r, x < lo w) (hw : w ∈ l ++ v :: r) (hx : Within lo hi w x) : w = v := by
  obtain ⟨-, -, hlvr⟩ := List.pairwise_append.mp h.ordered
  rcases List.mem_append.mp hw with hw | hw
  · have hle := hlvr w hw v List.mem_cons_self
    exact absurd (lt_of_lt_of_le hx.2 (le_trans hle hv)) (lt_irrefl _)
  · rcases List.mem_cons.mp hw with rfl | hw
    · rfl
    · exact absurd (lt_of_lt_of_le (hr w hw) hx.1) (lt_irrefl _)

end Laid

/-! ## Tagged intervals -/

/-- `u` and `w` are the two parts of `v`. -/
structure Cut (lo hi : ι → α) (v u w : ι) : Prop where
  left : lo u = lo v
  meet : hi u = lo w
  right : hi w = hi v
  le_left : lo u ≤ hi u
  le_right : lo w ≤ hi w

theorem Cut.within_iff {v u w : ι} (h : Cut lo hi v u w) (x : α) :
    Within lo hi v x ↔ Within lo hi u x ∨ Within lo hi w x := by
  have hlr : lo v ≤ lo w := h.left ▸ h.meet ▸ h.le_left
  have hur : hi u ≤ hi v := h.meet ▸ h.right ▸ h.le_right
  constructor
  · rintro ⟨hlo, hhi⟩
    rcases lt_or_ge x (hi u) with hlt | hge
    · exact Or.inl ⟨h.left ▸ hlo, hlt⟩
    · exact Or.inr ⟨h.meet ▸ hge, h.right ▸ hhi⟩
  · rintro (⟨hlo, hhi⟩ | ⟨hlo, hhi⟩)
    · exact ⟨h.left ▸ hlo, lt_of_lt_of_le hhi hur⟩
    · exact ⟨le_trans hlr hlo, h.right ▸ hhi⟩

section

variable {τ : Type*} {tag : ι → τ}

/-- Some interval of the list has the point and carries the tag. -/
def MapsTo (lo hi : ι → α) (tag : ι → τ) (xs : List ι) (x : α) (t : τ) : Prop :=
  ∃ v ∈ xs, Within lo hi v x ∧ tag v = t

theorem mapsTo_perm {xs ys : List ι} (h : xs.Perm ys) (x : α) (t : τ) :
    MapsTo lo hi tag xs x t ↔ MapsTo lo hi tag ys x t :=
  exists_congr fun _ => and_congr_left fun _ => h.mem_iff

theorem mapsTo_cons {v : ι} {xs : List ι} (x : α) (t : τ) :
    MapsTo lo hi tag (v :: xs) x t ↔ (Within lo hi v x ∧ tag v = t) ∨ MapsTo lo hi tag xs x t := by
  simp only [MapsTo, List.mem_cons, exists_eq_or_imp]

/-- Two parts of the same tag map the points that the whole mapped. -/
theorem mapsTo_cut {v u w : ι} (h : Cut lo hi v u w) (hu : tag u = tag v) (hw : tag w = tag v)
    (xs : List ι) (x : α) (t : τ) :
    MapsTo lo hi tag (v :: xs) x t ↔ MapsTo lo hi tag (u :: w :: xs) x t := by
  rw [mapsTo_cons, mapsTo_cons, mapsTo_cons, h.within_iff, hu, hw, or_and_right, or_assoc]

end

end NeuroVerse.Lib
