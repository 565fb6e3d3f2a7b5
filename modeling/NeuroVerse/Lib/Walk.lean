/-
  Walks in a directed graph whose edges out of a vertex are in an order. A walk is the list of the
  numbers of the edges that it takes, so that two walks to one vertex are two walks, and walks from
  one vertex are ordered like words.

  `walks` is what a recursive visit of all children comes to, down to a depth. The depth suffices
  exactly when no walk is longer, and some depth does exactly when no cycle can be reached
  (`shallow_card_iff`). The last section is about one edge more: it closes a cycle exactly when
  its end reaches its beginning.

  Nothing here names a program.
-/
import Mathlib.Data.Finset.Card
import Mathlib.Data.List.Basic
import Mathlib.Data.List.Enum
import Mathlib.Data.List.Lex
import Mathlib.Logic.Relation

namespace NeuroVerse.Lib

variable {α : Type*} {children : α → List α} {a b c : α}

/-- The vertex that a walk ends at. -/
def follow (children : α → List α) : α → List Nat → Option α
  | a, [] => some a
  | a, i :: w => (children a)[i]?.bind fun b => follow children b w

/-- The walks that are shorter than `depth`, each before the walks that go on from it. -/
def walks (children : α → List α) : Nat → α → List (List Nat)
  | 0, _ => []
  | depth + 1, a =>
    [] :: (children a).zipIdx.flatMap fun c => (walks children depth c.1).map (c.2 :: ·)

theorem follow_append (a : α) (w v : List Nat) :
    follow children a (w ++ v) = (follow children a w).bind fun b => follow children b v := by
  induction w generalizing a with
  | nil => rfl
  | cons i w ih =>
    rw [List.cons_append, follow, follow, Option.bind_assoc]
    exact congrArg _ (funext fun b => ih b)

theorem follow_cons_some {i : Nat} {w : List Nat} :
    follow children a (i :: w) = some b ↔
      ∃ c, (children a)[i]? = some c ∧ follow children c w = some b := by
  rw [follow, Option.bind_eq_some_iff]

theorem mem_walks {depth : Nat} {w : List Nat} :
    w ∈ walks children depth a ↔ (follow children a w).isSome ∧ w.length < depth := by
  induction depth generalizing a w with
  | zero => simp [walks]
  | succ depth ih =>
    cases w with
    | nil => simp [walks, follow]
    | cons i w =>
      rw [walks, List.mem_cons, or_iff_right (List.cons_ne_nil i w), List.mem_flatMap, follow,
        List.length_cons, Nat.succ_lt_succ_iff]
      constructor
      · rintro ⟨⟨c, j⟩, hc, hw⟩
        obtain ⟨v, hv, heq⟩ := List.mem_map.mp hw
        obtain ⟨rfl, rfl⟩ := List.cons.inj heq
        rw [List.mk_mem_zipIdx_iff_getElem?.mp hc]
        exact ih.mp hv
      · rintro ⟨hsome, hlt⟩
        cases hc : (children a)[i]? with
        | none => rw [hc] at hsome; exact nomatch hsome
        | some c =>
          rw [hc] at hsome
          exact ⟨(c, i), List.mk_mem_zipIdx_iff_getElem?.mpr hc,
            List.mem_map.mpr ⟨w, ih.mpr ⟨hsome, hlt⟩, rfl⟩⟩

/-- The walks come in the order of words, each once. -/
theorem walks_sorted (depth : Nat) (a : α) :
    (walks children depth a).Pairwise (List.Lex (· < ·)) := by
  induction depth generalizing a with
  | zero => exact List.Pairwise.nil
  | succ depth ih =>
    refine List.Pairwise.cons (fun w hw => ?_) (List.pairwise_flatMap.mpr ⟨fun c _ => ?_, ?_⟩)
    · obtain ⟨c, -, hw⟩ := List.mem_flatMap.mp hw
      obtain ⟨v, -, rfl⟩ := List.mem_map.mp hw
      exact .nil
    · exact List.pairwise_map.mpr ((ih c.1).imp .cons)
    · have hidx : (children a).zipIdx.Pairwise fun c d => c.2 < d.2 := by
        have hmap : ((children a).zipIdx.map Prod.snd).Pairwise (· < ·) := by
          rw [List.zipIdx_map_snd]
          exact List.pairwise_lt_range'
        exact List.pairwise_map.mp hmap
      refine hidx.imp fun hlt v hv w hw => ?_
      obtain ⟨v, -, rfl⟩ := List.mem_map.mp hv
      obtain ⟨w, -, rfl⟩ := List.mem_map.mp hw
      exact .rel hlt

/-- What is found along the walks: at the vertex itself, and then along the walks from each
    child in turn. -/
theorem filterMap_walks_succ {β : Type*} (f : α → Option β) (depth : Nat) (a : α) :
    (walks children (depth + 1) a).filterMap (fun w => (follow children a w).bind f) =
      (f a).toList ++ (children a).flatMap fun c =>
        (walks children depth c).filterMap fun w => (follow children c w).bind f := by
  have hrest : ((children a).zipIdx.flatMap fun c =>
      (walks children depth c.1).map (c.2 :: ·)).filterMap
        (fun w => (follow children a w).bind f) =
      (children a).zipIdx.flatMap fun c =>
        (walks children depth c.1).filterMap fun w => (follow children c.1 w).bind f := by
    rw [List.filterMap_flatMap]
    refine List.flatMap_congr fun c hc => ?_
    rw [List.filterMap_map]
    refine List.filterMap_congr fun w _ => ?_
    rw [Function.comp_apply, follow, List.mk_mem_zipIdx_iff_getElem?.mp hc]
    rfl
  have hhead : (follow children a []).bind f = f a := rfl
  rw [walks, List.filterMap_cons, hrest, hhead,
    ← List.flatMap_map Prod.fst fun c =>
      (walks children depth c).filterMap fun w => (follow children c w).bind f,
    List.zipIdx_map_fst]
  cases f a <;> rfl

/-! ### A loop over the children -/

/-- A loop that appends to the list at each element. -/
theorem foldlM_append {β γ : Type*} {g : List γ → β → Option (List γ)} {F : β → List γ}
    {xs : List β} (h : ∀ x ∈ xs, ∀ out, g out x = some (out ++ F x)) (out : List γ) :
    xs.foldlM g out = some (out ++ xs.flatMap F) := by
  induction xs generalizing out with
  | nil => simp
  | cons x xs ih =>
    rw [List.foldlM_cons, h x List.mem_cons_self, Option.bind_eq_bind, Option.bind_some,
      ih fun y hy => h y (List.mem_cons_of_mem x hy), List.flatMap_cons, List.append_assoc]

/-- A loop one of whose elements stops it. -/
theorem foldlM_eq_none {β γ : Type*} {g : List γ → β → Option (List γ)} {xs : List β} {x : β}
    (hx : x ∈ xs) (h : ∀ out, g out x = none) (out : List γ) : xs.foldlM g out = none := by
  induction xs generalizing out with
  | nil => exact nomatch hx
  | cons y xs ih =>
    rw [List.foldlM_cons, Option.bind_eq_bind]
    rcases List.mem_cons.mp hx with rfl | hx
    · rw [h out]
      rfl
    · cases g out y with
      | none => rfl
      | some out' => exact ih hx out'

/-! ## How deep the walks are -/

/-- No walk from `a` is as long as `depth`. -/
def Shallow (children : α → List α) (depth : Nat) (a : α) : Prop :=
  ∀ w, (follow children a w).isSome → w.length < depth

theorem not_shallow_zero : ¬ Shallow children 0 a := fun h => Nat.not_lt_zero _ (h [] rfl)

theorem shallow_succ {depth : Nat} :
    Shallow children (depth + 1) a ↔ ∀ c ∈ children a, Shallow children depth c := by
  constructor
  · intro h c hc w hw
    obtain ⟨i, hi⟩ := List.mem_iff_getElem?.mp hc
    refine Nat.lt_of_succ_lt_succ (h (i :: w) ?_)
    rw [follow, hi]
    exact hw
  · intro h w hw
    cases w with
    | nil => exact Nat.succ_pos depth
    | cons i w =>
      rw [follow, Option.isSome_bind] at hw
      cases hi : (children a)[i]? with
      | none => rw [hi] at hw; exact nomatch hw
      | some c =>
        rw [hi] at hw
        exact Nat.succ_lt_succ (h c (List.mem_of_getElem? hi) w hw)

/-- A walk from `a` comes to a vertex and a longer one to the same vertex again. -/
def Cyclic (children : α → List α) (a : α) : Prop :=
  ∃ w v b, v ≠ [] ∧ follow children a w = some b ∧ follow children b v = some b

/-- A cycle can be gone around any number of times. -/
theorem not_shallow_of_cyclic (h : Cyclic children a) (depth : Nat) :
    ¬ Shallow children depth a := by
  obtain ⟨w, v, b, hv, hw, hb⟩ := h
  have hround : ∀ n, ∃ u, n ≤ u.length ∧ follow children b u = some b := by
    intro n
    induction n with
    | zero => exact ⟨[], Nat.le_refl 0, rfl⟩
    | succ n ih =>
      obtain ⟨u, hlen, hu⟩ := ih
      refine ⟨v ++ u, ?_, by rw [follow_append, hb]; exact hu⟩
      have hpos := List.length_pos_iff.mpr hv
      rw [List.length_append]
      omega
  obtain ⟨u, hlen, hu⟩ := hround depth
  intro hshallow
  have hlong := hshallow (w ++ u) (by rw [follow_append, hw, Option.bind_some, hu]; rfl)
  rw [List.length_append] at hlong
  omega

/-- A walk that is twice at one vertex has gone around. -/
theorem cyclic_of_meet {w : List Nat} {i j : Nat} (hij : i < j) (hj : j ≤ w.length)
    (hi : follow children a (w.take i) = some b) (hj' : follow children a (w.take j) = some b) :
    Cyclic children a := by
  have hsplit : w.take j = w.take i ++ (w.take j).drop i := by
    conv_lhs => rw [← List.take_append_drop i (w.take j), List.take_take,
      Nat.min_eq_left (Nat.le_of_lt hij)]
  refine ⟨w.take i, (w.take j).drop i, b, fun hnil => ?_, hi, ?_⟩
  · have hlen := congrArg List.length hnil
    rw [List.length_drop, List.length_take, List.length_nil] at hlen
    omega
  · rw [hsplit, follow_append, hi] at hj'
    exact hj'

/-- Of the vertices along a walk that is no shorter than their number, two are the same. -/
theorem cyclic_of_not_shallow (s : Finset α) (hs : ∀ w b, follow children a w = some b → b ∈ s)
    (h : ¬ Shallow children s.card a) : Cyclic children a := by
  rw [Shallow] at h
  push Not at h
  obtain ⟨w, hw, hlong⟩ := h
  have hprefix : ∀ i, ∃ b, follow children a (w.take i) = some b := by
    intro i
    rw [← List.take_append_drop i w, follow_append, Option.isSome_bind] at hw
    cases hb : follow children a (w.take i) with
    | none => rw [hb] at hw; exact nomatch hw
    | some b => exact ⟨b, rfl⟩
  choose vertex hvertex using hprefix
  obtain ⟨i, hi, j, hj, hne, heq⟩ := Finset.exists_ne_map_eq_of_card_lt_of_maps_to
    (s := Finset.range (s.card + 1)) (t := s) (f := vertex)
    (by rw [Finset.card_range]; exact Nat.lt_succ_self _) (fun i _ => hs _ _ (hvertex i))
  have hile := Nat.le_trans (Nat.lt_succ_iff.mp (Finset.mem_range.mp hi)) hlong
  have hjle := Nat.le_trans (Nat.lt_succ_iff.mp (Finset.mem_range.mp hj)) hlong
  rcases Nat.lt_or_gt_of_ne hne with hlt | hlt
  · exact cyclic_of_meet hlt hjle (hvertex i) (heq ▸ hvertex j)
  · exact cyclic_of_meet hlt hile (hvertex j) (heq ▸ hvertex i)

/-- In a graph with finitely many vertices, the number of them is deep enough for every walk from
    `a` exactly when no cycle can be reached from there. -/
theorem shallow_card_iff (s : Finset α) (hs : ∀ w b, follow children a w = some b → b ∈ s) :
    Shallow children s.card a ↔ ¬ Cyclic children a :=
  ⟨fun h hcyclic => not_shallow_of_cyclic hcyclic _ h,
    fun h => by_contra fun hdeep => h (cyclic_of_not_shallow s hs hdeep)⟩

/-! ## One edge more -/

/-- There is an edge from `a` to `b`. -/
def Edge (children : α → List α) (a b : α) : Prop := b ∈ children a

theorem reflTransGen_of_follow {w : List Nat} (h : follow children a w = some b) :
    Relation.ReflTransGen (Edge children) a b := by
  induction w generalizing a with
  | nil =>
    obtain rfl := Option.some.inj h
    exact .refl
  | cons i w ih =>
    obtain ⟨c, hc, hw⟩ := follow_cons_some.mp h
    exact .head (List.mem_of_getElem? hc) (ih hw)

theorem transGen_of_follow {w : List Nat} (hw : w ≠ []) (h : follow children a w = some b) :
    Relation.TransGen (Edge children) a b := by
  cases w with
  | nil => exact absurd rfl hw
  | cons i w =>
    obtain ⟨c, hc, hw⟩ := follow_cons_some.mp h
    exact .head' (List.mem_of_getElem? hc) (reflTransGen_of_follow hw)

/-- No vertex reaches itself. -/
def Acyclic (children : α → List α) : Prop := ∀ a, ¬ Relation.TransGen (Edge children) a a

theorem Acyclic.not_cyclic (h : Acyclic children) (a : α) : ¬ Cyclic children a := by
  rintro ⟨w, v, b, hv, -, hb⟩
  exact h b (transGen_of_follow hv hb)

section OneMore

variable {more : α → List α} {p q : α}

/-- A way over the old edges and one new edge, from `p` to `q`, takes the new one at most once. -/
theorem transGen_more (hedge : ∀ a b, Edge more a b → Edge children a b ∨ (a = p ∧ b = q))
    (h : Relation.TransGen (Edge more) a b) :
    Relation.TransGen (Edge children) a b ∨
      (Relation.ReflTransGen (Edge children) a p ∧
        Relation.ReflTransGen (Edge children) q b) := by
  induction h with
  | single hab =>
    rcases hedge _ _ hab with hold | ⟨rfl, rfl⟩
    · exact Or.inl (.single hold)
    · exact Or.inr ⟨.refl, .refl⟩
  | tail _ hbc ih =>
    rcases hedge _ _ hbc with hold | ⟨rfl, rfl⟩
    · rcases ih with hway | ⟨hp, hq⟩
      · exact Or.inl (hway.tail hold)
      · exact Or.inr ⟨hp, hq.tail hold⟩
    · rcases ih with hway | ⟨hp, -⟩
      · exact Or.inr ⟨hway.to_reflTransGen, .refl⟩
      · exact Or.inr ⟨hp, .refl⟩

/-- The new edge closes a cycle exactly when its end reaches its beginning. -/
theorem acyclic_more_iff (hold : ∀ a b, Edge children a b → Edge more a b) (hnew : Edge more p q)
    (hedge : ∀ a b, Edge more a b → Edge children a b ∨ (a = p ∧ b = q))
    (h : Acyclic children) :
    Acyclic more ↔ ¬ Relation.ReflTransGen (Edge children) q p := by
  constructor
  · intro hmore hway
    exact hmore p (.head' hnew (Relation.ReflTransGen.mono hold _ _ hway))
  · intro hway a hcycle
    rcases transGen_more hedge hcycle with hcycle | ⟨hp, hq⟩
    · exact h a hcycle
    · exact hway (hq.trans hp)

end OneMore

end NeuroVerse.Lib
