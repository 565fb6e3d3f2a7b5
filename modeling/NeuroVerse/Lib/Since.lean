/-
  What a run has done, read back from its end: the operators of past-time temporal logic over
  the list of operations made so far. An event is a relation between the operations before a
  step and the step itself.

  Each operator comes with its value after one more operation. A machine that keeps an operator's
  value in its state follows the same equation, so that an induction on the run connects the two.
  `yielded` collects what the steps have given along the way.
  Nothing here names a program.
-/
import NeuroVerse.Lib.Run

namespace NeuroVerse.Lib

variable {ο : Type*} {ev quiet ok : List ο → ο → Prop} {ops : List ο} {o : ο}

/-- Some step was an event. -/
def Once (ev : List ο → ο → Prop) (ops : List ο) : Prop :=
  ∃ pre o, pre ++ [o] <+: ops ∧ ev pre o

/-- Some step was an event, and every step after it was quiet. -/
def Since (ev quiet : List ο → ο → Prop) (ops : List ο) : Prop :=
  ∃ pre o, pre ++ [o] <+: ops ∧ ev pre o ∧
    ∀ mid o', pre ++ [o] <+: mid → mid ++ [o'] <+: ops → quiet mid o'

/-- Every step met the rule. -/
def Always (ok : List ο → ο → Prop) (ops : List ο) : Prop :=
  ∀ pre o, pre ++ [o] <+: ops → ok pre o

/-- What the steps `ops` give after the steps `pre`, each read with those before it. -/
def yielded {β : Type*} (f : List ο → ο → List β) (pre : List ο) : List ο → List β
  | [] => []
  | o :: ops => f pre o ++ yielded f (pre ++ [o]) ops

theorem yielded_snoc {β : Type*} (f : List ο → ο → List β) (pre ops : List ο) (o : ο) :
    yielded f pre (ops ++ [o]) = yielded f pre ops ++ f (pre ++ ops) o := by
  induction ops generalizing pre with
  | nil => simp [yielded]
  | cons a ops ih =>
    rw [List.cons_append, yielded, ih, ← List.append_assoc, yielded, List.append_assoc pre,
      List.singleton_append]

theorem not_once_nil : ¬ Once ev [] := by
  intro h
  obtain ⟨pre, o, hp, -⟩ := h
  simp at hp

theorem not_since_nil : ¬ Since ev quiet [] := by
  intro h
  obtain ⟨pre, o, hp, -⟩ := h
  simp at hp

theorem once_snoc : Once ev (ops ++ [o]) ↔ Once ev ops ∨ ev ops o := by
  constructor
  · intro h
    obtain ⟨pre, a, hp, hev⟩ := h
    rcases prefix_snoc hp with ⟨rfl, rfl⟩ | hp
    · exact Or.inr hev
    · exact Or.inl ⟨pre, a, hp, hev⟩
  · intro h
    rcases h with ⟨pre, a, hp, hev⟩ | hev
    · exact ⟨pre, a, hp.trans (List.prefix_append ops [o]), hev⟩
    · exact ⟨ops, o, List.prefix_refl _, hev⟩

theorem since_snoc :
    Since ev quiet (ops ++ [o]) ↔ ev ops o ∨ Since ev quiet ops ∧ quiet ops o := by
  constructor
  · intro h
    obtain ⟨pre, a, hp, hev, hquiet⟩ := h
    rcases prefix_snoc hp with ⟨rfl, rfl⟩ | hp
    · exact Or.inl hev
    · refine Or.inr ⟨⟨pre, a, hp, hev, fun mid o' hm ho => ?_⟩, ?_⟩
      · exact hquiet mid o' hm (ho.trans (List.prefix_append ops [o]))
      · exact hquiet ops o hp (List.prefix_refl _)
  · rintro (hev | ⟨⟨pre, a, hp, hev, hquiet⟩, hlast⟩)
    · refine ⟨ops, o, List.prefix_refl _, hev, fun mid o' hm ho => ?_⟩
      have hbefore := hm.length_le
      have hafter := ho.length_le
      rw [List.length_append, List.length_singleton] at hbefore hafter
      rw [List.length_append, List.length_singleton] at hafter
      omega
    · refine ⟨pre, a, hp.trans (List.prefix_append ops [o]), hev, fun mid o' hm ho => ?_⟩
      rcases prefix_snoc ho with ⟨rfl, rfl⟩ | ho
      · exact hlast
      · exact hquiet mid o' hm ho

/-- Steps that are all quiet bring up the event, or they leave it as it was. -/
theorem since_append {p q : ο → Prop} {xs ys : List ο} (hq : ∀ y ∈ ys, q y) :
    Since (fun _ y => p y) (fun _ y => q y) (xs ++ ys) ↔
      (∃ y ∈ ys, p y) ∨ Since (fun _ y => p y) (fun _ y => q y) xs := by
  induction ys using List.reverseRecOn with
  | nil => simp
  | append_singleton ys y ih =>
    have hys : ∀ z ∈ ys, q z := fun z hz => hq z (List.mem_append_left [y] hz)
    have hy : q y := hq y (List.mem_append_right ys List.mem_cons_self)
    rw [← List.append_assoc, since_snoc, and_iff_left hy, ih hys]
    simp only [List.mem_append, List.mem_singleton]
    constructor
    · intro h
      rcases h with h | ⟨z, hz, h⟩ | h
      · exact Or.inl ⟨y, Or.inr rfl, h⟩
      · exact Or.inl ⟨z, Or.inl hz, h⟩
      · exact Or.inr h
    · intro h
      rcases h with ⟨z, hz | rfl, h⟩ | h
      · exact Or.inr (Or.inl ⟨z, hz, h⟩)
      · exact Or.inl h
      · exact Or.inr (Or.inr h)

theorem always_nil : Always ok [] := by
  intro pre o hp
  simp at hp

theorem always_snoc : Always ok (ops ++ [o]) ↔ Always ok ops ∧ ok ops o := by
  constructor
  · intro h
    exact ⟨fun pre a hp => h pre a (hp.trans (List.prefix_append ops [o])),
      h ops o (List.prefix_refl _)⟩
  · rintro ⟨h, hlast⟩ pre a hp
    rcases prefix_snoc hp with ⟨rfl, rfl⟩ | hp
    · exact hlast
    · exact h pre a hp

theorem Always.restrict {xs : List ο} (h : Always ok ops) (hp : xs <+: ops) : Always ok xs :=
  fun pre a ha => h pre a (ha.trans hp)

/-- Steps each of which meets the rule as it stands by itself, whatever of them came before it. -/
theorem always_append {p : ο → Prop} {xs ys : List ο}
    (h : ∀ pre, pre <+: ys → ∀ y ∈ ys, (ok (xs ++ pre) y ↔ p y)) :
    Always ok (xs ++ ys) ↔ Always ok xs ∧ ∀ y ∈ ys, p y := by
  induction ys using List.reverseRecOn with
  | nil => simp
  | append_singleton ys y ih =>
    have hys := List.prefix_append ys [y]
    have hlast := h ys hys y (List.mem_append_right ys List.mem_cons_self)
    have hbefore := ih fun pre hp z hz => h pre (hp.trans hys) z (List.mem_append_left [y] hz)
    rw [← List.append_assoc, always_snoc, hbefore, hlast, List.forall_mem_append,
      List.forall_mem_singleton, and_assoc]

/-- What holds at the start, and after a step exactly when the step meets the rule, holds all
    along a run exactly when every step meets the rule. -/
theorem prefixes_iff_always {P : List ο → Prop} (h0 : P [])
    (hstep : ∀ pre o, pre ++ [o] <+: ops → P pre → Always ok pre → (P (pre ++ [o]) ↔ ok pre o)) :
    (∀ pre, pre <+: ops → P pre) ↔ Always ok ops := by
  constructor
  · intro h
    induction ops using List.reverseRecOn with
    | nil => exact always_nil
    | append_singleton ops o ih =>
      have hops := List.prefix_append ops [o]
      have hmeet : Always ok ops :=
        ih (fun pre a hp => hstep pre a (hp.trans hops)) fun pre hp => h pre (hp.trans hops)
      refine always_snoc.mpr ⟨hmeet, ?_⟩
      exact (hstep ops o (List.prefix_refl _) (h ops hops) hmeet).mp (h _ (List.prefix_refl _))
  · intro h pre hp
    induction pre using List.reverseRecOn with
    | nil => exact h0
    | append_singleton pre o ih =>
      have hpre := (List.prefix_append pre [o]).trans hp
      exact (hstep pre o hp (ih hpre) (h.restrict hpre)).mpr (h pre o hp)

end NeuroVerse.Lib
