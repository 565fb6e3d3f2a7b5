/-
  Revocation over whole runs.

  `RevokePermanent ops` is the promise of `revoke`: a handle bound in a space when its epoch
  is bumped never resolves there again. It fails for capabilities that arrive from another
  space: a capability keeps the epoch of the space that minted it and `resolve` compares it
  with the epoch of the space that holds it, so a capability from a space that has been
  revoked more often is ahead of its holder's epoch, and the holder's next `revoke` makes it
  valid (`revoke_revives_granted`).

  `revoke_permanent_iff`: the promise holds exactly for the runs in which no `revoke` finds a
  capability one epoch ahead. The run lemma under it is `dead_stays_dead`: a handle whose
  capability is not of its space's current epoch stays so. Handles are never reused while no
  handle counter has wrapped (`Fresh`).
-/
import NeuroVerse.Sec.World

namespace NeuroVerse.Sec

open NeuroVerse.Core NeuroVerse.Lib

namespace World

variable {ι : Type*} [DecidableEq ι]

/-- A handle bound in a space at a `revoke` of that space resolves at no later point of the
    run, whatever rights are asked for. -/
def RevokePermanent (ops : List (Op ι)) : Prop :=
  ∀ pre i mid, pre ++ .revoke i :: mid <+: ops →
    ∀ h, ((after pre).space i).contains h = true →
      ∀ required, (after (pre ++ .revoke i :: mid)).resolve i h required = none

/-- No `revoke` of the run finds, in the space it revokes, a capability recorded one epoch
    ahead of that space. -/
def NoCapAhead (ops : List (Op ι)) : Prop :=
  StepsMeet step (fun w op => ∀ i, op = .revoke i →
    ∀ h c, (w.space i).lookup h = some c → c.epoch ≠ w.current i + 1) start ops

/-- No operation of the run inserts into a space whose handle counter has wrapped. -/
def CountersFresh (ops : List (Op ι)) : Prop :=
  StepsMeet step (fun w op => ∀ j, op.target = some j → w.next j ≠ kInvalidHandle) start ops

instance [Fintype ι] (ops : List (Op ι)) : Decidable (CountersFresh ops) :=
  inferInstanceAs (Decidable (StepsMeet _ _ _ _))

/-! ## Handles are not reused -/

/-- Handle `h` has been passed by the counter of space `i`, or the counter has wrapped. -/
def Below (w : World ι) (i : ι) (h : Handle) : Prop :=
  w.next i = kInvalidHandle ∨ h.toNat < (w.next i).toNat

/-- Every bound handle has been passed by its space's counter. -/
def Fresh (w : World ι) : Prop := ∀ i h, w.bound i h ≠ none → w.Below i h

theorem below_succ {n h : Handle} (hn : h.toNat < n.toNat ∨ h = n) :
    n + 1 = kInvalidHandle ∨ h.toNat < (n + 1).toNat := by
  have hsum : (n + 1).toNat = (n.toNat + 1) % 2 ^ 64 := BitVec.toNat_add n 1
  have hlt := n.isLt
  by_cases hmax : n.toNat + 1 < 2 ^ 64
  · right
    rw [hsum, Nat.mod_eq_of_lt hmax]
    rcases hn with hn | rfl <;> omega
  · left
    apply BitVec.eq_of_toNat_eq
    rw [hsum, show n.toNat + 1 = 2 ^ 64 by omega]
    rfl

/-- A step into fresh counters keeps every handle below its counter and binds only a handle
    that was not below. -/
theorem step_below {w : World ι} (hw : w.Ok) (hf : w.Fresh) {op : Op ι}
    (hop : ∀ j, op.target = some j → w.next j ≠ kInvalidHandle) :
    (∀ i h, w.Below i h → (w.step op).Below i h) ∧
      (∀ i h, w.made op = some (i, h) → ¬ w.Below i h ∧ (w.step op).Below i h) := by
  have hnext : ∀ j, w.next j ≠ kInvalidHandle → ¬ w.Below j (w.next j) := by
    rintro j h0 (h | h)
    · exact h0 h
    · exact Nat.lt_irrefl _ h
  have hfree : ∀ j, op.target = some j →
      w.next j ≠ kInvalidHandle ∧ w.bound j (w.next j) = none := by
    intro j hj
    refine ⟨hop j hj, ?_⟩
    by_contra hb
    exact hnext j (hop j hj) (hf j _ hb)
  rcases step_next hw op hfree with ⟨hm, hn⟩ | ⟨i, ht, hm, hn⟩
  · refine ⟨fun j h hb => ?_, fun j h hmade => ?_⟩
    · unfold Below
      rw [hn j]
      exact hb
    · rw [hm] at hmade
      cases hmade
  · refine ⟨fun j h hb => ?_, fun j h hmade => ?_⟩
    · unfold Below
      rw [hn j]
      split
      · rename_i hj
        subst hj
        rcases hb with hb | hb
        · exact absurd hb (hop j ht)
        · exact below_succ (Or.inl hb)
      · exact hb
    · rw [hm] at hmade
      cases hmade
      refine ⟨hnext i (hop i ht), ?_⟩
      unfold Below
      rw [hn i, if_pos rfl]
      exact below_succ (Or.inr rfl)

theorem after_fresh {ops : List (Op ι)} (hc : CountersFresh ops) : (after ops).Fresh := by
  have hinv : (after ops).Ok ∧ (after ops).Fresh := by
    refine run_invariant_of_meet (I := fun w => w.Ok ∧ w.Fresh) ⟨start_ok, ?_⟩ ?_ hc
    · intro i h hb
      exact absurd (start_bound i h) hb
    · rintro w op ⟨hw, hf⟩ hop
      obtain ⟨hkeep, hmade⟩ := step_below hw hf hop
      refine ⟨(step_outcome hw op).1, fun i h hb => ?_⟩
      obtain ⟨c, hc⟩ := Option.ne_none_iff_exists'.mp hb
      rcases bound_step hw op hc with hold | hnew
      · exact hkeep i h (hf i h (by rw [hold]; exact Option.some_ne_none c))
      · exact (hmade i h hnew).2
  exact hinv.2

/-! ## Dead handles -/

/-- Handle `h` has been given out in space `i` and is not bound to a capability of the
    space's current epoch. -/
def Dead (w : World ι) (i : ι) (h : Handle) : Prop :=
  w.Below i h ∧ ∀ c, w.bound i h = some c → c.epoch ≠ w.current i

theorem dead_stays_dead {w : World ι} (hw : w.Ok) (hf : w.Fresh) {op : Op ι}
    (hop : ∀ j, op.target = some j → w.next j ≠ kInvalidHandle)
    (hahead : ∀ i, op = .revoke i →
      ∀ h c, (w.space i).lookup h = some c → c.epoch ≠ w.current i + 1)
    {i : ι} {h : Handle} (hd : w.Dead i h) : (w.step op).Dead i h := by
  obtain ⟨hkeep, hmade⟩ := step_below hw hf hop
  refine ⟨hkeep i h hd.1, fun c hc => ?_⟩
  rcases bound_step hw op hc with hold | hnew
  · rcases current_step hw op i with he | ⟨hrev, he⟩
    · rw [he]
      exact hd.2 c hold
    · rw [he]
      exact hahead i hrev h c (by rw [lookup_eq_bound hw]; exact hold)
  · exact absurd hd.1 (hmade i h hnew).1

/-- A handle bound when its space is revoked is dead from then on. -/
theorem dead_after_revoke {ops : List (Op ι)} (hc : CountersFresh ops) (ha : NoCapAhead ops)
    {pre : List (Op ι)} {i : ι} {h : Handle} (hb : ((after pre).space i).contains h = true)
    (mid : List (Op ι)) (hp : pre ++ .revoke i :: mid <+: ops) :
    (after (pre ++ .revoke i :: mid)).Dead i h := by
  induction mid using List.reverseRecOn with
  | nil =>
    have hw := after_ok pre
    have hpre : CountersFresh pre := hc.restrict ((List.prefix_append _ _).trans hp)
    have hlast := StepsMeet.last (ha.restrict hp)
    have hbound : (after pre).bound i h ≠ none := by
      intro hn
      rw [CapabilitySpace.contains_eq, show ((after pre).space i).binding h = none from hn] at hb
      cases hb
    rw [after, run_snoc]
    refine ⟨after_fresh hpre i h hbound, fun c hcap => ?_⟩
    rw [current_revoke]
    exact hlast i rfl h c (by rw [lookup_eq_bound hw]; exact hcap)
  | append_singleton mid op ih =>
    have hsplit : pre ++ .revoke i :: (mid ++ [op]) = (pre ++ .revoke i :: mid) ++ [op] := by
      simp
    rw [hsplit] at hp ⊢
    have hpre : pre ++ .revoke i :: mid <+: ops := (List.prefix_append _ _).trans hp
    rw [after, run_snoc]
    exact dead_stays_dead (after_ok _) (after_fresh (hc.restrict hpre))
      (StepsMeet.last (hc.restrict hp)) (StepsMeet.last (ha.restrict hp)) (ih hpre)

/-- In the runs whose handle counters do not wrap, revocation is permanent exactly when no
    `revoke` finds a capability one epoch ahead of the space it revokes. -/
theorem revoke_permanent_iff (ops : List (Op ι)) (hc : CountersFresh ops) :
    RevokePermanent ops ↔ NoCapAhead ops := by
  constructor
  · intro hp pre o hpre i hi h c hl he
    subst hi
    have hw := after_ok pre
    rw [lookup_eq_bound hw] at hl
    have hnone := hp pre i [] hpre h (by
      rw [CapabilitySpace.contains_eq, show ((after pre).space i).binding h = some c from hl]
      rfl)
    -- the capability one epoch ahead resolves right after the revoke
    have hall := (resolve_all_none (after_ok _) i h).mp hnone
    rw [after, run_snoc] at hall
    refine hall c hl ?_
    rw [he, current_revoke]
  · intro ha pre i mid hp h hb
    exact (resolve_all_none (after_ok _) i h).mpr (dead_after_revoke hc ha hb mid hp).2

/-- Space `false` is revoked once, mints a capability and grants it to space `true`, which has
    never been revoked. -/
def aheadRun : List (Op Bool) :=
  [.revoke false, .mint false 42 CapRight.grant 1, .grant false true 1 CapRight.none true]

/-- Revoking space `true` makes the granted capability resolve there. -/
theorem revoke_revives_granted :
    ¬ ∀ ops : List (Op Bool), (∀ i, revokes ops i < 2 ^ 16) → RevokePermanent ops := by
  intro h
  have hp := h (aheadRun ++ [.revoke true]) (by decide) aheadRun true [] (List.prefix_refl _) 1
    (by decide) CapRight.none
  exact absurd hp (by decide)

theorem revoke_permanent_iff_ahead :
    CountersFresh (aheadRun ++ [.revoke true]) ∧
      (RevokePermanent (aheadRun ++ [.revoke true]) ↔ NoCapAhead (aheadRun ++ [.revoke true])) :=
  ⟨by decide, revoke_permanent_iff _ (by decide)⟩

end World

end NeuroVerse.Sec
