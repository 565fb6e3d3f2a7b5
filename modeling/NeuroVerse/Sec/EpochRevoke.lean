/-
  Revocations of one epoch by several threads at the same time (`sec/epoch.hpp`).

  `CapEpoch::revoke` loads the epoch and stores its successor in a second step. A call of it is an
  entry of `calls`; a thread that revokes again makes another call. `current` and `valid` load the
  epoch once and change nothing, so what they give at some moment is `current` and `valid` of the
  epoch the state has then.

  As long as the epoch does not wrap, the calls are bumps of a counter (`run_embed`), and the
  library for these gives `revoked_stays_iff`.
-/
import NeuroVerse.Lib.Counter
import NeuroVerse.Sec.CapOps

namespace NeuroVerse.Sec

open NeuroVerse.Lib

/-- The places of `revoke`. -/
inductive RevokePc where
  | load
  | store (next : BitVec 16)
  | returned (next : BitVec 16)
deriving DecidableEq

structure EpochCalls where
  epoch : CapEpoch := {}
  calls : List RevokePc := []

namespace EpochCalls

/-- A call of `revoke`, or the next step of one. -/
abbrev Action := Counter.Action

def step (s : EpochCalls) : Action → EpochCalls
  | .call => { s with calls := s.calls ++ [.load] }
  | .go k =>
    match s.calls[k]? with
    | some .load => { s with calls := s.calls.set k (.store (s.epoch.current + 1)) }
    | some (.store next) => { epoch := { epoch := next }, calls := s.calls.set k (.returned next) }
    | _ => s

/-- The steps of a call that is alone are those of `revoke`. -/
theorem revoke_alone (e : CapEpoch) :
    run step { epoch := e } [.call, .go 0, .go 0] =
      { epoch := e.revoke.2, calls := [.returned e.revoke.1] } :=
  rfl

/-- The epoch never goes back to a value it has left, and once a call has returned, no value that
    was current before the call began is valid any more. -/
structure StaysRevoked (e : CapEpoch) (ops : List Action) : Prop where
  noReturn : ∀ p q r, p <+: q → q <+: r → r <+: ops →
    (run step { epoch := e } q).epoch.current ≠ (run step { epoch := e } p).epoch.current →
    (run step { epoch := e } r).epoch.current ≠ (run step { epoch := e } p).epoch.current
  revoked : ∀ p q r k next, p <+: q → q <+: r → r <+: ops →
    (run step { epoch := e } p).calls.length ≤ k →
    (run step { epoch := e } q).calls[k]? = some (.returned next) →
    (run step { epoch := e } r).epoch.valid (run step { epoch := e } p).epoch.current = false

/-- If the next step of the call is its store, the epoch is still the one it has loaded, or is
    already the one it stores. -/
def NotLate (s : EpochCalls) : Action → Prop
  | .go k => ∀ next, s.calls[k]? = some (.store next) →
      next = s.epoch.current ∨ next = s.epoch.current + 1
  | .call => True

instance decNotLate (s : EpochCalls) : (a : Action) → Decidable (s.NotLate a)
  | .call => isTrue trivial
  | .go k =>
    match hk : s.calls[k]? with
    | some (.store m) =>
      decidable_of_iff (m = s.epoch.current ∨ m = s.epoch.current + 1)
        ⟨fun h _ hn => by cases hk.symm.trans hn; exact h, fun h => h m hk⟩
    | some .load => isTrue fun _ hn => by cases hk.symm.trans hn
    | some (.returned _) => isTrue fun _ hn => by cases hk.symm.trans hn
    | none => isTrue fun _ hn => by cases hk.symm.trans hn

/-! ## The counter -/

def pc : Bump → RevokePc
  | .load => .load
  | .store next => .store (BitVec.ofNat 16 next)
  | .done next => .returned (BitVec.ofNat 16 next)

def embed (c : Counter) : EpochCalls :=
  { epoch := { epoch := BitVec.ofNat 16 c.value }, calls := c.bumps.map pc }

theorem embed_step (c : Counter) (a : Action) : embed (c.step a) = (embed c).step a := by
  cases a with
  | call => simp [embed, Counter.step, step, pc]
  | go k =>
    have hcalls : (embed c).calls[k]? = c.bumps[k]?.map pc := List.getElem?_map
    rw [Counter.step, step, hcalls]
    cases c.bumps[k]? with
    | none => rfl
    | some b =>
      cases b with
      | load =>
        have hnext : pc (.store (c.value + 1)) = .store ((embed c).epoch.current + 1) :=
          congrArg RevokePc.store (BitVec.ofNat_add c.value 1)
        simp only [Option.map_some, pc]
        rw [← hnext]
        simp [embed]
      | store next => simp [embed, pc]
      | done next => rfl

/-- The calls run as bumps of a counter that does not wrap. -/
theorem run_embed (e : CapEpoch) (ops : List Action) :
    run step { epoch := e } ops = embed (run Counter.step { value := e.epoch.toNat } ops) := by
  induction ops using List.reverseRecOn with
  | nil => simp [embed]
  | append_singleton ops a ih => rw [run_snoc, run_snoc, ih, embed_step]

/-- The values of fewer than 2^16 bumps are different epochs. -/
theorem ofNat_inj {n l x y : Nat} (hl : l < 2 ^ 16) (hx : n ≤ x ∧ x ≤ n + l)
    (hy : n ≤ y ∧ y ≤ n + l) : BitVec.ofNat 16 x = BitVec.ofNat 16 y ↔ x = y := by
  constructor
  · intro h
    have hnat := congrArg BitVec.toNat h
    rw [BitVec.toNat_ofNat, BitVec.toNat_ofNat] at hnat
    omega
  · rintro rfl
    rfl

theorem done_of_returned {c : Counter} {k : Nat} {next : BitVec 16}
    (h : (embed c).calls[k]? = some (.returned next)) : ∃ m, c.bumps[k]? = some (.done m) := by
  have hcalls : (embed c).calls[k]? = c.bumps[k]?.map pc := List.getElem?_map
  obtain ⟨b, hb, hpc⟩ := Option.map_eq_some_iff.mp (hcalls.symm.trans h)
  cases b with
  | load => cases hpc
  | store m => cases hpc
  | done m => exact ⟨m, hb⟩

/-! ## Runs -/

section
variable {n : Nat} {ops pre : List Action}

theorem length_prefix (hp : pre <+: ops) :
    (run Counter.step { value := n } pre).bumps.length ≤ ops.count .call := by
  rw [Counter.length_bumps]
  exact (Nat.zero_add _).trans_le (hp.sublist.count_le _)

theorem value_range (hp : pre <+: ops) :
    n ≤ (run Counter.step { value := n } pre).value ∧
      (run Counter.step { value := n } pre).value ≤ n + ops.count .call := by
  obtain ⟨hlow, hhigh, -⟩ := Counter.run_bounded n pre
  have hlen := length_prefix (n := n) hp
  have hdone : (run Counter.step { value := n } pre).completed ≤ _ := List.countP_le_length
  exact ⟨hlow, by omega⟩

/-- A call that is about to store makes the next value one more that does not wrap. -/
theorem pending_range (hp : pre <+: ops) {next : Nat}
    (hmem : .store next ∈ (run Counter.step { value := n } pre).bumps) :
    (n ≤ next ∧ next ≤ n + ops.count .call) ∧
      (run Counter.step { value := n } pre).value + 1 ≤ n + ops.count .call := by
  obtain ⟨hlow, hhigh, hpending⟩ := Counter.run_bounded n pre
  have hnext := hpending next hmem
  have hlen := length_prefix (n := n) hp
  have hdone := Counter.completed_lt hmem
  omega

theorem value_eq_iff (hcount : ops.count .call < 2 ^ 16) {pre' : List Action} (hp : pre <+: ops)
    (hp' : pre' <+: ops) :
    (embed (run Counter.step { value := n } pre)).epoch.current =
        (embed (run Counter.step { value := n } pre')).epoch.current ↔
      (run Counter.step { value := n } pre).value = (run Counter.step { value := n } pre').value :=
  ofNat_inj hcount (value_range hp) (value_range hp')

/-- A store is late in the calls exactly when it is late in the counter. -/
theorem notLate_iff (hcount : ops.count .call < 2 ^ 16) (hp : pre <+: ops) (a : Action) :
    (embed (run Counter.step { value := n } pre)).NotLate a ↔
      (run Counter.step { value := n } pre).Fresh a := by
  cases a with
  | call => rfl
  | go k =>
    have hvalue := value_range (n := n) hp
    have hpending : ∀ next, .store next ∈ (run Counter.step { value := n } pre).bumps → _ :=
      fun next => pending_range hp
    generalize run Counter.step { value := n } pre = c at hvalue hpending ⊢
    have hcalls : (embed c).calls[k]? = c.bumps[k]?.map pc := List.getElem?_map
    unfold NotLate Counter.Fresh
    dsimp only
    rw [hcalls]
    have hsame : ∀ next, .store next ∈ c.bumps →
        ((BitVec.ofNat 16 next = (embed c).epoch.current ∨
          BitVec.ofNat 16 next = (embed c).epoch.current + 1) ↔
          (next = c.value ∨ next = c.value + 1)) := by
      intro next hmem
      obtain ⟨hnext, hup⟩ := hpending next hmem
      have hsucc : (embed c).epoch.current + 1 = BitVec.ofNat 16 (c.value + 1) :=
        (BitVec.ofNat_add c.value 1).symm
      rw [hsucc]
      exact or_congr (ofNat_inj hcount hnext hvalue) (ofNat_inj hcount hnext ⟨by omega, hup⟩)
    constructor
    · intro h next hk
      refine (hsame next (List.mem_of_getElem? hk)).mp (h _ ?_)
      rw [hk]
      rfl
    · intro h next hk
      obtain ⟨b, hb, hpc⟩ := Option.map_eq_some_iff.mp hk
      cases b with
      | load => cases hpc
      | done m => cases hpc
      | store m =>
        obtain rfl := RevokePc.store.inj hpc
        exact (hsame m (List.mem_of_getElem? hb)).mpr (h m hb)

end

/-- Revoked values stay revoked exactly when no store of a revocation comes late. -/
theorem revoked_stays_iff (e : CapEpoch) (ops : List Action)
    (hcount : ops.count .call < 2 ^ 16) :
    StaysRevoked e ops ↔ StepsMeet step NotLate { epoch := e } ops := by
  have hmeet : StepsMeet step NotLate { epoch := e } ops ↔
      StepsMeet Counter.step Counter.Fresh { value := e.epoch.toNat } ops := by
    refine forall_congr' fun pre => forall_congr' fun a => imp_congr_right fun hp => ?_
    rw [run_embed]
    exact notLate_iff hcount ((List.prefix_append pre [a]).trans hp) a
  rw [hmeet, ← Counter.noReturn_iff]
  constructor
  · intro h r hr p q hp hq hne
    have hback := h.noReturn p q r hp hq hr
    rw [run_embed, run_embed, run_embed] at hback
    rw [ne_eq, value_eq_iff hcount (hq.trans hr) (hp.trans (hq.trans hr)), ne_eq,
      value_eq_iff hcount hr (hp.trans (hq.trans hr))] at hback
    exact hback hne
  · intro h
    refine ⟨fun p q r hp hq hr hne => ?_, fun p q r k next hp hq hr hk hdone => ?_⟩
    · rw [run_embed, run_embed] at hne ⊢
      rw [ne_eq, value_eq_iff hcount (hq.trans hr) (hp.trans (hq.trans hr))] at hne
      rw [ne_eq, value_eq_iff hcount hr (hp.trans (hq.trans hr))]
      exact h r hr p q hp hq hne
    · rw [run_embed] at hk hdone
      rw [run_embed, run_embed]
      have hlen : (embed (run Counter.step { value := e.epoch.toNat } p)).calls.length =
          (run Counter.step { value := e.epoch.toNat } p).bumps.length := List.length_map pc
      obtain ⟨m, hm⟩ := done_of_returned hdone
      have hpast := Counter.bumped_past ((Counter.noReturn_iff _ _).mp h |>.restrict hr) hp hq
        (hlen ▸ hk) hm
      refine beq_eq_false_iff_ne.mpr ?_
      rw [ne_eq, value_eq_iff hcount hr (hp.trans (hq.trans hr))]
      omega

/-- Two calls load 65535 and both store 0; a third one has loaded 0 before the second store. -/
theorem revoked_stays_iff_interleaved :
    StaysRevoked { epoch := 65535 }
      [.call, .call, .go 0, .go 1, .go 0, .call, .go 2, .go 1, .go 2] :=
  (revoked_stays_iff { epoch := 65535 } _ (by decide)).mpr (by decide)

/-- A call that has loaded 0 stores 1 after two others have taken the epoch to 2. -/
def lateStore : List Action :=
  [.call, .go 0, .call, .go 1, .go 1, .call, .go 2, .go 2, .go 0]

/-- The third call begins when 1 is current and returns, and 1 becomes valid again. -/
theorem late_store_revalidates :
    (run step {} (lateStore.take 5)).epoch.current = 1 ∧
      (run step {} (lateStore.take 5)).calls.length = 2 ∧
      (run step {} (lateStore.take 8)).calls[2]? = some (.returned 2) ∧
      (run step {} (lateStore.take 8)).epoch.valid 1 = false ∧
      (run step {} lateStore).epoch.valid 1 = true ∧ ¬ StaysRevoked {} lateStore := by
  refine ⟨by decide, by decide, by decide, by decide, by decide, fun h => ?_⟩
  have hvalid := h.revoked (lateStore.take 5) (lateStore.take 8) lateStore 2 2
    (by decide) (by decide) (by decide) (by decide) (by decide)
  revert hvalid
  decide

end EpochCalls

end NeuroVerse.Sec
