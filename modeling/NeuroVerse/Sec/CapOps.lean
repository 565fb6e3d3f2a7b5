/-
  Epochs (`sec/epoch.hpp`) and the capability operations (`sec/cap_ops.hpp`).

  `grant`, `duplicate` and `move` take references to two spaces, which may be the same one.
  They are modelled on a store `ι → CapabilitySpace` and two indices into it, so that the
  insertion into the destination is seen by the erasure in the source when both are one
  space. The epoch of the source is passed by value: none of the three changes it.
-/
import NeuroVerse.Sec.CapSpace

namespace NeuroVerse.Sec

open NeuroVerse.Core NeuroVerse.Lib

/-- The 16-bit revocation counter of a space. -/
structure CapEpoch where
  epoch : BitVec 16 := 0

namespace CapEpoch

def current (e : CapEpoch) : BitVec 16 := e.epoch

/-- The new value is returned and stored; it wraps at 2^16. -/
def revoke (e : CapEpoch) : BitVec 16 × CapEpoch := (e.epoch + 1, { epoch := e.epoch + 1 })

def valid (e : CapEpoch) (capEpoch : BitVec 16) : Bool := e.current == capEpoch

end CapEpoch

structure GrantResult where
  handle : Handle := 0
  ok : Bool := false

namespace CapOps

variable {ι : Type*}

def mint (space : CapabilitySpace) (epoch : CapEpoch) (objectId : BitVec 64)
    (rights : CapRight) (generation : BitVec 64) : Handle × CapabilitySpace :=
  space.insert (Capability.mint objectId rights (epoch.current.setWidth 64) generation)

def resolve (space : CapabilitySpace) (epoch : CapEpoch) (handle : Handle)
    (required : CapRight) : Option Capability :=
  match space.lookup handle with
  | none => none
  | some cap =>
    if !epoch.valid cap.epoch then none
    else if !cap.has required then none
    else some cap

def attenuate (cap : Capability) (narrower : CapRight) : Option Capability :=
  if !cap.has narrower then none else some (cap.attenuate narrower)

/-- The narrowing step that `grant` and `duplicate` share: `CapRight::None` leaves the
    capability as it is. -/
def narrow (cap : Capability) (narrower : CapRight) : Option Capability :=
  if narrower ≠ CapRight.none then attenuate cap narrower else some cap

variable [DecidableEq ι]

/-- The tail that `grant` and `duplicate` share: bind the capability in the destination and,
    when `take` is set, consume the source handle. `duplicate` never takes. -/
def deposit (spaces : ι → CapabilitySpace) (src dst : ι) (srcHandle : Handle)
    (cap : Capability) (take : Bool) : GrantResult × (ι → CapabilitySpace) :=
  let r := (spaces dst).insert cap
  let spaces := Function.update spaces dst r.2
  if r.1 = kInvalidHandle then ({}, spaces)
  else
    let spaces :=
      if take then Function.update spaces src ((spaces src).erase srcHandle).2 else spaces
    ({ handle := r.1, ok := true }, spaces)

def grant (spaces : ι → CapabilitySpace) (src dst : ι) (srcEpoch : CapEpoch)
    (srcHandle : Handle) (narrower : CapRight) (take : Bool) :
    GrantResult × (ι → CapabilitySpace) :=
  match resolve (spaces src) srcEpoch srcHandle CapRight.grant with
  | none => ({}, spaces)
  | some cap =>
    match narrow cap narrower with
    | none => ({}, spaces)
    | some cap => deposit spaces src dst srcHandle cap take

def duplicate (spaces : ι → CapabilitySpace) (src dst : ι) (srcHandle : Handle)
    (narrower : CapRight) : GrantResult × (ι → CapabilitySpace) :=
  match (spaces src).lookup srcHandle with
  | none => ({}, spaces)
  | some cap =>
    match narrow cap narrower with
    | none => ({}, spaces)
    | some cap => deposit spaces src dst srcHandle cap false

def move (spaces : ι → CapabilitySpace) (src dst : ι) (srcEpoch : CapEpoch)
    (srcHandle : Handle) (narrower : CapRight) : GrantResult × (ι → CapabilitySpace) :=
  grant spaces src dst srcEpoch srcHandle narrower true

/-- The space is not touched: only the epoch moves. -/
def revoke (_space : CapabilitySpace) (epoch : CapEpoch) : CapEpoch := epoch.revoke.2

/-! ## Lemmas about the pure parts -/

theorem valid_iff (e : CapEpoch) (x : BitVec 16) : e.valid x = true ↔ x = e.current := by
  rw [CapEpoch.valid, beq_iff_eq]
  exact eq_comm

/-- `resolve` succeeds exactly on a bound capability of the current epoch that has the
    required rights, and returns it unchanged. -/
theorem resolve_eq_some {s : CapabilitySpace} (hs : s.Ok) (e : CapEpoch) (h : Handle)
    (r : CapRight) (c : Capability) :
    resolve s e h r = some c ↔ s.binding h = some c ∧ c.epoch = e.current ∧ c.has r = true := by
  unfold resolve
  rw [CapabilitySpace.lookup_eq hs]
  cases s.binding h with
  | none => simp
  | some c' =>
    simp only [Option.some.injEq]
    constructor
    · intro hr
      by_cases hv : e.valid c'.epoch = true
      · by_cases hh : c'.has r = true
        · simp only [hv, hh, Bool.not_true, Bool.false_eq_true, if_false,
            Option.some.injEq] at hr
          subst hr
          exact ⟨rfl, (valid_iff e _).mp hv, hh⟩
        · simp [hv, hh] at hr
      · simp [hv] at hr
    · rintro ⟨rfl, he, hh⟩
      simp [(valid_iff e _).mpr he, hh]

/-- What a narrowing keeps, and what bounds its rights. -/
theorem narrow_spec {c c' : Capability} {n : CapRight} (h : narrow c n = some c') :
    c'.objectId = c.objectId ∧ c'.epoch = c.epoch ∧ c'.generation = c.generation ∧
      c'.rights = (if n = CapRight.none then c.rights else n) ∧ n.Subset c.rights := by
  unfold narrow at h
  split at h
  · rename_i hn
    unfold attenuate at h
    split at h
    · cases h
    · rename_i hh
      have hh' : c.has n = true := by simpa using hh
      cases h
      exact ⟨rfl, rfl, rfl, by rw [if_neg hn, Capability.attenuate_rights hh'],
        (Capability.has_iff c n).mp hh'⟩
  · rename_i hn
    have hn' : n = CapRight.none := not_not.mp hn
    cases h
    exact ⟨rfl, rfl, rfl, by rw [if_pos hn'], hn' ▸ CapRight.subset_none _⟩

theorem narrow_rights_subset {c c' : Capability} {n : CapRight} (h : narrow c n = some c') :
    c'.rights.Subset c.rights := by
  obtain ⟨-, -, -, hr, hs⟩ := narrow_spec h
  rw [hr]
  split
  · exact CapRight.Subset.refl _
  · exact hs

/-! ## What the transfers do to the finite maps -/

section Transfer

variable {spaces : ι → CapabilitySpace}

theorem ok_update (hs : ∀ i, (spaces i).Ok) (i : ι) {s : CapabilitySpace} (h : s.Ok) (j : ι) :
    (Function.update spaces i s j).Ok := by
  rw [Function.update_apply]
  split
  · exact h
  · exact hs j

/-- Inserting into one space of many: nothing, or one handle that was unbound. -/
theorem binding_update_insert (hs : ∀ i, (spaces i).Ok) (i : ι) (cap : Capability) :
    if ((spaces i).insert cap).1 = kInvalidHandle then
      ∀ j, (Function.update spaces i ((spaces i).insert cap).2 j).binding = (spaces j).binding
    else (spaces i).binding ((spaces i).insert cap).1 = none ∧
      ∀ j k, (Function.update spaces i ((spaces i).insert cap).2 j).binding k =
        if j = i ∧ k = ((spaces i).insert cap).1 then some cap else (spaces j).binding k := by
  obtain ⟨-, hins⟩ := CapabilitySpace.insert_spec (hs i) cap
  split
  · rename_i h0
    rw [if_pos h0] at hins
    intro j
    by_cases hj : j = i
    · rw [hj, Function.update_self, hins]
    · rw [Function.update_of_ne hj]
  · rename_i h0
    rw [if_neg h0] at hins
    refine ⟨hins.1, fun j k => ?_⟩
    by_cases hj : j = i
    · rw [hj, Function.update_self, hins.2]
      simp
    · rw [Function.update_of_ne hj, if_neg (fun hp => hj hp.1)]

theorem binding_update_erase (hs : ∀ i, (spaces i).Ok) (i : ι) (h : Handle) (j : ι) (k : Handle) :
    (Function.update spaces i ((spaces i).erase h).2 j).binding k =
      if j = i ∧ k = h then none else (spaces j).binding k := by
  by_cases hj : j = i
  · rw [hj, Function.update_self, CapabilitySpace.binding_erase (hs i)]
    simp
  · rw [Function.update_of_ne hj, if_neg (fun hp => hj hp.1)]

theorem nextHandle_update_insert (i : ι) (cap : Capability)
    (h0 : (spaces i).nextHandle ≠ kInvalidHandle)
    (hfree : (spaces i).binding (spaces i).nextHandle = none) (j : ι) :
    (Function.update spaces i ((spaces i).insert cap).2 j).nextHandle =
      if j = i then (spaces i).nextHandle + 1 else (spaces j).nextHandle := by
  rw [Function.update_apply]
  split
  · exact (CapabilitySpace.insert_fresh cap h0 hfree).2
  · rfl

theorem nextHandle_update_erase (i : ι) (h : Handle) (j : ι) :
    (Function.update spaces i ((spaces i).erase h).2 j).nextHandle = (spaces j).nextHandle := by
  by_cases hj : j = i
  · rw [hj, Function.update_self, CapabilitySpace.nextHandle_erase]
  · rw [Function.update_of_ne hj]

/-- A failed deposit leaves every map as it was. A successful one binds a handle that was
    unbound in the destination, unbinds the source handle when it takes, and changes no
    other binding. -/
theorem deposit_spec (hs : ∀ i, (spaces i).Ok) (src dst : ι) {h : Handle}
    (hbound : (spaces src).binding h ≠ none) (cap : Capability) (take : Bool) :
    (∀ j, ((deposit spaces src dst h cap take).2 j).Ok) ∧
      (((deposit spaces src dst h cap take).1.ok = false ∧
          ∀ j, ((deposit spaces src dst h cap take).2 j).binding = (spaces j).binding) ∨
        ∃ h', (deposit spaces src dst h cap take).1 = { handle := h', ok := true } ∧
          (spaces dst).binding h' = none ∧
          ∀ j k, ((deposit spaces src dst h cap take).2 j).binding k =
            if j = dst ∧ k = h' then some cap
            else if take = true ∧ j = src ∧ k = h then none else (spaces j).binding k) := by
  have hok := ok_update hs dst (CapabilitySpace.insert_spec (hs dst) cap).1
  have hins := binding_update_insert hs dst cap
  simp only [deposit]
  set r := (spaces dst).insert cap
  by_cases h0 : r.1 = kInvalidHandle
  · rw [if_pos h0] at hins ⊢
    exact ⟨hok, Or.inl ⟨rfl, hins⟩⟩
  · rw [if_neg h0] at hins ⊢
    obtain ⟨hfree, hmap⟩ := hins
    cases take with
    | false => exact ⟨hok, Or.inr ⟨r.1, rfl, hfree, by simpa using hmap⟩⟩
    | true =>
      refine ⟨ok_update hok src (CapabilitySpace.ok_erase (hok src) h),
        Or.inr ⟨r.1, rfl, hfree, fun j k => ?_⟩⟩
      refine (binding_update_erase hok src h j k).trans ?_
      rw [hmap]
      by_cases hp : j = src ∧ k = h
      · -- the fresh handle is not the consumed one: that one was bound
        obtain ⟨rfl, rfl⟩ := hp
        have hne : ¬ (j = dst ∧ k = r.1) := by
          rintro ⟨rfl, rfl⟩
          exact hbound hfree
        simp [hne]
      · simp [hp]

/-- While the destination's counter has not wrapped and its value is unbound, a deposit
    succeeds with the counter's value. -/
theorem deposit_fresh (src dst : ι) (h : Handle) (cap : Capability) (take : Bool)
    (h0 : (spaces dst).nextHandle ≠ kInvalidHandle)
    (hfree : (spaces dst).binding (spaces dst).nextHandle = none) :
    (deposit spaces src dst h cap take).1 =
        { handle := (spaces dst).nextHandle, ok := true } ∧
      ∀ j, ((deposit spaces src dst h cap take).2 j).nextHandle =
        if j = dst then (spaces dst).nextHandle + 1 else (spaces j).nextHandle := by
  obtain ⟨h1, -⟩ := CapabilitySpace.insert_fresh cap h0 hfree
  have hnext := nextHandle_update_insert dst cap h0 hfree
  simp only [deposit, h1, if_neg h0, true_and]
  intro j
  cases take with
  | false => exact hnext j
  | true => exact (nextHandle_update_erase src h j).trans (hnext j)

/-- `grant` either fails and leaves the store as it was, or deposits the narrowed form of a
    capability that its space resolves with the Grant right. -/
theorem grant_cases (spaces : ι → CapabilitySpace) (src dst : ι) (e : CapEpoch) (h : Handle)
    (n : CapRight) (take : Bool) :
    grant spaces src dst e h n take = ({}, spaces) ∨
      ∃ c c', resolve (spaces src) e h CapRight.grant = some c ∧ narrow c n = some c' ∧
        grant spaces src dst e h n take = deposit spaces src dst h c' take := by
  unfold grant
  cases hr : resolve (spaces src) e h CapRight.grant with
  | none => exact Or.inl rfl
  | some c =>
    cases hn : narrow c n with
    | none => left; simp only [hn]
    | some c' => right; exact ⟨c, c', rfl, hn, by simp only [hn]⟩

/-- `duplicate` either fails and leaves the store as it was, or deposits the narrowed form
    of a capability that its space binds, whatever its epoch. -/
theorem duplicate_cases (spaces : ι → CapabilitySpace) (src dst : ι) (h : Handle)
    (n : CapRight) :
    duplicate spaces src dst h n = ({}, spaces) ∨
      ∃ c c', (spaces src).lookup h = some c ∧ narrow c n = some c' ∧
        duplicate spaces src dst h n = deposit spaces src dst h c' false := by
  unfold duplicate
  cases hr : (spaces src).lookup h with
  | none => exact Or.inl rfl
  | some c =>
    cases hn : narrow c n with
    | none => left; simp only [hn]
    | some c' => right; exact ⟨c, c', rfl, hn, by simp only [hn]⟩

end Transfer

end CapOps

end NeuroVerse.Sec
