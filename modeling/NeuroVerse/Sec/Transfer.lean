/-
  What `grant` and `move` do to the finite maps of any two reachable spaces, and whether what
  they hand over can be used.

  `Conserves` says that a transfer moves or copies one binding and touches no other, also when
  both spaces are one. The capability that arrives keeps the epoch of the space it came from,
  so it resolves in the destination exactly when the two epochs are the same value.
-/
import NeuroVerse.Sec.CapOps
import NeuroVerse.Sec.FiniteMap

namespace NeuroVerse.Sec

open NeuroVerse.Core NeuroVerse.Lib

/-- Some run of calls on a fresh space leads to this one. -/
def CapabilitySpace.Reachable (s : CapabilitySpace) : Prop :=
  ∃ ops, s = finalState CapabilitySpace.step {} ops

theorem CapabilitySpace.step_ok {s : CapabilitySpace} (hs : s.Ok) (o : MapOp) :
    (s.step o).2.Ok := by
  cases o with
  | insert cap => exact (CapabilitySpace.insert_spec hs cap).1
  | erase h => exact CapabilitySpace.ok_erase hs h
  | lookup h => exact hs
  | contains h => exact hs
  | size => exact hs

theorem CapabilitySpace.Reachable.ok {s : CapabilitySpace} (h : s.Reachable) : s.Ok := by
  obtain ⟨ops, rfl⟩ := h
  exact run_invariant CapabilitySpace.ok_empty (fun s o hs => step_ok hs o) ops

section

variable {ι : Type*} [DecidableEq ι]

/-- The capability a transfer binds: the source's, with the narrower rights if there are any. -/
def narrowed (c : Capability) (narrower : CapRight) : Capability :=
  { c with rights := if narrower = CapRight.none then c.rights else narrower }

/-- A transfer that succeeds binds one unbound handle of the destination to the narrowed
    capability of the source handle, unbinds that handle when it takes, and changes no other
    binding of any space; one that fails changes no binding. -/
structure Conserves (spaces : ι → CapabilitySpace) (src dst : ι) (h : Handle)
    (narrower : CapRight) (take : Bool) (r : GrantResult × (ι → CapabilitySpace)) : Prop where
  done : r.1.ok = true → ∃ c, (spaces src).lookup h = some c ∧
    (spaces dst).lookup r.1.handle = none ∧
    (r.2 dst).lookup r.1.handle = some (narrowed c narrower) ∧
    (r.2 src).lookup h = (if take then none else some c) ∧
    ∀ j k, ¬ (j = dst ∧ k = r.1.handle) → ¬ (j = src ∧ k = h) →
      (r.2 j).lookup k = (spaces j).lookup k
  failed : r.1.ok = false → ∀ j k, (r.2 j).lookup k = (spaces j).lookup k

theorem narrow_eq {c c' : Capability} {n : CapRight} (h : CapOps.narrow c n = some c') :
    c' = narrowed c n := by
  obtain ⟨hid, hepoch, hgen, hrights, -⟩ := CapOps.narrow_spec h
  obtain ⟨id, rights, epoch, gen⟩ := c'
  dsimp only at hid hepoch hgen hrights
  rw [hid, hepoch, hgen, hrights]
  rfl

theorem deposit_conserves {spaces : ι → CapabilitySpace} (hs : ∀ i, (spaces i).Ok)
    (src dst : ι) {h : Handle} {c : Capability} (hc : (spaces src).binding h = some c)
    {n : CapRight} {c' : Capability} (hn : CapOps.narrow c n = some c') (take : Bool) :
    Conserves spaces src dst h n take (CapOps.deposit spaces src dst h c' take) := by
  have hbound : (spaces src).binding h ≠ none := by rw [hc]; exact Option.some_ne_none c
  obtain ⟨hok, hcase⟩ := CapOps.deposit_spec hs src dst hbound c' take
  rcases hcase with ⟨hfail, hsame⟩ | ⟨h', hres, hfree, hmap⟩
  · constructor
    · intro hdone
      rw [hfail] at hdone
      cases hdone
    · intro _ j k
      rw [CapabilitySpace.lookup_eq (hok j), CapabilitySpace.lookup_eq (hs j), hsame]
  · constructor
    · intro _
      have hhandle : (CapOps.deposit spaces src dst h c' take).1.handle = h' := by rw [hres]
      -- the handle that was bound is not the fresh one
      have hne : ¬ (src = dst ∧ h = h') := by
        intro heq
        obtain ⟨rfl, rfl⟩ := heq
        exact hbound hfree
      rw [hhandle]
      refine ⟨c, ?_, ?_, ?_, ?_, ?_⟩
      · rw [CapabilitySpace.lookup_eq (hs src), hc]
      · rw [CapabilitySpace.lookup_eq (hs dst), hfree]
      · rw [CapabilitySpace.lookup_eq (hok dst), hmap, if_pos ⟨rfl, rfl⟩, narrow_eq hn]
      · rw [CapabilitySpace.lookup_eq (hok src), hmap, if_neg hne, hc]
        simp
      · intro j k hnew hold
        rw [CapabilitySpace.lookup_eq (hok j), CapabilitySpace.lookup_eq (hs j), hmap,
          if_neg hnew, if_neg fun hp => hold hp.2]
    · intro hfail
      rw [hres] at hfail
      cases hfail

theorem grant_conserves {spaces : ι → CapabilitySpace} (hs : ∀ i, (spaces i).Ok) (src dst : ι)
    (e : CapEpoch) (h : Handle) (n : CapRight) (take : Bool) :
    Conserves spaces src dst h n take (CapOps.grant spaces src dst e h n take) := by
  rcases CapOps.grant_cases spaces src dst e h n take with heq | ⟨c, c', hr, hn, heq⟩
  · rw [heq]
    exact ⟨fun hdone => Bool.noConfusion hdone, fun _ _ _ => rfl⟩
  · rw [heq]
    obtain ⟨hc, -, -⟩ := (CapOps.resolve_eq_some (hs src) _ _ _ _).mp hr
    exact deposit_conserves hs src dst hc hn take

/-- `grant` and `move` conserve bindings, between any two reachable spaces and within one. -/
theorem transfer_conserves (spaces : ι → CapabilitySpace) (hs : ∀ i, (spaces i).Reachable)
    (src dst : ι) (e : CapEpoch) (h : Handle) (n : CapRight) :
    (∀ take, Conserves spaces src dst h n take (CapOps.grant spaces src dst e h n take)) ∧
      Conserves spaces src dst h n true (CapOps.move spaces src dst e h n) :=
  ⟨grant_conserves (fun i => (hs i).ok) src dst e h n,
    grant_conserves (fun i => (hs i).ok) src dst e h n true⟩

/-- Two spaces: `false` holds one capability with all rights at handle 1, `true` nothing. -/
def oneHolder (i : Bool) : CapabilitySpace :=
  finalState CapabilitySpace.step {}
    (if i then [] else [.insert (.mint 7 CapRight.all 0 0)])

theorem oneHolder_reachable (i : Bool) : (oneHolder i).Reachable := ⟨_, rfl⟩

/-- A move into the empty space, and a grant of the space to itself, both of which succeed. -/
theorem transfer_conserves_oneHolder :
    (CapOps.move oneHolder false true {} 1 CapRight.read).1.ok = true ∧
      (CapOps.grant oneHolder false false {} 1 CapRight.none true).1.ok = true ∧
      Conserves oneHolder false true 1 CapRight.read true
        (CapOps.move oneHolder false true {} 1 CapRight.read) ∧
      Conserves oneHolder false false 1 CapRight.none true
        (CapOps.grant oneHolder false false {} 1 CapRight.none true) :=
  ⟨by decide, by decide,
    (transfer_conserves oneHolder oneHolder_reachable false true {} 1 CapRight.read).2,
    (transfer_conserves oneHolder oneHolder_reachable false false {} 1 CapRight.none).1 true⟩

/-! ## Is what is handed over usable? -/

/-- The rights of the transferred capability resolve at the new handle, under the destination's
    epoch, exactly when that epoch is the source's; a handle that was consumed resolves no
    more, whatever rights are asked for. -/
structure UsableIff (spaces : ι → CapabilitySpace) (src dst : ι) (es ed : CapEpoch) (h : Handle)
    (narrower : CapRight) (take : Bool) (r : GrantResult × (ι → CapabilitySpace)) (c : Capability) :
    Prop where
  source : (spaces src).lookup h = some c
  resolves : (CapOps.resolve (r.2 dst) ed r.1.handle (narrowed c narrower).rights).isSome ↔
    es.current = ed.current
  consumed : take = true → ∀ required, CapOps.resolve (r.2 src) es h required = none

theorem grant_ok {spaces : ι → CapabilitySpace} (hs : ∀ i, (spaces i).Ok) (src dst : ι)
    (e : CapEpoch) (h : Handle) (n : CapRight) (take : Bool) (i : ι) :
    ((CapOps.grant spaces src dst e h n take).2 i).Ok := by
  rcases CapOps.grant_cases spaces src dst e h n take with heq | ⟨c, c', hr, -, heq⟩
  · rw [heq]
    exact hs i
  · rw [heq]
    obtain ⟨hc, -, -⟩ := (CapOps.resolve_eq_some (hs src) _ _ _ _).mp hr
    have hbound : (spaces src).binding h ≠ none := by rw [hc]; exact Option.some_ne_none c
    exact (CapOps.deposit_spec hs src dst hbound c' take).1 i

/-- A grant that succeeds found its capability in the source's current epoch. -/
theorem epoch_of_granted {spaces : ι → CapabilitySpace} (hs : ∀ i, (spaces i).Ok) {src dst : ι}
    {e : CapEpoch} {h : Handle} {n : CapRight} {take : Bool}
    (hok : (CapOps.grant spaces src dst e h n take).1.ok = true) :
    ∃ c, (spaces src).lookup h = some c ∧ c.epoch = e.current := by
  rcases CapOps.grant_cases spaces src dst e h n take with heq | ⟨c, c', hr, -, -⟩
  · rw [heq] at hok
    exact Bool.noConfusion hok
  · obtain ⟨hc, he, -⟩ := (CapOps.resolve_eq_some (hs src) _ _ _ _).mp hr
    exact ⟨c, (CapabilitySpace.lookup_eq (hs src) h).trans hc, he⟩

theorem has_rights (c : Capability) : c.has c.rights = true := by
  rw [Capability.has, BitVec.and_self, beq_self_eq_true]

theorem grant_usable_iff {spaces : ι → CapabilitySpace} (hs : ∀ i, (spaces i).Reachable)
    {src dst : ι} {es : CapEpoch} (ed : CapEpoch) {h : Handle} {n : CapRight} {take : Bool}
    (hok : (CapOps.grant spaces src dst es h n take).1.ok = true) :
    ∃ c, UsableIff spaces src dst es ed h n take (CapOps.grant spaces src dst es h n take) c := by
  have hwf : ∀ i, (spaces i).Ok := fun i => (hs i).ok
  have hgranted := grant_ok hwf src dst es h n take
  obtain ⟨c, hc, hepoch⟩ := epoch_of_granted hwf hok
  obtain ⟨c₀, hc₀, -, hnew, hold, -⟩ := (grant_conserves hwf src dst es h n take).done hok
  obtain rfl := Option.some.inj (hc.symm.trans hc₀)
  refine ⟨c, hc, ?_, ?_⟩
  · rw [CapabilitySpace.lookup_eq (hgranted dst)] at hnew
    rw [Option.isSome_iff_exists]
    constructor
    · intro h
      obtain ⟨c', hres⟩ := h
      obtain ⟨hbound, he, -⟩ := (CapOps.resolve_eq_some (hgranted dst) _ _ _ _).mp hres
      obtain rfl := Option.some.inj (hnew.symm.trans hbound)
      exact hepoch.symm.trans he
    · intro he
      exact ⟨narrowed c n, (CapOps.resolve_eq_some (hgranted dst) _ _ _ _).mpr
        ⟨hnew, hepoch.trans he, has_rights (narrowed c n)⟩⟩
  · intro htake required
    rw [htake] at hold
    unfold CapOps.resolve
    rw [htake, hold]
    rfl

/-- A capability handed over by `grant` or `move` can be used in the destination exactly when
    the epochs of the two spaces have the same value. -/
theorem transfer_usable_iff (spaces : ι → CapabilitySpace) (hs : ∀ i, (spaces i).Reachable)
    (src dst : ι) (es ed : CapEpoch) (h : Handle) (n : CapRight) :
    (∀ take, (CapOps.grant spaces src dst es h n take).1.ok = true →
      ∃ c, UsableIff spaces src dst es ed h n take
        (CapOps.grant spaces src dst es h n take) c) ∧
    ((CapOps.move spaces src dst es h n).1.ok = true →
      ∃ c, UsableIff spaces src dst es ed h n true (CapOps.move spaces src dst es h n) c) :=
  ⟨fun _ hok => grant_usable_iff hs ed hok, fun hok => grant_usable_iff hs ed hok⟩

theorem transfer_usable_iff_oneHolder :
    ∃ c, UsableIff oneHolder false true {} {} 1 CapRight.none true
      (CapOps.move oneHolder false true {} 1 CapRight.none) c :=
  (transfer_usable_iff oneHolder oneHolder_reachable false true {} {} 1 CapRight.none).2
    (by decide)

/-- A capability with all rights, moved into a space that has been revoked once, resolves in
    neither space. -/
theorem moved_to_revoked_is_dead :
    let ed := CapOps.revoke (oneHolder true) {}
    let r := CapOps.move oneHolder false true {} 1 CapRight.none
    r.1.ok = true ∧ CapOps.resolve (r.2 true) ed r.1.handle CapRight.all = none ∧
      CapOps.resolve (r.2 false) {} 1 CapRight.all = none := by
  decide +kernel

end

end NeuroVerse.Sec
