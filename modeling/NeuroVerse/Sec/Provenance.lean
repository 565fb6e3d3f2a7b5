/-
  Where a capability came from.

  `Origin ops i h l`: at the end of the run `ops`, handle `h` of space `i` was made by the
  chain `l`, a mint followed by transfers, newest first. Every bound capability has such a
  chain, and it bounds the capability: same object, epoch and generation as the mint, rights
  inside the minted rights, inside the rights of every capability on the way and inside every
  mask applied (`no_amplification`).

  `RevokedIn ops i h` and `Tainted ops i h` follow revocation along these chains: a handle
  bound when its space was revoked, and the handles copied later from such a one. `grant` and
  `move` resolve their source first, `duplicate` only looks it up, and the copy is judged by
  the epoch of the space it lands in: `duplicate_revives_revoked`. `no_revival_iff` is the
  exact condition under which no copy of a revoked handle ever resolves.
-/
import NeuroVerse.Sec.World

namespace NeuroVerse.Sec

open NeuroVerse.Core NeuroVerse.Lib

/-- One transfer of a chain: the handle it read, the capability found there, the mask. -/
structure Link (ι : Type*) where
  src : ι
  handle : Handle
  cap : Capability
  narrower : CapRight

/-- A mint and the transfers that followed it, newest first. -/
structure Lineage (ι : Type*) where
  space : ι
  objectId : BitVec 64
  rights : CapRight
  epoch : BitVec 16
  generation : BitVec 64
  links : List (Link ι) := []

namespace Lineage

variable {ι : Type*}

def push (l : Lineage ι) (k : Link ι) : Lineage ι := { l with links := k :: l.links }

/-- The capability has the mint's object, epoch and generation, and no right that the mint,
    a capability on the chain or a mask on the chain lacks. -/
structure Bounds (l : Lineage ι) (c : Capability) : Prop where
  objectId : c.objectId = l.objectId.setWidth 48
  epoch : c.epoch = l.epoch
  generation : c.generation = l.generation.setWidth 48
  rights : c.rights.Subset l.rights
  link : ∀ k ∈ l.links, c.rights.Subset k.cap.rights
  mask : ∀ k ∈ l.links, k.narrower ≠ CapRight.none → c.rights.Subset k.narrower

theorem bounds_mint (i : ι) (oid : BitVec 64) (r : CapRight) (ep : BitVec 16)
    (g : BitVec 64) :
    Bounds { space := i, objectId := oid, rights := r, epoch := ep, generation := g }
      (Capability.mint oid r (ep.setWidth 64) g) where
  objectId := rfl
  epoch := by
    show (ep.setWidth 64).setWidth 16 = ep
    rw [BitVec.setWidth_setWidth_of_le _ (by decide), BitVec.setWidth_eq]
  generation := rfl
  rights := CapRight.Subset.refl r
  link := by simp
  mask := by simp

/-- A transfer extends the chain of the capability it read by itself. -/
theorem bounds_push {l : Lineage ι} {c c' : Capability} (hl : l.Bounds c) {n : CapRight}
    (hn : CapOps.narrow c n = some c') (i : ι) (h : Handle) :
    (l.push ⟨i, h, c, n⟩).Bounds c' := by
  obtain ⟨ho, he, hg, hr, -⟩ := CapOps.narrow_spec hn
  have hsub := CapOps.narrow_rights_subset hn
  refine ⟨ho.trans hl.objectId, he.trans hl.epoch, hg.trans hl.generation,
    hsub.trans hl.rights, fun k hk => ?_, fun k hk hne => ?_⟩
  · rcases List.mem_cons.mp hk with rfl | hk
    · exact hsub
    · exact hsub.trans (hl.link k hk)
  · rcases List.mem_cons.mp hk with rfl | hk
    · rw [hr, if_neg hne]
      exact CapRight.Subset.refl n
    · exact hsub.trans (hl.mask k hk hne)

end Lineage

namespace World

variable {ι : Type*} [DecidableEq ι]

/-- The chain that made the binding a handle has at the end of a run. -/
inductive Origin : List (Op ι) → ι → Handle → Lineage ι → Prop
  | mint {pre : List (Op ι)} {i : ι} {h : Handle} {oid : BitVec 64} {r : CapRight}
      {g : BitVec 64} (hm : (after pre).made (.mint i oid r g) = some (i, h)) :
      Origin (pre ++ [.mint i oid r g]) i h
        { space := i, objectId := oid, rights := r, epoch := (after pre).current i,
          generation := g }
  | copy {pre : List (Op ι)} {op : Op ι} {t : Transfer ι} {h' : Handle} {l : Lineage ι}
      {c : Capability} (hl : Origin pre t.src t.handle l) (hop : op.transfer = some t)
      (hc : ((after pre).space t.src).lookup t.handle = some c)
      (hm : (after pre).made op = some (t.dst, h')) :
      Origin (pre ++ [op]) t.dst h' (l.push ⟨t.src, t.handle, c, t.narrower⟩)
  | keep {pre : List (Op ι)} {op : Op ι} {i : ι} {h : Handle} {l : Lineage ι}
      (hl : Origin pre i h l) (hm : (after pre).made op ≠ some (i, h)) :
      Origin (pre ++ [op]) i h l

theorem exists_origin (ops : List (Op ι)) :
    ∀ i h c, (after ops).bound i h = some c → ∃ l, Origin ops i h l ∧ l.Bounds c := by
  induction ops using List.reverseRecOn with
  | nil =>
    intro i h c hb
    rw [show (after []).bound i h = none from start_bound i h] at hb
    cases hb
  | append_singleton pre op ih =>
    intro i h c hb
    have hw := after_ok pre
    rw [after, run_snoc] at hb
    rcases bound_step hw op hb with hold | hnew
    · obtain ⟨l, hl, hbd⟩ := ih i h c hold
      refine ⟨l, .keep hl fun hm => ?_, hbd⟩
      rw [(bound_made hw hm).1] at hold
      cases hold
    · obtain ⟨-, ⟨oid, r, g, rfl, hbm⟩ | ⟨t, c₀, c', hop, rfl, hsrc, hn, hbm⟩⟩ :=
        bound_made hw hnew
      · rw [hbm] at hb
        cases hb
        exact ⟨_, .mint hnew, Lineage.bounds_mint _ _ _ _ _⟩
      · rw [hbm] at hb
        cases hb
        obtain ⟨l, hl, hbd⟩ := ih _ _ _ hsrc
        exact ⟨_, .copy hl hop (by rw [lookup_eq_bound hw]; exact hsrc) hnew,
          Lineage.bounds_push hbd hn _ _⟩

/-- No amplification and no forgery: every capability bound after a run descends from a mint
    of that run, and its chain bounds it. -/
theorem no_amplification (ops : List (Op ι)) {i : ι} {h : Handle} {c : Capability}
    (hc : ((after ops).space i).lookup h = some c) :
    ∃ l, Origin ops i h l ∧ l.Bounds c := by
  rw [lookup_eq_bound (after_ok ops)] at hc
  exact exists_origin ops i h c hc

/-- A minted capability, granted with two rights and duplicated with one of them. -/
def chainRun : List (Op (Fin 2)) :=
  [.mint 0 42 CapRight.all 7, .grant 0 1 1 (CapRight.read ||| CapRight.write) true,
    .duplicate 1 0 1 CapRight.read]

theorem no_amplification_chainRun :
    ∃ l, Origin chainRun 0 2 l ∧ l.Bounds ⟨42, CapRight.read, 0, 7⟩ :=
  no_amplification chainRun (by decide)

/-! ## Copies of revoked handles -/

/-- Handle `h` of space `i` was bound when a `revoke` of that space was executed, and has not
    been bound anew since. -/
inductive RevokedIn : List (Op ι) → ι → Handle → Prop
  | revoke {pre : List (Op ι)} {i : ι} {h : Handle}
      (hb : ((after pre).space i).contains h = true) : RevokedIn (pre ++ [.revoke i]) i h
  | keep {pre : List (Op ι)} {op : Op ι} {i : ι} {h : Handle} (hr : RevokedIn pre i h)
      (hm : (after pre).made op ≠ some (i, h)) : RevokedIn (pre ++ [op]) i h

/-- Handle `h` of space `i` was obtained by one or more transfers from a handle that had been
    revoked before them. -/
inductive Tainted : List (Op ι) → ι → Handle → Prop
  | copy {pre : List (Op ι)} {op : Op ι} {t : Transfer ι} {h' : Handle}
      (hop : op.transfer = some t) (hsrc : RevokedIn pre t.src t.handle)
      (hm : (after pre).made op = some (t.dst, h')) : Tainted (pre ++ [op]) t.dst h'
  | copyAgain {pre : List (Op ι)} {op : Op ι} {t : Transfer ι} {h' : Handle}
      (hop : op.transfer = some t) (hsrc : Tainted pre t.src t.handle)
      (hm : (after pre).made op = some (t.dst, h')) : Tainted (pre ++ [op]) t.dst h'
  | keep {pre : List (Op ι)} {op : Op ι} {i : ι} {h : Handle} (ht : Tainted pre i h)
      (hm : (after pre).made op ≠ some (i, h)) : Tainted (pre ++ [op]) i h

/-- No copy of a revoked handle resolves at any point of the run. -/
def NoRevival (ops : List (Op ι)) : Prop :=
  ∀ pre, pre <+: ops → ∀ i h, Tainted pre i h →
    ∀ required, (after pre).resolve i h required = none

/-- No successful transfer of the run carries a revoked handle, or a copy of one, into a
    space that stands at the capability's epoch, and no `revoke` brings a space to the epoch
    of a copy it holds. -/
def NoLanding (ops : List (Op ι)) : Prop :=
  ∀ pre op, pre ++ [op] <+: ops →
    (∀ t h' c, op.transfer = some t → (after pre).made op = some (t.dst, h') →
      RevokedIn pre t.src t.handle ∨ Tainted pre t.src t.handle →
      ((after pre).space t.src).lookup t.handle = some c →
      c.epoch ≠ (after pre).current t.dst) ∧
    (∀ i, op = .revoke i → ∀ h c, Tainted pre i h →
      ((after pre).space i).lookup h = some c → c.epoch ≠ (after pre).current i + 1)

theorem not_tainted_nil (i : ι) (h : Handle) : ¬ Tainted ([] : List (Op ι)) i h := by
  intro ht
  generalize hq : ([] : List (Op ι)) = q at ht
  cases ht <;> simp at hq

/-- A tainted handle was made so by the last operation or before it. -/
theorem tainted_snoc {pre : List (Op ι)} {op : Op ι} {i : ι} {h : Handle}
    (ht : Tainted (pre ++ [op]) i h) :
    (∃ t, op.transfer = some t ∧ (RevokedIn pre t.src t.handle ∨ Tainted pre t.src t.handle) ∧
        t.dst = i ∧ (after pre).made op = some (i, h)) ∨
      (Tainted pre i h ∧ (after pre).made op ≠ some (i, h)) := by
  generalize hq : pre ++ [op] = q at ht
  cases ht with
  | copy hop hsrc hm =>
    obtain ⟨rfl, hlast⟩ := List.append_inj' hq rfl
    cases hlast
    exact Or.inl ⟨_, hop, Or.inl hsrc, rfl, hm⟩
  | copyAgain hop hsrc hm =>
    obtain ⟨rfl, hlast⟩ := List.append_inj' hq rfl
    cases hlast
    exact Or.inl ⟨_, hop, Or.inr hsrc, rfl, hm⟩
  | keep ht hm =>
    obtain ⟨rfl, hlast⟩ := List.append_inj' hq rfl
    cases hlast
    exact Or.inr ⟨ht, hm⟩

/-- A copy's capability keeps the epoch of the capability it was copied from. -/
theorem bound_copy {w : World ι} (hw : w.Ok) {op : Op ι} {t : Transfer ι} {h' : Handle}
    (hop : op.transfer = some t) (hm : w.made op = some (t.dst, h')) :
    ∃ c c', w.bound t.src t.handle = some c ∧ (w.step op).bound t.dst h' = some c' ∧
      c'.epoch = c.epoch ∧ (w.step op).current t.dst = w.current t.dst := by
  obtain ⟨-, ⟨oid, r, g, rfl, -⟩ | ⟨t', c, c', hop', -, hsrc, hn, hb⟩⟩ := bound_made hw hm
  · cases hop
  · rw [hop] at hop'
    cases hop'
    refine ⟨c, c', hsrc, hb, (CapOps.narrow_spec hn).2.1, ?_⟩
    rcases current_step hw op t.dst with he | ⟨rfl, -⟩
    · exact he
    · cases hop

/-- Along the runs without such a landing, a copy of a revoked handle is never bound to a
    capability of its space's current epoch. -/
theorem tainted_stale {ops : List (Op ι)} (hl : NoLanding ops) (pre : List (Op ι))
    (hp : pre <+: ops) :
    ∀ i h, Tainted pre i h → ∀ c, (after pre).bound i h = some c →
      c.epoch ≠ (after pre).current i := by
  induction pre using List.reverseRecOn with
  | nil => exact fun i h ht => absurd ht (not_tainted_nil i h)
  | append_singleton pre op ih =>
    intro i h ht c hb
    have hw := after_ok pre
    obtain ⟨hcopy, hrevoke⟩ := hl pre op hp
    rw [after, run_snoc] at hb ⊢
    rcases tainted_snoc ht with ⟨t, hop, hsrc, rfl, hm⟩ | ⟨hold, hm⟩
    · obtain ⟨c₀, c', hc₀, hc', he, hcur⟩ := bound_copy hw hop hm
      have hcc : c' = c := Option.some.inj (hc'.symm.trans hb)
      rw [hcur, ← hcc, he]
      exact hcopy t h c₀ hop hm hsrc (by rw [lookup_eq_bound hw]; exact hc₀)
    · have hbold : (after pre).bound i h = some c :=
        (bound_step hw op hb).resolve_right hm
      rcases current_step hw op i with hcur | ⟨hrev, hcur⟩
      · rw [hcur]
        exact ih ((List.prefix_append _ _).trans hp) i h hold c hbold
      · rw [hcur]
        exact hrevoke i hrev h c hold (by rw [lookup_eq_bound hw]; exact hbold)

/-- No copy of a revoked handle ever resolves, exactly in the runs without a landing. -/
theorem no_revival_iff (ops : List (Op ι)) : NoRevival ops ↔ NoLanding ops := by
  constructor
  · intro hn pre op hp
    have hw := after_ok pre
    have hstale : ∀ i h, Tainted (pre ++ [op]) i h → ∀ c,
        ((after pre).step op).bound i h = some c → c.epoch ≠ ((after pre).step op).current i := by
      intro i h ht
      have := (resolve_all_none (after_ok _) i h).mp (hn _ hp i h ht)
      rwa [after, run_snoc] at this
    refine ⟨fun t h' c hop hm hsrc hl => ?_, fun i hop h c ht hl => ?_⟩
    · obtain ⟨c₀, c', hc₀, hc', he, hcur⟩ := bound_copy hw hop hm
      have hcc : c₀ = c := by
        rw [lookup_eq_bound hw] at hl
        exact Option.some.inj (hc₀.symm.trans hl)
      have hmade : Tainted (pre ++ [op]) t.dst h' :=
        hsrc.elim (fun hr => .copy hop hr hm) (fun ht => .copyAgain hop ht hm)
      have := hstale _ _ hmade c' hc'
      rwa [he, hcur, hcc] at this
    · subst hop
      rw [lookup_eq_bound hw] at hl
      have := hstale i h (.keep ht (by simp [made, Op.transfer])) c hl
      rwa [current_revoke] at this
  · intro hl pre hp i h ht
    exact (resolve_all_none (after_ok pre) i h).mpr (tainted_stale hl pre hp i h ht)

/-- A capability revoked in space 0 and duplicated into space 1, which has never been
    revoked, resolves there. -/
theorem duplicate_revives_revoked :
    ¬ ∀ ops : List (Op (Fin 2)), (∀ i, revokes ops i < 2 ^ 16) → NoRevival ops := by
  intro hall
  have hrev : RevokedIn ([.mint 0 42 CapRight.read 1] ++ [.revoke (0 : Fin 2)]) 0 1 :=
    .revoke (by decide)
  have ht : Tainted ([.mint 0 42 CapRight.read 1, .revoke 0] ++
      [.duplicate (0 : Fin 2) 1 1 CapRight.none]) 1 1 :=
    .copy (t := ⟨0, 1, 1, CapRight.none, false, false, fun _ => rfl⟩) rfl hrev
      (by decide)
  have hn := hall [.mint 0 42 CapRight.read 1, .revoke 0, .duplicate 0 1 1 CapRight.none]
    (by decide) _ (List.prefix_refl _) 1 1 ht CapRight.read
  exact absurd hn (by decide)

end World

end NeuroVerse.Sec
