/-
  Any number of capability spaces, each with its own epoch, under one interleaved sequence of
  operations.

  `World.step` runs one operation of `CapOps` (or `CapabilitySpace::erase`) with the space's
  own epoch, as the kernel calls them; `World.made` is the handle that operation binds, if
  any. `step_outcome` says once and for all what a step can do to the bindings and the
  epochs; every run theorem about capabilities is derived from it. `step_next` says what a
  step does to the handle counters while none of them has wrapped.
-/
import NeuroVerse.Lib.Run
import NeuroVerse.Sec.CapOps

namespace NeuroVerse.Sec

open NeuroVerse.Core NeuroVerse.Lib

structure World (ι : Type*) where
  space : ι → CapabilitySpace := fun _ => {}
  epoch : ι → CapEpoch := fun _ => {}

/-- One call; `mint`, `grant` and `move` are called with the epoch of the named space. -/
inductive Op (ι : Type*) where
  | mint (i : ι) (objectId : BitVec 64) (rights : CapRight) (generation : BitVec 64)
  | grant (src dst : ι) (h : Handle) (narrower : CapRight) (take : Bool)
  | move (src dst : ι) (h : Handle) (narrower : CapRight)
  | duplicate (src dst : ι) (h : Handle) (narrower : CapRight)
  | erase (i : ι) (h : Handle)
  | revoke (i : ι)

/-- The transfer an operation asks for. `checked` transfers resolve the source handle with
    the Grant right first; only they may consume it. -/
structure Transfer (ι : Type*) where
  src : ι
  dst : ι
  handle : Handle
  narrower : CapRight
  take : Bool
  checked : Bool
  keeps : checked = false → take = false

namespace Op

variable {ι : Type*}

def transfer : Op ι → Option (Transfer ι)
  | grant src dst h n take => some ⟨src, dst, h, n, take, true, nofun⟩
  | move src dst h n => some ⟨src, dst, h, n, true, true, nofun⟩
  | duplicate src dst h n => some ⟨src, dst, h, n, false, false, fun _ => rfl⟩
  | _ => none

/-- The space an operation may insert into. -/
def target : Op ι → Option ι
  | mint i _ _ _ => some i
  | grant _ dst _ _ _ => some dst
  | move _ dst _ _ => some dst
  | duplicate _ dst _ _ => some dst
  | erase _ _ => none
  | revoke _ => none

end Op

namespace World

variable {ι : Type*}

/-- The world in which nothing has been minted and no epoch has been revoked. -/
def start : World ι := {}

/-- `CapOps::resolve` on a space and its own epoch. -/
def resolve (w : World ι) (i : ι) (h : Handle) (required : CapRight) : Option Capability :=
  CapOps.resolve (w.space i) (w.epoch i) h required

/-- The capability handle `h` of space `i` is bound to. -/
def bound (w : World ι) (i : ι) (h : Handle) : Option Capability := (w.space i).binding h

def current (w : World ι) (i : ι) : BitVec 16 := (w.epoch i).current

def Ok (w : World ι) : Prop := ∀ i, (w.space i).Ok

def next (w : World ι) (i : ι) : Handle := (w.space i).nextHandle

theorem start_ok : (start : World ι).Ok := fun _ => CapabilitySpace.ok_empty

@[simp] theorem start_bound (i : ι) (h : Handle) : (start : World ι).bound i h = none :=
  CapabilitySpace.binding_empty h

/-- `resolve` in terms of the bindings and the epochs. -/
theorem resolve_eq_some {w : World ι} (hw : w.Ok) {i : ι} {h : Handle} {r : CapRight}
    {c : Capability} :
    w.resolve i h r = some c ↔
      w.bound i h = some c ∧ c.epoch = w.current i ∧ c.has r = true :=
  CapOps.resolve_eq_some (hw i) _ _ _ _

theorem lookup_eq_bound {w : World ι} (hw : w.Ok) (i : ι) (h : Handle) :
    (w.space i).lookup h = w.bound i h :=
  CapabilitySpace.lookup_eq (hw i) h

/-- No handle of any rights resolves exactly when the handle is unbound or bound to a
    capability of another epoch. -/
theorem resolve_all_none {w : World ι} (hw : w.Ok) (i : ι) (h : Handle) :
    (∀ r, w.resolve i h r = none) ↔ ∀ c, w.bound i h = some c → c.epoch ≠ w.current i := by
  constructor
  · intro hr c hc he
    have := (resolve_eq_some hw).mpr ⟨hc, he, Capability.has_none c⟩
    rw [hr] at this
    cases this
  · intro hb r
    cases hr : w.resolve i h r with
    | none => rfl
    | some c =>
      obtain ⟨hc, he, -⟩ := (resolve_eq_some hw).mp hr
      exact absurd he (hb c hc)

/-! ## One step -/

variable [DecidableEq ι]

def mintIn (w : World ι) (i : ι) (oid : BitVec 64) (r : CapRight) (g : BitVec 64) :
    Handle × CapabilitySpace :=
  CapOps.mint (w.space i) (w.epoch i) oid r g

/-- The grant result and the store after a transfer. -/
def transferIn (w : World ι) (t : Transfer ι) : GrantResult × (ι → CapabilitySpace) :=
  if t.checked then
    CapOps.grant w.space t.src t.dst (w.epoch t.src) t.handle t.narrower t.take
  else CapOps.duplicate w.space t.src t.dst t.handle t.narrower

def step (w : World ι) : Op ι → World ι
  | .mint i oid r g => { w with space := Function.update w.space i (w.mintIn i oid r g).2 }
  | .grant src dst h n take =>
    { w with space := (CapOps.grant w.space src dst (w.epoch src) h n take).2 }
  | .move src dst h n => { w with space := (CapOps.move w.space src dst (w.epoch src) h n).2 }
  | .duplicate src dst h n => { w with space := (CapOps.duplicate w.space src dst h n).2 }
  | .erase i h => { w with space := Function.update w.space i ((w.space i).erase h).2 }
  | .revoke i =>
    { w with epoch := Function.update w.epoch i (CapOps.revoke (w.space i) (w.epoch i)) }

/-- The space and the handle a step binds, when it binds one. -/
def made (w : World ι) : Op ι → Option (ι × Handle)
  | .mint i oid r g =>
    if (w.mintIn i oid r g).1 = kInvalidHandle then none else some (i, (w.mintIn i oid r g).1)
  | op =>
    match op.transfer with
    | none => none
    | some t =>
      if (w.transferIn t).1.ok then some (t.dst, (w.transferIn t).1.handle) else none

abbrev after (ops : List (Op ι)) : World ι := run step start ops

/-- How often the epoch of space `i` is bumped in a run. -/
def revokes (ops : List (Op ι)) (i : ι) : Nat :=
  ops.countP fun op => match op with
    | .revoke j => j = i
    | _ => false

/-- What one step can do to the bindings and the epochs. -/
inductive Outcome (w : World ι) (op : Op ι) (w' : World ι) : Prop
  | idle (hm : w.made op = none) (he : w'.epoch = w.epoch)
      (hb : ∀ j k, w'.bound j k = w.bound j k)
  | minted (i : ι) (h : Handle) (oid : BitVec 64) (r : CapRight) (g : BitVec 64)
      (hop : op = .mint i oid r g) (hm : w.made op = some (i, h))
      (hfree : w.bound i h = none) (he : w'.epoch = w.epoch)
      (hb : ∀ j k, w'.bound j k =
        if j = i ∧ k = h then some (Capability.mint oid r ((w.current i).setWidth 64) g)
        else w.bound j k)
  | copied (t : Transfer ι) (h' : Handle) (c c' : Capability)
      (hop : op.transfer = some t) (hm : w.made op = some (t.dst, h'))
      (hsrc : w.bound t.src t.handle = some c) (hn : CapOps.narrow c t.narrower = some c')
      (hchk : t.checked = true → c.epoch = w.current t.src ∧ c.has CapRight.grant = true)
      (hfree : w.bound t.dst h' = none) (he : w'.epoch = w.epoch)
      (hb : ∀ j k, w'.bound j k =
        if j = t.dst ∧ k = h' then some c'
        else if t.take = true ∧ j = t.src ∧ k = t.handle then none else w.bound j k)
  | erased (i : ι) (h : Handle) (hop : op = .erase i h) (hm : w.made op = none)
      (he : w'.epoch = w.epoch)
      (hb : ∀ j k, w'.bound j k = if j = i ∧ k = h then none else w.bound j k)
  | revoked (i : ι) (hop : op = .revoke i) (hm : w.made op = none)
      (he : ∀ j, w'.current j = if j = i then w.current i + 1 else w.current j)
      (hb : ∀ j k, w'.bound j k = w.bound j k)

theorem step_transfer (w : World ι) {op : Op ι} {t : Transfer ι} (h : op.transfer = some t) :
    w.step op = { w with space := (w.transferIn t).2 } := by
  cases op <;> cases h <;> rfl

theorem made_transfer (w : World ι) {op : Op ι} {t : Transfer ι} (h : op.transfer = some t) :
    w.made op =
      if (w.transferIn t).1.ok then some (t.dst, (w.transferIn t).1.handle) else none := by
  cases op <;> cases h <;> rfl

/-- A transfer fails and leaves the store as it was, or deposits the narrowed form of the
    capability its source handle is bound to; a checked one found that capability in its
    space's current epoch and with the Grant right. -/
theorem transferIn_cases {w : World ι} (hw : w.Ok) (t : Transfer ι) :
    w.transferIn t = ({}, w.space) ∨
      ∃ c c', w.bound t.src t.handle = some c ∧ CapOps.narrow c t.narrower = some c' ∧
        (t.checked = true → c.epoch = w.current t.src ∧ c.has CapRight.grant = true) ∧
        w.transferIn t = CapOps.deposit w.space t.src t.dst t.handle c' t.take := by
  unfold transferIn
  by_cases hc : t.checked = true
  · rw [if_pos hc]
    rcases CapOps.grant_cases w.space t.src t.dst (w.epoch t.src) t.handle t.narrower t.take with
      h | ⟨c, c', hr, hn, h⟩
    · exact Or.inl h
    · obtain ⟨hb, he, hg⟩ := (CapOps.resolve_eq_some (hw t.src) _ _ _ _).mp hr
      exact Or.inr ⟨c, c', hb, hn, fun _ => ⟨he, hg⟩, h⟩
  · rw [if_neg hc, t.keeps (by simpa using hc)]
    rcases CapOps.duplicate_cases w.space t.src t.dst t.handle t.narrower with
      h | ⟨c, c', hr, hn, h⟩
    · exact Or.inl h
    · rw [CapabilitySpace.lookup_eq (hw t.src)] at hr
      exact Or.inr ⟨c, c', hr, hn, fun h => absurd h hc, h⟩

theorem bound_mint {w : World ι} (hw : w.Ok) (i : ι) (oid : BitVec 64) (r : CapRight)
    (g : BitVec 64) : (w.step (.mint i oid r g)).Ok ∧
      Outcome w (.mint i oid r g) (w.step (.mint i oid r g)) := by
  have hok := (CapabilitySpace.insert_spec (hw i)
    (Capability.mint oid r ((w.current i).setWidth 64) g)).1
  have hins := CapOps.binding_update_insert hw i
    (Capability.mint oid r ((w.current i).setWidth 64) g)
  refine ⟨CapOps.ok_update hw i hok, ?_⟩
  by_cases h0 : (w.mintIn i oid r g).1 = kInvalidHandle
  · have hsame := (if_pos h0).mp hins
    exact .idle (by simp only [made, if_pos h0]) rfl fun j k => congrFun (hsame j) k
  · have hnew := (if_neg h0).mp hins
    exact .minted i (w.mintIn i oid r g).1 oid r g rfl (by simp only [made, if_neg h0]) hnew.1 rfl
      hnew.2

theorem bound_transfer {w : World ι} (hw : w.Ok) {op : Op ι} {t : Transfer ι}
    (h : op.transfer = some t) : (w.step op).Ok ∧ Outcome w op (w.step op) := by
  rw [step_transfer w h]
  have hm := made_transfer w h
  rcases transferIn_cases hw t with hi | ⟨c, c', hsrc, hn, hchk, hd⟩
  · rw [hi] at hm ⊢
    exact ⟨hw, .idle (by simpa using hm) rfl fun _ _ => rfl⟩
  · obtain ⟨hok, hfail | ⟨h', hres, hfree, hb⟩⟩ := CapOps.deposit_spec hw t.src t.dst
      (h := t.handle) (by unfold bound at hsrc; rw [hsrc]; exact Option.some_ne_none c)
      c' t.take
    · rw [hd] at hm ⊢
      refine ⟨hok, .idle (by rw [hm, hfail.1]; rfl) rfl fun j k => ?_⟩
      exact congrFun (hfail.2 j) k
    · rw [hd] at hm ⊢
      rw [hres] at hm
      exact ⟨hok, .copied t h' c c' h (by simpa using hm) hsrc hn hchk hfree rfl hb⟩

/-- Every step keeps the spaces well formed and has one of the outcomes. -/
theorem step_outcome {w : World ι} (hw : w.Ok) (op : Op ι) :
    (w.step op).Ok ∧ Outcome w op (w.step op) := by
  cases op with
  | mint i oid r g => exact bound_mint hw i oid r g
  | grant src dst h n take => exact bound_transfer hw rfl
  | move src dst h n => exact bound_transfer hw rfl
  | duplicate src dst h n => exact bound_transfer hw rfl
  | erase i h =>
    exact ⟨CapOps.ok_update hw i (CapabilitySpace.ok_erase (hw i) h),
      .erased i h rfl rfl rfl (CapOps.binding_update_erase hw i h)⟩
  | revoke i =>
    refine ⟨hw, .revoked i rfl rfl (fun j => ?_) fun _ _ => rfl⟩
    show (Function.update w.epoch i (CapOps.revoke (w.space i) (w.epoch i)) j).current = _
    rw [Function.update_apply]
    split <;> rfl

/-- Every binding after a step was there before it, or is the one the step made. -/
theorem bound_step {w : World ι} (hw : w.Ok) (op : Op ι) {i : ι} {h : Handle} {c : Capability}
    (hb : (w.step op).bound i h = some c) :
    w.bound i h = some c ∨ w.made op = some (i, h) := by
  obtain ⟨-, ho⟩ := step_outcome hw op
  cases ho with
  | idle hm he hb' => exact Or.inl (hb' i h ▸ hb)
  | minted j h' oid r g hop hm hfree he hb' =>
    rw [hb'] at hb
    split at hb
    · rename_i hp
      obtain ⟨rfl, rfl⟩ := hp
      exact Or.inr hm
    · exact Or.inl hb
  | copied t h' c₀ c' hop hm hsrc hn hchk hfree he hb' =>
    rw [hb'] at hb
    split at hb
    · rename_i hp
      obtain ⟨rfl, rfl⟩ := hp
      exact Or.inr hm
    · split at hb
      · cases hb
      · exact Or.inl hb
  | erased j h' hop hm he hb' =>
    rw [hb'] at hb
    split at hb
    · cases hb
    · exact Or.inl hb
  | revoked j hop hm he hb' => exact Or.inl (hb' i h ▸ hb)

/-- The handle a step makes was unbound; it is bound to a fresh mint or to the narrowed form
    of the capability a transfer read. -/
theorem bound_made {w : World ι} (hw : w.Ok) {op : Op ι} {i : ι} {h : Handle}
    (hm : w.made op = some (i, h)) :
    w.bound i h = none ∧
      ((∃ oid r g, op = .mint i oid r g ∧
          (w.step op).bound i h = some (Capability.mint oid r ((w.current i).setWidth 64) g)) ∨
        ∃ t c c', op.transfer = some t ∧ t.dst = i ∧ w.bound t.src t.handle = some c ∧
          CapOps.narrow c t.narrower = some c' ∧ (w.step op).bound i h = some c') := by
  obtain ⟨-, ho⟩ := step_outcome hw op
  cases ho with
  | idle hn => rw [hn] at hm; cases hm
  | minted j k oid r g hop hmade hfree he hb =>
    rw [hmade] at hm
    cases hm
    exact ⟨hfree, Or.inl ⟨oid, r, g, hop, by rw [hb, if_pos ⟨rfl, rfl⟩]⟩⟩
  | copied t k c c' hop hmade hsrc hn hchk hfree he hb =>
    rw [hmade] at hm
    cases hm
    exact ⟨hfree, Or.inr ⟨t, c, c', hop, rfl, hsrc, hn, by rw [hb, if_pos ⟨rfl, rfl⟩]⟩⟩
  | erased j k hop hn => rw [hn] at hm; cases hm
  | revoked j hop hn => rw [hn] at hm; cases hm

/-- Only a `revoke` moves an epoch, by one. -/
theorem current_step {w : World ι} (hw : w.Ok) (op : Op ι) (i : ι) :
    (w.step op).current i = w.current i ∨
      (op = .revoke i ∧ (w.step op).current i = w.current i + 1) := by
  obtain ⟨-, ho⟩ := step_outcome hw op
  have hsame : (w.step op).epoch = w.epoch → (w.step op).current i = w.current i := by
    intro he
    unfold current
    rw [he]
  cases ho with
  | idle hm he hb => exact Or.inl (hsame he)
  | minted j h oid r g hop hm hfree he hb => exact Or.inl (hsame he)
  | copied t h' c c' hop hm hsrc hn hchk hfree he hb => exact Or.inl (hsame he)
  | erased j h hop hm he hb => exact Or.inl (hsame he)
  | revoked j hop hm he hb =>
    rw [he]
    split
    · rename_i hj
      subst hj
      exact Or.inr ⟨hop, rfl⟩
    · exact Or.inl rfl

theorem current_revoke (w : World ι) (i : ι) :
    (w.step (.revoke i)).current i = w.current i + 1 := by
  show (Function.update w.epoch i (CapOps.revoke (w.space i) (w.epoch i)) i).current = _
  rw [Function.update_self]
  rfl

theorem after_ok (ops : List (Op ι)) : (after ops).Ok :=
  run_invariant start_ok (fun _ op hw => (step_outcome hw op).1) ops

/-! ## Handle counters -/

/-- While the counter of the target space has not wrapped and its value is unbound, a step
    binds the counter's value or nothing, and only the target's counter moves. -/
theorem step_next {w : World ι} (hw : w.Ok) (op : Op ι)
    (h0 : ∀ j, op.target = some j → w.next j ≠ kInvalidHandle ∧ w.bound j (w.next j) = none) :
    ((w.made op = none ∧ ∀ j, (w.step op).next j = w.next j) ∨
      ∃ i, op.target = some i ∧ w.made op = some (i, w.next i) ∧
        ∀ j, (w.step op).next j = if j = i then w.next i + 1 else w.next j) := by
  have htr : ∀ t : Transfer ι, op.transfer = some t → op.target = some t.dst →
      ((w.made op = none ∧ ∀ j, (w.step op).next j = w.next j) ∨
        ∃ i, op.target = some i ∧ w.made op = some (i, w.next i) ∧
          ∀ j, (w.step op).next j = if j = i then w.next i + 1 else w.next j) := by
    intro t ht hdst
    obtain ⟨hne, hfree⟩ := h0 t.dst hdst
    have hm := made_transfer w ht
    rw [step_transfer w ht]
    rcases transferIn_cases hw t with hi | ⟨c, c', -, -, -, hd⟩
    · rw [hi] at hm ⊢
      exact Or.inl ⟨by simpa using hm, fun _ => rfl⟩
    · obtain ⟨hres, hnx⟩ := CapOps.deposit_fresh t.src t.dst t.handle c' t.take hne hfree
      rw [hd] at hm ⊢
      rw [hres] at hm
      exact Or.inr ⟨t.dst, hdst, by rw [hm]; rfl, hnx⟩
  cases op with
  | mint i oid r g =>
    obtain ⟨hne, hfree⟩ := h0 i rfl
    obtain ⟨h1, -⟩ := CapabilitySpace.insert_fresh
      (Capability.mint oid r ((w.current i).setWidth 64) g) hne hfree
    have h1' : (w.mintIn i oid r g).1 = w.next i := h1
    exact Or.inr ⟨i, rfl, by simp only [made, h1', if_neg hne],
      CapOps.nextHandle_update_insert i _ hne hfree⟩
  | grant src dst h n take => exact htr _ rfl rfl
  | move src dst h n => exact htr _ rfl rfl
  | duplicate src dst h n => exact htr _ rfl rfl
  | erase i h => exact Or.inl ⟨rfl, CapOps.nextHandle_update_erase i h⟩
  | revoke i => exact Or.inl ⟨rfl, fun _ => rfl⟩

end World

end NeuroVerse.Sec
