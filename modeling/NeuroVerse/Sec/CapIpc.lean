/-
  Capabilities sent over IPC: any number of capability spaces, and endpoint pairs between the
  processes that use them, under one interleaved sequence of calls.

  A process that passes a capability on grants it into the receiver's space and sends the new
  handle in a message; the receiver resolves the handle in its own space. The message carries a
  number, and nothing in the queues looks at it. That it still means the granted capability when
  it arrives, whatever was done in between, rests on the handles: a handle is bound exactly since
  it was made and until it is erased or taken (`bound_iff_since`), and while no handle counter has
  wrapped it is made once (`makes_unique`). `after_passes` puts this together with what the queues
  keep of the messages and what the receives give of them.
-/
import NeuroVerse.Ipc.Message
import NeuroVerse.Lib.Since
import NeuroVerse.Sec.Revocation
import Mathlib.Data.List.ReduceOption

namespace NeuroVerse.Sec

open NeuroVerse.Core NeuroVerse.Lib NeuroVerse.Ipc

namespace World

variable {ι : Type*} [DecidableEq ι] {ops : List (Op ι)} {i : ι} {h : Handle} {c : Capability}

/-- The operation erases the handle, or takes its capability away. -/
def Drops (w : World ι) (op : Op ι) (i : ι) (h : Handle) : Prop :=
  op = .erase i h ∨ ∃ t, op.transfer = some t ∧ t.take = true ∧ t.src = i ∧ t.handle = h ∧
    w.made op ≠ none

/-- The step binds the handle, to the capability. -/
def Makes (i : ι) (h : Handle) (c : Capability) (pre : List (Op ι)) (op : Op ι) : Prop :=
  (after pre).made op = some (i, h) ∧ ((after pre).step op).bound i h = some c

def Keeps (i : ι) (h : Handle) (pre : List (Op ι)) (op : Op ι) : Prop :=
  ¬ (after pre).Drops op i h

/-- The step is a transfer out of one space that binds the handle in another, to what the mask
    leaves of the capability that it found. -/
def Grants (src dst : ι) (h : Handle) (c : Capability) (pre : List (Op ι)) (op : Op ι) : Prop :=
  ∃ t c₀, op.transfer = some t ∧ t.src = src ∧ t.dst = dst ∧
    (after pre).made op = some (dst, h) ∧ (after pre).bound src t.handle = some c₀ ∧
    CapOps.narrow c₀ t.narrower = some c

/-! ## One handle along a run -/

/-- A step that does not make the handle leaves it as it was, or unbound if the step drops it. -/
theorem bound_other {w : World ι} (hw : w.Ok) {op : Op ι} (hm : w.made op ≠ some (i, h)) :
    (¬ w.Drops op i h → (w.step op).bound i h = w.bound i h) ∧
      (w.Drops op i h → (w.step op).bound i h = none) := by
  obtain ⟨-, ho⟩ := step_outcome hw op
  have hnone : w.made op = none → w.Drops op i h → op = .erase i h := by
    intro hn hd
    rcases hd with rfl | ⟨t, -, -, -, -, hmade⟩
    · rfl
    · exact absurd hn hmade
  cases ho with
  | idle hn he hb =>
    refine ⟨fun _ => hb i h, fun hd => ?_⟩
    obtain rfl := hnone hn hd
    exact (CapOps.binding_update_erase hw i h i h).trans (if_pos ⟨rfl, rfl⟩)
  | minted j k oid r g hop hmade hfree he hb =>
    have hne : ¬ (i = j ∧ h = k) := by
      rintro ⟨rfl, rfl⟩
      exact hm hmade
    refine ⟨fun _ => (hb i h).trans (if_neg hne), fun hd => ?_⟩
    rcases hd with he | ⟨t, ht, -⟩
    · rw [hop] at he
      cases he
    · rw [hop] at ht
      cases ht
  | copied t k c c' hop hmade hsrc hn hchk hfree he hb =>
    have hne : ¬ (i = t.dst ∧ h = k) := by
      rintro ⟨rfl, rfl⟩
      exact hm hmade
    rw [hb, if_neg hne]
    constructor
    · intro hkeep
      refine if_neg fun htake => hkeep (Or.inr ?_)
      exact ⟨t, hop, htake.1, htake.2.1.symm, htake.2.2.symm,
        by rw [hmade]; exact Option.some_ne_none _⟩
    · intro hd
      rcases hd with he | ⟨t', ht, htake, hi, hh, -⟩
      · rw [he] at hop
        cases hop
      · obtain rfl := Option.some.inj (hop.symm.trans ht)
        exact if_pos ⟨htake, hi.symm, hh.symm⟩
  | erased j k hop hn he hb =>
    rw [hb]
    constructor
    · intro hkeep
      refine if_neg fun hjk => hkeep (Or.inl ?_)
      rw [hop, hjk.1, hjk.2]
    · intro hd
      obtain he := hop.symm.trans (hnone hn hd)
      cases he
      exact if_pos ⟨rfl, rfl⟩
  | revoked j hop hn he hb =>
    refine ⟨fun _ => hb i h, fun hd => ?_⟩
    have he := hop.symm.trans (hnone hn hd)
    cases he

/-- A handle is bound to a capability exactly when a step made it so, and no step has dropped it
    since. -/
theorem bound_iff_since (ops : List (Op ι)) (i : ι) (h : Handle) (c : Capability) :
    (after ops).bound i h = some c ↔ Since (Makes i h c) (Keeps i h) ops := by
  induction ops using List.reverseRecOn generalizing c with
  | nil =>
    refine ⟨fun hb => ?_, fun hs => absurd hs not_since_nil⟩
    rw [show (after ([] : List (Op ι))).bound i h = none from start_bound i h] at hb
    cases hb
  | append_singleton pre op ih =>
    have hw := after_ok pre
    rw [since_snoc, ← ih, after, run_snoc]
    by_cases hm : (after pre).made op = some (i, h)
    · have hfree := (bound_made hw hm).1
      constructor
      · intro hb
        exact Or.inl ⟨hm, hb⟩
      · intro hs
        rcases hs with ⟨-, hb⟩ | ⟨hb, -⟩
        · exact hb
        · rw [hfree] at hb
          cases hb
    · obtain ⟨hkeep, hdrop⟩ := bound_other hw hm
      constructor
      · intro hb
        by_cases hd : (after pre).Drops op i h
        · cases (hdrop hd).symm.trans hb
        · exact Or.inr ⟨(hkeep hd).symm.trans hb, hd⟩
      · intro hs
        rcases hs with ⟨hmade, -⟩ | ⟨hb, hd⟩
        · exact absurd hmade hm
        · exact (hkeep hd).trans hb

theorem below_of_once (hc : CountersFresh ops) (h1 : Once (Makes i h c) ops) :
    (after ops).Below i h := by
  induction ops using List.reverseRecOn with
  | nil => exact absurd h1 not_once_nil
  | append_singleton pre op ih =>
    have hpre := hc.restrict (List.prefix_append pre [op])
    obtain ⟨hkeep, hmade⟩ := step_below (after_ok pre) (after_fresh hpre) (StepsMeet.last hc)
    rw [after, run_snoc]
    rcases once_snoc.mp h1 with h1 | ⟨hm, -⟩
    · exact hkeep i h (ih hpre h1)
    · exact (hmade i h hm).2

/-- While no counter has wrapped, a handle is made once. -/
theorem makes_unique {c' : Capability} (hc : CountersFresh ops) (h1 : Once (Makes i h c) ops)
    (h2 : Once (Makes i h c') ops) : c = c' := by
  induction ops using List.reverseRecOn with
  | nil => exact absurd h1 not_once_nil
  | append_singleton pre op ih =>
    have hpre := hc.restrict (List.prefix_append pre [op])
    have hnew : (after pre).made op = some (i, h) → ¬ (after pre).Below i h := fun hm =>
      ((step_below (after_ok pre) (after_fresh hpre) (StepsMeet.last hc)).2 i h hm).1
    rcases once_snoc.mp h1 with h1 | ⟨hm1, hb1⟩
    · rcases once_snoc.mp h2 with h2 | ⟨hm2, -⟩
      · exact ih hpre h1 h2
      · exact absurd (below_of_once hpre h1) (hnew hm2)
    · rcases once_snoc.mp h2 with h2 | ⟨-, hb2⟩
      · exact absurd (below_of_once hpre h2) (hnew hm1)
      · exact Option.some.inj (hb1.symm.trans hb2)

theorem Grants.makes {src : ι} {pre : List (Op ι)} {op : Op ι} (hg : Grants src i h c pre op) :
    Makes i h c pre op := by
  obtain ⟨t, c₀, hop, rfl, -, hm, hb, hn⟩ := hg
  refine ⟨hm, ?_⟩
  obtain ⟨-, ⟨oid, r, g, rfl, -⟩ | ⟨t', c₁, c', hop', -, hb', hn', hbound⟩⟩ :=
    bound_made (after_ok pre) hm
  · cases hop
  · obtain rfl := Option.some.inj (hop.symm.trans hop')
    obtain rfl := Option.some.inj (hb.symm.trans hb')
    rw [hbound, ← hn', hn]

end World

/-! ## Spaces and endpoint pairs -/

/-- The spaces, and the endpoint pairs by name. -/
structure CapIpc (ι π ρ κ : Type*) where
  world : World ι := World.start
  pair : π → EndpointPair ρ κ Message

namespace CapIpc

variable {ι π ρ κ : Type*}

inductive Call (ι π ρ κ : Type*) where
  | cap (op : Op ι)
  | ipc (p : π) (a : EndpointPair.Action ρ κ Message)

/-- The capability operation of a call. -/
def Call.op : Call ι π ρ κ → Option (Op ι)
  | .cap op => some op
  | .ipc _ _ => none

def capOps (calls : List (Call ι π ρ κ)) : List (Op ι) := calls.filterMap Call.op

/-- The call starts a send on a side of a pair. -/
def Call.Sends (call : Call ι π ρ κ) (p : π) (d : EndpointPair.Side) (m : Message) : Prop :=
  ∃ a, call = .ipc p a ∧ EndpointPair.Offers a d m

theorem capOps_prefix {pre calls : List (Call ι π ρ κ)} (h : pre <+: calls) :
    capOps pre <+: capOps calls := by
  obtain ⟨rest, rfl⟩ := h
  rw [capOps, capOps, List.filterMap_append]
  exact List.prefix_append _ _

variable [DecidableEq ι] [DecidableEq π] [DecidableEq ρ] [DecidableEq κ]

def step (s : CapIpc ι π ρ κ) : Call ι π ρ κ → CapIpc ι π ρ κ
  | .cap op => { s with world := s.world.step op }
  | .ipc p a => { s with pair := Function.update s.pair p ((s.pair p).step a) }

/-- What the call gives a receiver on a pair, of what a side of the pair sends. -/
def given (s : CapIpc ι π ρ κ) (p : π) (d : EndpointPair.Side) : Call ι π ρ κ → Option Message
  | .cap _ => none
  | .ipc p' a => if p = p' then (s.pair p).received d a else none

/-- The spaces and the pairs after a run, each pair with queues of its capacity. -/
def after (capacity : π → Nat) (calls : List (Call ι π ρ κ)) : CapIpc ι π ρ κ :=
  run step { pair := fun p => .new (capacity p) } calls

/-- A handle is sent only after a capability was granted under it from the space of the process
    that sends to the space of the process that receives. -/
def Granting (holder : π → EndpointPair.Side → ι) (calls : List (Call ι π ρ κ)) : Prop :=
  Always (fun pre call => ∀ p d m, call.Sends p d m → ∀ ref, m.cap = some ref →
    ∃ c, Once (World.Grants (holder p d) (holder p d.peer) ref.handle c) (capOps pre)) calls

variable {capacity : π → Nat} {calls : List (Call ι π ρ κ)}

theorem after_world (capacity : π → Nat) (calls : List (Call ι π ρ κ)) :
    (after capacity calls).world = World.after (capOps calls) := by
  induction calls using List.reverseRecOn with
  | nil => rfl
  | append_singleton calls call ih =>
    rw [after, run_snoc, capOps, List.filterMap_append]
    cases call with
    | cap op =>
      show (after capacity calls).world.step op = World.after (capOps calls ++ [op])
      rw [ih, World.after, World.after, run_snoc]
    | ipc p a =>
      show (after capacity calls).world = World.after (capOps calls ++ [])
      rw [ih, List.append_nil]

/-- What a side of a pair has sent was brought to it by a send on that side. -/
theorem after_sent (capacity : π → Nat) (calls : List (Call ι π ρ κ)) (p : π) :
    ((after capacity calls).pair p).Carries fun d m =>
      Once (fun _ call => call.Sends p d m) calls := by
  induction calls using List.reverseRecOn with
  | nil => exact EndpointPair.carries_new _ _
  | append_singleton calls call ih =>
    have hold := ih.imp fun d m hm => (once_snoc (o := call)).mpr (Or.inl hm)
    rw [after, run_snoc]
    cases call with
    | cap op => exact hold
    | ipc p' a =>
      by_cases hp : p = p'
      · subst hp
        simp only [step, Function.update_self]
        exact EndpointPair.step_carries hold fun d m ha => once_snoc.mpr (Or.inr ⟨a, rfl, ha⟩)
      · simp only [step, Function.update_of_ne hp]
        exact hold

/-- What the receives of a run give their callers of what a side of a pair sends, in order. -/
def received (capacity : π → Nat) (calls : List (Call ι π ρ κ)) (p : π) (d : EndpointPair.Side) :
    List Message :=
  (results (fun s call => (s.given p d call, s.step call))
    ({ pair := fun p => .new (capacity p) } : CapIpc ι π ρ κ) calls).reduceOption

theorem received_snoc (capacity : π → Nat) (calls : List (Call ι π ρ κ)) (call : Call ι π ρ κ)
    (p : π) (d : EndpointPair.Side) :
    received capacity (calls ++ [call]) p d =
      received capacity calls p d ++ ((after capacity calls).given p d call).toList := by
  rw [received, results_snoc, List.reduceOption_append, List.reduceOption_singleton]
  rfl

/-- What came out of a queue is what the receives gave, and with what the queue holds it is what
    the queue accepted. -/
theorem after_order (capacity : π → Nat) (calls : List (Call ι π ρ κ)) (p : π)
    (d : EndpointPair.Side) :
    let x := ((after capacity calls).pair p).sendQueue d
    x.removed = received capacity calls p d ∧ x.accepted = x.removed ++ x.q := by
  induction calls using List.reverseRecOn with
  | nil => cases d <;> exact ⟨rfl, rfl⟩
  | append_singleton calls call ih =>
    obtain ⟨hremoved, horder⟩ := ih
    rw [received_snoc, ← hremoved, after, run_snoc]
    cases call with
    | cap op => exact ⟨(List.append_nil _).symm, horder⟩
    | ipc p' a =>
      by_cases hp : p = p'
      · subst hp
        simp only [step, given, Function.update_self, if_true]
        exact ⟨EndpointPair.step_removed _ a d, EndpointPair.step_order horder⟩
      · simp only [step, given, Function.update_of_ne hp, if_neg hp]
        exact ⟨(List.append_nil _).symm, horder⟩

/-- In every run in which handles are sent only once they are granted, and no handle counter
    wraps: the receives of a side give what the other side has sent, in order; and a handle that
    they have given stands for the one capability that was granted under it. It resolves to that
    capability, in the receiver's space, exactly as long as it is not erased there or its
    capability taken on, the space stands at the capability's epoch, and the mask has left the
    rights asked for. -/
theorem after_passes (holder : π → EndpointPair.Side → ι) (capacity : π → Nat)
    (calls : List (Call ι π ρ κ)) (hfresh : World.CountersFresh (capOps calls))
    (hgrant : Granting holder calls) (p : π) (d : EndpointPair.Side) :
    let s := after capacity calls
    let x := (s.pair p).sendQueue d
    let receiver := holder p d.peer
    x.removed = received capacity calls p d ∧ x.accepted = x.removed ++ x.q ∧
    ∀ m ∈ x.removed, ∀ ref, m.cap = some ref →
      ∃ c, Once (World.Grants (holder p d) receiver ref.handle c) (capOps calls) ∧
        ∀ r y, s.world.resolve receiver ref.handle r = some y ↔
          y = c ∧ Since (World.Makes receiver ref.handle c) (World.Keeps receiver ref.handle)
            (capOps calls) ∧ c.epoch = s.world.current receiver ∧ c.has r = true := by
  intro s x receiver
  obtain ⟨hremoved, horder⟩ := after_order capacity calls p d
  refine ⟨hremoved, horder, fun m hm ref href => ?_⟩
  have hacc : m ∈ x.accepted := horder ▸ List.mem_append_left x.q hm
  obtain ⟨pre, call, hp, hsend⟩ := (after_sent capacity calls p).accepted d m hacc
  obtain ⟨c, hpre⟩ := hgrant pre call hp p d m hsend ref href
  have hgrow : capOps pre <+: capOps calls :=
    capOps_prefix ((List.prefix_append pre [call]).trans hp)
  obtain ⟨before, op, hop, hg⟩ := hpre
  have honce : Once (World.Grants (holder p d) receiver ref.handle c) (capOps calls) :=
    ⟨before, op, hop.trans hgrow, hg⟩
  have hmade : Once (World.Makes receiver ref.handle c) (capOps calls) :=
    ⟨before, op, hop.trans hgrow, hg.makes⟩
  refine ⟨c, honce, fun r y => ?_⟩
  have hworld : s.world = World.after (capOps calls) := after_world capacity calls
  rw [hworld, World.resolve_eq_some (World.after_ok _), World.bound_iff_since]
  constructor
  · intro h
    obtain ⟨hs, he, hr⟩ := h
    have hy : y = c := by
      obtain ⟨before', op', hop', hmakes, -⟩ := hs
      exact World.makes_unique hfresh ⟨before', op', hop', hmakes⟩ hmade
    subst hy
    exact ⟨rfl, hs, he, hr⟩
  · rintro ⟨rfl, hs, he, hr⟩
    exact ⟨hs, he, hr⟩

/-- A capability is granted with its right to be read, sent and received. -/
def handedOver : List (Call Bool Unit Unit Unit) :=
  [.cap (.mint false 42 (CapRight.read ||| CapRight.grant) 1),
    .cap (.grant false true 1 CapRight.read true),
    .ipc () (.sendNowait .a (.withCap ⟨10, 1⟩ ⟨1⟩)), .ipc () (.tryRecvFor .b)]

def ends (_ : Unit) : EndpointPair.Side → Bool
  | .a => false
  | .b => true

theorem handedOver_granting : Granting ends handedOver := by
  intro pre call hp p d m hsend ref href
  obtain ⟨a, rfl, ha⟩ := hsend
  obtain ⟨rest, hrest⟩ := hp
  -- the only call that sends is the third
  rcases pre with _ | ⟨c1, _ | ⟨c2, _ | ⟨c3, _ | ⟨c4, pre⟩⟩⟩⟩ <;> simp [handedOver] at hrest
  · obtain ⟨rfl, rfl, ⟨-, rfl⟩, -⟩ := hrest
    cases p
    cases ha
    cases href
    refine ⟨⟨42, CapRight.read, 0, 1⟩, [.mint false 42 (CapRight.read ||| CapRight.grant) 1],
      .grant false true 1 CapRight.read true, List.prefix_refl _, ?_⟩
    exact ⟨_, ⟨42, CapRight.read ||| CapRight.grant, 0, 1⟩, rfl, rfl, rfl, by decide, by decide,
      by decide⟩
  · obtain ⟨-, -, -, ⟨-, rfl⟩, -⟩ := hrest
    cases ha

theorem after_passes_handedOver :
    received (fun _ => 1) handedOver () .a = [.withCap ⟨10, 1⟩ ⟨1⟩] ∧
    ∃ c, Once (World.Grants false true 1 c) (capOps handedOver) ∧
      ∀ r y, (after (fun _ => 1) handedOver).world.resolve true 1 r = some y ↔
        y = c ∧ Since (World.Makes true 1 c) (World.Keeps true 1) (capOps handedOver) ∧
          c.epoch = (after (fun _ => 1) handedOver).world.current true ∧ c.has r = true := by
  have h := after_passes ends (fun _ => 1) handedOver (by decide) handedOver_granting () .a
  have hgave : received (fun _ => 1) handedOver () .a = [.withCap ⟨10, 1⟩ ⟨1⟩] := by decide
  refine ⟨hgave, h.2.2 (.withCap ⟨10, 1⟩ ⟨1⟩) ?_ ⟨1⟩ rfl⟩
  rw [h.1, hgave]
  exact List.mem_singleton_self _

end CapIpc

end NeuroVerse.Sec
