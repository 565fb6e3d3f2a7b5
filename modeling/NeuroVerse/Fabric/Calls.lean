/-
  The calls on a cluster, and what each does to the record of one member.

  `ping`, `mark` and `advance` change the records that are there and add none: after such a call a
  member's record is a function of its record before (`lookup_transit`). `local` and `start` enter
  records, `start` none for the local node.
-/
import NeuroVerse.Lib.Run
import NeuroVerse.Fabric.Membership

namespace NeuroVerse.Fabric

open Lib

/-- The calls that change a member's status. -/
inductive Transition where
  | ping (id : NodeId) (now : Nat)
  | mark (id : NodeId) (s : Status)
  /-- The check of the peer `id` reads the clock as `now id`. -/
  | advance (dt : Int) (now : NodeId → Nat)

/-- Every peer that `start` is given comes with the reading of the clock at its turn. -/
inductive Call where
  | configure (probeInterval pingTimeout : Int)
  | setLocal (id : NodeId) (addr : String) (now : Nat)
  | start (cb : Callbacks) (initialPeers : List (Member × Nat))
  | stop
  | transit (t : Transition)

/-- The id that `local` gives the node. -/
def localId (id : NodeId) : NodeId := if id = 0 then 1 else id

theorem localId_ne_zero (id : NodeId) : localId id ≠ 0 := by
  unfold localId
  split
  · decide
  · assumption

namespace HostCluster

def start (c : HostCluster) (cb : Callbacks) (initialPeers : List (Member × Nat)) : HostCluster :=
  initialPeers.foldl (fun c p => c.startPeer p.1 p.2) (c.begin cb)

/-- The members, in no fixed order. -/
def members (c : HostCluster) : List Member := c.peers.entries.map Sigma.snd

def transit (c : HostCluster) : Transition → HostCluster
  | .ping id now => (c.ping id now).2
  | .mark id s => c.mark id s
  | .advance dt now => c.advance dt now

def apply (c : HostCluster) : Call → HostCluster
  | .configure probeInterval pingTimeout => c.configure probeInterval pingTimeout
  | .setLocal id addr now => c.setLocal id addr now
  | .start cb initialPeers => c.start cb initialPeers
  | .stop => c.stop
  | .transit t => c.transit t

end HostCluster

/-! ## One member's record -/

namespace Member

/-- The record after a ping. -/
def pinged (m : Member) (now : Nat) : Member :=
  if m.status = .suspect ∨ m.status = .dead then
    { m with lastSeen := now, status := .alive, incarnation := m.incarnation + 1 }
  else { m with lastSeen := now }

/-- The record after `mark`, with `on_revive` installed or not. -/
def marked (m : Member) (s : Status) (onRevive : Bool) : Member :=
  if m.status = s then m
  else if s = .alive ∧ onRevive then
    { m with status := s, incarnation := m.incarnation + 1 }
  else { m with status := s }

/-- The record after `advance`, which has chosen a new status or none. -/
def moved (m : Member) : Option Status → Member
  | some target => { m with status := target }
  | none => m

theorem pinged_id (m : Member) (now : Nat) : (m.pinged now).id = m.id := by
  unfold pinged
  split <;> rfl

theorem marked_id (m : Member) (s : Status) (b : Bool) : (m.marked s b).id = m.id := by
  unfold marked
  split
  · rfl
  · split <;> rfl

theorem marked_status (m : Member) (s : Status) (b : Bool) : (m.marked s b).status = s := by
  unfold marked
  split
  · assumption
  · split <;> rfl

theorem moved_id (m : Member) (target : Option Status) : (m.moved target).id = m.id := by
  cases target <;> rfl

end Member

namespace HostCluster

/-- The callback for a new status. -/
def announce (c : HostCluster) (m : Member) : HostCluster :=
  match m.status with
  | .alive => c.call c.cb.onRevive .onRevive m
  | .suspect => c.call c.cb.onSuspect .onSuspect m
  | .dead => c.call c.cb.onLeave .onLeave m
  | _ => c

/-- The record `m` of a peer becomes `m'`, and a change of status is announced. -/
def revise (c : HostCluster) (id : NodeId) (m m' : Member) : HostCluster :=
  if m'.status = m.status then c.setPeer id m' else (c.setPeer id m').announce m'

section

variable (c : HostCluster) (id : NodeId) (m m' : Member)

theorem announce_frame : (c.announce m).peers = c.peers ∧ (c.announce m).self = c.self ∧
    (c.announce m).cb = c.cb ∧ (c.announce m).running = c.running ∧
    (c.announce m).pingTimeout = c.pingTimeout ∧ (c.announce m).nowOffset = c.nowOffset := by
  unfold announce call
  split <;> (try split) <;> exact ⟨rfl, rfl, rfl, rfl, rfl, rfl⟩

theorem revise_frame : (c.revise id m m').peers = c.peers.insert id m' ∧
    (c.revise id m m').self = c.self ∧ (c.revise id m m').cb = c.cb ∧
    (c.revise id m m').running = c.running ∧ (c.revise id m m').pingTimeout = c.pingTimeout ∧
    (c.revise id m m').nowOffset = c.nowOffset := by
  unfold revise
  split
  · exact ⟨rfl, rfl, rfl, rfl, rfl, rfl⟩
  · exact announce_frame (c.setPeer id m') m'

theorem lookup_revise (id' : NodeId) :
    (c.revise id m m').peers.lookup id' = if id' = id then some m' else c.peers.lookup id' := by
  rw [(revise_frame c id m m').1]
  by_cases h : id' = id
  · rw [if_pos h, h, AList.lookup_insert]
  · rw [if_neg h, AList.lookup_insert_ne h]

end

section

variable {c : HostCluster} {id : NodeId} {m : Member}

theorem ping_absent (h : c.peers.lookup id = none) (now : Nat) : c.ping id now = (false, c) := by
  unfold ping
  rw [h]

theorem ping_present (h : c.peers.lookup id = some m) (now : Nat) :
    c.ping id now = (true, c.revise id m (m.pinged now)) := by
  unfold ping revise Member.pinged
  rw [h]
  dsimp only
  by_cases hdown : m.status = .suspect ∨ m.status = .dead
  · have hne : Status.alive ≠ m.status := by
      intro heq
      rw [← heq] at hdown
      rcases hdown with hdown | hdown <;> cases hdown
    rw [if_pos hdown, if_pos hdown, if_neg hne]
    rfl
  · rw [if_neg hdown, if_neg hdown, if_pos rfl]

theorem mark_absent (h : c.peers.lookup id = none) (s : Status) : c.mark id s = c := by
  unfold mark
  rw [h]

theorem mark_same (h : c.peers.lookup id = some m) {s : Status} (hs : m.status = s) :
    c.mark id s = c := by
  unfold mark
  rw [h]
  exact if_pos hs

theorem mark_present (h : c.peers.lookup id = some m) {s : Status} (hs : m.status ≠ s) :
    c.mark id s = c.revise id m (m.marked s c.cb.onRevive) := by
  have hstatus : (m.marked s c.cb.onRevive).status ≠ m.status := by
    rw [Member.marked_status]
    exact Ne.symm hs
  unfold revise
  rw [if_neg hstatus]
  unfold mark announce Member.marked
  rw [h]
  simp only [if_neg hs]
  cases s with
  | alive => cases hcb : c.cb.onRevive <;> simp [setPeer, call, hcb]
  | suspect => cases hcb : c.cb.onSuspect <;> simp [setPeer, call, hcb]
  | dead => cases hcb : c.cb.onLeave <;> simp [setPeer, call, hcb]
  | leaving | left => simp

theorem applyTransition_absent {t : NodeId × Status} (h : c.peers.lookup t.1 = none) :
    c.applyTransition t = c := by
  unfold applyTransition
  rw [h]

theorem applyTransition_present {t : NodeId × Status} (h : c.peers.lookup t.1 = some m)
    (hs : m.status ≠ t.2) (ht : t.2 = .suspect ∨ t.2 = .dead) :
    c.applyTransition t = c.revise t.1 m (m.moved (some t.2)) := by
  have hstatus : (m.moved (some t.2)).status ≠ m.status := Ne.symm hs
  unfold revise
  rw [if_neg hstatus]
  unfold applyTransition announce Member.moved
  rw [h]
  simp only [if_neg hs]
  rcases ht with ht | ht
  · rw [ht]
    cases hcb : c.cb.onSuspect <;> simp [setPeer, call, hcb]
  · rw [ht]
    cases hcb : c.cb.onLeave <;> simp [setPeer, call, hcb]

end

/-! ## The second pass of `advance` -/

/-- What the first pass can choose: a new status, suspect or dead. -/
theorem transition_target {c : HostCluster} {id : NodeId} {m : Member} {now : Nat}
    {target : Status} (h : c.transition id m now = some target) :
    m.status ≠ target ∧ (target = .suspect ∨ target = .dead) := by
  obtain ⟨-, -, hmove⟩ := (transition_iff c id m now target).mp h
  rcases hmove with ⟨hm, rfl⟩ | ⟨hm, rfl⟩ <;> rw [hm] <;> simp

theorem lookup_passed (ts : List (NodeId × Status)) {c : HostCluster} {id : NodeId}
    (h : ∀ target, (id, target) ∉ ts) :
    (ts.foldl applyTransition c).peers.lookup id = c.peers.lookup id := by
  induction ts generalizing c with
  | nil => rfl
  | cons t ts ih =>
    have hid : id ≠ t.1 := fun heq => h t.2 (heq ▸ List.mem_cons_self)
    rw [List.foldl_cons, ih fun target hmem => h target (List.mem_cons_of_mem t hmem),
      lookup_applyTransition_ne c hid]

/-- A peer that one transition is chosen for gets this status. -/
theorem lookup_chosen {ts : List (NodeId × Status)} (hnodup : (ts.map Prod.fst).Nodup)
    {c : HostCluster} {id : NodeId} {target : Status} (hmem : (id, target) ∈ ts) {m : Member}
    (h : c.peers.lookup id = some m) :
    (ts.foldl applyTransition c).peers.lookup id = some (m.moved (some target)) := by
  induction ts generalizing c with
  | nil => cases hmem
  | cons t ts ih =>
    obtain ⟨hnotin, hnodup⟩ := List.nodup_cons.mp hnodup
    rw [List.foldl_cons]
    rcases List.mem_cons.mp hmem with rfl | hmem
    · rw [lookup_passed ts fun target' hlater => hnotin (List.mem_map.mpr ⟨_, hlater, rfl⟩),
        lookup_applyTransition_self c (t := (id, target)) h]
      rfl
    · have hid : id ≠ t.1 := fun heq => hnotin (heq ▸ List.mem_map_of_mem hmem)
      exact ih hnodup hmem ((lookup_applyTransition_ne c hid).trans h)

theorem applyTransition_frame (c : HostCluster) (t : NodeId × Status) :
    (c.applyTransition t).self = c.self ∧ (c.applyTransition t).cb = c.cb ∧
      (c.applyTransition t).running = c.running ∧
      (c.applyTransition t).pingTimeout = c.pingTimeout ∧
      (c.applyTransition t).nowOffset = c.nowOffset := by
  unfold applyTransition
  split
  · exact ⟨rfl, rfl, rfl, rfl, rfl⟩
  · dsimp only
    split
    · exact ⟨rfl, rfl, rfl, rfl, rfl⟩
    · split
      · exact ⟨rfl, rfl, rfl, rfl, rfl⟩
      · split <;> exact ⟨rfl, rfl, rfl, rfl, rfl⟩

theorem applyTransitions_frame (ts : List (NodeId × Status)) (c : HostCluster) :
    (ts.foldl applyTransition c).self = c.self ∧ (ts.foldl applyTransition c).cb = c.cb ∧
      (ts.foldl applyTransition c).running = c.running ∧
      (ts.foldl applyTransition c).pingTimeout = c.pingTimeout ∧
      (ts.foldl applyTransition c).nowOffset = c.nowOffset := by
  induction ts generalizing c with
  | nil => exact ⟨rfl, rfl, rfl, rfl, rfl⟩
  | cons t ts ih =>
    obtain ⟨hself, hcb, hrun, htime, hoff⟩ := applyTransition_frame c t
    obtain ⟨hself', hcb', hrun', htime', hoff'⟩ := ih (c.applyTransition t)
    rw [List.foldl_cons]
    exact ⟨hself'.trans hself, hcb'.trans hcb, hrun'.trans hrun, htime'.trans htime,
      hoff'.trans hoff⟩

/-! ## The table after a call -/

/-- The record of the member `id` after a call that changes statuses. -/
def transitMember (c : HostCluster) (t : Transition) (id : NodeId) (m : Member) : Member :=
  match t with
  | .ping id' now => if id = id' then m.pinged now else m
  | .mark id' s => if id = id' then m.marked s c.cb.onRevive else m
  | .advance dt now =>
    if c.running then m.moved ((c.offsetBy dt).transition id m (now id)) else m

section

variable {c : HostCluster} {k : NodeId} {f : Member → Member}

theorem lookup_revised {m : Member} (hm : c.peers.lookup k = some m) (id : NodeId) :
    (c.revise k m (f m)).peers.lookup id =
      (c.peers.lookup id).map fun n => if id = k then f n else n := by
  rw [lookup_revise]
  by_cases hid : id = k
  · rw [if_pos hid, hid, hm, Option.map_some, if_pos rfl]
  · simp [hid]

theorem lookup_unrevised (h : ∀ m, c.peers.lookup k = some m → f m = m) (id : NodeId) :
    c.peers.lookup id = (c.peers.lookup id).map fun n => if id = k then f n else n := by
  cases hn : c.peers.lookup id with
  | none => rfl
  | some n =>
    rw [Option.map_some]
    split
    · next hid => rw [h n (hid ▸ hn)]
    · rfl

end

theorem lookup_ping (c : HostCluster) (k : NodeId) (now : Nat) (id : NodeId) :
    (c.ping k now).2.peers.lookup id =
      (c.peers.lookup id).map fun n => if id = k then n.pinged now else n := by
  cases hm : c.peers.lookup k with
  | none =>
    rw [ping_absent hm]
    exact lookup_unrevised (fun m hm' => by rw [hm] at hm'; cases hm') id
  | some m =>
    rw [ping_present hm]
    exact lookup_revised (f := fun n => n.pinged now) hm id

theorem lookup_mark (c : HostCluster) (k : NodeId) (s : Status) (id : NodeId) :
    (c.mark k s).peers.lookup id =
      (c.peers.lookup id).map fun n => if id = k then n.marked s c.cb.onRevive else n := by
  cases hm : c.peers.lookup k with
  | none =>
    rw [mark_absent hm]
    exact lookup_unrevised (fun m hm' => by rw [hm] at hm'; cases hm') id
  | some m =>
    by_cases hs : m.status = s
    · rw [mark_same hm hs]
      refine lookup_unrevised (fun n hn => ?_) id
      obtain rfl := Option.some.inj (hm.symm.trans hn)
      exact if_pos hs
    · rw [mark_present hm hs]
      exact lookup_revised (f := fun n => n.marked s c.cb.onRevive) hm id

theorem lookup_advance (c : HostCluster) (dt : Int) (now : NodeId → Nat) (id : NodeId) :
    (c.advance dt now).peers.lookup id = (c.peers.lookup id).map fun m =>
      if c.running then m.moved ((c.offsetBy dt).transition id m (now id)) else m := by
  rw [advance_eq]
  split
  · cases hm : c.peers.lookup id with
    | none => exact lookup_applyTransitions_none _ (c := c.offsetBy dt) hm
    | some m =>
      rw [Option.map_some]
      cases htarget : (c.offsetBy dt).transition id m (now id) with
      | some target =>
        exact lookup_chosen (nodup_transitions _ now) (c := c.offsetBy dt)
          (mem_transitions (c := c.offsetBy dt).mpr ⟨m, hm, htarget⟩) hm
      | none =>
        refine (lookup_passed _ (c := c.offsetBy dt) fun target hmem => ?_).trans hm
        obtain ⟨n, hn, hchosen⟩ := mem_transitions.mp hmem
        obtain rfl := Option.some.inj (hm.symm.trans hn)
        rw [htarget] at hchosen
        cases hchosen
  · exact (Option.map_id_apply).symm

theorem lookup_transit (c : HostCluster) (t : Transition) (id : NodeId) :
    (c.transit t).peers.lookup id = (c.peers.lookup id).map (c.transitMember t id) := by
  cases t with
  | ping k now => exact lookup_ping c k now id
  | mark k s => exact lookup_mark c k s id
  | advance dt now => exact lookup_advance c dt now id

theorem transit_frame (c : HostCluster) (t : Transition) :
    (c.transit t).self = c.self ∧ (c.transit t).cb = c.cb ∧ (c.transit t).running = c.running ∧
      (c.transit t).pingTimeout = c.pingTimeout := by
  cases t with
  | ping id now =>
    unfold transit
    dsimp only
    cases hm : c.peers.lookup id with
    | none =>
      rw [ping_absent hm]
      exact ⟨rfl, rfl, rfl, rfl⟩
    | some m =>
      rw [ping_present hm]
      obtain ⟨-, hself, hcb, hrun, htime, -⟩ := revise_frame c id m (m.pinged now)
      exact ⟨hself, hcb, hrun, htime⟩
  | mark id s =>
    unfold transit
    dsimp only
    cases hm : c.peers.lookup id with
    | none =>
      rw [mark_absent hm]
      exact ⟨rfl, rfl, rfl, rfl⟩
    | some m =>
      by_cases hs : m.status = s
      · rw [mark_same hm hs]
        exact ⟨rfl, rfl, rfl, rfl⟩
      · rw [mark_present hm hs]
        obtain ⟨-, hself, hcb, hrun, htime, -⟩ :=
          revise_frame c id m (m.marked s c.cb.onRevive)
        exact ⟨hself, hcb, hrun, htime⟩
  | advance dt now =>
    unfold transit
    dsimp only
    rw [advance_eq]
    split
    · obtain ⟨hself, hcb, hrun, htime, -⟩ :=
        applyTransitions_frame ((c.offsetBy dt).transitions now) (c.offsetBy dt)
      exact ⟨hself, hcb, hrun, htime⟩
    · exact ⟨rfl, rfl, rfl, rfl⟩

/-- Every record stands under its own id. -/
def Keyed (c : HostCluster) : Prop := ∀ id m, c.peers.lookup id = some m → m.id = id

theorem transitMember_id (c : HostCluster) (t : Transition) (id : NodeId) (m : Member) :
    (c.transitMember t id m).id = m.id := by
  unfold transitMember
  cases t with
  | ping k now =>
    dsimp only
    split
    · exact m.pinged_id now
    · rfl
  | mark k s =>
    dsimp only
    split
    · exact m.marked_id s _
    · rfl
  | advance dt now =>
    dsimp only
    split
    · exact m.moved_id _
    · rfl

theorem transit_keyed {c : HostCluster} (h : c.Keyed) (t : Transition) : (c.transit t).Keyed := by
  intro id m hm
  rw [lookup_transit] at hm
  obtain ⟨n, hn, rfl⟩ := Option.map_eq_some_iff.mp hm
  rw [transitMember_id]
  exact h id n hn

theorem mem_members {c : HostCluster} (h : c.Keyed) {m : Member} (hm : m ∈ c.members) :
    c.peers.lookup m.id = some m := by
  obtain ⟨⟨id, n⟩, hmem, rfl⟩ := List.mem_map.mp hm
  have hlookup : c.peers.lookup id = some n := AList.mem_lookup_iff.mpr hmem
  rw [h id n hlookup]
  exact hlookup

theorem members_of_lookup {c : HostCluster} {id : NodeId} {m : Member}
    (h : c.peers.lookup id = some m) : m ∈ c.members :=
  List.mem_map.mpr ⟨⟨id, m⟩, AList.mem_lookup_iff.mp h, rfl⟩

/-! ## `local`, `start` and `stop` -/

theorem lookup_setLocal (c : HostCluster) (id : NodeId) (addr : String) (now : Nat)
    (id' : NodeId) : (c.setLocal id addr now).peers.lookup id' =
      if id' = localId id then some (c.setLocal id addr now).self else c.peers.lookup id' := by
  by_cases h : id' = localId id
  · rw [if_pos h, h]
    exact AList.lookup_insert c.peers
  · rw [if_neg h]
    exact AList.lookup_insert_ne h

theorem startPeer_self (c : HostCluster) (p : Member) (now : Nat) :
    (c.startPeer p now).self = c.self := by
  unfold startPeer
  split
  · rfl
  · exact call_self _ _ _ _

theorem startPeer_cb (c : HostCluster) (p : Member) (now : Nat) :
    (c.startPeer p now).cb = c.cb := by
  unfold startPeer call
  split
  · rfl
  · dsimp only
    split <;> rfl

theorem lookup_startPeer (c : HostCluster) (p : Member) (now : Nat) (id : NodeId) :
    (c.startPeer p now).peers.lookup id =
      if id = p.id ∧ p.id ≠ c.self.id then some { p with lastSeen := now }
      else c.peers.lookup id := by
  unfold startPeer
  split
  · next hself => rw [if_neg fun h => h.2 hself]
  · next hself =>
    rw [call_peers]
    by_cases hid : id = p.id
    · rw [if_pos ⟨hid, hself⟩, hid, lookup_setPeer_self]
    · rw [if_neg fun h => hid h.1, lookup_setPeer_ne _ _ hid]

theorem start_self (c : HostCluster) (cb : Callbacks) (peers : List (Member × Nat)) :
    (c.start cb peers).self = c.self := by
  have hturn : ∀ (d : HostCluster) (p : Member × Nat), d.self = c.self →
      (d.startPeer p.1 p.2).self = c.self :=
    fun d p hd => (startPeer_self d p.1 p.2).trans hd
  have hbegin : (c.begin cb).self = c.self := rfl
  exact run_invariant (I := fun d : HostCluster => d.self = c.self) hbegin hturn peers

theorem start_cb (c : HostCluster) (cb : Callbacks) (peers : List (Member × Nat)) :
    (c.start cb peers).cb = cb := by
  have hturn : ∀ (d : HostCluster) (p : Member × Nat), d.cb = cb →
      (d.startPeer p.1 p.2).cb = cb :=
    fun d p hd => (startPeer_cb d p.1 p.2).trans hd
  have hbegin : (c.begin cb).cb = cb := rfl
  exact run_invariant (I := fun d : HostCluster => d.cb = cb) hbegin hturn peers

/-- `start` leaves alone the local node and every id that it does not list. -/
theorem lookup_start_unlisted (c : HostCluster) (cb : Callbacks) (peers : List (Member × Nat))
    {id : NodeId} (h : id = c.self.id ∨ ∀ p ∈ peers, p.1.id ≠ id) :
    (c.start cb peers).peers.lookup id = c.peers.lookup id := by
  have hfold : ∀ (ps : List (Member × Nat)) (c : HostCluster),
      (id = c.self.id ∨ ∀ p ∈ ps, p.1.id ≠ id) →
      (ps.foldl (fun c p => c.startPeer p.1 p.2) c).peers.lookup id = c.peers.lookup id := by
    intro ps
    induction ps with
    | nil => exact fun c _ => rfl
    | cons p ps ih =>
      intro c hc
      rw [List.foldl_cons, ih, lookup_startPeer, if_neg]
      · intro hp
        rcases hc with hself | hne
        · exact hp.2 (hp.1.symm.trans hself)
        · exact hne p List.mem_cons_self hp.1.symm
      · rw [startPeer_self]
        exact hc.imp_right fun hne q hq => hne q (List.mem_cons_of_mem p hq)
  exact hfold peers (c.begin cb) h

theorem stop_peers (c : HostCluster) : c.stop.peers = c.peers := by
  unfold stop
  split
  · exact call_peers _ _ _ _
  · rfl

theorem apply_keyed (c : HostCluster) (o : Call) (h : c.Keyed) : (c.apply o).Keyed := by
  cases o with
  | configure probeInterval pingTimeout => exact h
  | setLocal id addr now =>
    intro id' m hm
    rw [apply, lookup_setLocal] at hm
    split at hm
    · next hid =>
      rw [← Option.some.inj hm, hid]
      rfl
    · exact h id' m hm
  | start cb peers =>
    have hturn : ∀ (d : HostCluster) (p : Member × Nat), d.Keyed →
        (d.startPeer p.1 p.2).Keyed := by
      intro d p hd id m hm
      rw [lookup_startPeer] at hm
      split at hm
      · next hid => rw [← Option.some.inj hm, hid.1]
      · exact hd id m hm
    have hbegin : (c.begin cb).Keyed := h
    exact run_invariant (I := Keyed) hbegin hturn peers
  | stop =>
    intro id m hm
    rw [apply, stop_peers] at hm
    exact h id m hm
  | transit t => exact transit_keyed h t

theorem empty_keyed : Keyed {} := by
  intro id m h
  cases h

theorem run_keyed (ops : List Call) : (run apply {} ops).Keyed :=
  run_invariant empty_keyed apply_keyed ops

end HostCluster

end NeuroVerse.Fabric
