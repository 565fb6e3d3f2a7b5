/-
  The membership state machine and its callbacks.

  Between two calls a member's status moves along few edges, and with all callbacks installed
  each move to suspect, dead or alive is announced by one callback. `Reported` says so of one
  step: the calls made for a member are those that the change of its record asks for. The second
  pass of `advance` applies at most one transition to a member, so that the calls of its turns
  add up to that (`reported_passed`).
-/
import NeuroVerse.Fabric.Calls

namespace NeuroVerse.Fabric

open Lib

def Callbacks.all : Callbacks :=
  { onJoin := true, onLeave := true, onSuspect := true, onRevive := true }

/-- The callback for a member that has come to a status. -/
def Status.hook : Status → Option Hook
  | .alive => some .onRevive
  | .suspect => some .onSuspect
  | .dead => some .onLeave
  | .leaving | .left => none

/-- What is to be called when the record `m` becomes `m'`. -/
def report (m m' : Member) : List (Hook × Member) :=
  if m'.status = m.status then [] else (m'.status.hook.map fun hook => (hook, m')).toList

/-- The calls for one member. -/
def callsFor (id : NodeId) (calls : List (Hook × Member)) : List (Hook × Member) :=
  calls.filter fun call => call.2.id = id

/-- The member has announced its departure. -/
def Member.Departed (m : Member) : Prop := m.status = .leaving ∨ m.status = .left

theorem report_same (m : Member) : report m m = [] := if_pos rfl

theorem mem_report {m m' : Member} {call : Hook × Member} (h : call ∈ report m m') :
    call.2 = m' := by
  unfold report at h
  split at h
  · cases h
  · obtain ⟨hook, -, rfl⟩ := Option.map_eq_some_iff.mp (Option.mem_toList.mp h)
    rfl

theorem callsFor_report (m m' : Member) (id : NodeId) :
    callsFor id (report m m') = if m'.id = id then report m m' else [] := by
  unfold callsFor
  split
  · next hid =>
    refine List.filter_eq_self.mpr fun call hcall => ?_
    rw [mem_report hcall, hid]
    exact decide_eq_true rfl
  · next hid =>
    refine List.filter_eq_nil_iff.mpr fun call hcall => ?_
    rw [mem_report hcall, decide_eq_true_eq]
    exact hid

theorem callsFor_append (id : NodeId) (xs ys : List (Hook × Member)) :
    callsFor id (xs ++ ys) = callsFor id xs ++ callsFor id ys :=
  List.filter_append xs ys

namespace HostCluster

/-- From `c` to `c'` the calls `new` were made, each for a member, and for each member what the
    change of its record asks for. -/
structure Reported (c c' : HostCluster) (new : List (Hook × Member)) : Prop where
  calls : c'.calls = new ++ c.calls
  members : ∀ call ∈ new, c.peers.lookup call.2.id ≠ none
  exact : ∀ id m m', c.peers.lookup id = some m → c'.peers.lookup id = some m' →
    callsFor id new = report m m'

/-- What `ping` and `advance` may do to a member's record. -/
def Legal (c : HostCluster) (id : NodeId) (m m' : Member) : Transition → Prop
  | .ping _ _ =>
    (m'.status = m.status ∨ (m.status = .suspect ∨ m.status = .dead) ∧ m'.status = .alive) ∧
      (m.Departed → m' = { m with lastSeen := m'.lastSeen })
  | .mark _ _ => True
  | .advance _ _ =>
    (m'.status = m.status ∨ m.status = .alive ∧ m'.status = .suspect ∨
      m.status = .suspect ∧ m'.status = .dead) ∧
      (m.Departed → m' = m) ∧ (id = c.self.id → m' = m)

/-! ## One step -/

section

variable {c : HostCluster} {id : NodeId} {m : Member}

theorem reported_self (c : HostCluster) : Reported c c [] where
  calls := rfl
  members := nofun
  exact id m m' hm hm' := by
    obtain rfl := Option.some.inj (hm.symm.trans hm')
    exact (report_same m).symm

theorem announce_calls (hcb : c.cb = .all) (m : Member) :
    (c.announce m).calls = (m.status.hook.map fun hook => (hook, m)).toList ++ c.calls := by
  unfold announce call
  rw [hcb]
  cases m.status <;> rfl

theorem reported_revise (hcb : c.cb = .all) (hkeyed : c.Keyed) (hm : c.peers.lookup id = some m)
    {m' : Member} (hid : m'.id = m.id) : Reported c (c.revise id m m') (report m m') where
  calls := by
    unfold revise report
    split
    · rfl
    · exact announce_calls (c := c.setPeer id m') hcb m'
  members call hcall := by
    rw [mem_report hcall, hid, hkeyed id m hm, hm]
    exact Option.some_ne_none m
  exact k n n' hn hn' := by
    have hkey : m'.id = id := hid.trans (hkeyed id m hm)
    rw [callsFor_report, hkey]
    rw [lookup_revise] at hn'
    by_cases hk : k = id
    · subst hk
      rw [if_pos rfl] at hn' ⊢
      rw [← Option.some.inj hn', Option.some.inj (hn.symm.trans hm)]
    · rw [if_neg hk] at hn'
      rw [if_neg (Ne.symm hk), Option.some.inj (hn'.symm.trans hn), report_same]

/-- Two steps that enter no member, and of which at most one changes each member's record. -/
theorem Reported.trans {c' c'' : HostCluster} {new new' : List (Hook × Member)}
    (h : Reported c c' new) (h' : Reported c' c'' new')
    (hkeys : ∀ id, c.peers.lookup id = none → c'.peers.lookup id = none)
    (hone : ∀ id, c'.peers.lookup id = c.peers.lookup id ∨
      c''.peers.lookup id = c'.peers.lookup id) : Reported c c'' (new' ++ new) where
  calls := by rw [h'.calls, h.calls, List.append_assoc]
  members call hcall := by
    rcases List.mem_append.mp hcall with hcall | hcall
    · exact fun hnone => h'.members call hcall (hkeys _ hnone)
    · exact h.members call hcall
  exact id m m'' hm hm'' := by
    rw [callsFor_append]
    rcases hone id with hsame | hsame
    · have hhere := hsame.trans hm
      rw [h.exact id m m hm hhere, report_same, List.append_nil]
      exact h'.exact id m m'' hhere hm''
    · have hhere := hsame.symm.trans hm''
      rw [h'.exact id m'' m'' hhere hm'', report_same, List.nil_append]
      exact h.exact id m m'' hm hhere

theorem revise_keyed (hkeyed : c.Keyed) {m' : Member} (hid : m'.id = id) :
    (c.revise id m m').Keyed := by
  intro k n hn
  rw [lookup_revise] at hn
  split at hn
  · next hk => rw [← Option.some.inj hn, hid, hk]
  · exact hkeyed k n hn

/-- The second pass of `advance`, for transitions that are chosen once for each member. -/
theorem reported_passed {ts : List (NodeId × Status)} (hnodup : (ts.map Prod.fst).Nodup)
    {c : HostCluster} (hcb : c.cb = .all) (hkeyed : c.Keyed)
    (hts : ∀ t ∈ ts, ∀ m, c.peers.lookup t.1 = some m →
      m.status ≠ t.2 ∧ (t.2 = .suspect ∨ t.2 = .dead)) :
    ∃ new, Reported c (ts.foldl applyTransition c) new := by
  induction ts generalizing c with
  | nil => exact ⟨[], reported_self c⟩
  | cons t ts ih =>
    obtain ⟨hnotin, hnodup⟩ := List.nodup_cons.mp hnodup
    cases hm : c.peers.lookup t.1 with
    | none =>
      rw [List.foldl_cons, applyTransition_absent hm]
      exact ih hnodup hcb hkeyed fun u hu => hts u (List.mem_cons_of_mem t hu)
    | some m =>
      obtain ⟨hne, htarget⟩ := hts t List.mem_cons_self m hm
      have hlater : ∀ u ∈ ts, u.1 ≠ t.1 := by
        intro u hu heq
        exact hnotin (List.mem_map.mpr ⟨u, hu, heq⟩)
      have hid : (m.moved (some t.2)).id = t.1 := (m.moved_id _).trans (hkeyed t.1 m hm)
      obtain ⟨-, -, hcb', -⟩ := revise_frame c t.1 m (m.moved (some t.2))
      rw [List.foldl_cons, applyTransition_present hm hne htarget]
      have hfirst := reported_revise hcb hkeyed hm (m.moved_id (some t.2))
      obtain ⟨new, hrest⟩ := ih hnodup (hcb'.trans hcb) (revise_keyed hkeyed hid)
        fun u hu n hn => by
          rw [lookup_revise, if_neg (hlater u hu)] at hn
          exact hts u (List.mem_cons_of_mem t hu) n hn
      refine ⟨_, hfirst.trans hrest (fun k hnone => ?_) fun k => ?_⟩
      · have hk : k ≠ t.1 := by
          intro heq
          rw [heq, hm] at hnone
          cases hnone
        rw [lookup_revise, if_neg hk, hnone]
      · by_cases hk : k = t.1
        · -- no later transition is for this member
          exact Or.inr (lookup_passed ts fun target hmem => hlater _ hmem hk)
        · exact Or.inl (by rw [lookup_revise, if_neg hk])

theorem reported_transit (hcb : c.cb = .all) (hkeyed : c.Keyed) (t : Transition) :
    ∃ new, Reported c (c.transit t) new := by
  cases t with
  | ping k now =>
    unfold transit
    dsimp only
    cases hm : c.peers.lookup k with
    | none =>
      rw [ping_absent hm]
      exact ⟨[], reported_self c⟩
    | some m =>
      rw [ping_present hm]
      exact ⟨_, reported_revise hcb hkeyed hm (m.pinged_id now)⟩
  | mark k s =>
    unfold transit
    dsimp only
    cases hm : c.peers.lookup k with
    | none =>
      rw [mark_absent hm]
      exact ⟨[], reported_self c⟩
    | some m =>
      by_cases hs : m.status = s
      · rw [mark_same hm hs]
        exact ⟨[], reported_self c⟩
      · rw [mark_present hm hs]
        exact ⟨_, reported_revise hcb hkeyed hm (m.marked_id s _)⟩
  | advance dt now =>
    unfold transit
    dsimp only
    rw [advance_eq]
    split
    · obtain ⟨new, h⟩ := reported_passed (c := c.offsetBy dt) (nodup_transitions _ now) hcb hkeyed
        fun u hu m hm => by
          obtain ⟨n, hn, htarget⟩ := mem_transitions.mp hu
          obtain rfl := Option.some.inj (hm.symm.trans hn)
          exact transition_target htarget
      exact ⟨new, h.calls, h.members, h.exact⟩
    · exact ⟨[], reported_self c⟩

theorem legal_transit (c : HostCluster) (t : Transition) (id : NodeId) (m : Member) :
    c.Legal id m (c.transitMember t id m) t := by
  cases t with
  | ping k now =>
    unfold Legal transitMember
    dsimp only
    split
    · unfold Member.pinged
      split
      · next hdown =>
        refine ⟨Or.inr ⟨hdown, rfl⟩, fun hgone => ?_⟩
        rcases hdown with hdown | hdown <;> rcases hgone with hgone | hgone <;>
          cases hdown.symm.trans hgone
      · exact ⟨Or.inl rfl, fun _ => rfl⟩
    · exact ⟨Or.inl rfl, fun _ => rfl⟩
  | mark k s => trivial
  | advance dt now =>
    unfold Legal transitMember
    dsimp only
    split
    · cases htarget : (c.offsetBy dt).transition id m (now id) with
      | none => exact ⟨Or.inl rfl, fun _ => rfl, fun _ => rfl⟩
      | some target =>
        obtain ⟨hself, -, hmove⟩ := (transition_iff (c.offsetBy dt) id m _ target).mp htarget
        refine ⟨Or.inr hmove, fun hgone => ?_, fun hid => absurd hid hself⟩
        rcases hmove with ⟨hup, -⟩ | ⟨hup, -⟩ <;> rcases hgone with hgone | hgone <;>
          cases hup.symm.trans hgone
    · exact ⟨Or.inl rfl, fun _ => rfl, fun _ => rfl⟩

/-- With `on_revive` installed, the incarnation counts the moves to alive. -/
theorem incarnation_transit (hcb : c.cb.onRevive = true) (t : Transition) (id : NodeId)
    (m : Member) : (c.transitMember t id m).incarnation =
      if m.status ≠ .alive ∧ (c.transitMember t id m).status = .alive then m.incarnation + 1
      else m.incarnation := by
  have hsame : m.incarnation =
      if m.status ≠ .alive ∧ m.status = .alive then m.incarnation + 1 else m.incarnation :=
    (if_neg fun h => h.1 h.2).symm
  cases t with
  | ping k now =>
    unfold transitMember
    dsimp only
    split
    · unfold Member.pinged
      split
      · next hdown =>
        refine (if_pos ⟨fun hup => ?_, rfl⟩).symm
        rw [hup] at hdown
        rcases hdown with hdown | hdown <;> cases hdown
      · exact hsame
    · exact hsame
  | mark k s =>
    unfold transitMember
    dsimp only
    split
    · unfold Member.marked
      split
      · exact hsame
      · next hne =>
        split
        · next hup =>
          obtain ⟨rfl, -⟩ := hup
          exact (if_pos ⟨hne, rfl⟩).symm
        · next hdown => exact (if_neg fun h => hdown ⟨h.2, hcb⟩).symm
    · exact hsame
  | advance dt now =>
    unfold transitMember
    dsimp only
    split
    · cases htarget : (c.offsetBy dt).transition id m (now id) with
      | none => exact hsame
      | some target =>
        obtain ⟨-, hdown⟩ := transition_target htarget
        refine (if_neg fun h => ?_).symm
        have hup : target = .alive := h.2
        rw [hup] at hdown
        rcases hdown with hdown | hdown <;> cases hdown
    · exact hsame

end

/-! ## Runs -/

/-- After any calls and a `start` with all callbacks, each of any `ping`, `mark` and `advance`
    calls moves every member's record legally, leaves the local node's own record, counts the
    moves to alive in the incarnations, and makes the calls that the changes of status ask for. -/
theorem transitions_legal_and_reported (before : List Call) (initialPeers : List (Member × Nat))
    (ts : List Transition) (t : Transition) :
    let c := run transit ((run apply {} before).start .all initialPeers) ts
    (c.transit t).self = c.self ∧
    (∀ id, (c.transit t).peers.lookup id = none ↔ c.peers.lookup id = none) ∧
    (∀ id m m', c.peers.lookup id = some m → (c.transit t).peers.lookup id = some m' →
      c.Legal id m m' t ∧
      m'.incarnation =
        if m.status ≠ .alive ∧ m'.status = .alive then m.incarnation + 1 else m.incarnation) ∧
    ∃ new, Reported c (c.transit t) new := by
  intro c
  have hc : c.cb = .all ∧ c.Keyed := by
    refine run_invariant (I := fun d : HostCluster => d.cb = Callbacks.all ∧ d.Keyed)
      ⟨start_cb _ _ _, ?_⟩ ?_ ts
    · exact apply_keyed _ (.start .all initialPeers) (run_keyed before)
    · intro d u hd
      exact ⟨(transit_frame d u).2.1.trans hd.1, transit_keyed hd.2 u⟩
  obtain ⟨hcb, hkeyed⟩ := hc
  have hrevive : c.cb.onRevive = true := by
    rw [hcb]
    rfl
  refine ⟨(transit_frame c t).1, fun id => ?_, fun id m m' hm hm' => ?_,
    reported_transit hcb hkeyed t⟩
  · rw [lookup_transit, Option.map_eq_none_iff]
  · rw [lookup_transit, hm] at hm'
    obtain rfl := Option.some.inj hm'
    exact ⟨legal_transit c t id m, incarnation_transit hrevive t id m⟩

end HostCluster

end NeuroVerse.Fabric
