/-
  Two clusters that receive the same calls but have different callbacks installed.

  A callback only watches, so that the two should have the same members. `Alike` is all that the
  calls read of a cluster beside its callbacks; every call keeps it except one. `mark` counts a
  move to alive in the member's incarnation only on the branch that calls `on_revive`, so that a
  cluster without the callback falls behind one that has it. The tables stay equal exactly along
  the runs without such a call (`observers_silent_iff`).
-/
import NeuroVerse.Fabric.Calls

namespace NeuroVerse.Fabric

open Lib

/-- A call that two clusters receive. The callbacks that `start` installs may differ. -/
inductive TwinCall where
  | same (o : Call)
  | start (cb cb' : Callbacks) (initialPeers : List (Member × Nat))

namespace TwinCall

def left : TwinCall → Call
  | .same o => o
  | .start cb _ initialPeers => .start cb initialPeers

def right : TwinCall → Call
  | .same o => o
  | .start _ cb' initialPeers => .start cb' initialPeers

end TwinCall

namespace Member

/-- What of a member the two tables are compared by. -/
def view (m : Member) : NodeId × Status × BitVec 64 := (m.id, m.status, m.incarnation)

def asAlive (m : Member) : Member := { m with status := .alive }

end Member

namespace HostCluster

def table (c : HostCluster) : List (NodeId × Status × BitVec 64) := c.members.map Member.view

/-- Two clusters side by side. -/
abbrev Twins := HostCluster × HostCluster

def twinStep (s : Twins) (o : TwinCall) : Twins := (s.1.apply o.left, s.2.apply o.right)

/-- `mark` brings a member back to alive only where both clusters have `on_revive` installed, or
    neither has. -/
def EvenRevive (s : Twins) : TwinCall → Prop
  | .same (.transit (.mark id .alive)) =>
    (∃ m, s.1.peers.lookup id = some m ∧ m.status ≠ .alive) →
      s.1.cb.onRevive = s.2.cb.onRevive
  | _ => True

/-- The two clusters agree on everything that a call reads but the callbacks. -/
structure Alike (c c' : HostCluster) : Prop where
  peers : c.peers = c'.peers
  /-- `stop` writes the status of the local node, and only where `on_leave` is installed. -/
  self : c.self.asAlive = c'.self.asAlive
  running : c.running = c'.running
  pingTimeout : c.pingTimeout = c'.pingTimeout
  nowOffset : c.nowOffset = c'.nowOffset

theorem Alike.self_id {c c' : HostCluster} (h : Alike c c') : c.self.id = c'.self.id := by
  have hid : c.self.asAlive.id = c'.self.asAlive.id := congrArg Member.id h.self
  exact hid

theorem Alike.table {c c' : HostCluster} (h : Alike c c') : c.table = c'.table := by
  unfold HostCluster.table members
  rw [h.peers]

/-! ## The calls keep the clusters alike -/

section

variable {c c' : HostCluster}

/-- The call leaves alone what a cluster has beside its table and its callbacks. -/
def Keeps (c d : HostCluster) : Prop :=
  d.self = c.self ∧ d.running = c.running ∧ d.pingTimeout = c.pingTimeout ∧
    d.nowOffset = c.nowOffset

theorem Alike.of_keeps {d d' : HostCluster} (h : Alike c c') (hd : Keeps c d) (hd' : Keeps c' d')
    (hpeers : d.peers = d'.peers) : Alike d d' := by
  obtain ⟨h1, h2, h3, h4⟩ := hd
  obtain ⟨h1', h2', h3', h4'⟩ := hd'
  constructor
  · exact hpeers
  · rw [h1, h1', h.self]
  · rw [h2, h2', h.running]
  · rw [h3, h3', h.pingTimeout]
  · rw [h4, h4', h.nowOffset]

/-- A loop whose turns keep the clusters alike does so as well. -/
theorem foldl_alike {α : Type*} {f : HostCluster → α → HostCluster}
    (hf : ∀ (c c' : HostCluster) (a : α), Alike c c' → Alike (f c a) (f c' a)) (xs : List α)
    (h : Alike c c') : Alike (xs.foldl f c) (xs.foldl f c') := by
  induction xs generalizing c c' with
  | nil => exact h
  | cons a xs ih => exact ih (hf c c' a h)

theorem setLocal_alike (h : Alike c c') (id : NodeId) (addr : String) (now : Nat) :
    Alike (c.setLocal id addr now) (c'.setLocal id addr now) := by
  have hself : (c.setLocal id addr now).self = (c'.setLocal id addr now).self :=
    congrArg (fun m : Member => { m with id := localId id, addr := addr, lastSeen := now }) h.self
  refine ⟨?_, congrArg _ hself, h.running, h.pingTimeout, h.nowOffset⟩
  show c.peers.insert _ (c.setLocal id addr now).self =
    c'.peers.insert _ (c'.setLocal id addr now).self
  rw [hself, h.peers]

theorem startPeer_alike (h : Alike c c') (p : Member) (now : Nat) :
    Alike (c.startPeer p now) (c'.startPeer p now) := by
  have hframe : ∀ d : HostCluster, p.id ≠ d.self.id →
      Keeps d (d.startPeer p now) ∧
        (d.startPeer p now).peers = d.peers.insert p.id { p with lastSeen := now } := by
    intro d hne
    unfold startPeer call
    rw [if_neg hne]
    dsimp only
    split <;> exact ⟨⟨rfl, rfl, rfl, rfl⟩, rfl⟩
  by_cases hself : p.id = c.self.id
  · have hkept : c.startPeer p now = c := if_pos hself
    have hkept' : c'.startPeer p now = c' := if_pos (hself.trans h.self_id)
    rw [hkept, hkept']
    exact h
  · obtain ⟨hkeeps, hpeers⟩ := hframe c hself
    obtain ⟨hkeeps', hpeers'⟩ := hframe c' fun heq => hself (heq.trans h.self_id.symm)
    refine h.of_keeps hkeeps hkeeps' ?_
    rw [hpeers, hpeers', h.peers]

theorem start_alike (h : Alike c c') (cb cb' : Callbacks) (ps : List (Member × Nat)) :
    Alike (c.start cb ps) (c'.start cb' ps) :=
  foldl_alike (fun _ _ p hc => startPeer_alike hc p.1 p.2) ps
    ⟨h.peers, h.self, rfl, h.pingTimeout, h.nowOffset⟩

theorem stop_alike (h : Alike c c') : Alike c.stop c'.stop := by
  have hframe : ∀ d : HostCluster, d.stop.self.asAlive = d.self.asAlive ∧
      d.stop.running = false ∧ d.stop.pingTimeout = d.pingTimeout ∧
      d.stop.nowOffset = d.nowOffset := by
    intro d
    unfold stop call
    split <;> exact ⟨rfl, rfl, rfl, rfl⟩
  obtain ⟨h2, h3, h4, h5⟩ := hframe c
  obtain ⟨h2', h3', h4', h5'⟩ := hframe c'
  constructor
  · rw [stop_peers, stop_peers, h.peers]
  · rw [h2, h2', h.self]
  · rw [h3, h3']
  · rw [h4, h4', h.pingTimeout]
  · rw [h5, h5', h.nowOffset]

theorem revise_alike (h : Alike c c') (id : NodeId) (m m' : Member) :
    Alike (c.revise id m m') (c'.revise id m m') := by
  obtain ⟨hpeers, hself, -, hkept⟩ := revise_frame c id m m'
  obtain ⟨hpeers', hself', -, hkept'⟩ := revise_frame c' id m m'
  refine h.of_keeps ⟨hself, hkept⟩ ⟨hself', hkept'⟩ ?_
  rw [hpeers, hpeers', h.peers]

theorem ping_alike (h : Alike c c') (id : NodeId) (now : Nat) :
    Alike (c.ping id now).2 (c'.ping id now).2 := by
  cases hm : c.peers.lookup id with
  | none =>
    rw [ping_absent hm, ping_absent (h.peers ▸ hm)]
    exact h
  | some m =>
    rw [ping_present hm, ping_present (h.peers ▸ hm)]
    exact revise_alike h id m _

theorem mark_alike (h : Alike c c') (id : NodeId) (s : Status)
    (heven : s = .alive → (∃ m, c.peers.lookup id = some m ∧ m.status ≠ .alive) →
      c.cb.onRevive = c'.cb.onRevive) : Alike (c.mark id s) (c'.mark id s) := by
  cases hm : c.peers.lookup id with
  | none =>
    rw [mark_absent hm, mark_absent (h.peers ▸ hm)]
    exact h
  | some m =>
    by_cases hs : m.status = s
    · rw [mark_same hm hs, mark_same (h.peers ▸ hm) hs]
      exact h
    · have hmarked : m.marked s c.cb.onRevive = m.marked s c'.cb.onRevive := by
        by_cases halive : s = .alive
        · rw [heven halive ⟨m, hm, halive ▸ hs⟩]
        · unfold Member.marked
          rw [if_neg hs, if_neg hs, if_neg fun hr => halive hr.1, if_neg fun hr => halive hr.1]
      rw [mark_present hm hs, mark_present (h.peers ▸ hm) hs, hmarked]
      exact revise_alike h id m _

theorem applyTransition_peers (c : HostCluster) (t : NodeId × Status) :
    (c.applyTransition t).peers =
      match c.peers.lookup t.1 with
      | none => c.peers
      | some m =>
        if m.status = t.2 then c.peers else c.peers.insert t.1 { m with status := t.2 } := by
  unfold applyTransition
  cases c.peers.lookup t.1 with
  | none => rfl
  | some m =>
    dsimp only
    split
    · rfl
    · split
      · exact call_peers _ _ _ _
      · split
        · exact call_peers _ _ _ _
        · rfl

theorem applyTransition_alike (h : Alike c c') (t : NodeId × Status) :
    Alike (c.applyTransition t) (c'.applyTransition t) := by
  obtain ⟨hself, -, hkept⟩ := applyTransition_frame c t
  obtain ⟨hself', -, hkept'⟩ := applyTransition_frame c' t
  refine h.of_keeps ⟨hself, hkept⟩ ⟨hself', hkept'⟩ ?_
  rw [applyTransition_peers, applyTransition_peers, h.peers]

theorem transitions_alike (h : Alike c c') (now : NodeId → Nat) :
    c.transitions now = c'.transitions now := by
  unfold transitions transition elapsed
  rw [h.peers, h.self_id, h.pingTimeout, h.nowOffset]

theorem advance_alike (h : Alike c c') (dt : Int) (now : NodeId → Nat) :
    Alike (c.advance dt now) (c'.advance dt now) := by
  have hoffset : Alike (c.offsetBy dt) (c'.offsetBy dt) :=
    ⟨h.peers, h.self, h.running, h.pingTimeout, congrArg (fun n => rep (n + dt)) h.nowOffset⟩
  rw [advance_eq, advance_eq, h.running, transitions_alike hoffset]
  split
  · exact foldl_alike (fun _ _ t hc => applyTransition_alike hc t) _ hoffset
  · exact h

end

theorem twinStep_alike {s : Twins} {o : TwinCall} (h : Alike s.1 s.2) (ho : EvenRevive s o) :
    Alike (twinStep s o).1 (twinStep s o).2 := by
  cases o with
  | start cb cb' ps => exact start_alike h cb cb' ps
  | same o =>
    cases o with
    | configure probeInterval pingTimeout => exact ⟨h.peers, h.self, h.running, rfl, h.nowOffset⟩
    | setLocal id addr now => exact setLocal_alike h id addr now
    | start cb ps => exact start_alike h cb cb ps
    | stop => exact stop_alike h
    | transit t =>
      cases t with
      | ping id now => exact ping_alike h id now
      | mark id status =>
        refine mark_alike h id status fun halive hm => ?_
        subst halive
        exact ho hm
      | advance dt now => exact advance_alike h dt now

/-! ## The call that does not -/

/-- Two members of the same id in equal tables have the same incarnation. -/
theorem incarnation_of_table {c c' : HostCluster} (h' : c'.Keyed)
    (htable : c.table.Perm c'.table) {id : NodeId} {m m' : Member}
    (hm : c.peers.lookup id = some m) (hm' : c'.peers.lookup id = some m') (hid : m.id = id) :
    m.incarnation = m'.incarnation := by
  have hview : m.view ∈ c'.table :=
    htable.mem_iff.mp (List.mem_map_of_mem (members_of_lookup hm))
  obtain ⟨n, hn, heq⟩ := List.mem_map.mp hview
  have hnid : n.id = m.id := congrArg Prod.fst heq
  have hlookup := mem_members h' hn
  rw [hnid, hid, hm'] at hlookup
  rw [Option.some.inj hlookup]
  exact (congrArg (fun v => v.2.2) heq).symm

theorem even_of_table {s : Twins} {o : TwinCall} (h : Alike s.1 s.2) (hk : s.1.Keyed)
    (hk' : s.2.Keyed) (htable : (twinStep s o).1.table.Perm (twinStep s o).2.table) :
    EvenRevive s o := by
  unfold EvenRevive
  split
  · next id =>
    intro hdown
    obtain ⟨m, hm, hne⟩ := hdown
    have hm' : s.2.peers.lookup id = some m := h.peers ▸ hm
    have hmarked : ∀ (c : HostCluster), c.peers.lookup id = some m →
        (c.mark id .alive).peers.lookup id = some (m.marked .alive c.cb.onRevive) := by
      intro c hc
      rw [mark_present hc hne, lookup_revise, if_pos rfl]
    have hid : (m.marked .alive s.1.cb.onRevive).id = id := (m.marked_id _ _).trans (hk id m hm)
    have hinc := incarnation_of_table (transit_keyed hk' (.mark id .alive)) htable
      (hmarked s.1 hm) (hmarked s.2 hm') hid
    -- the incarnation went up by one in the cluster that calls `on_revive`
    have hup : m.incarnation + 1 ≠ m.incarnation := by bv_omega
    unfold Member.marked at hinc
    rw [if_neg hne, if_neg hne] at hinc
    cases hb : s.1.cb.onRevive <;> cases hb' : s.2.cb.onRevive
    · rfl
    · rw [hb, hb'] at hinc
      exact absurd hinc.symm hup
    · rw [hb, hb'] at hinc
      exact absurd hinc hup
    · rfl
  · trivial

/-- The tables of two clusters that receive the same calls are equal after every call exactly
    when no `mark` brings a member back to alive while only one of them has `on_revive`
    installed. -/
theorem observers_silent_iff (ops : List TwinCall) :
    (∀ pre, pre <+: ops → (run twinStep ({}, {}) pre).1.table.Perm
      (run twinStep ({}, {}) pre).2.table) ↔
    StepsMeet twinStep EvenRevive ({}, {}) ops := by
  have hkeyed : ∀ pre, (run twinStep ({}, {}) pre).1.Keyed ∧ (run twinStep ({}, {}) pre).2.Keyed :=
    run_invariant (I := fun s : Twins => s.1.Keyed ∧ s.2.Keyed) ⟨empty_keyed, empty_keyed⟩
      fun s o h => ⟨apply_keyed s.1 o.left h.1, apply_keyed s.2 o.right h.2⟩
  refine prefixes_iff (List.Perm.refl _) fun pre o _ _ hmeet => ?_
  have halike : Alike (run twinStep ({}, {}) pre).1 (run twinStep ({}, {}) pre).2 :=
    run_invariant_of_meet (I := fun s : Twins => Alike s.1 s.2) ⟨rfl, rfl, rfl, rfl, rfl⟩
      (fun _ _ h ho => twinStep_alike h ho) hmeet
  rw [run_snoc]
  constructor
  · exact even_of_table halike (hkeyed pre).1 (hkeyed pre).2
  · intro ho
    rw [(twinStep_alike halike ho).table]

/-- An operator marks a dead peer alive, which one cluster watches. -/
theorem observer_bumps_incarnation :
    ¬ ∀ ops pre, pre <+: ops → (run twinStep ({}, {}) pre).1.table.Perm
      (run twinStep ({}, {}) pre).2.table := by
  intro h
  have htable := h _ [.same (.setLocal 1 "" 0), .start { onRevive := true } {} [({ id := 2 }, 0)],
    .same (.transit (.mark 2 .dead)), .same (.transit (.mark 2 .alive))] (List.prefix_refl _)
  revert htable
  decide

end HostCluster

end NeuroVerse.Fabric
