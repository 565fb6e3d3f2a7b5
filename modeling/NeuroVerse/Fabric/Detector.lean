/-
  The failure detector of the cluster, over runs in which the clock passes.

  `ping` and `start` set a peer's `lastSeen` but cannot set the offset back, so what `advance`
  reads as silence is the time that passed since the peer was heard of plus the offset that had
  accumulated by then (`silence_le`). The detector is timely along every run in which that offset
  never carries a peer over its deadline, and a doubled timeout that wraps does not lower the
  deadline below the silence (`failure_detector_timely`).
-/
import NeuroVerse.Lib.Run
import NeuroVerse.Fabric.Membership

namespace NeuroVerse.Fabric

open Lib

/-! ## A run of the cluster -/

/-- A moment of a run: the clock, the cluster's offset and the sum of all `advance` calls. -/
structure Moment where
  time : Nat
  offset : Int
  advanced : Nat

/-- The cluster and the clock, with the history that the detector's timing is measured against:
    when each peer was last pinged or listed by `start`, and when each node was last entered by
    `local`. -/
structure Session where
  clock : Nat := 0
  cluster : HostCluster := {}
  advanced : Nat := 0
  heard : NodeId → Option Moment := fun _ => none
  entered : NodeId → Option Moment := fun _ => none

/-- The time that passes before a call reads the clock comes with the call. -/
inductive Op where
  | configure (probeInterval pingTimeout : Int)
  | setLocal (id : NodeId) (addr : String) (wait : Nat)
  | start (cb : Callbacks) (initialPeers : List (Member × Nat))
  | stop
  | ping (id : NodeId) (wait : Nat)
  | mark (id : NodeId) (s : Status)
  /-- The call takes `took`; the peer `id` is checked when `check id` of it have passed. -/
  | advance (dt : Nat) (took : Nat) (check : NodeId → Nat)

namespace Session

def moment (s : Session) : Moment :=
  { time := s.clock, offset := s.cluster.nowOffset, advanced := s.advanced }

def wait (s : Session) (n : Nat) : Session := { s with clock := s.clock + n }

/-- One listed peer. A listing of the local node itself is skipped and lists no peer. -/
def startPeer (s : Session) (p : Member × Nat) : Session :=
  let s := s.wait p.2
  { s with
    cluster := s.cluster.startPeer p.1 s.clock
    heard := if p.1.id = s.cluster.self.id then s.heard
      else Function.update s.heard p.1.id (some s.moment) }

def setLocal (s : Session) (id : NodeId) (addr : String) : Session :=
  let cluster := s.cluster.setLocal id addr s.clock
  { s with
    cluster := cluster
    entered := Function.update s.entered cluster.self.id (some s.moment) }

def ping (s : Session) (id : NodeId) : Session :=
  let r := s.cluster.ping id s.clock
  { s with
    cluster := r.2
    heard := if r.1 then Function.update s.heard id (some s.moment) else s.heard }

/-- The clock's reading at the check of a peer. -/
def reading (s : Session) (took : Nat) (check : NodeId → Nat) (id : NodeId) : Nat :=
  s.clock + min (check id) took

def step (s : Session) : Op → Session
  | .configure probeInterval pingTimeout =>
    { s with cluster := s.cluster.configure probeInterval pingTimeout }
  | .setLocal id addr wait => (s.wait wait).setLocal id addr
  | .start cb initialPeers =>
    initialPeers.foldl startPeer { s with cluster := s.cluster.begin cb }
  | .stop => { s with cluster := s.cluster.stop }
  | .ping id wait => (s.wait wait).ping id
  | .mark id status => { s with cluster := s.cluster.mark id status }
  | .advance dt took check =>
    { s.wait took with
      cluster := s.cluster.advance dt (s.reading took check)
      advanced := s.advanced + dt }

/-- When the peer was last pinged or listed by `start`; for a node that never was, when `local`
    last entered it. -/
def anchor (s : Session) (id : NodeId) : Option Moment := (s.heard id).or (s.entered id)

/-- The combined time, in nanoseconds, from a moment to a check during `advance dt`. -/
def passed (s : Session) (since : Moment) (dt now : Nat) : Int :=
  (now : Int) - since.time + 1000000 * ((s.advanced : Int) + dt - since.advanced)

end Session

open Session

/-- `advance` makes an alive peer suspect, and a suspect peer dead, only when its deadline has
    passed since its anchor. -/
def Timely (s : Session) (o : Op) : Prop :=
  match o with
  | .advance dt took check => ∀ id m m', s.cluster.peers.lookup id = some m →
      (s.step o).cluster.peers.lookup id = some m' →
      (m.status = .alive ∧ m'.status = .suspect ∨ m.status = .suspect ∧ m'.status = .dead) →
      ∃ since, s.anchor id = some since ∧
        deadline s.cluster m.status ≤ s.passed since dt (s.reading took check id)
  | _ => True

/-- A running cluster's `advance` checks the peer, which was last heard of at `since`. -/
structure Checked (s : Session) (id : NodeId) (m : Member) (since : Moment) : Prop where
  running : s.cluster.running = true
  not_self : id ≠ s.cluster.self.id
  lookup : s.cluster.peers.lookup id = some m
  status : m.status = .alive ∨ m.status = .suspect
  anchor : s.anchor id = some since

/-- While the time that passed since a peer was last heard of is short of the peer's deadline,
    that time and the offset accumulated before are short of the limit in 64 bits. -/
def OffsetHarmless (s : Session) (m : Member) (since : Moment) (dt now : Nat) : Prop :=
  s.passed since dt now < deadline s.cluster m.status →
    s.passed since dt now + 1000000 * since.offset < 1000000 * limit s.cluster m.status

def Harmless (s : Session) : Op → Prop
  | .advance dt took check => ∀ id m since, Checked s id m since →
      OffsetHarmless s m since dt (s.reading took check id)
  | _ => True

/-- The cluster last saw the peer when it was last heard of, has counted every `advance` call
    since, and reads a silence that fits in 64 bits. -/
structure SeenAt (s : Session) (m : Member) (since : Moment) (dt now : Nat) : Prop where
  time : m.lastSeen = since.time
  counted : s.cluster.nowOffset - since.offset = s.advanced - since.advanced
  fits : s.passed since dt now + 1000000 * since.offset < 1000000 * 2 ^ 63

/-- `Harmless`, for the peers last seen when they were last heard of. -/
def HarmlessSeen (s : Session) : Op → Prop
  | .advance dt took check => ∀ id m since, Checked s id m since →
      SeenAt s m since dt (s.reading took check id) →
      OffsetHarmless s m since dt (s.reading took check id)
  | _ => True

/-! ## The invariant -/

/-- A moment of the past, since which the cluster counted no more than all `advance` calls. -/
def Past (s : Session) (since : Moment) : Prop :=
  since.time ≤ s.clock ∧ s.cluster.nowOffset - since.offset ≤ s.advanced - since.advanced

/-- Every peer has been heard of, and was last seen no earlier. -/
structure Inv (s : Session) : Prop where
  offset : -2 ^ 63 ≤ s.cluster.nowOffset
  seen : ∀ id m, s.cluster.peers.lookup id = some m →
    m.lastSeen ≤ s.clock ∧ ∃ since, s.anchor id = some since ∧ since.time ≤ m.lastSeen
  past : ∀ id since, s.anchor id = some since → Past s since

theorem past_moment (s : Session) : Past s s.moment :=
  ⟨Nat.le_refl _, Int.le_of_eq (by simp only [moment, Int.sub_self])⟩

theorem start_inv : Inv {} where
  offset := by decide
  seen id m h := by cases h
  past id since h := by cases h

theorem wait_inv {s : Session} (h : Inv s) (n : Nat) : Inv (s.wait n) where
  offset := h.offset
  seen id m hm := by
    obtain ⟨hle, hsince⟩ := h.seen id m hm
    exact ⟨Nat.le_trans hle (Nat.le_add_right _ _), hsince⟩
  past id since hs := by
    obtain ⟨htime, hcount⟩ := h.past id since hs
    exact ⟨Nat.le_trans htime (Nat.le_add_right _ _), hcount⟩

/-- A step that keeps every peer's `lastSeen` and the history, and counts no more than it adds
    to the sum of all `advance` calls. -/
theorem Inv.of_kept {s s' : Session} (h : Inv s) (hclock : s.clock ≤ s'.clock)
    (hanchor : ∀ id, s'.anchor id = s.anchor id) (hoffset : -2 ^ 63 ≤ s'.cluster.nowOffset)
    (hcount : s'.cluster.nowOffset - s.cluster.nowOffset ≤ (s'.advanced : Int) - s.advanced)
    (hpeers : ∀ id m', s'.cluster.peers.lookup id = some m' →
      ∃ m, s.cluster.peers.lookup id = some m ∧ m'.lastSeen = m.lastSeen) : Inv s' where
  offset := hoffset
  seen id m' hm' := by
    obtain ⟨m, hm, hseen⟩ := hpeers id m' hm'
    obtain ⟨hle, since, hs, htime⟩ := h.seen id m hm
    refine ⟨by omega, since, ?_, by omega⟩
    rw [hanchor, hs]
  past id since hs := by
    rw [hanchor] at hs
    obtain ⟨htime, hpast⟩ := h.past id since hs
    exact ⟨by omega, by omega⟩

/-- A step that sees one peer now, and records the moment in its history. -/
theorem Inv.of_seen {s s' : Session} (h : Inv s) (hclock : s'.clock = s.clock)
    (hoffset : s'.cluster.nowOffset = s.cluster.nowOffset) (hadv : s'.advanced = s.advanced)
    (id : NodeId) {m : Member} (hm : s'.cluster.peers.lookup id = some m)
    (hseen : m.lastSeen = s.clock)
    (hid : s'.anchor id = some s.moment ∨ ∃ since, s.anchor id = some since ∧
      s'.anchor id = some since)
    (hpeers : ∀ id', id' ≠ id → s'.cluster.peers.lookup id' = s.cluster.peers.lookup id')
    (hanchor : ∀ id', id' ≠ id → s'.anchor id' = s.anchor id') : Inv s' := by
  have hpast : ∀ since, s'.anchor id = some since → Past s since := by
    intro since hs
    rcases hid with hnew | ⟨old, hold, hkept⟩
    · rw [hnew] at hs
      exact Option.some.inj hs ▸ past_moment s
    · rw [hkept] at hs
      exact Option.some.inj hs ▸ h.past id old hold
  constructor
  · rw [hoffset]
    exact h.offset
  · intro id' m' hm'
    by_cases hne : id' = id
    · subst hne
      rw [hm] at hm'
      obtain rfl := Option.some.inj hm'
      refine ⟨by omega, ?_⟩
      rcases hid with hnew | ⟨old, hold, hkept⟩
      · exact ⟨s.moment, hnew, Nat.le_of_eq hseen.symm⟩
      · have htime := (h.past id' old hold).1
        exact ⟨old, hkept, by omega⟩
    · rw [hpeers id' hne] at hm'
      rw [hanchor id' hne, hclock]
      exact h.seen id' m' hm'
  · intro id' since hs
    have hold : Past s since := by
      by_cases hne : id' = id
      · subst hne
        exact hpast since hs
      · rw [hanchor id' hne] at hs
        exact h.past id' since hs
    unfold Past at hold ⊢
    rw [hclock, hoffset, hadv]
    exact hold

theorem anchor_heard_self (s : Session) (id : NodeId) (since : Moment) :
    ({ s with heard := Function.update s.heard id (some since) } : Session).anchor id =
      some since := by
  unfold anchor
  dsimp only
  rw [Function.update_self, Option.some_or]

theorem anchor_heard_ne (s : Session) {id id' : NodeId} (since : Option Moment) (h : id' ≠ id) :
    ({ s with heard := Function.update s.heard id since } : Session).anchor id' =
      s.anchor id' := by
  unfold anchor
  dsimp only
  rw [Function.update_of_ne h]

theorem startPeer_inv {s : Session} (h : Inv s) (p : Member × Nat) : Inv (s.startPeer p) := by
  have hw := wait_inv h p.2
  by_cases hself : p.1.id = s.cluster.self.id
  · have hkept : s.startPeer p = s.wait p.2 := by
      unfold startPeer HostCluster.startPeer
      dsimp only [wait]
      rw [if_pos hself, if_pos hself]
    rw [hkept]
    exact hw
  · have hcluster : (s.startPeer p).cluster =
        (s.cluster.setPeer p.1.id { p.1 with lastSeen := s.clock + p.2 }).call s.cluster.cb.onJoin
          .onJoin { p.1 with lastSeen := s.clock + p.2 } := by
      unfold startPeer HostCluster.startPeer
      dsimp only [wait]
      rw [if_neg hself]
    have hheard : (s.startPeer p).heard =
        Function.update s.heard p.1.id (some (s.wait p.2).moment) := by
      unfold startPeer
      dsimp only [wait]
      rw [if_neg hself]
    have hanchor : ∀ id, (s.startPeer p).anchor id =
        ({ s.wait p.2 with heard := Function.update s.heard p.1.id (some (s.wait p.2).moment) } :
          Session).anchor id := by
      intro id
      unfold anchor
      rw [hheard]
      rfl
    refine hw.of_seen rfl ?_ rfl p.1.id (m := { p.1 with lastSeen := s.clock + p.2 }) ?_ rfl
      (Or.inl ?_) ?_ ?_
    · rw [hcluster, HostCluster.call_nowOffset]
      rfl
    · rw [hcluster, HostCluster.call_peers, HostCluster.lookup_setPeer_self]
    · rw [hanchor]
      exact anchor_heard_self _ _ _
    · intro id hne
      rw [hcluster, HostCluster.call_peers, HostCluster.lookup_setPeer_ne _ _ hne]
      rfl
    · intro id hne
      rw [hanchor]
      exact anchor_heard_ne (s.wait p.2) _ hne

theorem setLocal_inv {s : Session} (h : Inv s) (id : NodeId) (addr : String) :
    Inv (s.setLocal id addr) := by
  refine h.of_seen rfl rfl rfl _ (HostCluster.lookup_setPeer_self _ _ _) rfl ?_ ?_ ?_
  · unfold anchor
    dsimp only [Session.setLocal, HostCluster.setLocal, HostCluster.setPeer]
    cases hheard : s.heard (if id = 0 then 1 else id) with
    | none =>
      left
      rw [Option.none_or, Function.update_self]
    | some since =>
      right
      exact ⟨since, rfl, rfl⟩
  · intro id' hne
    exact HostCluster.lookup_setPeer_ne _ _ hne
  · intro id' hne
    have hne' : id' ≠ (s.cluster.setLocal id addr s.clock).self.id := hne
    unfold anchor
    dsimp only [Session.setLocal]
    rw [Function.update_of_ne hne']

theorem ping_inv {s : Session} (h : Inv s) (id : NodeId) : Inv (s.ping id) := by
  cases hm : s.cluster.peers.lookup id with
  | none =>
    have hkept : s.ping id = s := by
      unfold Session.ping HostCluster.ping
      rw [hm]
      rfl
    rw [hkept]
    exact h
  | some m =>
    obtain ⟨n, b, hseen, hping⟩ : ∃ n b, n.lastSeen = s.clock ∧ s.cluster.ping id s.clock =
        (true, (s.cluster.setPeer id n).call b .onRevive n) := by
      unfold HostCluster.ping
      rw [hm]
      dsimp only
      split
      · exact ⟨_, _, rfl, rfl⟩
      · exact ⟨_, false, rfl, rfl⟩
    have hs : s.ping id =
        { s with
          cluster := (s.cluster.setPeer id n).call b .onRevive n
          heard := Function.update s.heard id (some s.moment) } := by
      unfold Session.ping
      rw [hping]
      rfl
    rw [hs]
    refine h.of_seen rfl ?_ rfl id (m := n) ?_ hseen (Or.inl ?_) ?_ ?_
    · rw [HostCluster.call_nowOffset]
      rfl
    · rw [HostCluster.call_peers, HostCluster.lookup_setPeer_self]
    · exact anchor_heard_self s id s.moment
    · intro id' hne
      rw [HostCluster.call_peers, HostCluster.lookup_setPeer_ne _ _ hne]
    · intro id' hne
      exact anchor_heard_ne s _ hne

theorem step_inv (s : Session) (o : Op) (h : Inv s) : Inv (s.step o) := by
  cases o with
  | configure probeInterval pingTimeout =>
    exact h.of_kept (Nat.le_refl _) (fun _ => rfl) h.offset
      (by simp [step, HostCluster.configure]) fun _ m hm => ⟨m, hm, rfl⟩
  | setLocal id addr wait => exact setLocal_inv (wait_inv h wait) id addr
  | start cb initialPeers =>
    have hbegin : Inv { s with cluster := s.cluster.begin cb } :=
      h.of_kept (Nat.le_refl _) (fun _ => rfl) h.offset (by simp [HostCluster.begin])
        fun _ m hm => ⟨m, hm, rfl⟩
    exact run_invariant hbegin (fun _ p hs => startPeer_inv hs p) initialPeers
  | stop =>
    have hpeers : s.cluster.stop.peers = s.cluster.peers ∧
        s.cluster.stop.nowOffset = s.cluster.nowOffset := by
      unfold HostCluster.stop
      split
      · exact ⟨rfl, rfl⟩
      · exact ⟨rfl, rfl⟩
    refine h.of_kept (Nat.le_refl _) (fun _ => rfl) ?_ ?_ fun id m hm => ⟨m, ?_, rfl⟩
    · show _ ≤ s.cluster.stop.nowOffset
      rw [hpeers.2]
      exact h.offset
    · show s.cluster.stop.nowOffset - _ ≤ _
      rw [hpeers.2]
      simp [step]
    · rw [← hpeers.1]
      exact hm
  | ping id wait => exact ping_inv (wait_inv h wait) id
  | mark id status =>
    rcases HostCluster.mark_cases s.cluster id status with heq | ⟨m, n, hook, b, hm, hseen, heq⟩
    · have hkept : s.step (.mark id status) = s := by
        rw [step, heq]
      rw [hkept]
      exact h
    · have hkept : (s.cluster.mark id status).nowOffset = s.cluster.nowOffset := by
        rw [heq, HostCluster.call_nowOffset]
        rfl
      refine h.of_kept (Nat.le_refl _) (fun _ => rfl) ?_ ?_ fun id' m' hm' => ?_
      · show _ ≤ (s.cluster.mark id status).nowOffset
        rw [hkept]
        exact h.offset
      · show (s.cluster.mark id status).nowOffset - _ ≤ _
        rw [hkept]
        simp [step]
      · have hset : ((s.cluster.setPeer id n).call b hook n).peers.lookup id' = some m' :=
          heq ▸ hm'
        rw [HostCluster.call_peers] at hset
        exact HostCluster.lastSeen_setPeer hm hseen hset
  | advance dt took check =>
    have hset := HostCluster.advance_nowOffset s.cluster dt (s.reading took check)
    have hlow := h.offset
    refine h.of_kept (Nat.le_add_right _ _) (fun _ => rfl) ?_ ?_ fun _ _ hm' =>
      HostCluster.lastSeen_advance hm'
    · show _ ≤ (s.cluster.advance dt (s.reading took check)).nowOffset
      rw [hset]
      split
      · exact le_rep _
      · exact hlow
    · show (s.cluster.advance dt (s.reading took check)).nowOffset - s.cluster.nowOffset ≤
        ((s.advanced + dt : Nat) : Int) - s.advanced
      rw [hset]
      split
      · have hle : rep (s.cluster.nowOffset + dt) ≤ _ := rep_le (by omega)
        omega
      · omega

/-! ## Timely runs -/

/-- The silence that `advance` reads is at most the time that passed since the peer was heard
    of and the offset accumulated before: wrapping can only make it less. -/
theorem silence_le {s : Session} (h : Inv s) {id : NodeId} {m : Member} {since : Moment}
    (hm : s.cluster.peers.lookup id = some m) (hs : s.anchor id = some since) (dt took : Nat)
    (check : NodeId → Nat) :
    1000000 * (s.cluster.offsetBy dt).elapsed m (s.reading took check id) ≤
      s.passed since dt (s.reading took check id) + 1000000 * since.offset := by
  obtain ⟨hle, since', hs', htime⟩ := h.seen id m hm
  obtain rfl := Option.some.inj (hs.symm.trans hs')
  obtain ⟨-, hcount⟩ := h.past id since hs
  have hlow := h.offset
  have hnow : s.clock ≤ s.reading took check id := Nat.le_add_right _ _
  unfold HostCluster.elapsed HostCluster.offsetBy passed
  dsimp only
  rw [Int.tdiv_eq_ediv_of_nonneg (by omega)]
  have hoffset : rep (s.cluster.nowOffset + dt) ≤ s.cluster.nowOffset + dt := rep_le (by omega)
  have hoffset' := le_rep (s.cluster.nowOffset + dt)
  have hsum := rep_le (x := ((s.reading took check id : Int) - m.lastSeen) / 1000000 +
    rep (s.cluster.nowOffset + dt)) (by omega)
  omega

/-- For a peer last seen when it was last heard of, whole milliseconds of the two agree. -/
theorem le_silence {s : Session} (h : Inv s) {id : NodeId} {m : Member} {since : Moment}
    (hm : s.cluster.peers.lookup id = some m) (dt took : Nat) (check : NodeId → Nat)
    (hseen : SeenAt s m since dt (s.reading took check id)) {k : Int}
    (hk : 1000000 * k ≤ s.passed since dt (s.reading took check id) + 1000000 * since.offset) :
    k ≤ (s.cluster.offsetBy dt).elapsed m (s.reading took check id) := by
  obtain ⟨hle, -⟩ := h.seen id m hm
  obtain ⟨htime, hcount, hfits⟩ := hseen
  have hlow := h.offset
  have hnow : s.clock ≤ s.reading took check id := Nat.le_add_right _ _
  unfold HostCluster.elapsed HostCluster.offsetBy
  unfold passed at hk hfits
  dsimp only at hk hfits ⊢
  rw [Int.tdiv_eq_ediv_of_nonneg (by omega)]
  have hoffset : rep (s.cluster.nowOffset + dt) = s.cluster.nowOffset + dt :=
    rep_of_fits (by omega) (by omega)
  rw [hoffset, rep_of_fits (by omega) (by omega)]
  omega

theorem step_timely {s : Session} (h : Inv s) {o : Op} (ho : Harmless s o) : Timely s o := by
  cases o with
  | advance dt took check =>
    intro id m m' hm hm' hchange
    have hne : m'.status ≠ m.status := by
      rcases hchange with ⟨h1, h2⟩ | ⟨h1, h2⟩ <;> rw [h1, h2] <;> decide
    obtain ⟨hrun, htarget⟩ := HostCluster.advance_changes hm hm' hne
    obtain ⟨hself, hreached, -⟩ := (HostCluster.transition_iff _ _ _ _ _).mp htarget
    obtain ⟨-, since, hs, -⟩ := h.seen id m hm
    refine ⟨since, hs, ?_⟩
    have hsilence := silence_le h hm hs dt took check
    have hlimit : limit (s.cluster.offsetBy dt) m.status = limit s.cluster m.status := rfl
    by_contra hlate
    have hstatus : m.status = .alive ∨ m.status = .suspect :=
      hchange.imp And.left And.left
    have hharmless := ho id m since ⟨hrun, hself, hm, hstatus, hs⟩ (Int.not_le.mp hlate)
    omega
  | _ => trivial

theorem timely_step {s : Session} (h : Inv s) {o : Op} (ho : Timely s o) : HarmlessSeen s o := by
  cases o with
  | advance dt took check =>
    intro id m since hc hseen hearly
    by_contra hlate
    have hsilence := le_silence h hc.lookup dt took check hseen (Int.not_lt.mp hlate)
    obtain ⟨target, hchange⟩ : ∃ target, m.status = .alive ∧ target = Status.suspect ∨
        m.status = .suspect ∧ target = Status.dead := by
      rcases hc.status with hs | hs
      · exact ⟨.suspect, Or.inl ⟨hs, rfl⟩⟩
      · exact ⟨.dead, Or.inr ⟨hs, rfl⟩⟩
    have htarget := (HostCluster.transition_iff (s.cluster.offsetBy dt) id m
      (s.reading took check id) target).mpr ⟨hc.not_self, hsilence, hchange⟩
    obtain ⟨m', hm', hstatus⟩ := HostCluster.advance_sets hc.running hc.lookup htarget
    obtain ⟨since', hs', hpassed⟩ := ho id m m' hc.lookup hm' (hstatus ▸ hchange)
    obtain rfl := Option.some.inj (hc.anchor.symm.trans hs')
    omega
  | _ => trivial

/-- `advance` is timely at every step of a run along which the offset is harmless; and where
    it is, the offset is harmless to every peer last seen when it was last heard of. -/
theorem failure_detector_timely (ops : List Op) :
    (StepsMeet step Harmless {} ops → StepsMeet step Timely {} ops) ∧
    (StepsMeet step Timely {} ops → StepsMeet step HarmlessSeen {} ops) := by
  have hinv : ∀ pre, Inv (run step {} pre) := run_invariant start_inv step_inv
  constructor
  · intro h pre o hp
    exact step_timely (hinv pre) (h pre o hp)
  · intro h pre o hp
    exact timely_step (hinv pre) (h pre o hp)

/-! ## Runs in which nothing is heard after an `advance` -/

/-- A call that hears of a peer or enters the local node finds no accumulated offset, and an
    `advance` finds a timeout whose double fits in 64 bits. -/
def HeardFirst (s : Session) : Op → Prop
  | .setLocal _ _ _ => s.cluster.nowOffset = 0
  | .start _ _ => s.cluster.nowOffset = 0
  | .ping _ _ => s.cluster.nowOffset = 0
  | .advance _ _ _ => -2 ^ 62 ≤ s.cluster.pingTimeout ∧ s.cluster.pingTimeout < 2 ^ 62
  | _ => True

instance decHeardFirst (s : Session) : (o : Op) → Decidable (HeardFirst s o)
  | .setLocal _ _ _ => inferInstanceAs (Decidable (_ = _))
  | .start _ _ => inferInstanceAs (Decidable (_ = _))
  | .ping _ _ => inferInstanceAs (Decidable (_ = _))
  | .configure _ _ => isTrue trivial
  | .stop => isTrue trivial
  | .mark _ _ => isTrue trivial
  | .advance _ _ _ => inferInstanceAs (Decidable (_ ∧ _))

/-- No offset had accumulated when any peer was last heard of. -/
def AnchorsEarly (s : Session) : Prop := ∀ id since, s.anchor id = some since → since.offset = 0

/-- A step that records moments without an offset only keeps the anchors early. -/
theorem AnchorsEarly.of_updates {s s' : Session} (h : AnchorsEarly s) (id id' : NodeId)
    {mom mom' : Moment} (hmom : mom.offset = 0) (hmom' : mom'.offset = 0)
    (hheard : s'.heard = s.heard ∨ s'.heard = Function.update s.heard id (some mom))
    (hentered : s'.entered = s.entered ∨
      s'.entered = Function.update s.entered id' (some mom')) : AnchorsEarly s' := by
  have hold : ∀ i since, s.heard i = some since → since.offset = 0 := by
    intro i since hi
    exact h i since (by unfold anchor; rw [hi, Option.some_or])
  intro i since hi
  unfold anchor at hi
  rcases Option.or_eq_some_iff.mp hi with hi | ⟨hnone, hi⟩
  · rcases hheard with heq | heq
    · exact hold i since (heq ▸ hi)
    · rw [heq, Function.update_apply] at hi
      split at hi
      · exact Option.some.inj hi ▸ hmom
      · exact hold i since hi
  · have hunheard : s.heard i = none := by
      rcases hheard with heq | heq
      · exact heq ▸ hnone
      · rw [heq, Function.update_apply] at hnone
        split at hnone
        · cases hnone
        · exact hnone
    rcases hentered with heq | heq
    · exact h i since (by unfold anchor; rw [hunheard, Option.none_or, ← heq, hi])
    · rw [heq, Function.update_apply] at hi
      split at hi
      · exact Option.some.inj hi ▸ hmom'
      · exact h i since (by unfold anchor; rw [hunheard, Option.none_or, hi])

theorem startPeer_nowOffset (s : Session) (p : Member × Nat) :
    (s.startPeer p).cluster.nowOffset = s.cluster.nowOffset := by
  unfold startPeer HostCluster.startPeer
  dsimp only [wait]
  split
  · rfl
  · exact HostCluster.call_nowOffset _ _ _ _

theorem step_anchorsEarly (s : Session) (o : Op) (h : AnchorsEarly s) (ho : HeardFirst s o) :
    AnchorsEarly (s.step o) := by
  have hmom : ∀ n, s.cluster.nowOffset = 0 → (s.wait n).moment.offset = 0 := fun _ h0 => h0
  cases o with
  | setLocal id addr wait =>
    exact h.of_updates id _ (hmom wait ho) (hmom wait ho) (Or.inl rfl) (Or.inr rfl)
  | start cb initialPeers =>
    have hloop : ∀ t : Session, ∀ p, t.cluster.nowOffset = 0 ∧ AnchorsEarly t →
        (t.startPeer p).cluster.nowOffset = 0 ∧ AnchorsEarly (t.startPeer p) := by
      intro t p ht
      refine ⟨(startPeer_nowOffset t p).trans ht.1, ?_⟩
      have hmom : (t.wait p.2).moment.offset = 0 := ht.1
      refine ht.2.of_updates p.1.id p.1.id hmom hmom ?_ (Or.inl rfl)
      unfold startPeer
      dsimp only [wait]
      split
      · exact Or.inl rfl
      · exact Or.inr rfl
    have hbegin : ({ s with cluster := s.cluster.begin cb } : Session).cluster.nowOffset = 0 ∧
        AnchorsEarly { s with cluster := s.cluster.begin cb } := ⟨ho, h⟩
    exact (run_invariant (I := fun t => t.cluster.nowOffset = 0 ∧ AnchorsEarly t) hbegin hloop
      initialPeers).2
  | ping id wait =>
    refine h.of_updates id id (hmom wait ho) (hmom wait ho) ?_ (Or.inl rfl)
    show (if _ then _ else _) = _ ∨ (if _ then _ else _) = _
    split
    · exact Or.inr rfl
    · exact Or.inl rfl
  | _ => exact h

/-- The offset is harmless along a run that hears of its peers before it advances. -/
theorem harmless_of_heardFirst {ops : List Op} (h : StepsMeet step HeardFirst {} ops) :
    StepsMeet step Harmless {} ops := by
  intro pre o hp
  have hearly : AnchorsEarly (run step {} pre) :=
    run_invariant_of_meet (fun id since hs => by cases hs) step_anchorsEarly
      (h.restrict ((List.prefix_append pre [o]).trans hp))
  cases o with
  | advance dt took check =>
    obtain ⟨hlo, hhi⟩ := h pre _ hp
    intro id m since hc hlt
    rw [hearly id since hc.anchor, limit_of_fits hlo hhi]
    omega
  | _ => trivial

/-- A peer is listed, falls suspect and dies, each at its deadline. -/
theorem failure_detector_timely_listed :
    StepsMeet step Timely {}
      [.setLocal 1 "" 0, .start {} [({ id := 2 }, 5)], .advance 1500 0 fun _ => 0,
        .advance 1500 7 fun _ => 3] :=
  (failure_detector_timely _).1 (harmless_of_heardFirst (by decide +kernel))

/-- A peer marked suspect is dead at once when the timeout is `milliseconds::max()`: twice that
    is -2 in 64 bits. -/
theorem marked_peer_dies :
    ¬ StepsMeet step Timely {}
      [.configure 500 (2 ^ 63 - 1), .setLocal 1 "" 0, .start {} [({ id := 2 }, 0)],
        .mark 2 .suspect, .advance 0 0 fun _ => 0] := by
  intro h
  obtain ⟨since, hs, hpassed⟩ := h [.configure 500 (2 ^ 63 - 1), .setLocal 1 "" 0,
    .start {} [({ id := 2 }, 0)], .mark 2 .suspect] (.advance 0 0 fun _ => 0)
    (List.prefix_refl _) 2 { id := 2, status := .suspect } { id := 2, status := .dead }
    (by decide +kernel) (by decide +kernel) (Or.inr ⟨rfl, rfl⟩)
  have heq : since = { time := 0, offset := 0, advanced := 0 } :=
    Option.some.inj (hs.symm.trans (by rfl))
  subst heq
  revert hpassed
  decide +kernel

/-- A peer pinged after `advance(1000)` is suspected by `advance(600)` right after the ping,
    at a timeout of 1500 milliseconds. -/
theorem pinged_peer_suspected :
    ¬ StepsMeet step Timely {}
      [.setLocal 1 "" 0, .start {} [({ id := 2 }, 0)], .advance 1000 0 fun _ => 0, .ping 2 0,
        .advance 600 0 fun _ => 0] := by
  intro h
  obtain ⟨since, hs, hpassed⟩ := h [.setLocal 1 "" 0, .start {} [({ id := 2 }, 0)],
    .advance 1000 0 fun _ => 0, .ping 2 0] (.advance 600 0 fun _ => 0) (List.prefix_refl _) 2
    { id := 2 } { id := 2, status := .suspect } (by decide +kernel) (by decide +kernel)
    (Or.inl ⟨rfl, rfl⟩)
  have heq : since = { time := 0, offset := 1000, advanced := 1000 } :=
    Option.some.inj (hs.symm.trans (by rfl))
  subst heq
  revert hpassed
  decide +kernel

end NeuroVerse.Fabric
