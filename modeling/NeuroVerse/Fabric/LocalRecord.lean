/-
  The local node's record, which the cluster keeps twice: as `self` and in the member table.

  `local` writes both copies. `stop` writes `self` only, `mark` the table only, and a `local` call
  with another id leaves the entry of the old one behind. `Coherent` says that the two copies
  agree and that nothing is left of earlier ids; it holds all along a run exactly when none of
  these three calls is made (`record_coherent_iff`).
-/
import NeuroVerse.Lib.Since
import NeuroVerse.Fabric.Calls

namespace NeuroVerse.Fabric

open Lib

/-- A `local` call that gives the node the id. -/
def Names (id : NodeId) (_ : List Call) : Call → Prop
  | .setLocal i _ _ => localId i = id
  | _ => False

/-- A `start` call that lists the id as a peer. -/
def Lists (id : NodeId) (_ : List Call) : Call → Prop
  | .start _ peers => ∃ p ∈ peers, p.1.id = id
  | _ => False

namespace HostCluster

/-- The record of the local node after the calls `ops`, from the first `local` on. -/
structure Coherent (ops : List Call) : Prop where
  own : (∃ id, Once (Names id) ops) → ∃ m ∈ (run apply {} ops).members,
    m.id = (run apply {} ops).self.id ∧ m.status = (run apply {} ops).self.status
  former : ∀ id, Once (Names id) ops → id ≠ (run apply {} ops).self.id →
    ¬ Once (Lists id) ops → ∀ m ∈ (run apply {} ops).members, m.id ≠ id

/-- `local` keeps the id, or a `start` call has listed the old one; `stop` does not announce the
    local node; `mark` does not take it out of alive. -/
def KeepsRecord (pre : List Call) : Call → Prop
  | .setLocal id _ _ =>
    (run apply {} pre).self.id = 0 ∨ localId id = (run apply {} pre).self.id ∨
      Once (Lists (run apply {} pre).self.id) pre
  | .stop =>
    ¬ ((run apply {} pre).self.id ≠ 0 ∧ (run apply {} pre).cb.onLeave ∧
      (run apply {} pre).running)
  | .transit (.mark id s) =>
    (run apply {} pre).self.id ≠ 0 → id = (run apply {} pre).self.id → s = .alive
  | _ => True

/-! ## The local id -/

theorem stop_self_id (c : HostCluster) : c.stop.self.id = c.self.id := by
  unfold stop call
  split <;> rfl

/-- Only `local` changes the id. -/
theorem apply_self_id (c : HostCluster) (o : Call) :
    (c.apply o).self.id = match o with
      | .setLocal id _ _ => localId id
      | _ => c.self.id := by
  cases o with
  | configure probeInterval pingTimeout => rfl
  | setLocal id addr now => rfl
  | start cb peers => exact congrArg Member.id (start_self c cb peers)
  | stop => exact stop_self_id c
  | transit t => exact congrArg Member.id (transit_frame c t).1

/-- The id is that of some `local` call, and zero before the first. -/
theorem named_self (ops : List Call) :
    ((run apply {} ops).self.id ≠ 0 → Once (Names (run apply {} ops).self.id) ops) ∧
      ∀ id, Once (Names id) ops → (run apply {} ops).self.id ≠ 0 := by
  induction ops using List.reverseRecOn with
  | nil => exact ⟨fun h => absurd rfl h, fun id h => absurd h not_once_nil⟩
  | append_singleton ops o ih =>
    obtain ⟨hnamed, hset⟩ := ih
    rw [run_snoc, apply_self_id]
    cases o with
    | setLocal id addr now =>
      exact ⟨fun _ => once_snoc.mpr (Or.inr rfl), fun _ _ => localId_ne_zero id⟩
    | configure probeInterval pingTimeout | start cb peers | stop | transit t =>
      refine ⟨fun h => once_snoc.mpr (Or.inl (hnamed h)), fun id h => ?_⟩
      rcases once_snoc.mp h with h | h
      · exact hset id h
      · cases h

/-- As long as `stop` announces nothing the local node is alive. -/
theorem self_alive {ops : List Call} (h : Always KeepsRecord ops) :
    (run apply {} ops).self.status = .alive := by
  induction ops using List.reverseRecOn with
  | nil => rfl
  | append_singleton ops o ih =>
    obtain ⟨hbefore, hlast⟩ := always_snoc.mp h
    have halive := ih hbefore
    rw [run_snoc]
    cases o with
    | configure probeInterval pingTimeout => exact halive
    | setLocal id addr now => rfl
    | start cb peers =>
      rw [apply, start_self]
      exact halive
    | stop =>
      rw [apply, stop, if_neg hlast]
      exact halive
    | transit t =>
      rw [apply, (transit_frame _ t).1]
      exact halive

/-! ## The two copies -/

section

variable {ops : List Call}

theorem coherent_iff_lookup : Coherent ops ↔
    ((run apply {} ops).self.id ≠ 0 → ∃ m,
      (run apply {} ops).peers.lookup (run apply {} ops).self.id = some m ∧
        m.status = (run apply {} ops).self.status) ∧
    ∀ id, Once (Names id) ops → id ≠ (run apply {} ops).self.id → ¬ Once (Lists id) ops →
      (run apply {} ops).peers.lookup id = none := by
  have hkeyed := run_keyed ops
  obtain ⟨hnamed, hset⟩ := named_self ops
  constructor
  · intro h
    constructor
    · intro hid
      obtain ⟨m, hm, heq, hstatus⟩ := h.own ⟨_, hnamed hid⟩
      exact ⟨m, heq ▸ mem_members hkeyed hm, hstatus⟩
    · intro id hname hne hlist
      by_contra hsome
      obtain ⟨m, hm⟩ := Option.ne_none_iff_exists'.mp hsome
      exact h.former id hname hne hlist m (members_of_lookup hm) (hkeyed id m hm)
  · intro h
    obtain ⟨hown, hformer⟩ := h
    constructor
    · intro hname
      obtain ⟨id, hname⟩ := hname
      obtain ⟨m, hm, hstatus⟩ := hown (hset id hname)
      exact ⟨m, members_of_lookup hm, hkeyed _ m hm, hstatus⟩
    · intro id hname hne hlist m hm heq
      have hnone := hformer id hname hne hlist
      rw [← heq, mem_members hkeyed hm] at hnone
      cases hnone

/-- A call that leaves `self` and the status of its entry alone, and enters no peer that it does
    not list, keeps the record coherent. -/
theorem Coherent.snoc {o : Call} (h : Coherent ops) (hname : ∀ id, ¬ Names id ops o)
    (hself : ((run apply {} ops).apply o).self = (run apply {} ops).self)
    (hown : ∀ m, (run apply {} ops).self.id ≠ 0 →
      (run apply {} ops).peers.lookup (run apply {} ops).self.id = some m →
      m.status = (run apply {} ops).self.status → ∃ m',
        ((run apply {} ops).apply o).peers.lookup (run apply {} ops).self.id = some m' ∧
          m'.status = m.status)
    (hothers : ∀ id, ¬ Lists id ops o → (run apply {} ops).peers.lookup id = none →
      ((run apply {} ops).apply o).peers.lookup id = none) : Coherent (ops ++ [o]) := by
  obtain ⟨hentry, hformer⟩ := coherent_iff_lookup.mp h
  rw [coherent_iff_lookup, run_snoc, hself]
  constructor
  · intro hid
    obtain ⟨m, hm, hstatus⟩ := hentry hid
    obtain ⟨m', hm', hsame⟩ := hown m hid hm hstatus
    exact ⟨m', hm', hsame.trans hstatus⟩
  · intro id hnamed hne hlist
    rw [once_snoc] at hnamed hlist
    have hbefore := hformer id (hnamed.resolve_right (hname id)) hne fun hl => hlist (Or.inl hl)
    exact hothers id (fun hl => hlist (Or.inr hl)) hbefore

/-! ## Call by call -/

theorem configure_coherent (h : Coherent ops) (probeInterval pingTimeout : Int) :
    Coherent (ops ++ [.configure probeInterval pingTimeout]) :=
  h.snoc (fun _ => False.elim) rfl (fun m _ hm _ => ⟨m, hm, rfl⟩) fun _ _ hnone => hnone

theorem start_coherent (h : Coherent ops) (cb : Callbacks) (peers : List (Member × Nat)) :
    Coherent (ops ++ [.start cb peers]) := by
  refine h.snoc (fun _ => False.elim) (start_self _ cb peers) ?_ ?_
  · intro m _ hm _
    exact ⟨m, (lookup_start_unlisted _ cb peers (Or.inl rfl)).trans hm, rfl⟩
  · intro id hlist hnone
    have hunlisted : ∀ p ∈ peers, p.1.id ≠ id := fun p hp heq => hlist ⟨p, hp, heq⟩
    exact (lookup_start_unlisted _ cb peers (Or.inr hunlisted)).trans hnone

theorem setLocal_coherent (h : Coherent ops) (id : NodeId) (addr : String) (now : Nat) :
    Coherent (ops ++ [.setLocal id addr now]) ↔ KeepsRecord ops (.setLocal id addr now) := by
  obtain ⟨hentry, hformer⟩ := coherent_iff_lookup.mp h
  obtain ⟨hnamed, -⟩ := named_self ops
  have hself : ((run apply {} ops).apply (.setLocal id addr now)).self.id = localId id := rfl
  rw [coherent_iff_lookup, run_snoc]
  constructor
  · intro hnew
    obtain ⟨-, hnew⟩ := hnew
    by_contra hkeeps
    obtain ⟨hset, hmoved, hlist⟩ := not_or.mp hkeeps |>.imp_right not_or.mp
    -- the entry of the old id is still there
    obtain ⟨m, hm, -⟩ := hentry hset
    have hnone := hnew _ (once_snoc.mpr (Or.inl (hnamed hset)))
      (fun heq => hmoved (heq.trans hself).symm)
      fun hl => hlist ((once_snoc.mp hl).resolve_right False.elim)
    rw [apply, lookup_setLocal, if_neg fun heq => hmoved heq.symm, hm] at hnone
    cases hnone
  · intro hkeeps
    constructor
    · intro _
      refine ⟨((run apply {} ops).setLocal id addr now).self, ?_, rfl⟩
      rw [hself, apply, lookup_setLocal, if_pos rfl]
    · intro k hname hne hlist
      rw [hself] at hne
      rw [apply, lookup_setLocal, if_neg hne]
      have hnameBefore := (once_snoc.mp hname).resolve_right (Ne.symm hne)
      have hlistBefore : ¬ Once (Lists k) ops := fun hl => hlist (once_snoc.mpr (Or.inl hl))
      refine hformer k hnameBefore (fun heq => ?_) hlistBefore
      subst heq
      rcases hkeeps with hzero | hsame | hl
      · exact (named_self ops).2 _ hnameBefore hzero
      · exact hne hsame.symm
      · exact hlistBefore hl

theorem stop_coherent (h : Coherent ops) (halive : (run apply {} ops).self.status = .alive) :
    Coherent (ops ++ [.stop]) ↔ KeepsRecord ops .stop := by
  constructor
  · intro hnew hannounced
    obtain ⟨m, hm, hstatus⟩ := (coherent_iff_lookup.mp h).1 hannounced.1
    obtain ⟨m', hm', hstatus'⟩ := (coherent_iff_lookup.mp hnew).1 (by
      rw [run_snoc, apply, stop_self_id]
      exact hannounced.1)
    rw [run_snoc, apply, stop_peers, stop_self_id, hm] at hm'
    -- the table still says alive
    have hleft : (run apply {} ops).stop.self.status = .left := by
      unfold stop call
      rw [if_pos hannounced]
      rfl
    rw [run_snoc, apply, hleft, ← Option.some.inj hm', hstatus, halive] at hstatus'
    cases hstatus'
  · intro hkeeps
    refine h.snoc (fun _ => False.elim) ?_ ?_ ?_
    · rw [apply, stop, if_neg hkeeps]
    · intro m _ hm _
      exact ⟨m, (congrArg _ (stop_peers _)).trans hm, rfl⟩
    · intro id _ hnone
      exact (congrArg _ (stop_peers _)).trans hnone

/-- `ping` and `advance` leave the entry of a live local node alive. -/
theorem transit_coherent (h : Coherent ops) (t : Transition)
    (hown : ∀ m : Member, (run apply {} ops).self.id ≠ 0 →
      m.status = (run apply {} ops).self.status →
      ((run apply {} ops).transitMember t (run apply {} ops).self.id m).status = m.status) :
    Coherent (ops ++ [.transit t]) := by
  refine h.snoc (fun _ => False.elim) (transit_frame _ t).1 ?_ ?_
  · intro m hid hm hstatus
    refine ⟨_, ?_, hown m hid hstatus⟩
    rw [apply, lookup_transit, hm]
    rfl
  · intro id _ hnone
    rw [apply, lookup_transit, hnone]
    rfl

theorem ping_coherent (h : Coherent ops) (halive : (run apply {} ops).self.status = .alive)
    (id : NodeId) (now : Nat) : Coherent (ops ++ [.transit (.ping id now)]) := by
  refine transit_coherent h _ fun m _ hm => ?_
  have hup : ¬ (m.status = .suspect ∨ m.status = .dead) := by
    rw [hm, halive]
    decide
  unfold transitMember Member.pinged
  dsimp only
  rw [if_neg hup]
  split <;> rfl

theorem advance_coherent (h : Coherent ops) (dt : Int) (now : NodeId → Nat) :
    Coherent (ops ++ [.transit (.advance dt now)]) := by
  refine transit_coherent h _ fun m _ _ => ?_
  unfold transitMember
  dsimp only
  split
  · have hnone : ((run apply {} ops).offsetBy dt).transition (run apply {} ops).self.id m
        (now (run apply {} ops).self.id) = none := if_pos rfl
    rw [hnone]
    rfl
  · rfl

theorem mark_coherent (h : Coherent ops) (halive : (run apply {} ops).self.status = .alive)
    (id : NodeId) (s : Status) :
    Coherent (ops ++ [.transit (.mark id s)]) ↔ KeepsRecord ops (.transit (.mark id s)) := by
  constructor
  · intro hnew hid heq
    obtain ⟨m, hm, -⟩ := (coherent_iff_lookup.mp h).1 hid
    have hself := (transit_frame (run apply {} ops) (.mark id s)).1
    obtain ⟨m', hm', hstatus'⟩ := (coherent_iff_lookup.mp hnew).1 (by
      rw [run_snoc, apply, hself]
      exact hid)
    rw [run_snoc, apply, hself, lookup_transit, hm, Option.map_some] at hm'
    rw [run_snoc, apply, hself, ← Option.some.inj hm', halive] at hstatus'
    unfold transitMember at hstatus'
    dsimp only at hstatus'
    rw [if_pos heq.symm, Member.marked_status] at hstatus'
    exact hstatus'
  · intro hkeeps
    refine transit_coherent h _ fun m hid hm => ?_
    unfold transitMember
    dsimp only
    split
    · next heq => rw [Member.marked_status, hkeeps hid heq.symm, hm, halive]
    · rfl

end

/-- From the first `local` on the local node has an entry with the status that `self` has, and
    nothing is left of the ids it had before, exactly along the runs without a `local` call that
    gives up an unlisted id, a `stop` that announces the local node, and a `mark` that takes it
    out of alive. -/
theorem record_coherent_iff (ops : List Call) :
    (∀ pre, pre <+: ops → Coherent pre) ↔ Always KeepsRecord ops := by
  refine prefixes_iff_always ?_ fun pre o _ h hmeet => ?_
  · exact ⟨fun ⟨id, h⟩ => absurd h not_once_nil, fun id h => absurd h not_once_nil⟩
  · have halive := self_alive hmeet
    cases o with
    | configure probeInterval pingTimeout =>
      exact iff_of_true (configure_coherent h probeInterval pingTimeout) trivial
    | setLocal id addr now => exact setLocal_coherent h id addr now
    | start cb peers => exact iff_of_true (start_coherent h cb peers) trivial
    | stop => exact stop_coherent h halive
    | transit t =>
      cases t with
      | ping id now => exact iff_of_true (ping_coherent h halive id now) trivial
      | mark id s => exact mark_coherent h halive id s
      | advance dt now => exact iff_of_true (advance_coherent h dt now) trivial

/-- A node with `on_leave` installed stops: it is announced as left, and listed as alive. -/
theorem stopped_node_listed_alive : ¬ ∀ ops pre, pre <+: ops → Coherent pre := by
  intro h
  obtain ⟨m, hm, -, hstatus⟩ :=
    (h _ [.setLocal 1 "" 0, .start { onLeave := true } [], .stop] (List.prefix_refl _)).own
      ⟨1, [], _, ⟨_, rfl⟩, rfl⟩
  revert m
  decide

end HostCluster

end NeuroVerse.Fabric
