/-
  The host scaffold's cluster membership, `HostCluster`.

  A peer's silence, as `advance` reads it, is the steady clock's reading less its `lastSeen`, plus
  one offset that all `advance` calls add to. `advance` first chooses a new status for the peers
  whose silence has reached their deadline, and then sets what it chose (`advance_changes`,
  `advance_sets`).

  Durations are whole milliseconds and clock readings whole nanoseconds, as in the source. A
  duration is a signed 64-bit count, so the offset, the silence and the doubled timeout wrap
  around (`rep`); two readings of the clock, neither negative, have a difference that fits. The
  map of peers is walked in no fixed order, so each peer's check may read the clock at any
  moment of the call.
-/
import Mathlib.Algebra.Group.Int.Defs
import Mathlib.Algebra.Group.Nat.Defs
import Mathlib.Data.List.AList

namespace NeuroVerse.Fabric

abbrev NodeId := BitVec 64

inductive Status where
  | alive
  | suspect
  | dead
  | leaving
  | left
deriving DecidableEq

/-- `lastSeen` is a reading of the steady clock. -/
structure Member where
  id : NodeId := 0
  status : Status := .alive
  incarnation : BitVec 64 := 1
  addr : String := ""
  lastSeen : Nat := 0
deriving DecidableEq

/-- What the 64-bit count of a duration holds when the count it should hold is `x`. -/
def rep (x : Int) : Int := x.bmod (2 ^ 64)

/-- Which callbacks the user registered. -/
structure Callbacks where
  onJoin : Bool := false
  onLeave : Bool := false
  onSuspect : Bool := false
  onRevive : Bool := false

inductive Hook where
  | onJoin
  | onLeave
  | onSuspect
  | onRevive
deriving DecidableEq

/-- The cluster, with the callbacks it has made, the latest first. -/
structure HostCluster where
  self : Member := {}
  peers : AList fun _ : NodeId => Member := ∅
  cb : Callbacks := {}
  running : Bool := false
  probeInterval : Int := 500
  pingTimeout : Int := 1500
  nowOffset : Int := 0
  calls : List (Hook × Member) := []

namespace HostCluster

/-- Calls a hook that is registered. -/
def call (c : HostCluster) (registered : Bool) (hook : Hook) (m : Member) : HostCluster :=
  if registered then { c with calls := (hook, m) :: c.calls } else c

def setPeer (c : HostCluster) (id : NodeId) (m : Member) : HostCluster :=
  { c with peers := c.peers.insert id m }

def configure (c : HostCluster) (probeInterval pingTimeout : Int) : HostCluster :=
  { c with probeInterval := probeInterval, pingTimeout := pingTimeout }

/-- `local`: configures the local node and enters it among the peers. -/
def setLocal (c : HostCluster) (id : NodeId) (addr : String) (now : Nat) : HostCluster :=
  let self := { c.self with
    id := if id = 0 then 1 else id, addr := addr, status := .alive, lastSeen := now }
  { c with self := self }.setPeer self.id self

/-- `start` before its loop. -/
def begin (c : HostCluster) (cb : Callbacks) : HostCluster := { c with cb := cb, running := true }

/-- One turn of the loop of `start`. -/
def startPeer (c : HostCluster) (p : Member) (now : Nat) : HostCluster :=
  if p.id = c.self.id then c
  else
    let m := { p with lastSeen := now }
    (c.setPeer p.id m).call c.cb.onJoin .onJoin m

def stop (c : HostCluster) : HostCluster :=
  if c.self.id ≠ 0 ∧ c.cb.onLeave ∧ c.running then
    let self := { c.self with status := .left }
    { c with self := self, running := false }.call true .onLeave self
  else { c with running := false }

def ping (c : HostCluster) (id : NodeId) (now : Nat) : Bool × HostCluster :=
  match c.peers.lookup id with
  | none => (false, c)
  | some m =>
    let m := { m with lastSeen := now }
    if m.status = .suspect ∨ m.status = .dead then
      let m := { m with status := .alive, incarnation := m.incarnation + 1 }
      (true, (c.setPeer id m).call c.cb.onRevive .onRevive m)
    else (true, c.setPeer id m)

def mark (c : HostCluster) (id : NodeId) (s : Status) : HostCluster :=
  match c.peers.lookup id with
  | none => c
  | some m =>
    if m.status = s then c
    else
      let m := { m with status := s }
      if s = .alive ∧ c.cb.onRevive then
        let m := { m with incarnation := m.incarnation + 1 }
        (c.setPeer id m).call true .onRevive m
      else if s = .suspect ∧ c.cb.onSuspect then (c.setPeer id m).call true .onSuspect m
      else if s = .dead ∧ c.cb.onLeave then (c.setPeer id m).call true .onLeave m
      else c.setPeer id m

/-- The silence of a peer as `advance` reads it, in milliseconds: the clock's difference,
    truncated, and the offset. -/
def elapsed (c : HostCluster) (m : Member) (now : Nat) : Int :=
  rep (((now : Int) - m.lastSeen).tdiv 1000000 + c.nowOffset)

/-- What the walk over the peers decides about one of them. -/
def transition (c : HostCluster) (id : NodeId) (m : Member) (now : Nat) : Option Status :=
  if id = c.self.id then none
  else if c.elapsed m now ≥ rep (c.pingTimeout * 2) ∧ m.status = .suspect then some .dead
  else if c.elapsed m now ≥ c.pingTimeout ∧ m.status = .alive then some .suspect
  else none

def transitions (c : HostCluster) (now : NodeId → Nat) : List (NodeId × Status) :=
  c.peers.entries.filterMap fun kv =>
    (c.transition kv.1 kv.2 (now kv.1)).map fun target => (kv.1, target)

/-- One turn of the second pass of `advance`. -/
def applyTransition (c : HostCluster) (t : NodeId × Status) : HostCluster :=
  match c.peers.lookup t.1 with
  | none => c
  | some m =>
    if m.status = t.2 then c
    else
      let m := { m with status := t.2 }
      if t.2 = .suspect ∧ c.cb.onSuspect then (c.setPeer t.1 m).call true .onSuspect m
      else if t.2 = .dead ∧ c.cb.onLeave then (c.setPeer t.1 m).call true .onLeave m
      else c.setPeer t.1 m

/-- `now id` is the reading of the clock at the check of the peer `id`. -/
def advance (c : HostCluster) (dt : Int) (now : NodeId → Nat) : HostCluster :=
  if c.running then
    let c := { c with nowOffset := rep (c.nowOffset + dt) }
    (c.transitions now).foldl applyTransition c
  else c

end HostCluster

/-- A peer's deadline for the next status, in nanoseconds. -/
def deadline (c : HostCluster) : Status → Int
  | .suspect => 1000000 * (c.pingTimeout * 2)
  | _ => 1000000 * c.pingTimeout

/-- A peer's deadline in milliseconds, as 64 bits hold it. -/
def limit (c : HostCluster) : Status → Int
  | .suspect => rep (c.pingTimeout * 2)
  | _ => c.pingTimeout

/-! ## 64-bit counts -/

theorem rep_of_fits {x : Int} (hlo : -2 ^ 63 ≤ x) (hhi : x < 2 ^ 63) : rep x = x :=
  Int.bmod_eq_of_le (by omega) (by omega)

theorem le_rep (x : Int) : -2 ^ 63 ≤ rep x := by
  have h := Int.le_bmod (x := x) (m := 2 ^ 64) (by decide)
  unfold rep
  omega

/-- A count that leaves the range at its upper end gets smaller. -/
theorem rep_le {x : Int} (hlo : -2 ^ 63 ≤ x) : rep x ≤ x := by
  by_cases hhi : x < 2 ^ 63
  · exact Int.le_of_eq (rep_of_fits hlo hhi)
  · have h := Int.bmod_lt (x := x) (m := 2 ^ 64) (by decide)
    unfold rep
    omega

/-- The deadline and the limit agree when twice the timeout fits in 64 bits. -/
theorem limit_of_fits {c : HostCluster} (hlo : -2 ^ 62 ≤ c.pingTimeout)
    (hhi : c.pingTimeout < 2 ^ 62) (s : Status) : 1000000 * limit c s = deadline c s := by
  have hdouble : rep (c.pingTimeout * 2) = c.pingTimeout * 2 :=
    rep_of_fits (by omega) (by omega)
  cases s with
  | suspect => exact congrArg (1000000 * ·) hdouble
  | _ => rfl

/-! ## Frame lemmas -/

namespace HostCluster

@[simp] theorem call_peers (c : HostCluster) (b : Bool) (hook : Hook) (m : Member) :
    (c.call b hook m).peers = c.peers := by
  unfold call
  split <;> rfl

@[simp] theorem call_nowOffset (c : HostCluster) (b : Bool) (hook : Hook) (m : Member) :
    (c.call b hook m).nowOffset = c.nowOffset := by
  unfold call
  split <;> rfl

@[simp] theorem call_self (c : HostCluster) (b : Bool) (hook : Hook) (m : Member) :
    (c.call b hook m).self = c.self := by
  unfold call
  split <;> rfl

theorem lookup_setPeer_self (c : HostCluster) (id : NodeId) (m : Member) :
    (c.setPeer id m).peers.lookup id = some m :=
  AList.lookup_insert c.peers

theorem lookup_setPeer_ne (c : HostCluster) {id id' : NodeId} (m : Member) (h : id' ≠ id) :
    (c.setPeer id m).peers.lookup id' = c.peers.lookup id' :=
  AList.lookup_insert_ne h

/-- A peer set over one with the same `lastSeen` keeps every peer's `lastSeen`. -/
theorem lastSeen_setPeer {c : HostCluster} {id : NodeId} {m n : Member}
    (hm : c.peers.lookup id = some m) (hn : n.lastSeen = m.lastSeen) {id' : NodeId} {m' : Member}
    (h : (c.setPeer id n).peers.lookup id' = some m') :
    ∃ m, c.peers.lookup id' = some m ∧ m'.lastSeen = m.lastSeen := by
  by_cases hid : id' = id
  · subst hid
    rw [lookup_setPeer_self] at h
    obtain rfl := Option.some.inj h
    exact ⟨m, hm, hn⟩
  · rw [lookup_setPeer_ne c n hid] at h
    exact ⟨m', h, rfl⟩

/-- `mark` changes one peer's status, its incarnation and the calls made, and nothing else. -/
theorem mark_cases (c : HostCluster) (id : NodeId) (s : Status) :
    c.mark id s = c ∨ ∃ m n hook b, c.peers.lookup id = some m ∧ n.lastSeen = m.lastSeen ∧
      c.mark id s = (c.setPeer id n).call b hook n := by
  unfold mark
  cases hm : c.peers.lookup id with
  | none => exact Or.inl rfl
  | some m =>
    dsimp only
    split
    · exact Or.inl rfl
    · right
      split
      · exact ⟨m, { m with status := s, incarnation := m.incarnation + 1 },
          .onRevive, true, rfl, rfl, rfl⟩
      · split
        · exact ⟨m, { m with status := s }, .onSuspect, true, rfl, rfl, rfl⟩
        · split
          · exact ⟨m, { m with status := s }, .onLeave, true, rfl, rfl, rfl⟩
          · exact ⟨m, { m with status := s }, .onLeave, false, rfl, rfl, rfl⟩

/-- A turn of the second pass sets the status of its peer, and changes nothing else but the
    calls made. -/
theorem applyTransition_cases (c : HostCluster) (t : NodeId × Status) :
    c.applyTransition t = c ∧ (∀ m, c.peers.lookup t.1 = some m → m.status = t.2) ∨
      ∃ m hook b, c.peers.lookup t.1 = some m ∧
        c.applyTransition t =
          (c.setPeer t.1 { m with status := t.2 }).call b hook { m with status := t.2 } := by
  unfold applyTransition
  cases hm : c.peers.lookup t.1 with
  | none => exact Or.inl ⟨rfl, fun m h => nomatch h⟩
  | some m =>
    dsimp only
    split
    · next heq =>
      refine Or.inl ⟨rfl, fun m' h => ?_⟩
      rw [← Option.some.inj h, heq]
    · right
      split
      · exact ⟨m, .onSuspect, true, rfl, rfl⟩
      · split
        · exact ⟨m, .onLeave, true, rfl, rfl⟩
        · exact ⟨m, .onLeave, false, rfl, rfl⟩

theorem lookup_applyTransition_ne (c : HostCluster) {t : NodeId × Status} {id : NodeId}
    (h : id ≠ t.1) : (c.applyTransition t).peers.lookup id = c.peers.lookup id := by
  rcases applyTransition_cases c t with ⟨heq, -⟩ | ⟨m, hook, b, -, heq⟩
  · rw [heq]
  · rw [heq, call_peers, lookup_setPeer_ne c _ h]

theorem lookup_applyTransition_self (c : HostCluster) {t : NodeId × Status} {m : Member}
    (h : c.peers.lookup t.1 = some m) :
    (c.applyTransition t).peers.lookup t.1 = some { m with status := t.2 } := by
  rcases applyTransition_cases c t with ⟨heq, hsame⟩ | ⟨m', hook, b, hm', heq⟩
  · rw [heq, h, ← hsame m h]
  · rw [h] at hm'
    obtain rfl := Option.some.inj hm'
    rw [heq, call_peers, lookup_setPeer_self]

theorem applyTransition_nowOffset (c : HostCluster) (t : NodeId × Status) :
    (c.applyTransition t).nowOffset = c.nowOffset := by
  rcases applyTransition_cases c t with ⟨heq, -⟩ | ⟨m, hook, b, -, heq⟩
  · rw [heq]
  · rw [heq, call_nowOffset]
    rfl

/-- The second pass leaves every peer where it was, with its status or one that the first pass
    chose for it. -/
theorem lookup_applyTransitions (ts : List (NodeId × Status)) {c : HostCluster} {id : NodeId}
    {m : Member} (h : c.peers.lookup id = some m) :
    ∃ m', (ts.foldl applyTransition c).peers.lookup id = some m' ∧ m'.lastSeen = m.lastSeen ∧
      (m'.status = m.status ∨ (id, m'.status) ∈ ts) := by
  induction ts generalizing c m with
  | nil => exact ⟨m, h, rfl, Or.inl rfl⟩
  | cons t ts ih =>
    by_cases hid : id = t.1
    · subst hid
      obtain ⟨m', h', hseen, hstatus⟩ := ih (lookup_applyTransition_self c h)
      refine ⟨m', h', hseen, Or.inr ?_⟩
      rcases hstatus with hstatus | hmem
      · rw [hstatus]
        exact List.mem_cons_self
      · exact List.mem_cons_of_mem t hmem
    · obtain ⟨m', h', hseen, hstatus⟩ := ih ((lookup_applyTransition_ne c hid).trans h)
      exact ⟨m', h', hseen, hstatus.imp_right (List.mem_cons_of_mem t)⟩

theorem lookup_applyTransitions_none (ts : List (NodeId × Status)) {c : HostCluster}
    {id : NodeId} (h : c.peers.lookup id = none) :
    (ts.foldl applyTransition c).peers.lookup id = none := by
  induction ts generalizing c with
  | nil => exact h
  | cons t ts ih =>
    apply ih
    by_cases hid : id = t.1
    · unfold applyTransition
      rw [← hid, h]
      exact h
    · rw [lookup_applyTransition_ne c hid, h]

/-- A status chosen for one peer once is the status it gets. -/
theorem status_applyTransitions {ts : List (NodeId × Status)} {c : HostCluster} {id : NodeId}
    {target : Status} (hnodup : (ts.map Prod.fst).Nodup) (hmem : (id, target) ∈ ts) {m : Member}
    (h : c.peers.lookup id = some m) :
    ∃ m', (ts.foldl applyTransition c).peers.lookup id = some m' ∧ m'.status = target := by
  induction ts generalizing c m with
  | nil => cases hmem
  | cons t ts ih =>
    obtain ⟨hnotin, hnodup⟩ := List.nodup_cons.mp hnodup
    rcases List.mem_cons.mp hmem with rfl | hmem
    · obtain ⟨m', h', -, hstatus⟩ := lookup_applyTransitions ts
        (lookup_applyTransition_self c (t := (id, target)) h)
      refine ⟨m', h', ?_⟩
      rcases hstatus with hstatus | hlater
      · exact hstatus
      · exact absurd (List.mem_map_of_mem hlater) hnotin
    · have hid : id ≠ t.1 := fun heq => hnotin (heq ▸ List.mem_map_of_mem hmem)
      exact ih hnodup hmem ((lookup_applyTransition_ne c hid).trans h)

/-! ## What `advance` decides -/

/-- The walk chooses a status for an alive or suspect peer other than the local node, when the
    silence it reads reaches the peer's limit. -/
theorem transition_iff (c : HostCluster) (id : NodeId) (m : Member) (now : Nat)
    (target : Status) : c.transition id m now = some target ↔
      id ≠ c.self.id ∧ limit c m.status ≤ c.elapsed m now ∧
        (m.status = .alive ∧ target = .suspect ∨ m.status = .suspect ∧ target = .dead) := by
  unfold transition
  by_cases hid : id = c.self.id
  · simp [hid]
  · rw [if_neg hid]
    cases hs : m.status with
    | alive =>
      have hdead : ¬ (c.elapsed m now ≥ rep (c.pingTimeout * 2) ∧ Status.alive = .suspect) := by
        simp
      rw [if_neg hdead]
      by_cases hle : c.pingTimeout ≤ c.elapsed m now
      · simp [hid, hle, limit, eq_comm]
      · simp [hle, limit]
    | suspect =>
      by_cases hle : rep (c.pingTimeout * 2) ≤ c.elapsed m now
      · simp [hid, hle, limit, eq_comm]
      · simp [hle, limit]
    | dead => simp
    | leaving => simp
    | left => simp

theorem mem_transitions {c : HostCluster} {now : NodeId → Nat} {id : NodeId} {target : Status} :
    (id, target) ∈ c.transitions now ↔
      ∃ m, c.peers.lookup id = some m ∧ c.transition id m (now id) = some target := by
  unfold transitions
  rw [List.mem_filterMap]
  constructor
  · intro h
    obtain ⟨⟨id', m⟩, hmem, heq⟩ := h
    obtain ⟨target', htarget, hpair⟩ := Option.map_eq_some_iff.mp heq
    obtain ⟨rfl, rfl⟩ := Prod.mk.inj hpair
    exact ⟨m, AList.mem_lookup_iff.mpr hmem, htarget⟩
  · intro h
    obtain ⟨m, hm, htarget⟩ := h
    exact ⟨⟨id, m⟩, AList.mem_lookup_iff.mp hm, by rw [htarget]; rfl⟩

theorem nodup_transitions (c : HostCluster) (now : NodeId → Nat) :
    ((c.transitions now).map Prod.fst).Nodup := by
  have hkeys : c.peers.entries.keys.Nodup := c.peers.nodupKeys
  refine List.Sublist.nodup ?_ hkeys
  unfold transitions List.keys
  induction c.peers.entries with
  | nil => exact List.Sublist.refl _
  | cons kv kvs ih =>
    rw [List.filterMap_cons, List.map_cons]
    cases c.transition kv.1 kv.2 (now kv.1) with
    | none => exact ih.cons kv.1
    | some target => exact ih.cons_cons kv.1

/-- The cluster whose offset an `advance` has raised. -/
def offsetBy (c : HostCluster) (dt : Int) : HostCluster :=
  { c with nowOffset := rep (c.nowOffset + dt) }

theorem advance_eq (c : HostCluster) (dt : Int) (now : NodeId → Nat) :
    c.advance dt now =
      if c.running then ((c.offsetBy dt).transitions now).foldl applyTransition (c.offsetBy dt)
      else c :=
  rfl

/-- A peer whose status `advance` changed was given its new status by the walk. -/
theorem advance_changes {c : HostCluster} {dt : Int} {now : NodeId → Nat} {id : NodeId}
    {m m' : Member} (h : c.peers.lookup id = some m)
    (h' : (c.advance dt now).peers.lookup id = some m') (hne : m'.status ≠ m.status) :
    c.running = true ∧ (c.offsetBy dt).transition id m (now id) = some m'.status := by
  rw [advance_eq] at h'
  by_cases hrun : c.running = true
  · rw [if_pos hrun] at h'
    obtain ⟨n, hn, -, hstatus⟩ :=
      lookup_applyTransitions ((c.offsetBy dt).transitions now) (c := c.offsetBy dt) h
    rw [h'] at hn
    obtain rfl := Option.some.inj hn
    rcases hstatus with heq | hmem
    · exact absurd heq hne
    · obtain ⟨n, hn, htarget⟩ := mem_transitions.mp hmem
      have heq : m = n := Option.some.inj (h.symm.trans hn)
      rw [heq]
      exact ⟨hrun, htarget⟩
  · rw [if_neg hrun, h] at h'
    exact absurd (congrArg Member.status (Option.some.inj h')).symm hne

/-- What the walk chooses for a peer is what the peer gets. -/
theorem advance_sets {c : HostCluster} {dt : Int} {now : NodeId → Nat} {id : NodeId}
    {m : Member} {target : Status} (hrun : c.running = true) (h : c.peers.lookup id = some m)
    (ht : (c.offsetBy dt).transition id m (now id) = some target) :
    ∃ m', (c.advance dt now).peers.lookup id = some m' ∧ m'.status = target := by
  rw [advance_eq, if_pos hrun]
  exact status_applyTransitions (c := c.offsetBy dt) (nodup_transitions _ _)
    (mem_transitions.mpr ⟨m, h, ht⟩) h

theorem lastSeen_advance {c : HostCluster} {dt : Int} {now : NodeId → Nat} {id : NodeId}
    {m' : Member} (h : (c.advance dt now).peers.lookup id = some m') :
    ∃ m, c.peers.lookup id = some m ∧ m'.lastSeen = m.lastSeen := by
  rw [advance_eq] at h
  by_cases hrun : c.running = true
  · rw [if_pos hrun] at h
    cases hm : c.peers.lookup id with
    | none =>
      rw [lookup_applyTransitions_none _ (c := c.offsetBy dt) hm] at h
      cases h
    | some m =>
      obtain ⟨n, hn, hseen, -⟩ :=
        lookup_applyTransitions ((c.offsetBy dt).transitions now) (c := c.offsetBy dt) hm
      rw [h] at hn
      obtain rfl := Option.some.inj hn
      exact ⟨m, rfl, hseen⟩
  · rw [if_neg hrun] at h
    exact ⟨m', h, rfl⟩

theorem applyTransitions_nowOffset (ts : List (NodeId × Status)) (c : HostCluster) :
    (ts.foldl applyTransition c).nowOffset = c.nowOffset := by
  induction ts generalizing c with
  | nil => rfl
  | cons t ts ih => exact (ih _).trans (applyTransition_nowOffset c t)

theorem advance_nowOffset (c : HostCluster) (dt : Int) (now : NodeId → Nat) :
    (c.advance dt now).nowOffset = if c.running then rep (c.nowOffset + dt) else c.nowOffset := by
  rw [advance_eq]
  split
  · exact applyTransitions_nowOffset _ _
  · rfl

end HostCluster

end NeuroVerse.Fabric
