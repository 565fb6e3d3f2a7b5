/-
  The balance of the multilevel scheduler.

  A call that has read a low load may be late with its own task, so that calls which scan at the
  same time go to one node. `routed_le` says what is left of the balance: with at most `d` other
  calls at a time, no node is given more tasks than another has, and `3 * d + 1` on top. With one
  call at a time the nodes stay within one of each other.

  A scan knows of each node that it has read how many tasks had been routed to it then (`Sound`),
  and the loads only go up (`Grown`). What was routed to a node past some number is owed to calls
  that had read it before (`Balanced`), and these are in progress.
-/
import NeuroVerse.Sched.Multilevel

namespace NeuroVerse.Sched

open Lib

namespace MultilevelScheduler

variable {η : Type*}

/-! ## What a scan knows -/

/-- What only goes up. -/
structure Grown (s t : MultilevelScheduler η) : Prop where
  count : t.count = s.count
  received : ∀ b, s.received b ≤ t.received b
  landed : ∀ b, s.landed b ≤ t.landed b
  length : s.calls.length ≤ t.calls.length

theorem step_grown (s : MultilevelScheduler η) (a : Action η) : s.Grown (s.step a) := by
  have hspawn : ∀ (p : Call η → Bool) c, s.calls.countP p ≤ (s.calls ++ [c]).countP p := by
    intro p c
    rw [List.countP_append]
    exact Nat.le_add_right _ _
  have hmoved : ∀ {k c c'}, s.calls[k]? = some c → (∀ b, c.place.arrived b → c'.place.arrived b) →
      (∀ b, c.place.landed b → c'.place.landed b) → s.Grown (s.move k c') :=
    fun here ha hl => ⟨rfl, fun b => countP_le_moved here (ha b),
      fun b => countP_le_moved here (hl b), Nat.le_of_eq List.length_set.symm⟩
  have hstep := step_stepped s a
  have hcount := step_count s a
  generalize s.step a = t at hstep hcount ⊢
  cases hstep with
  | submit h affinity =>
    exact ⟨rfl, fun b => hspawn _ _, fun b => hspawn _ _, by simp⟩
  | submitTo i h =>
    exact ⟨rfl, fun b => hspawn _ _, fun b => hspawn _ _, by simp⟩
  | read k qf h pinned seen i best here => exact hmoved here (fun _ => id) fun _ => id
  | readRest k qf h pinned seen i best qf' part here =>
    exact hmoved here (fun _ => nofun) fun _ => nofun
  | enqueue k qf h pinned seen b here =>
    have hup : s.Grown (s.move k ⟨h, pinned, seen, .post b⟩) :=
      hmoved here (fun _ => nofun) fun _ => nofun
    exact ⟨rfl, hup.received, hup.landed, hup.length⟩
  | post k qf h pinned seen b here =>
    have hup : s.Grown (s.move k ⟨h, pinned, seen, .dequeue b⟩) :=
      hmoved here (fun _ => id) fun _ => id
    exact ⟨rfl, hup.received, hup.landed, hup.length⟩
  | dequeue k qf h pinned seen b here =>
    have hup : s.Grown (s.move k ⟨h, pinned, seen, .run b⟩) :=
      hmoved here (fun _ => id) fun _ => id
    exact ⟨rfl, hup.received, hup.landed, hup.length⟩
  | run k qf h pinned seen b here =>
    have hup : s.Grown (s.move k ⟨h, pinned, seen, .returned b⟩) := hmoved here
      (fun b' h => by simpa [Place.arrived, Place.pending, Place.landed] using h) fun _ => nofun
    exact ⟨rfl, hup.received, hup.landed, hup.length⟩
  | idle k qf => exact ⟨rfl, fun _ => Nat.le_refl _, fun _ => Nat.le_refl _, Nat.le_refl _⟩

/-- What a scan that has come to node `i` knows: its best node had not been routed more tasks,
    when it was first read, than the load read there and `d`, and that load is at most what any
    node so far has received and `d`. -/
def BestSeen (d : Nat) (s : MultilevelScheduler η) (seen : List Nat) (i : Nat) :
    Option (Nat × BitVec 64) → Prop
  | none => i = 0
  | some (b, least) => (∃ n, seen[b]? = some n ∧ n ≤ least.toNat + d) ∧
      ∀ j < i, least.toNat ≤ s.received j + d

/-- What a call knows before its task goes to a node. -/
def Sound (d : Nat) (s : MultilevelScheduler η) (c : Call η) : Prop :=
  match c.place with
  | .read i best => c.seen.length = i ∧ BestSeen d s c.seen i best
  | .readRest i best queuedFirst part =>
    c.seen.length = i + 1 ∧ BestSeen d s c.seen i best ∧ part.toNat ≤ s.calls.length ∧
      ∃ n, c.seen[i]? = some n ∧
        if queuedFirst then part.toNat ≤ d ∧ n ≤ s.landed i + d
        else part.toNat ≤ s.landed i ∧ n ≤ part.toNat + d
  | .enqueue b =>
    c.pinned = false → ∃ n, c.seen[b]? = some n ∧ ∀ j < s.count, n ≤ s.received j + 2 * d
  | _ => True

theorem BestSeen.mono {d : Nat} {s t : MultilevelScheduler η} (hst : s.Grown t) {seen : List Nat}
    {i : Nat} {best : Option (Nat × BitVec 64)} (h : BestSeen d s seen i best) :
    BestSeen d t seen i best := by
  cases best with
  | none => exact h
  | some x =>
    refine ⟨h.1, fun j hj => ?_⟩
    have hread := h.2 j hj
    have hup := hst.received j
    omega

theorem Sound.mono {d : Nat} {s t : MultilevelScheduler η} (hst : s.Grown t) {c : Call η}
    (h : Sound d s c) : Sound d t c := by
  obtain ⟨handle, pinned, seen, place⟩ := c
  cases place with
  | read i best => exact ⟨h.1, h.2.mono hst⟩
  | readRest i best qf part =>
    obtain ⟨hlen, hbest, hpart, n, hn, hseen⟩ := h
    refine ⟨hlen, hbest.mono hst, Nat.le_trans hpart hst.length, n, hn, ?_⟩
    have hup := hst.landed i
    split
    · next hqf =>
      rw [if_pos hqf] at hseen
      omega
    · next hqf =>
      rw [if_neg hqf] at hseen
      omega
  | enqueue b =>
    intro hp
    obtain ⟨n, hn, hle⟩ := h hp
    refine ⟨n, hn, fun j hj => ?_⟩
    have hread := hle j (hst.count ▸ hj)
    have hup := hst.received j
    omega
  | post b => trivial
  | dequeue b => trivial
  | run b => trivial
  | returned b => trivial
  | refused => trivial

/-- The comparison keeps what a scan knows. -/
theorem better_seen {d : Nat} {s : MultilevelScheduler η} {seen : List Nat} {i n : Nat}
    {best : Option (Nat × BitVec 64)} (h : BestSeen d s seen i best) (hn : seen[i]? = some n)
    {l : BitVec 64} (hlow : n ≤ l.toNat + d) (hhigh : l.toNat ≤ s.received i + d) :
    BestSeen d s seen (i + 1) (some (better best i l)) := by
  unfold better
  cases best with
  | none =>
    refine ⟨⟨n, hn, hlow⟩, fun j hj => ?_⟩
    have hzero : i = 0 := h
    obtain rfl : j = i := by omega
    exact hhigh
  | some x =>
    obtain ⟨b, least⟩ := x
    obtain ⟨hseen, hleast⟩ := h
    dsimp only
    split
    · next hlt =>
      refine ⟨⟨n, hn, hlow⟩, fun j hj => ?_⟩
      rcases Nat.lt_succ_iff_lt_or_eq.mp hj with hj | rfl
      · exact Nat.le_trans (Nat.le_of_lt (BitVec.lt_def.mp hlt)) (hleast j hj)
      · exact hhigh
    · next hge =>
      refine ⟨hseen, fun j hj => ?_⟩
      rcases Nat.lt_succ_iff_lt_or_eq.mp hj with hj | rfl
      · exact hleast j hj
      · exact Nat.le_trans (Nat.le_of_not_lt fun hlt => hge (BitVec.lt_def.mpr hlt)) hhigh

theorem afterRead_sound {d : Nat} {s : MultilevelScheduler η} {seen : List Nat} {i : Nat}
    {x : Nat × BitVec 64} (h : BestSeen d s seen (i + 1) (some x)) (hlen : seen.length = i + 1)
    (handle : η) (pinned : Bool) : Sound d s ⟨handle, pinned, seen, s.afterRead i x⟩ := by
  obtain ⟨⟨n, hn, hlow⟩, hhigh⟩ := h
  unfold afterRead
  split
  · exact ⟨hlen, ⟨n, hn, hlow⟩, hhigh⟩
  · next hi =>
    split
    · refine fun _ => ⟨n, hn, fun j hj => ?_⟩
      have := hhigh j (by omega)
      omega
    · trivial

/-! ## The balance -/

/-- The calls before their `queued.fetch_add` that saw at most `a` tasks routed to node `b`. -/
def early (s : MultilevelScheduler η) (b a : Nat) : Nat :=
  s.calls.countP fun c => !c.pinned && c.place.choosing && c.seen[b]?.any (· ≤ a)

/-- No node gets far ahead of another: what was routed to it past `a` is owed to calls that had
    read it before, and these are among the `d + 1` calls in progress. -/
def Balanced (d : Nat) (s : MultilevelScheduler η) : Prop :=
  ∀ b j a, j < s.count → s.received j + 2 * d ≤ a → s.routed b - a + s.early b a ≤ d + 1

/-- What holds while at most `d` other calls are in progress, of fewer than `2 ^ 63` in all. -/
structure Steady (d : Nat) (s : MultilevelScheduler η) : Prop where
  progress : s.inProgress ≤ d + 1
  few : s.calls.length < 2 ^ 63
  counts : s.Counts
  ranged : s.Ranged
  sound : ∀ c ∈ s.calls, Sound d s c
  balanced : s.Balanced d

theorem choosing_not_finished {p : Place} (h : p.choosing = true) : p.finished = false := by
  cases p <;> first | rfl | cases h

theorem early_le_inProgress (s : MultilevelScheduler η) (b a : Nat) :
    s.early b a ≤ s.inProgress := by
  refine List.countP_mono_left fun c _ hc => ?_
  rw [Bool.and_eq_true, Bool.and_eq_true] at hc
  rw [choosing_not_finished hc.1.2]
  rfl

theorem pending_not_finished {b : Nat} {p : Place} (h : p.pending b = true) :
    p.finished = false := by
  cases p <;> first | rfl | cases h

/-- The other calls: a scan finds at most `d` tasks of a node whose calls go on. -/
theorem pending_le {d : Nat} {s : MultilevelScheduler η} (hprogress : s.inProgress ≤ d + 1)
    {c : Call η} (hc : c ∈ s.calls) (hplace : c.place.choosing = true) (b : Nat) :
    s.pending b ≤ d := by
  have hone : s.pending b < s.inProgress := by
    refine countP_lt_of_mem hc ?_ ?_ fun x hx => ?_
    · rw [choosing_not_finished hplace]
      rfl
    · cases hp : c.place <;> rw [hp] at hplace <;> first | rfl | cases hplace
    · rw [pending_not_finished hx]
      rfl
  omega

section Steady

variable {d : Nat} {s : MultilevelScheduler η}

theorem Steady.toNat_queued (hs : s.Steady d) (b : Nat) : (s.queued b).toNat = s.waiting b := by
  have hle : s.waiting b ≤ s.calls.length := List.countP_le_length
  have hfew := hs.few
  rw [hs.counts.queued b]
  exact Nat.mod_eq_of_lt (show s.waiting b < 2 ^ 64 by omega)

theorem Steady.toNat_running (hs : s.Steady d) (b : Nat) : (s.running b).toNat = s.landed b := by
  have hle : s.landed b ≤ s.calls.length := List.countP_le_length
  have hfew := hs.few
  rw [hs.counts.running b]
  exact Nat.mod_eq_of_lt (show s.landed b < 2 ^ 64 by omega)

/-- The sum of the two counters, read one after the other. -/
theorem Steady.load_read (hs : s.Steady d) {c : Call η} (hc : c ∈ s.calls) {i : Nat}
    {best : Option (Nat × BitVec 64)} {qf : Bool} {part : BitVec 64}
    (hplace : c.place = .readRest i best qf part) :
    ∃ n, c.seen[i]? = some n ∧
      n ≤ (part + if qf then s.running i else s.queued i).toNat + d ∧
      (part + if qf then s.running i else s.queued i).toNat ≤ s.received i + d := by
  have hsound := hs.sound c hc
  rw [Sound, hplace] at hsound
  obtain ⟨-, -, hpart, n, hn, hseen⟩ := hsound
  refine ⟨n, hn, ?_⟩
  have hfew := hs.few
  have hreceived := received_eq s i
  have hwaiting := waiting_le_pending s i
  have hpending := pending_le hs.progress hc (by rw [hplace]; rfl) i
  have hland : s.landed i ≤ s.calls.length := List.countP_le_length
  have hwait : s.waiting i ≤ s.calls.length := List.countP_le_length
  cases qf with
  | true =>
    rw [if_pos rfl] at hseen
    rw [if_pos rfl, BitVec.toNat_add, hs.toNat_running i, Nat.mod_eq_of_lt (by omega)]
    omega
  | false =>
    rw [if_neg Bool.false_ne_true] at hseen
    rw [if_neg Bool.false_ne_true, BitVec.toNat_add, hs.toNat_queued i,
      Nat.mod_eq_of_lt (by omega)]
    omega

/-- The first of the two loads. -/
theorem Steady.part_read (hs : s.Steady d) {c : Call η} (hc : c ∈ s.calls)
    (hplace : c.place.choosing = true) (i : Nat) (qf : Bool) :
    let part := if qf then s.queued i else s.running i
    part.toNat ≤ s.calls.length ∧
      if qf then part.toNat ≤ d ∧ s.routed i ≤ s.landed i + d
      else part.toNat ≤ s.landed i ∧ s.routed i ≤ part.toNat + d := by
  have hreceived := received_eq s i
  have hwaiting := waiting_le_pending s i
  have hpending := pending_le hs.progress hc hplace i
  have hland : s.landed i ≤ s.calls.length := List.countP_le_length
  have hwait : s.waiting i ≤ s.calls.length := List.countP_le_length
  have hrouted : s.routed i ≤ s.received i :=
    List.countP_mono_left fun c _ hc => (Bool.and_eq_true _ _ ▸ hc).2
  cases qf with
  | true =>
    simp only [if_true, hs.toNat_queued i]
    omega
  | false =>
    simp only [Bool.false_eq_true, if_false, hs.toNat_running i]
    omega

theorem Steady.step_sound (hs : s.Steady d) (a : Action η) :
    ∀ c ∈ (s.step a).calls, Sound d (s.step a) c := by
  have hup := step_grown s a
  have hstep := step_stepped s a
  generalize s.step a = t at hstep hup ⊢
  have hold : ∀ c ∈ s.calls, Sound d t c := fun c hc => (hs.sound c hc).mono hup
  have hspawn : ∀ c', Sound d t c' → ∀ c ∈ s.calls ++ [c'], Sound d t c := by
    intro c' h c hc
    rcases List.mem_append.mp hc with hc | hc
    · exact hold c hc
    · rwa [List.mem_singleton.mp hc]
  have hmoved : ∀ k c', Sound d t c' → ∀ c ∈ s.calls.set k c', Sound d t c := by
    intro k c' h c hc
    rcases List.mem_or_eq_of_mem_set hc with hc | rfl
    · exact hold c hc
    · exact h
  cases hstep with
  | submit h affinity => exact hspawn _ ⟨rfl, rfl⟩
  | submitTo i h =>
    refine hspawn _ ?_
    split
    · trivial
    · exact fun h => absurd h Bool.noConfusion
  | read k qf h pinned seen i best here =>
    have hc := List.mem_of_getElem? here
    obtain ⟨hlen, hbest⟩ := hs.sound _ hc
    obtain ⟨hpart, hseen⟩ := hs.part_read hc rfl i qf
    have hlast : (seen ++ [s.routed i])[i]? = some (s.routed i) := by
      rw [← hlen]
      exact List.getElem?_concat_length
    refine hmoved k _ (Sound.mono hup (s := s) ⟨?_, ?_, hpart, s.routed i, hlast, hseen⟩)
    · rw [List.length_append, hlen]
      rfl
    · cases best with
      | none => exact hbest
      | some x =>
        obtain ⟨⟨n, hn, hlow⟩, hhigh⟩ := hbest
        exact ⟨⟨n, (List.getElem?_append_left (List.getElem?_eq_some_iff.mp hn).1).trans hn, hlow⟩,
          hhigh⟩
  | readRest k qf h pinned seen i best qf' part here =>
    have hc := List.mem_of_getElem? here
    obtain ⟨hlen, hbest, -⟩ := hs.sound _ hc
    obtain ⟨n, hn, hlow, hhigh⟩ := hs.load_read hc rfl
    exact hmoved k _ ((afterRead_sound (better_seen hbest hn hlow hhigh) hlen h pinned).mono hup)
  | enqueue k qf h pinned seen b here => exact hmoved k _ trivial
  | post k qf h pinned seen b here => exact hmoved k _ trivial
  | dequeue k qf h pinned seen b here => exact hmoved k _ trivial
  | run k qf h pinned seen b here => exact hmoved k _ trivial
  | idle k qf => exact hold

/-- A step keeps the balance when a task that it routes past `a` was owed before. Up to `a` the
    calls in progress are few enough. -/
theorem Steady.balanced_of (hs : s.Steady d) {t : MultilevelScheduler η} (hst : s.Grown t)
    (hprogress : t.inProgress ≤ d + 1) (hone : ∀ b, t.routed b ≤ s.routed b + 1)
    (h : ∀ b j a, j < s.count → s.received j + 2 * d ≤ a → a < t.routed b →
      t.routed b + t.early b a ≤ s.routed b + s.early b a) : t.Balanced d := by
  intro b j a hj ha
  have hj' : j < s.count := hst.count ▸ hj
  have ha' : s.received j + 2 * d ≤ a :=
    Nat.le_trans (Nat.add_le_add_right (hst.received j) _) ha
  have hearly := early_le_inProgress t b a
  by_cases hpast : a < t.routed b
  · have hbal := hs.balanced b j a hj' ha'
    have hstep := hone b
    have hsum := h b j a hj' ha' hpast
    omega
  · omega

/-- A step that moves one call and routes nothing. -/
theorem Steady.balanced_moved (hs : s.Steady d) {t : MultilevelScheduler η} (hst : s.Grown t)
    (hprogress : t.inProgress ≤ d + 1) {k : Nat} {c c' : Call η} (here : s.calls[k]? = some c)
    (hcalls : t.calls = s.calls.set k c') (hpinned : c'.pinned = c.pinned)
    (harrived : ∀ b, c'.place.arrived b = true → c.place.arrived b = true)
    (hchoosing : c'.place.choosing = true → c.place.choosing = true)
    (hseen : ∀ b a, a < s.routed b → c'.seen[b]?.any (· ≤ a) = true →
      c.seen[b]?.any (· ≤ a) = true) : t.Balanced d := by
  have hrouted : ∀ b, t.routed b ≤ s.routed b := by
    intro b
    unfold routed
    rw [hcalls]
    refine countP_moved_le here fun h => ?_
    rw [hpinned, Bool.and_eq_true] at h
    exact Bool.and_eq_true _ _ ▸ ⟨h.1, harrived b h.2⟩
  refine hs.balanced_of hst hprogress (fun b => Nat.le_succ_of_le (hrouted b)) ?_
  intro b j a _ _ ha
  refine Nat.add_le_add (hrouted b) ?_
  unfold early
  rw [hcalls]
  refine countP_moved_le here fun h => ?_
  simp only [hpinned, Bool.and_eq_true] at h ⊢
  exact ⟨⟨h.1.1, hchoosing h.1.2⟩, hseen b a (Nat.lt_of_lt_of_le ha (hrouted b)) h.2⟩

/-- A step that adds a call which has not chosen a node and has seen nothing. -/
theorem Steady.balanced_added (hs : s.Steady d) {t : MultilevelScheduler η} (hst : s.Grown t)
    (hprogress : t.inProgress ≤ d + 1) {c : Call η} (hcalls : t.calls = s.calls ++ [c])
    (harrived : ∀ b, (!c.pinned && c.place.arrived b) = false) (hseen : c.seen = []) :
    t.Balanced d := by
  have hrouted : ∀ b, t.routed b = s.routed b := by
    intro b
    simp [routed, hcalls, harrived b]
  refine hs.balanced_of hst hprogress (fun b => Nat.le_succ_of_le (Nat.le_of_eq (hrouted b))) ?_
  intro b j a _ _ _
  rw [hrouted b]
  simp [early, hcalls, hseen]

/-- A step that routes a task to the node that a call has chosen: what it had seen of that node is
    no more than what the node had received, so that a task routed past `a` was owed before. -/
theorem Steady.balanced_routed (hs : s.Steady d) {t : MultilevelScheduler η} (hst : s.Grown t)
    (hprogress : t.inProgress ≤ d + 1) {k : Nat} {h : η} {pinned : Bool} {seen : List Nat}
    {b : Nat} (here : s.calls[k]? = some ⟨h, pinned, seen, .enqueue b⟩)
    (hcalls : t.calls = s.calls.set k ⟨h, pinned, seen, .post b⟩) : t.Balanced d := by
  have hsound := hs.sound _ (List.mem_of_getElem? here)
  have hrouted : ∀ b', t.routed b' = s.routed b' + if !pinned && b = b' then 1 else 0 := by
    intro b'
    have hcount := countP_moved (fun c : Call η => !c.pinned && c.place.arrived b')
      ⟨h, pinned, seen, .post b⟩ here
    rw [← hcalls] at hcount
    simpa [routed, Place.arrived, Place.pending, Place.landed] using hcount
  have hearly : ∀ b' a, t.early b' a + (if !pinned && seen[b']?.any (· ≤ a) then 1 else 0) =
      s.early b' a := by
    intro b' a
    have hcount := countP_moved (fun c : Call η => !c.pinned && c.place.choosing &&
      c.seen[b']?.any (· ≤ a)) ⟨h, pinned, seen, .post b⟩ here
    rw [← hcalls] at hcount
    simpa [early, Place.choosing] using hcount
  refine hs.balanced_of hst hprogress (fun b' => ?_) fun b' j a hj ha hpast => ?_
  · rw [hrouted b']
    split <;> omega
  · rw [hrouted b', ← hearly b' a]
    cases pinned with
    | true => simp
    | false =>
      by_cases hb : b = b'
      · subst hb
        obtain ⟨n, hn, hle⟩ := hsound rfl
        have hna : n ≤ a := Nat.le_trans (hle j hj) ha
        rw [show seen[b]? = some n from hn]
        simp [hna]
        omega
      · simp [hb]

theorem Steady.step_balanced (hs : s.Steady d) {a : Action η}
    (hprogress : (s.step a).inProgress ≤ d + 1) : (s.step a).Balanced d := by
  have hup := step_grown s a
  have hstep := step_stepped s a
  generalize s.step a = t at hstep hup hprogress ⊢
  cases hstep with
  | submit h affinity => exact hs.balanced_added hup hprogress rfl (fun _ => rfl) rfl
  | submitTo i h => exact hs.balanced_added hup hprogress rfl (fun _ => rfl) rfl
  | read k qf h pinned seen i best here =>
    obtain ⟨hlen, -⟩ := hs.sound _ (List.mem_of_getElem? here)
    refine hs.balanced_moved hup hprogress here rfl rfl (fun _ => id) (fun _ => rfl) ?_
    intro b a ha hany
    -- what is seen now of node `i` is all that was routed to it, which is past `a`
    rw [List.getElem?_append] at hany
    split at hany
    · exact hany
    · next hb =>
      rcases Nat.lt_or_eq_of_le (Nat.le_of_not_lt hb) with hb | rfl
      · rw [List.getElem?_eq_none (by simp only [List.length_singleton]; omega)] at hany
        cases hany
      · obtain rfl : seen.length = i := hlen
        rw [Nat.sub_self] at hany
        exact absurd (of_decide_eq_true hany) (Nat.not_le_of_lt ha)
  | readRest k qf h pinned seen i best qf' part here =>
    refine hs.balanced_moved hup hprogress here rfl rfl (fun b => ?_) (fun _ => rfl) fun _ _ _ => id
    rw [(afterRead_place s i _ b).1]
    exact nofun
  | enqueue k qf h pinned seen b here => exact hs.balanced_routed hup hprogress here rfl
  | post k qf h pinned seen b here =>
    exact hs.balanced_moved hup hprogress here rfl rfl (fun _ => id) nofun fun _ _ _ => id
  | dequeue k qf h pinned seen b here =>
    exact hs.balanced_moved hup hprogress here rfl rfl (fun _ => id) nofun fun _ _ _ => id
  | run k qf h pinned seen b here =>
    refine hs.balanced_moved hup hprogress here rfl rfl (fun b' h => ?_) nofun fun _ _ _ => id
    simpa [Place.arrived, Place.pending, Place.landed] using h
  | idle k qf => exact hs.balanced

end Steady

theorem new_steady (cfg : TierConfig) (d : Nat) : (new cfg : MultilevelScheduler η).Steady d where
  progress := Nat.zero_le _
  few := Nat.two_pow_pos 63
  counts := new_counts cfg
  ranged _ hc := absurd hc List.not_mem_nil
  sound _ hc := absurd hc List.not_mem_nil
  balanced _ _ _ _ _ := by simp [routed, early, new]

theorem Steady.step {d : Nat} {s : MultilevelScheduler η} (hs : s.Steady d) {a : Action η}
    (hok : (s.step a).inProgress ≤ d + 1 ∧ (s.step a).calls.length < 2 ^ 63) :
    (s.step a).Steady d where
  progress := hok.1
  few := hok.2
  counts := step_counts hs.counts a
  ranged := step_ranged hs.ranged a
  sound := hs.step_sound a
  balanced := hs.step_balanced hok.1

theorem length_mono (s : MultilevelScheduler η) (ops : List (Action η)) :
    s.calls.length ≤ (Lib.run step s ops).calls.length :=
  run_invariant (I := fun t => s.calls.length ≤ t.calls.length) (Nat.le_refl _)
    (fun t a ht => Nat.le_trans ht (step_grown t a).length) ops

/-- While at most `d` other calls are in progress at any time, no node is routed more tasks than
    another has received, and `3 * d + 1` on top. -/
theorem routed_le (cfg : TierConfig) (d : Nat) {ops : List (Action η)}
    (hprogress : ∀ pre, pre <+: ops → (Lib.run step (new cfg) pre).inProgress ≤ d + 1)
    (hfew : (Lib.run step (new cfg) ops).calls.length < 2 ^ 63) (b : Nat) {j : Nat}
    (hj : j < (new cfg : MultilevelScheduler η).count) :
    (Lib.run step (new cfg) ops).routed b ≤
      (Lib.run step (new cfg) ops).received j + 3 * d + 1 := by
  have hmeet : StepsMeet step (fun s a => (s.step a).inProgress ≤ d + 1 ∧
      (s.step a).calls.length < 2 ^ 63) (new cfg) ops := by
    rintro pre a ⟨post, rfl⟩
    rw [← run_snoc step]
    refine ⟨hprogress _ (List.prefix_append _ _), ?_⟩
    rw [run_append] at hfew
    exact Nat.lt_of_le_of_lt (length_mono _ post) hfew
  have hs : (Lib.run step (new cfg) ops).Steady d :=
    run_invariant_of_meet (new_steady cfg d) (fun _ _ hs hok => hs.step hok) hmeet
  have hbal := hs.balanced b j _ ((after_count cfg ops).symm ▸ hj) (Nat.le_refl _)
  omega

theorem routed_le_twoScans :
    (Lib.run step (new ⟨2, 1⟩) twoScans).routed 0 ≤
      (Lib.run step (new ⟨2, 1⟩) twoScans).received 1 + 3 * 1 + 1 := by
  have hprogress : ∀ pre ∈ twoScans.inits, (Lib.run step (new ⟨2, 1⟩) pre).inProgress ≤ 2 := by
    decide
  exact routed_le ⟨2, 1⟩ 1 (fun pre hp => hprogress pre ((List.mem_inits pre _).mpr hp)) (by decide)
    0 (by decide)

end MultilevelScheduler

end NeuroVerse.Sched
