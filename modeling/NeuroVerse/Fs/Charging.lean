/-
  One `write_charging` of a `RamFS`, from any state a run leads to.

  A write within its file should drop only what it has to, of the other files. It drops the file it
  writes to as well when that one is old enough (`evicts_others_iff`). A write past the end should
  leave everything as it was, but room is made for it first (`past_end_iff`).
-/
import NeuroVerse.Fs.Accounting

namespace NeuroVerse.Fs

open NeuroVerse.Lib

namespace RamFS

def Reachable (capacity : Nat) (s : RamFS) : Prop := ∃ ops : List Op, s = run step { capacity } ops

/-! ## What every state has -/

theorem Reachable.clocked {capacity : Nat} {s : RamFS} (h : s.Reachable capacity) : s.Clocked := by
  obtain ⟨ops, rfl⟩ := h
  exact run_invariant (empty_clocked capacity) (fun s op hs => step_clocked hs op) ops

/-- The count is within the capacity, even where it is not the sum of the sizes. -/
structure Bounded (capacity : Nat) (s : RamFS) : Prop where
  fixed : s.capacity = capacity
  used : 0 < capacity → s.bytesUsed ≤ capacity

theorem Bounded.of_le {capacity : Nat} {s s' : RamFS} (h : s.Bounded capacity)
    (hcap : s'.capacity = s.capacity) (hle : s'.bytesUsed ≤ s.bytesUsed) : s'.Bounded capacity :=
  ⟨hcap.trans h.fixed, fun hpos => Nat.le_trans hle (h.used hpos)⟩

theorem evictOldest_bounded {capacity : Nat} {s : RamFS} (h : s.Bounded capacity) :
    s.evictOldest.Bounded capacity := by
  rw [evictOldest]
  split
  · exact h
  · exact h.of_le rfl (Nat.sub_le _ _)

theorem reserveLoop_bounded {capacity : Nat} (n k : Nat) {s : RamFS} (h : s.Bounded capacity) :
    (reserveLoop n k s).2.Bounded capacity ∧ ((reserveLoop n k s).1 = true →
      ((reserveLoop n k s).2.bytesUsed + n) % 2 ^ 64 ≤ capacity) := by
  induction k generalizing s with
  | zero => exact ⟨h, fun hok => h.fixed ▸ of_decide_eq_true hok⟩
  | succ k ih =>
    rw [reserveLoop]
    split
    · next hfit => exact ⟨h, fun _ => h.fixed ▸ hfit⟩
    · split
      · exact ⟨h, fun hok => absurd hok Bool.false_ne_true⟩
      · exact ih (evictOldest_bounded h)

theorem reserve_bounded {capacity : Nat} (n : Nat) {s : RamFS} (h : s.Bounded capacity) :
    (s.reserve n).2.Bounded capacity ∧ ((s.reserve n).1 = true → 0 < capacity →
      ((s.reserve n).2.bytesUsed + n) % 2 ^ 64 ≤ capacity) := by
  rw [reserve]
  split
  · next hcap => exact ⟨h, fun _ hpos => absurd (h.fixed ▸ hcap) (Nat.pos_iff_ne_zero.mp hpos)⟩
  · obtain ⟨hb, hroom⟩ := reserveLoop_bounded n s.nodes.length h
    exact ⟨hb, fun hok _ => hroom hok⟩

theorem writeNode_bounded {capacity : Nat} {s : RamFS} (h : s.Bounded capacity) (path : Path)
    (offset : BitVec 64) (bytes : List Byte) (delta : Nat)
    (hroom : 0 < capacity → (s.bytesUsed + delta) % 2 ^ 64 ≤ capacity) :
    (s.writeNode path offset bytes delta).2.Bounded capacity := by
  cases hn : s.find path with
  | none =>
    rw [writeNode_gone offset bytes delta hn]
    exact h.of_le rfl (Nat.le_refl _)
  | some n =>
    rcases Nat.lt_or_ge n.sizeBytes offset.toNat with hpast | hin
    · rw [writeNode_rejected hn hpast]
      exact h.of_le rfl (Nat.sub_le _ _)
    · rw [writeNode_ok hn hin]
      exact ⟨h.fixed, hroom⟩

theorem step_bounded {capacity : Nat} {s : RamFS} (h : s.Bounded capacity) (op : Op) :
    (s.step op).Bounded capacity := by
  cases op with
  | open_ path flags =>
    simp only [step, open_]
    split
    · split
      · exact h
      · split
        · exact h.of_le rfl (Nat.sub_le _ _)
        · exact h.of_le rfl (Nat.le_refl _)
    · split
      · exact h
      · exact h.of_le rfl (Nat.le_refl _)
  | lookup path =>
    simp only [step, lookup]
    split
    · exact h
    · exact h.of_le rfl (Nat.le_refl _)
  | writeCharging path offset bytes =>
    cases hn : s.find path with
    | none =>
      rw [step_write_missing hn]
      exact h
    | some n =>
      rcases Nat.eq_zero_or_pos (growth n.sizeBytes offset bytes) with hzero | hgrow
      · rw [step_write_still hn hzero]
        refine writeNode_bounded h path offset bytes 0 fun hpos => ?_
        exact Nat.le_trans (Nat.mod_le _ _) (h.used hpos)
      · obtain ⟨hb, hroom⟩ := reserve_bounded (growth n.sizeBytes offset bytes) h
        rw [step_write_grows hn hgrow]
        split
        · next hok => exact writeNode_bounded hb path offset bytes _ (hroom hok)
        · exact hb
  | clear => exact ⟨h.fixed, fun _ => Nat.zero_le _⟩

theorem Reachable.bounded {capacity : Nat} {s : RamFS} (h : s.Reachable capacity) :
    s.Bounded capacity := by
  obtain ⟨ops, rfl⟩ := h
  exact run_invariant (I := Bounded capacity) ⟨rfl, fun _ => Nat.zero_le _⟩
    (fun s op hs => step_bounded hs op) ops

/-! ## Finding after a write -/

theorem find_update {s : RamFS} {path : Path} {f : RamVNode → RamVNode}
    (hf : ∀ n, n.path = path → (f n).path = path) (q : Path) :
    (s.update path f).find q = (s.find q).map fun n => if n.path = path then f n else n := by
  have hsame : ((fun n : RamVNode => decide (n.path = q)) ∘
      fun n => if n.path = path then f n else n) = fun n => decide (n.path = q) := by
    funext n
    simp only [Function.comp_apply]
    split
    · next hp => rw [hf n hp, hp]
    · rfl
  rw [find, update, List.find?_map, hsame, find]

theorem find_update_ne {s : RamFS} {path q : Path} {f : RamVNode → RamVNode}
    (hf : ∀ n, n.path = path → (f n).path = path) (hq : q ≠ path) :
    (s.update path f).find q = s.find q := by
  rw [find_update hf]
  cases hm : s.find q with
  | none => rfl
  | some m =>
    have hne : m.path ≠ path := (find_some hm).2.trans_ne hq
    rw [Option.map_some, if_neg hne]

theorem find_update_eq {s : RamFS} {path : Path} {n : RamVNode} {f : RamVNode → RamVNode}
    (hf : ∀ n, n.path = path → (f n).path = path) (hn : s.find path = some n) :
    (s.update path f).find path = some (f n) := by
  rw [find_update hf, hn, Option.map_some, if_pos (find_some hn).2]

/-- A write within its file succeeds and changes this file alone. -/
theorem writeNode_within {s : RamFS} {path : Path} {n : RamVNode} {offset : BitVec 64}
    (hn : s.find path = some n) (hin : offset.toNat ≤ n.sizeBytes) (bytes : List Byte)
    (delta : Nat) :
    (s.writeNode path offset bytes delta).1 = .ok bytes.length ∧
      ((s.writeNode path offset bytes delta).2.find path).map RamVNode.data =
        some (spliced n.data offset.toNat bytes) ∧
      ∀ q, q ≠ path → (s.writeNode path offset bytes delta).2.find q = s.find q := by
  have hres : (n.write offset.toNat bytes).1 = .ok bytes.length := (RamVNode.write_ok hin).1
  have hpath : (n.write offset.toNat bytes).2.path = path :=
    (RamVNode.write_ok hin).2.1.trans (find_some hn).2
  have htouch : ∀ m : RamVNode, m.path = path → (m.touch s.tick).path = path := fun _ h => h
  refine ⟨?_, ?_, fun q hq => ?_⟩
  · simp only [writeNode, hn]
    split
    · next e node' heq => rw [heq] at hres; cases hres
    · next w node' heq => rw [heq] at hres; exact hres
  · rw [writeNode_ok hn hin]
    show Option.map _ (((s.update path fun _ => (n.write offset.toNat bytes).2).update path
      fun m => m.touch s.tick).find path) = _
    rw [find_update_eq htouch (find_update_eq (fun _ _ => hpath) hn)]
    exact congrArg some (RamVNode.write_ok hin).2.2
  · rw [writeNode_ok hn hin]
    show ((s.update path fun _ => (n.write offset.toNat bytes).2).update path
      fun m => m.touch s.tick).find q = _
    rw [find_update_ne htouch hq, find_update_ne (fun _ _ => hpath) hq]

/-! ## A write within its file -/

/-- `m` is a file of `s` that is no longer there in `s'`. -/
def Removed (s s' : RamFS) (m : RamVNode) : Prop := m ∈ s.nodes ∧ s'.find m.path = none

/-- What `write_charging` of a file `n` is for: it succeeds when the file fits, and then it writes
    to it and removes the oldest of the other files, no more of them than it has to. -/
structure EvictsOthers (s : RamFS) (path : Path) (n : RamVNode) (offset : BitVec 64)
    (bytes : List Byte) (r : Except Error Nat × RamFS) : Prop where
  defined : r.2.undefined = false
  succeeds : (∃ w, r.1 = .ok w) ↔ max n.sizeBytes (offset.toNat + bytes.length) ≤ s.capacity
  written : (∃ w, r.1 = .ok w) →
    (r.2.find path).map RamVNode.data = some (spliced n.data offset.toNat bytes)
  others : (∃ w, r.1 = .ok w) → ∀ q, q ≠ path → r.2.find q = s.find q ∨ r.2.find q = none
  oldest : (∃ w, r.1 = .ok w) → ∀ m, Removed s r.2 m → ∀ k ∈ s.nodes, k.path ≠ path →
    ¬ Removed s r.2 k → m.lastAccess < k.lastAccess
  needed : (∃ w, r.1 = .ok w) → ∀ m, Removed s r.2 m →
    (∀ m', Removed s r.2 m' → m'.lastAccess ≤ m.lastAccess) →
    s.capacity < r.2.total + m.sizeBytes

theorem fits_iff {s : RamFS} (hcap : 0 < s.capacity) {n u : Nat} (h : u + n < 2 ^ 64) :
    s.Fits n u ↔ u + n ≤ s.capacity := by
  rw [Fits, Nat.mod_eq_of_lt h, or_iff_right (Nat.pos_iff_ne_zero.mp hcap)]

theorem sizeBytes_le_later {s : RamFS} {n : RamVNode} (h : n ∈ s.nodes) :
    n.sizeBytes ≤ s.later n.lastAccess := by
  have hmem : n ∈ (s.dropOlder n.lastAccess).nodes :=
    List.mem_filter.mpr ⟨h, decide_eq_true (Nat.le_refl _)⟩
  exact total_le_of_mem hmem

/-- The newest of the files dropped, together with those that are left. -/
theorem later_newest {s : RamFS} (hs : s.Clocked) {m : RamVNode} {t : Nat} (hm : m ∈ s.nodes)
    (hlt : m.lastAccess < t)
    (hnew : ∀ m' ∈ s.nodes, m'.lastAccess < t → m'.lastAccess ≤ m.lastAccess) :
    s.later m.lastAccess = s.later t + m.sizeBytes := by
  have hmem : m ∈ s.nodes.filter fun x => m.lastAccess ≤ x.lastAccess :=
    List.mem_filter.mpr ⟨hm, decide_eq_true (Nat.le_refl _)⟩
  have hleft : ((s.nodes.filter fun x => m.lastAccess ≤ x.lastAccess).filter fun x =>
      x.path ≠ m.path) = s.nodes.filter fun x => t ≤ x.lastAccess := by
    rw [List.filter_filter]
    refine List.filter_congr fun x hx => ?_
    rw [← Bool.decide_and, decide_eq_decide]
    constructor
    · rintro ⟨hp, hle⟩
      have hne : x.lastAccess ≠ m.lastAccess := fun ht =>
        hp (congrArg RamVNode.path (List.inj_on_of_nodup_map hs.ticks hx hm ht))
      have := hnew x hx
      omega
    · intro hle
      refine ⟨fun hp => ?_, by omega⟩
      rw [List.inj_on_of_nodup_map hs.paths hx hm hp] at hle
      omega
  have hsum := sum_erase (hs.filter _ 0).paths hmem
  rw [hleft] at hsum
  exact hsum.symm

/-- After the files accessed before `t` were dropped and one that was not was written to, the
    former are those that are gone. -/
theorem removed_iff {s : RamFS} (hs : s.Clocked) {path : Path} {n : RamVNode}
    (hn : s.find path = some n) {offset : BitVec 64} (hin : offset.toNat ≤ n.sizeBytes)
    (bytes : List Byte) (delta : Nat) {t : Nat} (hle : t ≤ n.lastAccess) {m : RamVNode}
    (hm : m ∈ s.nodes) :
    Removed s ((s.dropOlder t).writeNode path offset bytes delta).2 m ↔ m.lastAccess < t := by
  obtain ⟨hnode, hpath⟩ := find_some hn
  have hfind : (s.dropOlder t).find path = some n := by rw [find_dropOlder hs hn, if_pos hle]
  obtain ⟨-, hdata, hothers⟩ := writeNode_within hfind hin bytes delta
  by_cases hp : m.path = path
  · have hsame : m = n := List.inj_on_of_nodup_map hs.paths hm hnode (hp.trans hpath.symm)
    refine iff_of_false (fun hrem => ?_) (hsame ▸ Nat.not_lt_of_le hle)
    have hmiss := hrem.2
    rw [hp] at hmiss
    rw [hmiss] at hdata
    cases hdata
  · rw [Removed, and_iff_right hm, hothers m.path hp, find_dropOlder hs (find_of_mem hs hm)]
    split
    · next h => exact iff_of_false nofun (Nat.not_lt_of_le h)
    · next h => exact iff_of_true rfl (Nat.lt_of_not_le h)

/-- The files accessed before `t` are dropped, the file to write to is not one of them, and the
    write is done on what is left. -/
theorem kept_evictsOthers {s : RamFS} (hs : s.Clocked) (hcap : 0 < s.capacity)
    (hdef : s.undefined = false) {path : Path} {n : RamVNode} (hn : s.find path = some n)
    {offset : BitVec 64} (hin : offset.toNat ≤ n.sizeBytes) {bytes : List Byte}
    (hmem : s.total + bytes.length < 2 ^ 64) {r : Bool × RamFS} {t : Nat}
    (hr : Reserved s (growth n.sizeBytes offset bytes) r t) (hok : r.1 = true)
    (hle : t ≤ n.lastAccess) :
    EvictsOthers s path n offset bytes
      ((s.dropOlder t).writeNode path offset bytes (growth n.sizeBytes offset bytes)) := by
  obtain ⟨hnode, hpath⟩ := find_some hn
  have hsize : n.sizeBytes ≤ s.total := total_le_of_mem hnode
  have hdelta := growth_eq hin bytes (by omega)
  have hleft := later_le_total s t
  have hs' : (s.dropOlder t).Clocked := hs.filter _ _
  have hfind : (s.dropOlder t).find path = some n := by rw [find_dropOlder hs hn, if_pos hle]
  obtain ⟨hres, hdata, hothers⟩ :=
    writeNode_within hfind hin bytes (growth n.sizeBytes offset bytes)
  have hroom := (fits_iff hcap (by omega)).mp (hr.granted hok)
  have hown : n.sizeBytes ≤ s.later t := Nat.le_trans (sizeBytes_le_later hnode) (later_mono s hle)
  have hgone := fun {m : RamVNode} (hm : m ∈ s.nodes) =>
    removed_iff hs hn hin bytes (growth n.sizeBytes offset bytes) hle hm
  refine ⟨?_, iff_of_true ⟨_, hres⟩ (by omega), fun _ => hdata, fun _ q hq => ?_,
    fun _ m hm k hk _ hstay => ?_, fun _ m hm hnew => ?_⟩
  · rw [writeNode_ok hfind hin]
    exact hdef
  · rw [hothers q hq]
    cases hq' : (s.dropOlder t).find q with
    | none => exact Or.inr rfl
    | some k =>
      obtain ⟨hk, rfl⟩ := find_some hq'
      exact Or.inl (find_of_mem hs (List.mem_filter.mp hk).1).symm
  · exact Nat.lt_of_lt_of_le ((hgone hm.1).mp hm) (Nat.le_of_not_lt (mt (hgone hk).mpr hstay))
  · have hlt := (hgone hm.1).mp hm
    have hmore := later_le_total s m.lastAccess
    have hout := mt (fits_iff hcap (by omega)).mpr (hr.evicted m hm.1 hlt)
    have hlast := later_newest hs hm.1 hlt fun m' hm' hlt' => hnew m' ((hgone hm').mpr hlt')
    have htotal := total_writeNode hs' hfind hin bytes (growth n.sizeBytes offset bytes)
    rw [total_dropOlder] at htotal
    omega

/-- A write within its file evicts as it should exactly when the file, those accessed after it and
    the growth fit together, or the growth alone does not. -/
theorem evicts_others_iff {capacity : Nat} {s : RamFS} (hs : s.Reachable capacity)
    (hcap : 0 < s.capacity) (hdef : s.undefined = false) (hused : s.bytesUsed = s.total)
    {path : Path} {n : RamVNode} (hn : s.find path = some n) {offset : BitVec 64}
    (hin : offset.toNat ≤ n.sizeBytes) (bytes : List Byte)
    (hmem : s.total + bytes.length < 2 ^ 64) :
    EvictsOthers s path n offset bytes ((writeCharging path offset bytes).run s) ↔
      s.later n.lastAccess + (offset.toNat + bytes.length) ≤ s.capacity + n.sizeBytes ∨
        s.capacity + n.sizeBytes < offset.toNat + bytes.length := by
  have hclock := hs.clocked
  have hsize : n.sizeBytes ≤ s.total := total_le_of_mem (find_some hn).1
  have hdelta := growth_eq hin bytes (by omega)
  have hlater := later_le_total s n.lastAccess
  have hbound : s.total ≤ s.capacity := by
    rw [← hused, hs.bounded.fixed]
    exact hs.bounded.used (hs.bounded.fixed ▸ hcap)
  have hfull : s.Fits (growth n.sizeBytes offset bytes) (s.later n.lastAccess) ↔ _ :=
    fits_iff hcap (by omega)
  have hempty : s.Fits (growth n.sizeBytes offset bytes) 0 ↔ _ := fits_iff hcap (by omega)
  rcases Nat.eq_zero_or_pos (growth n.sizeBytes offset bytes) with hzero | hgrow
  · -- nothing is reserved, and the condition holds
    have hr : Reserved s (growth n.sizeBytes offset bytes) (true, s) 0 :=
      reserved_all hused (fun _ => (fits_iff hcap (by omega)).mpr (by omega)) nofun
    have hkept := kept_evictsOthers hclock hcap hdef hn hin hmem hr rfl (Nat.zero_le _)
    rw [← hr.state, hzero] at hkept
    rw [write_still hn hzero]
    exact iff_of_true hkept (Or.inl (by omega))
  · obtain ⟨t, hr⟩ := reserve_reserved hclock hused (growth n.sizeBytes offset bytes)
    by_cases hok : (s.reserve (growth n.sizeBytes offset bytes)).1 = true
    · have hroom := (fits_iff hcap (by have := later_le_total s t; omega)).mp (hr.granted hok)
      rw [write_granted hn hgrow hok, hr.state]
      rcases Nat.lt_or_ge n.lastAccess t with hlt | hle
      · -- the file to write to was dropped
        have hgone : (s.dropOlder t).find path = none := by
          rw [find_dropOlder hclock hn, if_neg (Nat.not_le_of_lt hlt)]
        have hout := mt hfull.mpr (hr.evicted n (find_some hn).1 hlt)
        refine iff_of_false (fun h => ?_) (by omega)
        have hundef := h.defined
        rw [writeNode_gone offset bytes _ hgone] at hundef
        cases hundef
      · have := later_mono s hle
        exact iff_of_true (kept_evictsOthers hclock hcap hdef hn hin hmem hr hok hle)
          (Or.inl (by omega))
    · have hok := Bool.eq_false_iff.mpr hok
      have hout := mt hempty.mpr (hr.refused hok).2
      rw [write_refused hn hgrow hok, hr.state]
      have herr : ¬ ∃ w, (Except.error ⟨.outOfMemory,
          "RamFS::write_charging: capacity exhausted"⟩ : Except Error Nat) = .ok w := nofun
      exact iff_of_true ⟨hdef, iff_of_false herr (by omega), fun h => absurd h herr,
        fun h => absurd h herr, fun h => absurd h herr, fun h => absurd h herr⟩ (Or.inr (by omega))

/-- Two files of two bytes each, the older of them `a`. -/
def twoFiles : List Op :=
  [.open_ "a" OpenFlags.create, .open_ "b" OpenFlags.create, .writeCharging "a" 0 [1, 2],
    .writeCharging "b" 0 [3, 4]]

theorem evicts_others_iff_newer :
    EvictsOthers (run step { capacity := 4 } twoFiles) "b" ⟨2, "b", [3, 4], 4⟩ 2 [5, 6]
        ((writeCharging "b" 2 [5, 6]).run (run step { capacity := 4 } twoFiles)) ↔
      2 + 4 ≤ 4 + 2 ∨ 4 + 2 < 2 + 2 :=
  evicts_others_iff ⟨twoFiles, rfl⟩ (by decide) (by decide) (by decide) (by decide) (by decide)
    [5, 6] (by decide)

/-- Four bytes fit in a file system of four, but to make room for the two new ones of `a` the older
    file is dropped, which is `a`. -/
theorem drops_own_file :
    (run step { capacity := 4 } twoFiles).bytesUsed = (run step { capacity := 4 } twoFiles).total ∧
      (run step { capacity := 4 } twoFiles).find "a" = some ⟨1, "a", [1, 2], 3⟩ ∧
      ((writeCharging "a" 2 [5, 6]).run (run step { capacity := 4 } twoFiles)).2.undefined = true ∧
      ¬ EvictsOthers (run step { capacity := 4 } twoFiles) "a" ⟨1, "a", [1, 2], 3⟩ 2 [5, 6]
        ((writeCharging "a" 2 [5, 6]).run (run step { capacity := 4 } twoFiles)) := by
  have hundef : ((writeCharging "a" 2 [5, 6]).run
      (run step { capacity := 4 } twoFiles)).2.undefined = true := by decide
  refine ⟨by decide, by decide, hundef, fun h => ?_⟩
  rw [h.defined] at hundef
  cases hundef

/-! ## A write past the end -/

/-- An error that leaves the files, their bytes and the count as they were. -/
structure Refuses (s : RamFS) (r : Except Error Nat × RamFS) : Prop where
  failed : ∃ e, r.1 = .error e
  files : ∀ path, (r.2.find path).map RamVNode.data = (s.find path).map RamVNode.data
  count : r.2.bytesUsed = s.bytesUsed

theorem evictOldest_sublist (s : RamFS) : s.evictOldest.nodes.Sublist s.nodes := by
  rw [evictOldest]
  split
  · exact List.Sublist.refl _
  · exact List.filter_sublist

theorem reserveLoop_sublist (n k : Nat) (s : RamFS) :
    (reserveLoop n k s).2.nodes.Sublist s.nodes := by
  induction k generalizing s with
  | zero => exact List.Sublist.refl _
  | succ k ih =>
    rw [reserveLoop]
    split
    · exact List.Sublist.refl _
    · split
      · exact List.Sublist.refl _
      · exact (ih s.evictOldest).trans s.evictOldest_sublist

theorem reserve_fits {s : RamFS} {n : Nat} (h : s.Fits n s.bytesUsed) :
    s.reserve n = (true, s) := by
  rw [reserve]
  rcases h with hcap | hfit
  · rw [if_pos hcap]
  · split
    · rfl
    · cases s.nodes.length with
      | zero => rw [reserveLoop, decide_eq_true hfit]
      | succ k => rw [reserveLoop, if_pos hfit]

/-- When there is no room the oldest file is lost, whatever else is. -/
theorem reserve_loses {s : RamFS} {n : Nat} (h : ¬ s.Fits n s.bytesUsed) (hne : s.nodes ≠ []) :
    (s.reserve n).2.nodes.Sublist s.nodes ∧
      ∃ o ∈ s.nodes, ∀ m ∈ (s.reserve n).2.nodes, m.path ≠ o.path := by
  obtain ⟨hcap, hfit⟩ := not_or.mp h
  obtain ⟨o, ho⟩ := Option.ne_none_iff_exists'.mp fun hnone => hne (oldest_eq_none.mp hnone)
  obtain ⟨k, hk⟩ := Nat.exists_eq_succ_of_ne_zero fun hlen =>
    hne (List.eq_nil_of_length_eq_zero hlen)
  have hsub := reserveLoop_sublist n k s.evictOldest
  have hround : s.reserve n = reserveLoop n k s.evictOldest := by
    rw [reserve, if_neg hcap, hk, reserveLoop, if_neg hfit,
      if_neg (fun hnil => hne (List.isEmpty_iff.mp hnil))]
  rw [hround]
  refine ⟨hsub.trans s.evictOldest_sublist, o, (oldest_spec ho).1, fun m hm => ?_⟩
  have hleft := hsub.subset hm
  rw [evictOldest, ho] at hleft
  exact of_decide_eq_true (List.mem_filter.mp hleft).2

theorem find_eq_none {s : RamFS} {path : Path} (h : ∀ m ∈ s.nodes, m.path ≠ path) :
    s.find path = none :=
  List.find?_eq_none.mpr fun m hm => by simpa using h m hm

theorem not_refuses_of_lost {s : RamFS} (hs : s.Clocked) {o : RamVNode} (ho : o ∈ s.nodes)
    {r : Except Error Nat × RamFS} (hlost : ∀ m ∈ r.2.nodes, m.path ≠ o.path) :
    ¬ Refuses s r := by
  intro h
  have hfile := h.files o.path
  rw [find_eq_none hlost, find_of_mem hs ho] at hfile
  cases hfile

theorem writeNode_past_failed {s : RamFS} {path : Path} {n : RamVNode} {offset : BitVec 64}
    (hn : s.find path = some n) (hpast : n.sizeBytes < offset.toNat) (bytes : List Byte)
    (delta : Nat) : ∃ e, (s.writeNode path offset bytes delta).1 = .error e := by
  refine ⟨⟨.invalidArgument, "RamVNode::write: offset past end of file"⟩, ?_⟩
  simp only [writeNode, hn, RamVNode.write_rejected hpast]

/-- Past the end, the write itself adds and drops no file, be its own file still there or not. -/
theorem writeNode_past_nodes {s s' : RamFS} (hs : s.Clocked) (hsub : s'.nodes.Sublist s.nodes)
    {path : Path} {n : RamVNode} {offset : BitVec 64} (hn : s.find path = some n)
    (hpast : n.sizeBytes < offset.toNat) (bytes : List Byte) (delta : Nat) :
    (s'.writeNode path offset bytes delta).2.nodes = s'.nodes := by
  cases hn' : s'.find path with
  | none => rw [writeNode_gone offset bytes delta hn']
  | some n' =>
    obtain ⟨hmem, hp⟩ := find_some hn
    obtain ⟨hmem', hp'⟩ := find_some hn'
    have hsame : n' = n := List.inj_on_of_nodup_map hs.paths (hsub.subset hmem') hmem
      (hp'.trans hp.symm)
    rw [writeNode_rejected hn' (hsame ▸ hpast)]

/-- Nothing was dropped: what is left to go wrong is the rollback. -/
theorem writeNode_refuses_iff {s : RamFS} {path : Path} {n : RamVNode} {offset : BitVec 64}
    (hn : s.find path = some n) (hpast : n.sizeBytes < offset.toNat) (bytes : List Byte)
    (delta : Nat) :
    Refuses s (s.writeNode path offset bytes delta) ↔ delta = 0 ∨ s.bytesUsed = 0 := by
  have hstate : (s.writeNode path offset bytes delta).2 =
      { s with bytesUsed := s.bytesUsed - min s.bytesUsed delta } := writeNode_rejected hn hpast
  have hcount : (s.writeNode path offset bytes delta).2.bytesUsed =
      s.bytesUsed - min s.bytesUsed delta := by rw [hstate]
  constructor
  · intro h
    have := h.count
    omega
  · intro h
    refine ⟨writeNode_past_failed hn hpast bytes delta, fun path => ?_, by omega⟩
    rw [hstate]
    rfl

/-- A write past the end is refused as it should be exactly when the 64-bit sum of offset and
    length falls within the file, or nothing is counted and the growth is within the capacity. -/
theorem past_end_iff {capacity : Nat} {s : RamFS} (hs : s.Reachable capacity) {path : Path}
    {n : RamVNode} (hn : s.find path = some n) {offset : BitVec 64}
    (hpast : n.sizeBytes < offset.toNat) (bytes : List Byte) :
    Refuses s ((writeCharging path offset bytes).run s) ↔
      (offset.toNat + bytes.length) % 2 ^ 64 ≤ n.sizeBytes ∨
        s.bytesUsed = 0 ∧ (s.capacity = 0 ∨
          (offset.toNat + bytes.length) % 2 ^ 64 ≤ s.capacity + n.sizeBytes) := by
  have hclock := hs.clocked
  have hdelta : growth n.sizeBytes offset bytes =
      max n.sizeBytes ((offset.toNat + bytes.length) % 2 ^ 64) - n.sizeBytes := rfl
  have hroom : s.Fits (growth n.sizeBytes offset bytes) 0 ↔ s.capacity = 0 ∨
      (offset.toNat + bytes.length) % 2 ^ 64 ≤ s.capacity + n.sizeBytes := by
    rw [Fits, Nat.zero_add, Nat.mod_eq_of_lt (by omega)]
    exact or_congr_right (by omega)
  rw [← hroom]
  rcases Nat.eq_zero_or_pos (growth n.sizeBytes offset bytes) with hzero | hgrow
  · rw [write_still hn hzero, writeNode_refuses_iff hn hpast]
    exact iff_of_true (Or.inl rfl) (Or.inl (by omega))
  · rw [or_iff_right (by omega)]
    by_cases hfit : s.Fits (growth n.sizeBytes offset bytes) s.bytesUsed
    · have hres := reserve_fits hfit
      rw [write_granted hn hgrow (congrArg Prod.fst hres), hres,
        writeNode_refuses_iff hn hpast, or_iff_right (Nat.pos_iff_ne_zero.mp hgrow)]
      exact ⟨fun hused => ⟨hused, hused ▸ hfit⟩, fun h => h.1⟩
    · -- some file is dropped, which is more than an error may do
      refine iff_of_false ?_ fun h => hfit (h.1 ▸ h.2)
      obtain ⟨hsub, o, ho, hlost⟩ := reserve_loses hfit (List.ne_nil_of_mem (find_some hn).1)
      refine not_refuses_of_lost hclock ho ?_
      by_cases hok : (s.reserve (growth n.sizeBytes offset bytes)).1 = true
      · rw [write_granted hn hgrow hok, writeNode_past_nodes hclock hsub hn hpast]
        exact hlost
      · rw [write_refused hn hgrow (Bool.eq_false_iff.mpr hok)]
        exact hlost

/-- A file of three bytes. -/
def oneFileOfThree : List Op :=
  [.open_ "a" OpenFlags.create, .writeCharging "a" 0 [1, 2, 3]]

theorem past_end_iff_oneFile :
    Refuses (run step { capacity := 0 } oneFileOfThree)
        ((writeCharging "a" 10 [9]).run (run step { capacity := 0 } oneFileOfThree)) ↔
      (10 + 1) % 2 ^ 64 ≤ 3 ∨ 3 = 0 ∧ (0 = 0 ∨ (10 + 1) % 2 ^ 64 ≤ 0 + 3) :=
  past_end_iff (n := ⟨1, "a", [1, 2, 3], 2⟩) ⟨oneFileOfThree, rfl⟩ (by decide) (by decide) [9]

/-- After the rejected write of one byte at offset 10 the three bytes are no longer counted. -/
theorem rejected_write_uncounts :
    (run step { capacity := 0 } oneFileOfThree).find "a" = some ⟨1, "a", [1, 2, 3], 2⟩ ∧
      (run step { capacity := 0 } oneFileOfThree).bytesUsed = 3 ∧
      ((writeCharging "a" 10 [9]).run (run step { capacity := 0 } oneFileOfThree)).2.bytesUsed = 0 ∧
      ¬ Refuses (run step { capacity := 0 } oneFileOfThree)
        ((writeCharging "a" 10 [9]).run (run step { capacity := 0 } oneFileOfThree)) := by
  have hbefore : (run step { capacity := 0 } oneFileOfThree).bytesUsed = 3 := by decide
  have hafter : ((writeCharging "a" 10 [9]).run
      (run step { capacity := 0 } oneFileOfThree)).2.bytesUsed = 0 := by decide
  refine ⟨by decide, hbefore, hafter, fun h => ?_⟩
  have hcount := h.count
  rw [hbefore, hafter] at hcount
  cases hcount

end RamFS

end NeuroVerse.Fs
