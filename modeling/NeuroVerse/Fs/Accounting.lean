/-
  The byte count of a `RamFS`.

  Two ways of making room go wrong. A write past the end of its file is rejected only after room
  was made for it, and then a charge is rolled back that was never made. And the file written to
  may be the one that is dropped. In every other case the count is what it should be
  (`accounted_iff`).
-/
import NeuroVerse.Fs.Eviction

namespace NeuroVerse.Fs

open NeuroVerse.Lib

namespace RamFS

/-- The count is the sum of the sizes of the files, within the capacity if there is one, and no
    node was used after it was dropped. -/
structure Accounted (s : RamFS) : Prop where
  used : s.bytesUsed = s.total
  bound : 0 < s.capacity → s.bytesUsed ≤ s.capacity
  defined : s.undefined = false

/-- The bytes to write and the files are in the same 64-bit memory. -/
def InMemory (s : RamFS) : Op → Prop
  | .writeCharging _ _ bytes => s.total + bytes.length < 2 ^ 64
  | _ => True

/-- The write makes no file grow; or it is within its file, and that file, those accessed later and
    the growth fit together, or the growth alone does not; or it is past the end, and making room
    for it drops every byte but not the file, or drops everything. -/
def Chargeable (s : RamFS) : Op → Prop
  | .writeCharging path offset bytes => ∀ n, s.find path = some n →
    let delta := growth n.sizeBytes offset bytes
    delta = 0 ∨
    (offset.toNat ≤ n.sizeBytes ∧
      (s.Fits delta (s.later n.lastAccess) ∨ ¬ s.Fits delta 0)) ∨
    (n.sizeBytes < offset.toNat ∧
      (∀ m ∈ s.nodes, 0 < s.later m.lastAccess → ¬ s.Fits delta (s.later m.lastAccess)) ∧
      (s.later n.lastAccess = 0 ∨ ¬ s.Fits delta 0))
  | _ => True

/-! ## The write -/

theorem growth_eq {n : Nat} {offset : BitVec 64} (hoff : offset.toNat ≤ n) (bytes : List Byte)
    (hmem : n + bytes.length < 2 ^ 64) :
    growth n offset bytes = max n (offset.toNat + bytes.length) - n := by
  rw [growth, Nat.mod_eq_of_lt (by omega)]

theorem Fits.mono {s : RamFS} {n u u' : Nat} (h : s.Fits n u) (hle : u' ≤ u)
    (hmem : u + n < 2 ^ 64) : s.Fits n u' := by
  refine h.imp_right fun hfit => ?_
  rw [Nat.mod_eq_of_lt hmem] at hfit
  rw [Nat.mod_eq_of_lt (by omega)]
  omega

theorem writeNode_rejected {s : RamFS} {path : Path} {n : RamVNode} {offset : BitVec 64}
    {bytes : List Byte} {delta : Nat} (hn : s.find path = some n)
    (hoff : n.sizeBytes < offset.toNat) :
    (s.writeNode path offset bytes delta).2 =
      { s with bytesUsed := s.bytesUsed - min s.bytesUsed delta } := by
  simp only [writeNode, hn, RamVNode.write_rejected hoff]

theorem writeNode_gone {s : RamFS} {path : Path} (offset : BitVec 64) (bytes : List Byte)
    (delta : Nat) (hn : s.find path = none) :
    (s.writeNode path offset bytes delta).2 = { s with undefined := true } := by
  simp only [writeNode, hn]

theorem writeNode_ok {s : RamFS} {path : Path} {n : RamVNode} {offset : BitVec 64}
    {bytes : List Byte} {delta : Nat} (hn : s.find path = some n)
    (hoff : offset.toNat ≤ n.sizeBytes) :
    (s.writeNode path offset bytes delta).2 =
      ({ s.update path (fun _ => (n.write offset.toNat bytes).2) with
        bytesUsed := (s.bytesUsed + delta) % 2 ^ 64 } : RamFS).touch path := by
  have hres : (n.write offset.toNat bytes).1 = .ok bytes.length := (RamVNode.write_ok hoff).1
  simp only [writeNode, hn]
  split
  · next e node' heq => simp [heq] at hres
  · next w node' heq => rw [heq]

/-- The write makes the total what the new length of the file adds to it. -/
theorem total_writeNode {s : RamFS} (hs : s.Clocked) {path : Path} {n : RamVNode}
    (hn : s.find path = some n) {offset : BitVec 64} (hin : offset.toNat ≤ n.sizeBytes)
    (bytes : List Byte) (delta : Nat) :
    (s.writeNode path offset bytes delta).2.total + n.sizeBytes =
      s.total + max n.sizeBytes (offset.toNat + bytes.length) := by
  have hlong : ((n.write offset.toNat bytes).2).sizeBytes =
      max n.sizeBytes (offset.toNat + bytes.length) := by
    rw [RamVNode.sizeBytes, (RamVNode.write_ok hin).2.2, length_spliced, RamVNode.sizeBytes]
  rw [writeNode_ok hn hin, total_touch, ← hlong]
  exact total_update hs hn fun _ => (n.write offset.toNat bytes).2

/-- A write within the file, for which there is room, is charged for. -/
theorem writeNode_accounted {s : RamFS} (hs : s.Clocked) (hused : s.bytesUsed = s.total)
    (hdef : s.undefined = false) {path : Path} {n : RamVNode} {offset : BitVec 64}
    {bytes : List Byte} (hn : s.find path = some n) (hoff : offset.toNat ≤ n.sizeBytes)
    (hmem : s.total + bytes.length < 2 ^ 64)
    (hfit : s.Fits (growth n.sizeBytes offset bytes) s.total) :
    Accounted (s.writeNode path offset bytes (growth n.sizeBytes offset bytes)).2 := by
  have hle : n.sizeBytes ≤ s.total := total_le_of_mem (find_some hn).1
  have hgrow := growth_eq hoff bytes (by omega)
  have hmod : (s.bytesUsed + growth n.sizeBytes offset bytes) % 2 ^ 64 =
      s.bytesUsed + growth n.sizeBytes offset bytes := Nat.mod_eq_of_lt (by omega)
  have htotal := total_writeNode hs hn hoff bytes (growth n.sizeBytes offset bytes)
  rw [writeNode_ok hn hoff, hmod] at htotal ⊢
  refine ⟨?_, fun hcap => ?_, hdef⟩
  · show s.bytesUsed + growth n.sizeBytes offset bytes = _
    omega
  · have hle' := hfit.resolve_left (Nat.pos_iff_ne_zero.mp hcap)
    rw [← hused, hmod] at hle'
    exact hle'

/-- A write past the end is rejected, and its charge, never made, rolled back. -/
theorem writeNode_rejected_accounted {s : RamFS} (hused : s.bytesUsed = s.total)
    (hdef : s.undefined = false) {path : Path} {n : RamVNode} {offset : BitVec 64}
    {bytes : List Byte} {delta : Nat} (hn : s.find path = some n)
    (hoff : n.sizeBytes < offset.toNat) (hbound : 0 < s.capacity → s.bytesUsed ≤ s.capacity) :
    Accounted (s.writeNode path offset bytes delta).2 ↔ delta = 0 ∨ s.total = 0 := by
  rw [writeNode_rejected hn hoff]
  constructor
  · intro h
    have hback : s.bytesUsed - min s.bytesUsed delta = s.total := h.used
    omega
  · intro h
    have hback : s.bytesUsed - min s.bytesUsed delta = s.total := by omega
    refine ⟨hback, fun hcap => ?_, hdef⟩
    have := hbound hcap
    show s.bytesUsed - min s.bytesUsed delta ≤ s.capacity
    omega

/-! ## The files that are left -/

theorem find_of_mem {s : RamFS} (hs : s.Clocked) {n : RamVNode} (hn : n ∈ s.nodes) :
    s.find n.path = some n := by
  cases hf : s.find n.path with
  | none => exact absurd rfl (find_none hf n hn)
  | some m =>
    obtain ⟨hm, hp⟩ := find_some hf
    rw [List.inj_on_of_nodup_map hs.paths hm hn hp]

theorem find_dropOlder {s : RamFS} (hs : s.Clocked) {path : Path} {n : RamVNode}
    (hn : s.find path = some n) (t : Nat) :
    (s.dropOlder t).find path = if t ≤ n.lastAccess then some n else none := by
  obtain ⟨hmem, rfl⟩ := find_some hn
  have hs' : (s.dropOlder t).Clocked := hs.filter _ _
  split
  · next ht => exact find_of_mem hs' (List.mem_filter.mpr ⟨hmem, decide_eq_true ht⟩)
  · next ht =>
    cases hf : (s.dropOlder t).find n.path with
    | none => rfl
    | some m =>
      obtain ⟨hm, hp⟩ := find_some hf
      obtain ⟨hm, hle⟩ := List.mem_filter.mp hm
      rw [List.inj_on_of_nodup_map hs.paths hm hmem hp] at hle
      exact absurd (of_decide_eq_true hle) ht

theorem total_dropOlder (s : RamFS) (t : Nat) : (s.dropOlder t).total = s.later t := rfl

theorem later_le_total (s : RamFS) (t : Nat) : s.later t ≤ s.total := by
  rw [← later_zero]
  exact later_mono s (Nat.zero_le t)

/-- When there is room and something is left, the oldest file left fits with what is left. -/
theorem Reserved.exists_fits {s : RamFS} {delta t : Nat} {r : Bool × RamFS}
    (hr : Reserved s delta r t) (hok : r.1 = true) (hpos : 0 < s.later t) :
    ∃ m ∈ s.nodes, 0 < s.later m.lastAccess ∧ s.Fits delta (s.later m.lastAccess) := by
  obtain ⟨m, hm, -, hlater⟩ := exists_later_eq s hpos
  exact ⟨m, hm, hlater ▸ hpos, hlater ▸ hr.granted hok⟩

/-! ## One write -/

theorem step_write_missing {s : RamFS} {path : Path} (hn : s.find path = none)
    (offset : BitVec 64) (bytes : List Byte) :
    s.step (.writeCharging path offset bytes) = s := by
  simp only [step, writeCharging, hn]

theorem write_still {s : RamFS} {path : Path} {n : RamVNode} {offset : BitVec 64}
    {bytes : List Byte} (hn : s.find path = some n)
    (hzero : growth n.sizeBytes offset bytes = 0) :
    (writeCharging path offset bytes).run s = s.writeNode path offset bytes 0 := by
  simp [writeCharging, hn, hzero]

theorem write_granted {s : RamFS} {path : Path} {n : RamVNode} {offset : BitVec 64}
    {bytes : List Byte} (hn : s.find path = some n)
    (hgrow : 0 < growth n.sizeBytes offset bytes)
    (hok : (s.reserve (growth n.sizeBytes offset bytes)).1 = true) :
    (writeCharging path offset bytes).run s =
      (s.reserve (growth n.sizeBytes offset bytes)).2.writeNode path offset bytes
        (growth n.sizeBytes offset bytes) := by
  simp [writeCharging, hn, hgrow, hok]

theorem write_refused {s : RamFS} {path : Path} {n : RamVNode} {offset : BitVec 64}
    {bytes : List Byte} (hn : s.find path = some n)
    (hgrow : 0 < growth n.sizeBytes offset bytes)
    (hok : (s.reserve (growth n.sizeBytes offset bytes)).1 = false) :
    (writeCharging path offset bytes).run s =
      (.error ⟨.outOfMemory, "RamFS::write_charging: capacity exhausted"⟩,
        (s.reserve (growth n.sizeBytes offset bytes)).2) := by
  simp [writeCharging, hn, hgrow, hok]

theorem step_write_still {s : RamFS} {path : Path} {n : RamVNode} {offset : BitVec 64}
    {bytes : List Byte} (hn : s.find path = some n)
    (hzero : growth n.sizeBytes offset bytes = 0) :
    s.step (.writeCharging path offset bytes) = (s.writeNode path offset bytes 0).2 :=
  congrArg Prod.snd (write_still hn hzero)

theorem step_write_grows {s : RamFS} {path : Path} {n : RamVNode} {offset : BitVec 64}
    {bytes : List Byte} (hn : s.find path = some n)
    (hgrow : 0 < growth n.sizeBytes offset bytes) :
    s.step (.writeCharging path offset bytes) =
      if (s.reserve (growth n.sizeBytes offset bytes)).1 then
        ((s.reserve (growth n.sizeBytes offset bytes)).2.writeNode path offset bytes
          (growth n.sizeBytes offset bytes)).2
      else (s.reserve (growth n.sizeBytes offset bytes)).2 := by
  split
  · next hok => exact congrArg Prod.snd (write_granted hn hgrow hok)
  · next hok => exact congrArg Prod.snd (write_refused hn hgrow (Bool.eq_false_iff.mpr hok))

/-- Nothing fits, not even the growth alone: every file is dropped. -/
theorem refused_accounted {s : RamFS} {delta t : Nat} {r : Bool × RamFS} (ha : s.Accounted)
    (hr : Reserved s delta r t) (hok : r.1 = false) : Accounted r.2 := by
  obtain ⟨hnil, -⟩ := hr.refused hok
  have hstate := hr.state
  have htotal : s.later t = 0 := by
    rw [← total_dropOlder, ← hstate, total, hnil]
    rfl
  rw [hstate]
  refine ⟨rfl, fun _ => ?_, ha.defined⟩
  show s.later t ≤ s.capacity
  omega

theorem refused_chargeable {s : RamFS} {path : Path} {n : RamVNode} {offset : BitVec 64}
    {bytes : List Byte} {t : Nat} {r : Bool × RamFS} (hn : s.find path = some n)
    (hr : Reserved s (growth n.sizeBytes offset bytes) r t) (hok : r.1 = false) :
    Chargeable s (.writeCharging path offset bytes) := by
  obtain ⟨hnil, hfit⟩ := hr.refused hok
  intro n' hn'
  obtain rfl := Option.some.inj (hn.symm.trans hn')
  refine Or.inr ?_
  rcases Nat.lt_or_ge n.sizeBytes offset.toNat with hpast | hin
  · refine Or.inr ⟨hpast, fun m hm _ => hr.evicted m hm ?_, Or.inr hfit⟩
    by_contra hle
    have hleft : m ∈ (s.dropOlder t).nodes :=
      List.mem_filter.mpr ⟨hm, decide_eq_true (Nat.le_of_not_lt hle)⟩
    rw [← hr.state, hnil] at hleft
    cases hleft
  · exact Or.inl ⟨hin, Or.inr hfit⟩

/-- There is room, but the file to write to was dropped to make it. -/
theorem dropped_not_chargeable {s : RamFS} {path : Path} {n : RamVNode} {offset : BitVec 64}
    {bytes : List Byte} {t : Nat} {r : Bool × RamFS} (hn : s.find path = some n)
    (hmem : s.total + bytes.length < 2 ^ 64)
    (hr : Reserved s (growth n.sizeBytes offset bytes) r t) (hok : r.1 = true)
    (hgrow : 0 < growth n.sizeBytes offset bytes) (hlt : n.lastAccess < t) :
    ¬ Chargeable s (.writeCharging path offset bytes) := by
  intro hc
  obtain ⟨hnode, -⟩ := find_some hn
  have hout := hr.evicted n hnode hlt
  have hroom := hr.granted hok
  have hsize : n.sizeBytes ≤ s.total := total_le_of_mem hnode
  have hleft := later_le_total s t
  rcases hc n hn with hzero | ⟨hin, hfit | hfit⟩ | ⟨-, hall, hlast⟩
  · omega
  · exact hout hfit
  · have hdelta := growth_eq hin bytes (by omega)
    exact hfit (hroom.mono (Nat.zero_le _) (by omega))
  · have hpos : 0 < s.later t := by
      by_contra hz
      have hz : s.later t = 0 := Nat.eq_zero_of_not_pos hz
      rw [hz] at hroom
      rcases hlast with hlast | hlast
      · rw [hlast] at hout
        exact hout hroom
      · exact hlast hroom
    obtain ⟨m, hm, hpos', hfits⟩ := hr.exists_fits hok hpos
    exact hall m hm hpos' hfits

/-- There is room, the file to write to is still there, and the write is within it. -/
theorem kept_within {s : RamFS} (hs : s.Clocked) (ha : s.Accounted) {path : Path}
    {n : RamVNode} {offset : BitVec 64} {bytes : List Byte} {t : Nat} {r : Bool × RamFS}
    (hn : s.find path = some n) (hmem : s.total + bytes.length < 2 ^ 64)
    (hr : Reserved s (growth n.sizeBytes offset bytes) r t) (hok : r.1 = true)
    (hle : t ≤ n.lastAccess) (hin : offset.toNat ≤ n.sizeBytes) :
    Accounted ((s.dropOlder t).writeNode path offset bytes (growth n.sizeBytes offset bytes)).2 ∧
      Chargeable s (.writeCharging path offset bytes) := by
  have hroom := hr.granted hok
  have hsize : n.sizeBytes ≤ s.total := total_le_of_mem (find_some hn).1
  have hleft := later_le_total s t
  have hdelta := growth_eq hin bytes (by omega)
  have hfind : (s.dropOlder t).find path = some n := by rw [find_dropOlder hs hn, if_pos hle]
  have hs' : (s.dropOlder t).Clocked := hs.filter _ _
  have hmem' : (s.dropOlder t).total + bytes.length < 2 ^ 64 := by
    rw [total_dropOlder]
    omega
  refine ⟨writeNode_accounted hs' rfl ha.defined hfind hin hmem' hroom, fun n' hn' => ?_⟩
  obtain rfl := Option.some.inj (hn.symm.trans hn')
  exact Or.inr (Or.inl ⟨hin, Or.inl (hroom.mono (later_mono s hle) (by omega))⟩)

/-- There is room, the file to write to is still there, and the write is past its end: it is
    rolled back, which takes nothing off the count only if nothing is left. -/
theorem kept_past_iff {s : RamFS} (hs : s.Clocked) (ha : s.Accounted) {path : Path}
    {n : RamVNode} {offset : BitVec 64} {bytes : List Byte} {t : Nat} {r : Bool × RamFS}
    (hn : s.find path = some n) (hr : Reserved s (growth n.sizeBytes offset bytes) r t)
    (hok : r.1 = true) (hgrow : 0 < growth n.sizeBytes offset bytes) (hle : t ≤ n.lastAccess)
    (hpast : n.sizeBytes < offset.toNat) :
    Accounted ((s.dropOlder t).writeNode path offset bytes (growth n.sizeBytes offset bytes)).2 ↔
      Chargeable s (.writeCharging path offset bytes) := by
  have hmono := later_mono s hle
  have hfind : (s.dropOlder t).find path = some n := by rw [find_dropOlder hs hn, if_pos hle]
  have hbound : 0 < s.capacity → s.later t ≤ s.capacity := fun hcap =>
    Nat.le_trans (later_le_total s t) (ha.used ▸ ha.bound hcap)
  rw [writeNode_rejected_accounted (s := s.dropOlder t) rfl ha.defined hfind hpast hbound,
    total_dropOlder]
  constructor
  · rintro (hzero | hzero)
    · omega
    · intro n' hn'
      obtain rfl := Option.some.inj (hn.symm.trans hn')
      refine Or.inr (Or.inr ⟨hpast, fun m hm hpos => hr.evicted m hm ?_, Or.inl ?_⟩)
      · by_contra hge
        have := later_mono s (Nat.le_of_not_lt hge)
        omega
      · omega
  · intro hc
    rcases hc n hn with hzero | ⟨hin, -⟩ | ⟨-, hall, -⟩
    · exact Or.inl hzero
    · omega
    · refine Or.inr (Nat.eq_zero_of_not_pos fun hpos => ?_)
      obtain ⟨m, hm, hpos', hfits⟩ := hr.exists_fits hok hpos
      exact hall m hm hpos' hfits

/-- A write that does not make its file grow needs no room. -/
theorem still_accounted {s : RamFS} (hs : s.Clocked) (ha : s.Accounted) {path : Path}
    {n : RamVNode} {offset : BitVec 64} {bytes : List Byte} (hn : s.find path = some n)
    (hmem : s.total + bytes.length < 2 ^ 64) (hzero : growth n.sizeBytes offset bytes = 0) :
    Accounted (s.writeNode path offset bytes 0).2 := by
  rcases Nat.lt_or_ge n.sizeBytes offset.toNat with hpast | hin
  · exact (writeNode_rejected_accounted ha.used ha.defined hn hpast ha.bound).mpr (Or.inl rfl)
  · have hfit : s.Fits 0 s.total := by
      rcases Nat.eq_zero_or_pos s.capacity with hcap | hcap
      · exact Or.inl hcap
      · refine Or.inr ?_
        rw [Nat.add_zero, Nat.mod_eq_of_lt (by omega)]
        exact ha.used ▸ ha.bound hcap
    rw [← hzero] at hfit ⊢
    exact writeNode_accounted hs ha.used ha.defined hn hin hmem hfit

theorem writeCharging_accounted_iff {s : RamFS} (hs : s.Clocked) (ha : s.Accounted) (path : Path)
    (offset : BitVec 64) (bytes : List Byte) (hmem : s.total + bytes.length < 2 ^ 64) :
    Accounted (s.step (.writeCharging path offset bytes)) ↔
      Chargeable s (.writeCharging path offset bytes) := by
  cases hn : s.find path with
  | none =>
    rw [step_write_missing hn]
    exact iff_of_true ha fun n hn' => by rw [hn] at hn'; cases hn'
  | some n =>
    rcases Nat.eq_zero_or_pos (growth n.sizeBytes offset bytes) with hzero | hgrow
    · have hc : Chargeable s (.writeCharging path offset bytes) := by
        intro n' hn'
        obtain rfl := Option.some.inj (hn.symm.trans hn')
        exact Or.inl hzero
      rw [step_write_still hn hzero]
      exact iff_of_true (still_accounted hs ha hn hmem hzero) hc
    · obtain ⟨t, hr⟩ := reserve_reserved hs ha.used (growth n.sizeBytes offset bytes)
      rw [step_write_grows hn hgrow]
      by_cases hok : (s.reserve (growth n.sizeBytes offset bytes)).1 = true
      · rw [if_pos hok, hr.state]
        rcases Nat.lt_or_ge n.lastAccess t with hlt | hle
        · have hgone : (s.dropOlder t).find path = none := by
            rw [find_dropOlder hs hn, if_neg (Nat.not_le_of_lt hlt)]
          rw [writeNode_gone offset bytes _ hgone]
          exact iff_of_false (fun hacc => Bool.noConfusion hacc.defined)
            (dropped_not_chargeable hn hmem hr hok hgrow hlt)
        · rcases Nat.lt_or_ge n.sizeBytes offset.toNat with hpast | hin
          · exact kept_past_iff hs ha hn hr hok hgrow hle hpast
          · obtain ⟨hacc, hc⟩ := kept_within hs ha hn hmem hr hok hle hin
            exact iff_of_true hacc hc
      · rw [if_neg hok]
        have hok := Bool.eq_false_iff.mpr hok
        exact iff_of_true (refused_accounted ha hr hok) (refused_chargeable hn hr hok)

/-! ## Runs -/

theorem writeNode_clocked {s : RamFS} (hs : s.Clocked) (path : Path) (offset : BitVec 64)
    (bytes : List Byte) (delta : Nat) : (s.writeNode path offset bytes delta).2.Clocked := by
  cases hn : s.find path with
  | none =>
    rw [writeNode_gone offset bytes delta hn]
    exact ⟨hs.paths, hs.ticks, hs.fresh⟩
  | some n =>
    obtain ⟨hmem, hp⟩ := find_some hn
    rcases Nat.lt_or_ge n.sizeBytes offset.toNat with hpast | hin
    · rw [writeNode_rejected hn hpast]
      exact ⟨hs.paths, hs.ticks, hs.fresh⟩
    · rw [writeNode_ok hn hin]
      refine touch_clocked (update_clocked hs path (fun m hm hmp => ?_) _) path
      obtain rfl := List.inj_on_of_nodup_map hs.paths hm hmem (hmp.trans hp.symm)
      exact ⟨(RamVNode.write_ok hin).2.1.trans hp, RamVNode.write_lastAccess m _ _⟩

/-- No two files ever have the same last access, whatever went wrong before. -/
theorem step_clocked {s : RamFS} (hs : s.Clocked) (op : Op) : (s.step op).Clocked := by
  cases op with
  | open_ path flags =>
    simp only [step, open_]
    cases hn : s.find path with
    | none =>
      simp only
      split
      · exact hs
      · exact create_clocked hs hn rfl _
    | some n =>
      simp only
      split
      · exact hs
      · refine touch_clocked ?_ path
        split
        · refine update_clocked hs path (fun m _ hp => ?_) _
          exact ⟨(m.truncate_path 0).trans hp, m.truncate_lastAccess 0⟩
        · exact hs
  | lookup path =>
    simp only [step, lookup]
    split
    · exact hs
    · exact touch_clocked hs path
  | writeCharging path offset bytes =>
    cases hn : s.find path with
    | none =>
      rw [step_write_missing hn]
      exact hs
    | some n =>
      rcases Nat.eq_zero_or_pos (growth n.sizeBytes offset bytes) with hzero | hgrow
      · rw [step_write_still hn hzero]
        exact writeNode_clocked hs path offset bytes 0
      · rw [step_write_grows hn hgrow]
        split
        · exact writeNode_clocked (reserve_clocked hs _) path offset bytes _
        · exact reserve_clocked hs _
  | clear => exact ⟨List.nodup_nil, List.nodup_nil, nofun⟩

theorem touch_accounted {s : RamFS} (ha : s.Accounted) (path : Path) :
    (s.touch path).Accounted :=
  ⟨(ha.used).trans (total_touch s path).symm, ha.bound, ha.defined⟩

/-- An `open` with `truncate` takes the bytes of the file off the count. -/
theorem truncate_accounted {s : RamFS} (hs : s.Clocked) (ha : s.Accounted) {path : Path}
    {n : RamVNode} (hn : s.find path = some n) :
    Accounted { s.update path (fun n => n.truncate 0) with
      bytesUsed := s.bytesUsed - min s.bytesUsed n.sizeBytes } := by
  have hle : n.sizeBytes ≤ s.total := total_le_of_mem (find_some hn).1
  have htotal := total_update hs hn fun n => n.truncate 0
  have hzero := n.truncate_zero
  have hused := ha.used
  refine ⟨?_, fun hcap => ?_, ha.defined⟩
  · show s.bytesUsed - min s.bytesUsed n.sizeBytes = (s.update path fun n => n.truncate 0).total
    omega
  · have := ha.bound hcap
    show s.bytesUsed - min s.bytesUsed n.sizeBytes ≤ s.capacity
    omega

/-- The count is what it should be after an operation exactly when the operation is chargeable. -/
theorem step_accounted_iff {s : RamFS} (hs : s.Clocked) (ha : s.Accounted) {op : Op}
    (hmem : s.InMemory op) : (s.step op).Accounted ↔ s.Chargeable op := by
  cases op with
  | open_ path flags =>
    refine iff_of_true ?_ trivial
    simp only [step, open_]
    cases hn : s.find path with
    | none =>
      simp only
      split
      · exact ha
      · refine ⟨?_, ha.bound, ha.defined⟩
        rw [total, List.map_cons, List.sum_cons]
        exact ha.used.trans (Nat.zero_add _).symm
    | some n =>
      simp only
      split
      · exact ha
      · refine touch_accounted ?_ path
        split
        · exact truncate_accounted hs ha hn
        · exact ha
  | lookup path =>
    refine iff_of_true ?_ trivial
    simp only [step, lookup]
    split
    · exact ha
    · exact touch_accounted ha path
  | writeCharging path offset bytes =>
    exact writeCharging_accounted_iff hs ha path offset bytes hmem
  | clear => exact iff_of_true ⟨rfl, fun _ => Nat.zero_le _, ha.defined⟩ trivial

theorem empty_clocked (capacity : Nat) : Clocked { capacity } :=
  ⟨List.nodup_nil, List.nodup_nil, nofun⟩

/-- The count is what it should be all along a run exactly when every write of the run is
    chargeable. -/
theorem accounted_iff (capacity : Nat) (ops : List Op)
    (hmem : StepsMeet step InMemory { capacity } ops) :
    (∀ pre, pre <+: ops → (run step { capacity } pre).Accounted) ↔
      StepsMeet step Chargeable { capacity } ops := by
  have hclock : ∀ pre : List Op, (run step { capacity } pre).Clocked := fun pre =>
    run_invariant (empty_clocked capacity) (fun s op hs => step_clocked hs op) pre
  refine prefixes_iff ⟨rfl, fun _ => Nat.zero_le _, rfl⟩ fun pre op hp hacc _ => ?_
  rw [run_snoc]
  exact step_accounted_iff (hclock pre) hacc (hmem pre op hp)

instance (s : RamFS) : (op : Op) → Decidable (s.InMemory op)
  | .writeCharging _ _ _ => inferInstanceAs (Decidable (_ < _))
  | .open_ _ _ => isTrue trivial
  | .lookup _ => isTrue trivial
  | .clear => isTrue trivial

/-- A write of one byte at offset 10 of a file of three bytes. -/
def pastEnd : List Op :=
  [.open_ "a" OpenFlags.create, .writeCharging "a" 0 [1, 2, 3], .writeCharging "a" 10 [9]]

/-- A write that makes the only file longer than the capacity. -/
def selfEvicting : List Op :=
  [.open_ "a" OpenFlags.create, .writeCharging "a" 0 [1, 2, 3], .writeCharging "a" 3 [4, 5]]

theorem accounted_iff_pastEnd :
    (∀ pre, pre <+: pastEnd → (run step { capacity := 0 } pre).Accounted) ↔
      StepsMeet step Chargeable { capacity := 0 } pastEnd :=
  accounted_iff 0 pastEnd (by decide)

/-- The rejected write takes three bytes off the count that are still stored, and the write that
    evicts its own file uses it after that. -/
theorem count_drifts :
    (run step { capacity := 0 } pastEnd).bytesUsed = 0 ∧
      (run step { capacity := 0 } pastEnd).total = 3 ∧
      (run step { capacity := 4 } selfEvicting).undefined = true := by
  decide

end RamFS

end NeuroVerse.Fs
