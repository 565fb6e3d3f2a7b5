/-
  Memory regions behind capability spaces: a program names a handle of its space, the kernel
  resolves it with the right that the access needs and hands the capability to the region, which
  checks it once more, against its own identity.

  The two checks are those of `CapOps::resolve` and `MemoryRegion::check`, put together as the
  kernel primitives of the integration tests put them. Together they make a
  capability the only way to the memory: in every run of capability operations and accesses, each
  access that succeeds goes back to a mint for that object, through transfers none of which had
  masked the right away, and the memory is as it was but for the bytes of such writes
  (`after_authorised`). These lie in the region or, as the sum of offset and width may wrap, at
  most four bytes before it.
-/
import NeuroVerse.Core.Io
import NeuroVerse.Sec.Provenance

namespace NeuroVerse.Sec

open NeuroVerse.Core NeuroVerse.Lib

variable {ι κ : Type*} [DecidableEq ι]

structure Kernel (ι : Type*) where
  world : World ι := World.start
  memory : Memory

inductive Call (ι κ : Type*) where
  | cap (op : Op ι)
  | access (i : ι) (h : Handle) (k : κ) (a : Access) (offset : BitVec 64)

/-- The capability operation of a call. -/
def Call.op : Call ι κ → Option (Op ι)
  | .cap op => some op
  | .access _ _ _ _ _ => none

def capOps (calls : List (Call ι κ)) : List (Op ι) := calls.filterMap Call.op

namespace Kernel

variable (region : κ → MemoryRegion)

/-- An access through a handle: success and the memory afterwards. -/
def access (s : Kernel ι) (i : ι) (h : Handle) (k : κ) (a : Access) (offset : BitVec 64) :
    Bool × Memory :=
  match s.world.resolve i h a.right with
  | none => (false, s.memory)
  | some c => a.perform (region k) s.memory offset c

def step (s : Kernel ι) : Call ι κ → Kernel ι
  | .cap op => { s with world := s.world.step op }
  | .access i h k a offset => { s with memory := (s.access region i h k a offset).2 }

/-- The kernel after a run over the memory `m`. -/
def after (m : Memory) (calls : List (Call ι κ)) : Kernel ι := run (step region) ⟨.start, m⟩ calls

end Kernel

/-- The chain has the right at its mint, in every capability on the way and in every mask. -/
structure Lineage.Carries (l : Lineage ι) (r : CapRight) : Prop where
  minted : r.Subset l.rights
  link : ∀ k ∈ l.links, r.Subset k.cap.rights
  mask : ∀ k ∈ l.links, k.narrower ≠ CapRight.none → r.Subset k.narrower

/-- The handle goes back to a mint for the object, of the epoch that its space is in now, along a
    chain that carries the right. -/
def Authority (ops : List (Op ι)) (i : ι) (h : Handle) (r : CapRight) (id : BitVec 64) : Prop :=
  ∃ l, World.Origin ops i h l ∧ (l.objectId.setWidth 48).setWidth 64 = id ∧
    l.epoch = (World.after ops).current i ∧ l.Carries r

namespace Kernel

variable {region : κ → MemoryRegion} {m : Memory} {s : Kernel ι} {i : ι} {h : Handle} {k : κ}
  {a : Access} {offset : BitVec 64}

theorem after_world (calls : List (Call ι κ)) :
    (after region m calls).world = World.after (capOps calls) := by
  induction calls using List.reverseRecOn with
  | nil => rfl
  | append_singleton calls c ih =>
    rw [after, run_snoc, capOps, List.filterMap_append]
    cases c with
    | cap op =>
      show (after region m calls).world.step op = World.after (capOps calls ++ [op])
      rw [ih, World.after, World.after, run_snoc]
    | access i h k a offset =>
      show (after region m calls).world = World.after (capOps calls ++ [])
      rw [ih, List.append_nil]

omit [DecidableEq ι] in
/-- An access that succeeds has resolved its handle to a capability that the region accepts. -/
theorem access_succeeds (hs : (s.access region i h k a offset).1 = true) :
    ∃ c, s.world.resolve i h a.right = some c ∧ Authorised (region k) c a.right ∧
      (offset.toNat + a.width) % 2 ^ 64 ≤ (region k).size.toNat := by
  unfold access at hs
  cases hc : s.world.resolve i h a.right with
  | none =>
    rw [hc] at hs
    cases hs
  | some c =>
    rw [hc] at hs
    obtain ⟨hauth, hbound⟩ := (perform_iff (region k) c offset a s.memory).mp hs
    exact ⟨c, rfl, hauth, hbound⟩

omit [DecidableEq ι] in
theorem access_failed (hs : (s.access region i h k a offset).1 = false) :
    (s.access region i h k a offset).2 = s.memory := by
  unfold access at hs ⊢
  cases hc : s.world.resolve i h a.right with
  | none => rfl
  | some c =>
    rw [hc] at hs
    exact perform_failed (region k) c offset a s.memory hs

omit [DecidableEq ι] in
/-- An access changes no byte but those it writes. -/
theorem access_frame {x : Address} (hx : (s.access region i h k a offset).2 x ≠ s.memory x) :
    (s.access region i h k a offset).1 = true ∧ a.right = CapRight.write ∧
      x ∈ Span ((region k).backing + offset) a.width := by
  have hok : (s.access region i h k a offset).1 = true := by
    by_contra hfail
    exact hx (congrFun (access_failed (Bool.not_eq_true _ ▸ hfail)) x)
  unfold access at hx
  cases hc : s.world.resolve i h a.right with
  | none =>
    rw [hc] at hx
    exact absurd rfl hx
  | some c =>
    rw [hc] at hx
    refine ⟨hok, ?_, ?_⟩
    · cases a with
      | readByte => exact absurd rfl hx
      | readU32 => exact absurd rfl hx
      | writeByte v => rfl
      | writeU32 v => rfl
    · by_contra hout
      exact hx (perform_frame (region k) c offset a s.memory hout)

theorem access_authority {calls : List (Call ι κ)}
    (hs : ((after region m calls).access region i h k a offset).1 = true) :
    Authority (capOps calls) i h a.right (region k).id := by
  obtain ⟨c, hc, ⟨-, -, hid⟩, -⟩ := access_succeeds hs
  rw [after_world] at hc
  obtain ⟨hbound, hepoch, hright⟩ := (World.resolve_eq_some (World.after_ok _)).mp hc
  obtain ⟨l, hl, hb⟩ := World.exists_origin (capOps calls) i h c hbound
  have hsub : a.right.Subset c.rights := (Capability.has_iff c a.right).mp hright
  refine ⟨l, hl, ?_, hb.epoch.symm.trans hepoch, hsub.trans hb.rights, ?_, ?_⟩
  · rw [← hb.objectId]
    exact hid
  · exact fun k hk => hsub.trans (hb.link k hk)
  · exact fun k hk hne => hsub.trans (hb.mask k hk hne)

/-- The bytes of an access that the region accepts. -/
theorem span_near {r : MemoryRegion} {x : Address}
    (hbound : (offset.toNat + a.width) % 2 ^ 64 ≤ r.size.toNat)
    (hx : x ∈ Span (r.backing + offset) a.width) :
    x ∈ Span (r.backing - 4) (r.size.toNat + 4) := by
  have hwidth : a.width ≤ 4 := by cases a <;> simp [Access.width]
  have hlt : (x - (r.backing + offset)).toNat < a.width := hx
  have hoff := offset.isLt
  show (x - (r.backing - 4)).toNat < r.size.toNat + 4
  have heq : x - (r.backing - 4) = x - (r.backing + offset) + offset + 4 := by
    have hplain : x - (r.backing - 4) = x - r.backing + 4 := by bv_omega
    bv_omega
  rw [heq, BitVec.toNat_add, BitVec.toNat_add]
  have hfour : (4 : BitVec 64).toNat = 4 := rfl
  rw [hfour]
  omega

/-- Every access that succeeds in a run has the authority of a mint for the object, with the
    right that it needs; and every byte that a run has changed was written by such an access, in
    the region or at most four bytes before it. -/
theorem after_authorised (region : κ → MemoryRegion) (m : Memory) (calls : List (Call ι κ)) :
    (∀ pre i h k a offset, pre ++ [.access i h k a offset] <+: calls →
      ((after region m pre).access region i h k a offset).1 = true →
      Authority (capOps pre) i h a.right (region k).id) ∧
    ∀ x, (after region m calls).memory x = m x ∨
      ∃ pre i h k a offset, pre ++ [.access i h k a offset] <+: calls ∧
        ((after region m pre).access region i h k a offset).1 = true ∧
        a.right = CapRight.write ∧ x ∈ Span ((region k).backing + offset) a.width ∧
        x ∈ Span ((region k).backing - 4) ((region k).size.toNat + 4) := by
  refine ⟨fun pre i h k a offset _ hs => access_authority hs, fun x => ?_⟩
  induction calls using List.reverseRecOn with
  | nil => exact Or.inl rfl
  | append_singleton calls c ih =>
    have hgrows : calls <+: calls ++ [c] := List.prefix_append calls [c]
    rw [after, run_snoc]
    by_cases hx : ((after region m calls).step region c).memory x = (after region m calls).memory x
    · rcases ih with hsame | ⟨pre, i, h, k, a, offset, hp, hw⟩
      · exact Or.inl (hx.trans hsame)
      · exact Or.inr ⟨pre, i, h, k, a, offset, hp.trans hgrows, hw⟩
    · cases c with
      | cap op => exact absurd rfl hx
      | access i h k a offset =>
        obtain ⟨hok, hright, hspan⟩ := access_frame hx
        obtain ⟨-, -, -, hbound⟩ := access_succeeds hok
        exact Or.inr ⟨calls, i, h, k, a, offset, List.prefix_refl _, hok, hright, hspan,
          span_near hbound hspan⟩

end Kernel

end NeuroVerse.Sec
