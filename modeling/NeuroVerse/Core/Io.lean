/-
  Memory regions (`core/io.hpp`): a window of `size` bytes behind a backing pointer, with
  capability-gated accessors of one and four bytes.

  The backing pointer points into a flat address space, so that an access outside the window
  is visible as what it is: pointer arithmetic that wraps at 2^64. `check` computes
  `offset + width <= size` in 64-bit unsigned arithmetic as the source does. The physical base,
  the memory kind and the prefetch flag of the configuration are read by no accessor and are
  left out, as is `raw`, which bypasses the check. `memcpy` is little-endian (x86-64 host).

  `bounds_safe_iff`: an accessor is bounds-safe exactly when the sum of offset and width does
  not wrap to a value the check accepts.
-/
import NeuroVerse.Core.Capability
import NeuroVerse.Lib.Memory

namespace NeuroVerse.Core

open NeuroVerse.Lib

/-- A region: the kernel object's id, the size in bytes, the backing pointer. -/
structure MemoryRegion where
  id : BitVec 64
  size : BitVec 64
  backing : Address

namespace MemoryRegion

def check (r : MemoryRegion) (cap : Capability) (right : CapRight)
    (offset width : BitVec 64) : Bool :=
  cap.verify && cap.has right && cap.objectId.setWidth 64 == r.id
    && decide (offset + width ≤ r.size)

def readByte (r : MemoryRegion) (m : Memory) (offset : BitVec 64) (cap : Capability) :
    Option (BitVec 8) :=
  if !r.check cap CapRight.read offset 1 then none else some (m (r.backing + offset))

def readU32 (r : MemoryRegion) (m : Memory) (offset : BitVec 64) (cap : Capability) :
    Option (BitVec 32) :=
  if !r.check cap CapRight.read offset 4 then none
  else some (readWord m (r.backing + offset) 4)

def writeByte (r : MemoryRegion) (m : Memory) (offset : BitVec 64) (value : BitVec 8)
    (cap : Capability) : Bool × Memory :=
  if !r.check cap CapRight.write offset 1 then (false, m)
  else (true, Function.update m (r.backing + offset) value)

def writeU32 (r : MemoryRegion) (m : Memory) (offset : BitVec 64) (value : BitVec 32)
    (cap : Capability) : Bool × Memory :=
  if !r.check cap CapRight.write offset 4 then (false, m)
  else (true, writeWord (n := 4) m (r.backing + offset) value)

end MemoryRegion

/-- One of the four accessors, with the value a write carries. -/
inductive Access where
  | readByte
  | readU32
  | writeByte (value : BitVec 8)
  | writeU32 (value : BitVec 32)

namespace Access

def width : Access → Nat
  | readByte => 1
  | readU32 => 4
  | writeByte _ => 1
  | writeU32 _ => 4

def right : Access → CapRight
  | readByte => CapRight.read
  | readU32 => CapRight.read
  | writeByte _ => CapRight.write
  | writeU32 _ => CapRight.write

/-- The value a read returns, as a number. -/
def value (a : Access) (r : MemoryRegion) (m : Memory) (offset : BitVec 64)
    (cap : Capability) : Option Nat :=
  match a with
  | readByte => (r.readByte m offset cap).map BitVec.toNat
  | readU32 => (r.readU32 m offset cap).map BitVec.toNat
  | _ => none

/-- Success and the memory afterwards. -/
def perform (a : Access) (r : MemoryRegion) (m : Memory) (offset : BitVec 64)
    (cap : Capability) : Bool × Memory :=
  match a with
  | readByte => ((r.readByte m offset cap).isSome, m)
  | readU32 => ((r.readU32 m offset cap).isSome, m)
  | writeByte v => r.writeByte m offset v cap
  | writeU32 v => r.writeU32 m offset v cap

/-- Every read of the access's width at the same offset that the region grants returns the
    value the access wrote. -/
def ReadsBack (a : Access) (r : MemoryRegion) (m : Memory) (offset : BitVec 64) : Prop :=
  match a with
  | writeByte v => ∀ cap w, r.readByte m offset cap = some w → w = v
  | writeU32 v => ∀ cap w, r.readU32 m offset cap = some w → w = v
  | _ => True

end Access

/-- The capability verifies, carries the right and names the region. -/
def Authorised (r : MemoryRegion) (cap : Capability) (right : CapRight) : Prop :=
  cap.verify = true ∧ cap.has right = true ∧ cap.objectId.setWidth 64 = r.id

instance (r : MemoryRegion) (cap : Capability) (right : CapRight) :
    Decidable (Authorised r cap right) :=
  inferInstanceAs (Decidable (_ ∧ _ ∧ _))

/-- Bounds safety of one access: it succeeds exactly when it is authorised and inside the
    region, reads and writes only its own bytes, and changes nothing when it fails. -/
structure BoundsSafe (r : MemoryRegion) (cap : Capability) (offset : BitVec 64) (a : Access)
    (m : Memory) : Prop where
  succeeds : (a.perform r m offset cap).1 = true ↔
    Authorised r cap a.right ∧ offset.toNat + a.width ≤ r.size.toNat
  reads : ∀ m', (∀ x ∈ Span (r.backing + offset) a.width, m' x = m x) →
    a.value r m' offset cap = a.value r m offset cap
  writes : ∀ x, x ∉ Span (r.backing + offset) a.width → (a.perform r m offset cap).2 x = m x
  readsBack : (a.perform r m offset cap).1 = true →
    a.ReadsBack r (a.perform r m offset cap).2 offset
  failed : (a.perform r m offset cap).1 = false → (a.perform r m offset cap).2 = m

/-- The access is authorised and its end wraps past 2^64 to a value inside the region. -/
def WrapsInside (r : MemoryRegion) (cap : Capability) (offset : BitVec 64) (a : Access) : Prop :=
  Authorised r cap a.right ∧ 2 ^ 64 ≤ offset.toNat + a.width ∧
    offset.toNat + a.width - 2 ^ 64 ≤ r.size.toNat

theorem check_iff (r : MemoryRegion) (cap : Capability) (right : CapRight)
    (offset width : BitVec 64) :
    r.check cap right offset width = true ↔
      Authorised r cap right ∧ (offset.toNat + width.toNat) % 2 ^ 64 ≤ r.size.toNat := by
  simp only [MemoryRegion.check, Bool.and_eq_true, beq_iff_eq, decide_eq_true_eq,
    BitVec.le_def, BitVec.toNat_add, Authorised, and_assoc]

/-- An access succeeds exactly when it is authorised and the wrapped end of its range is
    inside the region. -/
theorem perform_iff (r : MemoryRegion) (cap : Capability) (offset : BitVec 64) (a : Access)
    (m : Memory) :
    (a.perform r m offset cap).1 = true ↔
      Authorised r cap a.right ∧ (offset.toNat + a.width) % 2 ^ 64 ≤ r.size.toNat := by
  have h1 := check_iff r cap a.right offset 1
  have h4 := check_iff r cap a.right offset 4
  cases a with
  | readByte =>
    rw [← show (1 : BitVec 64).toNat = Access.readByte.width from rfl, ← h1]
    simp only [Access.perform, MemoryRegion.readByte, Access.right]
    cases r.check cap CapRight.read offset 1 <;> simp
  | readU32 =>
    rw [← show (4 : BitVec 64).toNat = Access.readU32.width from rfl, ← h4]
    simp only [Access.perform, MemoryRegion.readU32, Access.right]
    cases r.check cap CapRight.read offset 4 <;> simp
  | writeByte v =>
    rw [← show (1 : BitVec 64).toNat = (Access.writeByte v).width from rfl, ← h1]
    simp only [Access.perform, MemoryRegion.writeByte, Access.right]
    cases r.check cap CapRight.write offset 1 <;> simp
  | writeU32 v =>
    rw [← show (4 : BitVec 64).toNat = (Access.writeU32 v).width from rfl, ← h4]
    simp only [Access.perform, MemoryRegion.writeU32, Access.right]
    cases r.check cap CapRight.write offset 4 <;> simp

theorem value_congr (r : MemoryRegion) (cap : Capability) (offset : BitVec 64) (a : Access)
    {m m' : Memory} (h : ∀ x ∈ Span (r.backing + offset) a.width, m' x = m x) :
    a.value r m' offset cap = a.value r m offset cap := by
  cases a with
  | readByte =>
    have hx := h (r.backing + offset) (mem_span_self _ Nat.one_pos)
    simp only [Access.value, MemoryRegion.readByte, hx]
  | readU32 =>
    have hx := readWord_congr_span (n := 4) h
    simp only [Access.value, MemoryRegion.readU32, hx]
  | writeByte v => rfl
  | writeU32 v => rfl

theorem perform_frame (r : MemoryRegion) (cap : Capability) (offset : BitVec 64) (a : Access)
    (m : Memory) {x : Address} (hx : x ∉ Span (r.backing + offset) a.width) :
    (a.perform r m offset cap).2 x = m x := by
  cases a with
  | readByte => rfl
  | readU32 => rfl
  | writeByte v =>
    have hne : x ≠ r.backing + offset := by
      rintro rfl
      exact hx (mem_span_self _ Nat.one_pos)
    simp only [Access.perform, MemoryRegion.writeByte]
    split
    · rfl
    · exact Function.update_of_ne hne _ _
  | writeU32 v =>
    simp only [Access.perform, MemoryRegion.writeU32]
    split
    · rfl
    · exact writeWord_frame m (n := 4) v hx

theorem perform_readsBack (r : MemoryRegion) (cap : Capability) (offset : BitVec 64)
    (a : Access) (m : Memory) (h : (a.perform r m offset cap).1 = true) :
    a.ReadsBack r (a.perform r m offset cap).2 offset := by
  cases a with
  | readByte => trivial
  | readU32 => trivial
  | writeByte v =>
    intro cap' w hw
    simp only [Access.perform, MemoryRegion.writeByte] at h hw
    split at h
    · cases h
    · rename_i hc
      simp only [if_neg hc, MemoryRegion.readByte, Function.update_self] at hw
      split at hw
      · cases hw
      · exact (Option.some.inj hw).symm
  | writeU32 v =>
    intro cap' w hw
    simp only [Access.perform, MemoryRegion.writeU32] at h hw
    split at h
    · cases h
    · rename_i hc
      simp only [if_neg hc, MemoryRegion.readU32] at hw
      split at hw
      · cases hw
      · rw [readWord_writeWord m _ (n := 4) (by decide)] at hw
        exact (Option.some.inj hw).symm

theorem perform_failed (r : MemoryRegion) (cap : Capability) (offset : BitVec 64) (a : Access)
    (m : Memory) (h : (a.perform r m offset cap).1 = false) :
    (a.perform r m offset cap).2 = m := by
  cases a with
  | readByte => rfl
  | readU32 => rfl
  | writeByte v =>
    simp only [Access.perform, MemoryRegion.writeByte] at h ⊢
    split
    · rfl
    · rename_i hc
      rw [if_neg hc] at h
      cases h
  | writeU32 v =>
    simp only [Access.perform, MemoryRegion.writeU32] at h ⊢
    split
    · rfl
    · rename_i hc
      rw [if_neg hc] at h
      cases h

/-- An access is bounds-safe exactly when it is not authorised with an end that wraps past
    2^64 into the region. -/
theorem bounds_safe_iff (r : MemoryRegion) (cap : Capability) (offset : BitVec 64) (a : Access)
    (m : Memory) : BoundsSafe r cap offset a m ↔ ¬ WrapsInside r cap offset a := by
  have hiff := perform_iff r cap offset a m
  have hoff := offset.isLt
  have hsize := r.size.isLt
  have hwidth : a.width ≤ 4 := by cases a <;> simp [Access.width]
  constructor
  · rintro h ⟨hauth, hwrap, hin⟩
    have hmod : (offset.toNat + a.width) % 2 ^ 64 = offset.toNat + a.width - 2 ^ 64 := by omega
    have hok := (h.succeeds).mp (hiff.mpr ⟨hauth, by omega⟩)
    omega
  · intro hn
    refine ⟨hiff.trans ⟨?_, ?_⟩, fun m' hm => value_congr r cap offset a hm,
      fun x hx => perform_frame r cap offset a m hx, perform_readsBack r cap offset a m,
      perform_failed r cap offset a m⟩
    · rintro ⟨hauth, hle⟩
      refine ⟨hauth, ?_⟩
      by_contra hgt
      exact hn ⟨hauth, by omega, by omega⟩
    · rintro ⟨hauth, hle⟩
      exact ⟨hauth, by omega⟩

/-- Reading one byte at offset 2^64 - 1 of an eight-byte region succeeds. -/
theorem read_byte_wraps :
    ¬ ∀ r cap offset a m, BoundsSafe r cap offset a m := by
  intro h
  have hs := (h ⟨5, 8, 0x1000⟩ ⟨5, CapRight.read, 0, 0⟩ 0xFFFFFFFFFFFFFFFF .readByte
    (fun _ => 0)).succeeds
  have hok : ((Access.readByte.perform ⟨5, 8, 0x1000⟩ (fun _ => 0) 0xFFFFFFFFFFFFFFFF
      ⟨5, CapRight.read, 0, 0⟩).1 : Bool) = true := by decide
  have hle := (hs.mp hok).2
  simp [Access.width] at hle

end NeuroVerse.Core
