/-
  The 128-bit capability token (`core/capability.hpp`): four bit-fields, rights as a 16-bit
  mask, and the pure operations on one token.

  The bit-fields are bit vectors of the declared widths, so `mint` truncates its 64-bit
  arguments the way the brace initialiser of the bit-fields does. `to_string`, a placeholder
  that returns a constant, is with the text form of the boot manifest.
-/
import Mathlib.Data.BitVec

namespace NeuroVerse.Core

/-- `enum class CapRight : uint16_t`, closed under `|` and `&`. -/
abbrev CapRight := BitVec 16

namespace CapRight

def none : CapRight := 0
def read : CapRight := 1 <<< 0
def write : CapRight := 1 <<< 1
def exec : CapRight := 1 <<< 2
def grant : CapRight := 1 <<< 3
def map : CapRight := 1 <<< 4
def signal : CapRight := 1 <<< 5
def audit : CapRight := 1 <<< 6
def all : CapRight := read ||| write ||| exec ||| grant ||| map ||| signal ||| audit

/-- `a` grants nothing that `b` does not grant. -/
def Subset (a b : CapRight) : Prop := a &&& b = a

instance (a b : CapRight) : Decidable (Subset a b) := inferInstanceAs (Decidable (_ = _))

theorem Subset.refl (a : CapRight) : Subset a a := BitVec.and_self

theorem Subset.trans {a b c : CapRight} (h1 : Subset a b) (h2 : Subset b c) : Subset a c := by
  unfold Subset at *
  calc a &&& c = (a &&& b) &&& c := by rw [h1]
    _ = a &&& (b &&& c) := BitVec.and_assoc a b c
    _ = a := by rw [h2, h1]

theorem subset_none (a : CapRight) : Subset none a := BitVec.zero_and

end CapRight

/-- The token. `rights` is a mask of `CapRight`. -/
structure Capability where
  objectId : BitVec 48
  rights : CapRight
  epoch : BitVec 16
  generation : BitVec 48
  deriving DecidableEq, Inhabited, Repr

namespace Capability

def mint (oid : BitVec 64) (r : CapRight) (ep gen : BitVec 64) : Capability :=
  ⟨oid.setWidth 48, r, ep.setWidth 16, gen.setWidth 48⟩

def has (c : Capability) (r : CapRight) : Bool := c.rights &&& r == r

def attenuate (c : Capability) (r : CapRight) : Capability :=
  { c with rights := c.rights &&& r }

def verify (c : Capability) : Bool := c.objectId != 0

theorem has_iff (c : Capability) (r : CapRight) :
    c.has r = true ↔ CapRight.Subset r c.rights := by
  rw [has, beq_iff_eq, BitVec.and_comm]
  rfl

/-- Narrowing to rights the token has leaves exactly these rights. -/
theorem attenuate_rights {c : Capability} {r : CapRight} (h : c.has r = true) :
    (c.attenuate r).rights = r := by
  rw [has, beq_iff_eq] at h
  exact h

theorem has_none (c : Capability) : c.has CapRight.none = true :=
  (has_iff c _).mpr (CapRight.subset_none _)

end Capability

end NeuroVerse.Core
