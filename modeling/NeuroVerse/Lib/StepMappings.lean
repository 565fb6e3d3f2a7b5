/-
  The permutations Keccak-f of FIPS 202, bit by bit.

  A state is an array of 5 by 5 lanes of `w` bits. The step mappings are the formulas of the
  standard (section 3.2); its coordinates are residues modulo 5 and modulo `w`, so its index
  arithmetic is that of `Fin`. `w` is a power of two, and the standard's `l` is `Nat.log2 w`.
  Nothing here names a program.
-/
import Mathlib.Data.BitVec
import Mathlib.Logic.Function.Iterate

namespace NeuroVerse.Lib

/-- Bit `z` of lane `(x, y)`. -/
abbrev StateArray (w : Nat) := Fin 5 → Fin 5 → Fin w → Bool

namespace StateArray

variable {w : Nat}

/-- The coordinates of the lanes have a zero and a one. -/
instance neZero_five : NeZero 5 := ⟨by decide⟩

/-- The parity of the column `(x, z)`. -/
def parity (A : StateArray w) (x : Fin 5) (z : Fin w) : Bool :=
  A x 0 z ^^ A x 1 z ^^ A x 2 z ^^ A x 3 z ^^ A x 4 z

def theta [NeZero w] (A : StateArray w) : StateArray w := fun x y z =>
  A x y z ^^ (A.parity (x - 1) z ^^ A.parity (x + 1) (z - 1))

/-- The lane that the walk of `rho` is in at step `t`. -/
def walk : Nat → Fin 5 × Fin 5
  | 0 => (1, 0)
  | t + 1 => match walk t with
    | (x, y) => (y, 2 * x + 3 * y)

/-- The lane met at step `t` is rotated by `(t + 1) * (t + 2) / 2`, lane `(0, 0)` by nothing. -/
def offset (x y : Fin 5) : Nat :=
  match (List.range 24).find? fun t => walk t == (x, y) with
  | some t => (t + 1) * (t + 2) / 2
  | none => 0

def rho [NeZero w] (A : StateArray w) : StateArray w := fun x y z =>
  A x y (z - Fin.ofNat w (offset x y))

def pi (A : StateArray w) : StateArray w := fun x y => A (x + 3 * y) x

def chi (A : StateArray w) : StateArray w := fun x y z =>
  A x y z ^^ (!A (x + 1) y z && A (x + 2) y z)

/-- A step of the shift register behind the round constants, bit `i` being its `R[i]`: a zero is
    put in front, and the bit pushed out at the end is added to the bits 0, 4, 5 and 6. -/
def shiftRegister (R : BitVec 8) : BitVec 8 :=
  let R := R.setWidth 9 <<< 1
  (if R.getLsbD 8 then R ^^^ 0b001110001 else R).setWidth 8

/-- Bit 0 of the register after `t % 255` steps from 10000000. -/
def rc (t : Nat) : Bool := (shiftRegister^[t % 255] 1).getLsbD 0

/-- Bit `2 ^ j - 1` of the constant of round `ir` is `rc (j + 7 * ir)`, the others are zero. -/
def roundConstant (w ir z : Nat) : Bool :=
  (List.range (Nat.log2 w + 1)).any fun j => z == 2 ^ j - 1 && rc (j + 7 * ir)

def iota (ir : Nat) (A : StateArray w) : StateArray w := fun x y z =>
  if x = 0 ∧ y = 0 then A 0 0 z ^^ roundConstant w ir z else A x y z

def round [NeZero w] (A : StateArray w) (ir : Nat) : StateArray w :=
  iota ir (chi (pi (rho (theta A))))

def keccakF [NeZero w] (A : StateArray w) : StateArray w :=
  (List.range (12 + 2 * Nat.log2 w)).foldl round A

/-- `pi` moves lane `(x, y)` to `(y, 2 * x + 3 * y)`. -/
theorem pi_moves (A : StateArray w) (x y : Fin 5) : pi A y (2 * x + 3 * y) = A x y := by
  have hx : ∀ x y : Fin 5, y + 3 * (2 * x + 3 * y) = x := by decide
  rw [pi, hx]

/-- Every lane is the target of one. -/
theorem pi_source (x y : Fin 5) : 2 * (x + 3 * y) + 3 * x = y := by
  revert x y
  decide

end StateArray

end NeuroVerse.Lib
