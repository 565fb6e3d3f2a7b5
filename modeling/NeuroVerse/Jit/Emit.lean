/-
  The x86-64 emitter of the JIT (`jit/x86_64.cpp`), byte by byte.

  Every emitter appends to the bytes it is given. `lowered` names the machine instructions an IR
  instruction becomes, and `emitInstr_eq` says that the emitted bytes are their encodings.
-/
import NeuroVerse.Jit.Ir

namespace NeuroVerse.Jit

open NeuroVerse.Lib

/-! ## Emitters -/

inductive Reg where
  | rax
  | rbx
  | rcx
  | rdx
  deriving DecidableEq, Repr

def Reg.code : Reg → Byte
  | .rax => 0
  | .rbx => 3
  | .rcx => 1
  | .rdx => 2

def emitByte (out : List Byte) (b : Byte) : List Byte := out ++ [b]

/-- The loop of `emit_u64_le`: `n` more bytes, the lowest of `bits` first. -/
def emitLowBytes : Nat → List Byte → BitVec 64 → List Byte
  | 0, out, _ => out
  | n + 1, out, bits => emitLowBytes n (emitByte out (bits.setWidth 8)) (bits >>> 8)

def emitU64Le (out : List Byte) (v : BitVec 64) : List Byte := emitLowBytes 8 out v

def regLow3 (r : Reg) : Byte := r.code &&& 0x7

def emitMovRegImm64 (out : List Byte) (r : Reg) (imm : BitVec 64) : List Byte :=
  emitU64Le (emitByte (emitByte out 0x48) (0xB8 + regLow3 r)) imm

def emitPushReg (out : List Byte) (r : Reg) : List Byte := emitByte out (0x50 + regLow3 r)

def emitPopReg (out : List Byte) (r : Reg) : List Byte := emitByte out (0x58 + regLow3 r)

def emitAddRaxRbx (out : List Byte) : List Byte :=
  emitByte (emitByte (emitByte out 0x48) 0x01) 0xD8

def emitSubRaxRbx (out : List Byte) : List Byte :=
  emitByte (emitByte (emitByte out 0x48) 0x29) 0xD8

def emitImulRaxRbx (out : List Byte) : List Byte :=
  emitByte (emitByte (emitByte (emitByte out 0x48) 0x0F) 0xAF) 0xC3

def emitStoreRaxRbx (out : List Byte) : List Byte :=
  emitByte (emitByte (emitByte out 0x48) 0x89) 0x18

def emitLoadRax (out : List Byte) : List Byte :=
  emitByte (emitByte (emitByte out 0x48) 0x8B) 0x00

def emitRet (out : List Byte) : List Byte := emitByte out 0xC3

/-- The value fits a sign-extended byte. -/
def fitsImm8 (v : BitVec 64) : Bool := decide (-128 ≤ v.toInt) && decide (v.toInt ≤ 127)

/-- `false` for an instruction the emitter does not lower, with the bytes unchanged. -/
def emitInstr (out : List Byte) (ins : Instr) : Bool × List Byte :=
  match ins.op with
  | .const =>
    let v := ins.arg.immediate
    if fitsImm8 v then (true, emitByte (emitByte out 0x6A) (v.setWidth 8))
    else (true, emitPushReg (emitMovRegImm64 out .rax v) .rax)
  | .add => (true, emitPushReg (emitAddRaxRbx (emitPopReg (emitPopReg out .rax) .rbx)) .rax)
  | .sub => (true, emitPushReg (emitSubRaxRbx (emitPopReg (emitPopReg out .rax) .rbx)) .rax)
  | .mul => (true, emitPushReg (emitImulRaxRbx (emitPopReg (emitPopReg out .rax) .rbx)) .rax)
  | .load => (true, emitPushReg (emitLoadRax (emitPopReg out .rax)) .rax)
  | .store => (true, emitStoreRaxRbx (emitPopReg (emitPopReg out .rax) .rbx))
  | .ret => (true, emitRet (emitPopReg out .rax))
  | .call => (false, out)

/-- The loop of `emit_function`, which stops at an instruction that is not lowered. -/
def emitCode : List Byte → List Instr → Bool × List Byte
  | out, [] => (true, out)
  | out, ins :: rest =>
    match emitInstr out ins with
    | (true, out') => emitCode out' rest
    | (false, out') => (false, out')

def emitFunction (out : List Byte) (fn : Function) : Bool × List Byte :=
  match emitCode out fn.code with
  | (true, out') => (true, emitRet out')
  | (false, out') => (false, out')

/-! ## The machine instructions behind the bytes -/

open X86 (encode)

def loweredConst (v : BitVec 64) : List X86.Instr :=
  if fitsImm8 v then [.pushImm8 (v.setWidth 8)] else [.movImm64 X86.rax v, .push X86.rax]

/-- The two operands into rax and rbx, the operation, the result back on the stack. -/
def loweredBinary (i : X86.Instr) : List X86.Instr :=
  [.pop X86.rax, .pop X86.rbx, i, .push X86.rax]

def lowered (ins : Instr) : List X86.Instr :=
  match ins.op with
  | .const => loweredConst ins.arg.immediate
  | .add => loweredBinary (.add (.reg X86.rax) X86.rbx)
  | .sub => loweredBinary (.sub (.reg X86.rax) X86.rbx)
  | .mul => loweredBinary (.imul X86.rax (.reg X86.rbx))
  | .load => [.pop X86.rax, .load X86.rax (.mem X86.rax), .push X86.rax]
  | .store => [.pop X86.rax, .pop X86.rbx, .store (.mem X86.rax) X86.rbx]
  | .ret => [.pop X86.rax, .ret]
  | .call => []

theorem emitLowBytes_eq (n : Nat) (out : List Byte) (v : BitVec 64) :
    emitLowBytes n out v = out ++ (List.range n).map fun k => v.extractLsb' (8 * k) 8 := by
  induction n generalizing out v with
  | zero => simp [emitLowBytes]
  | succ n ih =>
    have hshift : (fun k => (v >>> 8).extractLsb' (8 * k) 8) =
        fun k => v.extractLsb' (8 * (k + 1)) 8 := by
      funext k
      ext i hi
      simp only [BitVec.getElem_extractLsb', BitVec.getLsbD_ushiftRight]
      congr 1
      omega
    have hlow : v.setWidth 8 = v.extractLsb' (8 * 0) 8 := by
      ext i hi
      simp
    rw [emitLowBytes, ih, hshift, hlow, emitByte, List.append_assoc, List.singleton_append,
      List.range_succ_eq_map, List.map_cons, List.map_map]
    rfl

theorem emitU64Le_eq (out : List Byte) (v : BitVec 64) : emitU64Le out v = out ++ wordBytes v :=
  emitLowBytes_eq 8 out v

theorem emitInstr_eq {ins : Instr} (hop : ins.op ≠ .call) (out : List Byte) :
    emitInstr out ins = (true, out ++ (lowered ins).flatMap encode) := by
  have hbyte : ∀ b, emitByte out b = out ++ [b] := fun _ => rfl
  unfold emitInstr lowered
  split
  case h_1 =>
    by_cases hfits : fitsImm8 ins.arg.immediate
    · simp [hfits, loweredConst, emitByte, encode]
    · simp [hfits, loweredConst, emitPushReg, emitMovRegImm64, emitU64Le_eq, emitByte, encode]
      decide
  case h_8 h => exact absurd h hop
  all_goals
    simp [loweredBinary, emitPushReg, emitPopReg, emitAddRaxRbx, emitSubRaxRbx, emitImulRaxRbx,
      emitLoadRax, emitStoreRaxRbx, emitRet, emitByte, encode]
    try decide

theorem emitCode_eq {is : List Instr} (hops : ∀ i ∈ is, i.op ≠ .call) (out : List Byte) :
    emitCode out is = (true, out ++ (is.flatMap lowered).flatMap encode) := by
  induction is generalizing out with
  | nil => simp [emitCode]
  | cons ins rest ih =>
    rw [emitCode, emitInstr_eq (hops ins List.mem_cons_self)]
    show emitCode _ rest = _
    rw [ih fun i hi => hops i (List.mem_cons_of_mem ins hi)]
    simp

/-- What `emit_function` appends: the code, then one more `ret`. -/
theorem emitFunction_eq {fn : Function} (hops : ∀ i ∈ fn.code, i.op ≠ .call) (out : List Byte) :
    emitFunction out fn =
      (true, out ++ (fn.code.flatMap lowered ++ [X86.Instr.ret]).flatMap encode) := by
  rw [emitFunction, emitCode_eq hops]
  simp [emitRet, emitByte, encode]

-- The bytes the unit test of the emitter expects for 2 + 3.
example :
    emitFunction [] ⟨"add_2_3", [{ arg := { i64 := 2 } }, { arg := { i64 := 3 } }, { op := .add },
      { op := .ret }]⟩ =
      (true, [0x6A, 0x02, 0x6A, 0x03, 0x58, 0x5B, 0x48, 0x01, 0xD8, 0x50, 0x58, 0xC3, 0xC3]) := by
  decide

theorem lowered_bytes_ne_nil {ins : Instr} (hop : ins.op ≠ .call) :
    (lowered ins).flatMap encode ≠ [] := by
  unfold lowered
  split
  case h_1 =>
    by_cases hfits : fitsImm8 ins.arg.immediate <;> simp [hfits, loweredConst, encode]
  case h_8 h => exact absurd h hop
  all_goals simp [loweredBinary, encode]

/-- The short form of a constant pushes the constant. -/
theorem signExtend_of_fitsImm8 {v : BitVec 64} (h : fitsImm8 v) :
    (v.setWidth 8).signExtend 64 = v := by
  simp only [fitsImm8, Bool.and_eq_true, decide_eq_true_eq] at h
  apply BitVec.eq_of_toInt_eq
  have hlt : v.toNat < 2 ^ 64 := v.isLt
  have hv : v.toInt = (v.toNat : Int).bmod (2 ^ 64) := BitVec.toInt_eq_toNat_bmod v
  rw [BitVec.toInt_signExtend, BitVec.toInt_setWidth, show min 64 8 = 8 from rfl, hv]
  rw [hv] at h
  simp only [Int.bmod_def, Nat.reducePow, Nat.cast_ofNat] at h hlt ⊢
  omega

end NeuroVerse.Jit
