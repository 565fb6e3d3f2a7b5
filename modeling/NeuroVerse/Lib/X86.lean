/-
  A small part of x86-64, over a flat memory that holds code and data alike.

  Instructions take 64-bit operands in the eight low registers or in the memory one of them
  points to. `decode` reads an instruction from memory, `encode` writes one, and decoding what
  was encoded gives the instruction back (`decode_encode`). Flags are left out: no instruction
  here reads them.

  `RunsUntil stop s s'` is a run from `s` that stops in the first state where `stop` holds; that
  state is determined by `s` (`RunsUntil.unique`). Straight code is run by `block_path`: as long
  as the code keeps its own bytes, the machine does what `runBlock` computes.
-/
import NeuroVerse.Lib.Memory
import Mathlib.Logic.Relation

namespace NeuroVerse.Lib

namespace X86

abbrev Reg := BitVec 3

def rax : Reg := 0
def rcx : Reg := 1
def rdx : Reg := 2
def rbx : Reg := 3
def rsp : Reg := 4
def rbp : Reg := 5

/-- A register, or the memory a register points to. -/
inductive Operand where
  | reg (r : Reg)
  | mem (base : Reg)
deriving DecidableEq, Repr

inductive Instr where
  | push (r : Reg)
  | pop (r : Reg)
  | pushImm8 (imm : BitVec 8)
  | movImm64 (r : Reg) (imm : BitVec 64)
  | add (dst : Operand) (src : Reg)
  | sub (dst : Operand) (src : Reg)
  | imul (dst : Reg) (src : Operand)
  | store (dst : Operand) (src : Reg)
  | load (dst : Reg) (src : Operand)
  | ret
deriving DecidableEq, Repr

/-! ## Encoding -/

/-- An operand the short addressing forms can name: rsp and rbp as a base mean other forms. -/
def Operand.Encodable : Operand → Prop
  | .reg _ => True
  | .mem base => base ≠ rsp ∧ base ≠ rbp

def Instr.Encodable : Instr → Prop
  | .add dst _ => dst.Encodable
  | .sub dst _ => dst.Encodable
  | .imul _ src => src.Encodable
  | .store dst _ => dst.Encodable
  | .load _ src => src.Encodable
  | _ => True

/-- An opcode with a register in its low bits. -/
def opReg (op : Byte) (r : Reg) : Byte := op ||| r.setWidth 8

/-- The ModR/M byte of an operand and a register. -/
def modRM (o : Operand) (r : Reg) : Byte :=
  match o with
  | .reg rm => 0xC0#8 ||| (r.setWidth 8 <<< 3) ||| rm.setWidth 8
  | .mem rm => (r.setWidth 8 <<< 3) ||| rm.setWidth 8

def encode : Instr → List Byte
  | .push r => [opReg 0x50#8 r]
  | .pop r => [opReg 0x58#8 r]
  | .pushImm8 imm => [0x6A#8, imm]
  | .movImm64 r imm => 0x48#8 :: opReg 0xB8#8 r :: wordBytes imm
  | .add dst src => [0x48#8, 0x01#8, modRM dst src]
  | .sub dst src => [0x48#8, 0x29#8, modRM dst src]
  | .imul dst src => [0x48#8, 0x0F#8, 0xAF#8, modRM src dst]
  | .store dst src => [0x48#8, 0x89#8, modRM dst src]
  | .load dst src => [0x48#8, 0x8B#8, modRM src dst]
  | .ret => [0xC3#8]

def lowReg (b : Byte) : Reg := b.extractLsb' 0 3

def decodeModRM (b : Byte) : Option (Operand × Reg) :=
  let r : Reg := b.extractLsb' 3 3
  let rm := lowReg b
  if b &&& 0xC0#8 = 0xC0#8 then some (.reg rm, r)
  else if b &&& 0xC0#8 = 0#8 ∧ rm ≠ rsp ∧ rm ≠ rbp then some (.mem rm, r)
  else none

/-- The instruction after a REX.W prefix at `a`, with its length. -/
def decodeW (m : Memory) (a : Address) : Option (Instr × Nat) :=
  let b := m (off a 1)
  if b &&& 0xF8#8 = 0xB8#8 then some (.movImm64 (lowReg b) (word m (off a 2)), 10)
  else if b = 0x01#8 then (decodeModRM (m (off a 2))).map fun d => (.add d.1 d.2, 3)
  else if b = 0x29#8 then (decodeModRM (m (off a 2))).map fun d => (.sub d.1 d.2, 3)
  else if b = 0x89#8 then (decodeModRM (m (off a 2))).map fun d => (.store d.1 d.2, 3)
  else if b = 0x8B#8 then (decodeModRM (m (off a 2))).map fun d => (.load d.2 d.1, 3)
  else if b = 0x0F#8 ∧ m (off a 2) = 0xAF#8 then
    (decodeModRM (m (off a 3))).map fun d => (.imul d.2 d.1, 4)
  else none

/-- The instruction at `a`, with its length. -/
def decode (m : Memory) (a : Address) : Option (Instr × Nat) :=
  let b := m a
  if b &&& 0xF8#8 = 0x50#8 then some (.push (lowReg b), 1)
  else if b &&& 0xF8#8 = 0x58#8 then some (.pop (lowReg b), 1)
  else if b = 0x6A#8 then some (.pushImm8 (m (off a 1)), 2)
  else if b = 0xC3#8 then some (.ret, 1)
  else if b = 0x48#8 then decodeW m a
  else none

theorem decodeModRM_modRM (o : Operand) (ho : o.Encodable) (r : Reg) :
    decodeModRM (modRM o r) = some (o, r) := by
  have hreg : ∀ rm r : Reg, decodeModRM (modRM (.reg rm) r) = some (.reg rm, r) := by decide
  have hmem : ∀ rm r : Reg, rm ≠ rsp ∧ rm ≠ rbp →
      decodeModRM (modRM (.mem rm) r) = some (.mem rm, r) := by decide
  cases o with
  | reg rm => exact hreg rm r
  | mem rm => exact hmem rm r ho

theorem opReg_push (r : Reg) :
    opReg 0x50#8 r &&& 0xF8#8 = 0x50#8 ∧ lowReg (opReg 0x50#8 r) = r := by
  revert r
  decide

theorem opReg_pop (r : Reg) :
    opReg 0x58#8 r &&& 0xF8#8 ≠ 0x50#8 ∧ opReg 0x58#8 r &&& 0xF8#8 = 0x58#8 ∧
      lowReg (opReg 0x58#8 r) = r := by
  revert r
  decide

theorem opReg_mov (r : Reg) : opReg 0xB8#8 r &&& 0xF8#8 = 0xB8#8 ∧ lowReg (opReg 0xB8#8 r) = r := by
  revert r
  decide

/-- After a REX.W prefix the second table is read. -/
theorem decode_rexW {m : Memory} {a : Address} (h : m a = 0x48#8) :
    decode m a = decodeW m a := by
  unfold decode
  rw [h]
  rfl

theorem bytesAt_three {m : Memory} {a : Address} {b0 b1 b2 : Byte}
    (h : BytesAt m a [b0, b1, b2]) : m a = b0 ∧ m (off a 1) = b1 ∧ m (off a 2) = b2 :=
  ⟨h.head, h 1 (by simp), h 2 (by simp)⟩

theorem decode_encode {m : Memory} {a : Address} {i : Instr} (hi : i.Encodable)
    (h : BytesAt m a (encode i)) : decode m a = some (i, (encode i).length) := by
  cases i with
  | push r =>
    obtain ⟨hop, hr⟩ := opReg_push r
    simp [decode, h.head, hop, hr, encode]
  | pop r =>
    obtain ⟨hne, hop, hr⟩ := opReg_pop r
    simp [decode, h.head, hop, hr, encode]
  | pushImm8 imm =>
    have h1 : m (off a 1) = imm := h 1 (by simp [encode])
    simp [decode, h.head, h1, encode]
  | ret => simp [decode, h.head, encode]
  | movImm64 r imm =>
    have h1 : m (off a 1) = opReg 0xB8#8 r := h 1 (by simp [encode])
    have hw : word m (off a 2) = imm := by
      have h2 : BytesAt m a ([0x48#8, opReg 0xB8#8 r] ++ wordBytes imm) := h
      exact word_of_bytesAt (bytesAt_append.mp h2).2
    obtain ⟨hop, hr⟩ := opReg_mov r
    rw [decode_rexW h.head]
    simp [decodeW, h1, hop, hr, hw, encode, wordBytes]
  | imul dst src =>
    have h1 : m (off a 1) = 0x0F#8 := h 1 (by simp [encode])
    have h2 : m (off a 2) = 0xAF#8 := h 2 (by simp [encode])
    have h3 : m (off a 3) = modRM src dst := h 3 (by simp [encode])
    rw [decode_rexW h.head]
    simp [decodeW, h1, h2, h3, decodeModRM_modRM src hi dst, encode]
  | add dst src | sub dst src | store dst src =>
    obtain ⟨h0, h1, h2⟩ := bytesAt_three h
    rw [decode_rexW h0]
    simp [decodeW, h1, h2, decodeModRM_modRM dst hi src, encode]
  | load dst src =>
    obtain ⟨h0, h1, h2⟩ := bytesAt_three h
    rw [decode_rexW h0]
    simp [decodeW, h1, h2, decodeModRM_modRM src hi dst, encode]

/-! ## Execution -/

structure Machine where
  regs : Reg → BitVec 64
  rip : Address
  mem : Memory

namespace Machine

def setReg (s : Machine) (r : Reg) (v : BitVec 64) : Machine :=
  { s with regs := Function.update s.regs r v }

def readOperand (s : Machine) : Operand → BitVec 64
  | .reg r => s.regs r
  | .mem base => word s.mem (s.regs base)

def writeOperand (s : Machine) (o : Operand) (v : BitVec 64) : Machine :=
  match o with
  | .reg r => s.setReg r v
  | .mem base => { s with mem := setWord s.mem (s.regs base) v }

def pushWord (s : Machine) (v : BitVec 64) : Machine :=
  { s.setReg rsp (s.regs rsp - 8) with mem := setWord s.mem (s.regs rsp - 8) v }

/-- The machine with the word at rsp taken off the stack. -/
def dropWord (s : Machine) : Machine := s.setReg rsp (s.regs rsp + 8)

def topWord (s : Machine) : BitVec 64 := word s.mem (s.regs rsp)

section

variable (s : Machine) {r q : Reg} (v : BitVec 64)

@[simp] theorem setReg_self : (s.setReg r v).regs r = v := Function.update_self ..

@[simp] theorem setReg_of_ne (h : q ≠ r) : (s.setReg r v).regs q = s.regs q :=
  Function.update_of_ne h ..

@[simp] theorem setReg_mem : (s.setReg r v).mem = s.mem := rfl

@[simp] theorem pushWord_rsp : (s.pushWord v).regs rsp = s.regs rsp - 8 := by
  simp [pushWord]

@[simp] theorem pushWord_of_ne (h : q ≠ rsp) : (s.pushWord v).regs q = s.regs q := by
  simp [pushWord, h]

@[simp] theorem pushWord_mem : (s.pushWord v).mem = setWord s.mem (s.regs rsp - 8) v := rfl

@[simp] theorem dropWord_rsp : s.dropWord.regs rsp = s.regs rsp + 8 := by
  simp [dropWord]

@[simp] theorem dropWord_of_ne (h : q ≠ rsp) : s.dropWord.regs q = s.regs q := by
  simp [dropWord, h]

@[simp] theorem dropWord_mem : s.dropWord.mem = s.mem := rfl

end

/-- The registers emitted code works with are three. -/
@[simp] theorem regs_ne :
    rax ≠ rbx ∧ rax ≠ rsp ∧ rbx ≠ rax ∧ rbx ≠ rsp ∧ rsp ≠ rax ∧ rsp ≠ rbx := by
  decide

end Machine

/-- What an instruction does once rip is past it. -/
def exec (i : Instr) (s : Machine) : Machine :=
  match i with
  | .push r => s.pushWord (s.regs r)
  | .pop r => s.dropWord.setReg r s.topWord
  | .pushImm8 imm => s.pushWord (imm.signExtend 64)
  | .movImm64 r imm => s.setReg r imm
  | .add dst src => s.writeOperand dst (s.readOperand dst + s.regs src)
  | .sub dst src => s.writeOperand dst (s.readOperand dst - s.regs src)
  | .imul dst src => s.setReg dst (s.regs dst * s.readOperand src)
  | .store dst src => s.writeOperand dst (s.regs src)
  | .load dst src => s.setReg dst (s.readOperand src)
  | .ret => { s.dropWord with rip := s.topWord }

/-- The instruction `i` run from a state whose rip is at its first byte. -/
def next (i : Instr) (s : Machine) : Machine :=
  exec i { s with rip := off s.rip (encode i).length }

def step (s : Machine) : Option Machine :=
  (decode s.mem s.rip).map fun d => exec d.1 { s with rip := off s.rip d.2 }

/-- The next instruction is a `ret`. -/
def AtRet (s : Machine) : Prop := decode s.mem s.rip = some (.ret, 1)

instance (s : Machine) : Decidable (AtRet s) :=
  inferInstanceAs (Decidable (decode s.mem s.rip = some (.ret, 1)))

theorem step_of_bytesAt {s : Machine} {i : Instr} (hi : i.Encodable)
    (h : BytesAt s.mem s.rip (encode i)) : step s = some (next i s) := by
  rw [step, decode_encode hi h]
  rfl

theorem exec_rip {i : Instr} (hi : i ≠ .ret) (s : Machine) : (exec i s).rip = s.rip := by
  cases i with
  | ret => exact absurd rfl hi
  | add dst src | sub dst src | store dst src =>
    cases dst <;> rfl
  | _ => rfl

theorem next_rip {i : Instr} (hi : i ≠ .ret) (s : Machine) :
    (next i s).rip = off s.rip (encode i).length :=
  exec_rip hi _

/-! ## Runs -/

/-- A run that stops in the first state where `stop` holds. -/
def RunsUntil (stop : Machine → Prop) (s s' : Machine) : Prop :=
  Relation.ReflTransGen (fun t t' => ¬ stop t ∧ step t = some t') s s' ∧ stop s'

theorem RunsUntil.unique {stop : Machine → Prop} {s s1 s2 : Machine}
    (h1 : RunsUntil stop s s1) (h2 : RunsUntil stop s s2) : s1 = s2 := by
  obtain ⟨path1, stop1⟩ := h1
  obtain ⟨path2, stop2⟩ := h2
  have hdet : Relator.RightUnique (fun t t' => ¬ stop t ∧ step t = some t') := by
    intro t u v hu hv
    exact Option.some.inj (hu.2.symm.trans hv.2)
  -- One run continues the other, and no run continues where it has stopped.
  rcases Relation.ReflTransGen.total_of_right_unique hdet path1 path2 with path | path
  · rcases Relation.ReflTransGen.cases_head path with heq | ⟨t, ht, -⟩
    · exact heq
    · exact absurd stop1 ht.1
  · rcases Relation.ReflTransGen.cases_head path with heq | ⟨t, ht, -⟩
    · exact heq.symm
    · exact absurd stop2 ht.1

theorem RunsUntil.head {stop : Machine → Prop} {s s' : Machine} (h : RunsUntil stop s s')
    (hs : ¬ stop s) : ∃ t, step s = some t ∧ RunsUntil stop t s' := by
  obtain ⟨path, hstop⟩ := h
  rcases Relation.ReflTransGen.cases_head path with rfl | ⟨t, ht, path'⟩
  · exact absurd hstop hs
  · exact ⟨t, ht.2, path', hstop⟩

/-- A step of an instruction other than `ret` whose first byte lies in `code`. -/
def Inside (code : Set Address) (s s' : Machine) : Prop :=
  s.rip ∈ code ∧ ¬ AtRet s ∧ step s = some s'

theorem RunsUntil.of_path {stop : Machine → Prop} {code : Set Address} {s s' : Machine}
    (path : Relation.ReflTransGen (Inside code) s s')
    (hgo : ∀ t, t.rip ∈ code → ¬ AtRet t → ¬ stop t) (hstop : stop s') : RunsUntil stop s s' := by
  have hmono : Inside code ≤ fun t t' => ¬ stop t ∧ step t = some t' :=
    fun t _ ht => ⟨hgo t ht.1 ht.2.1, ht.2.2⟩
  exact ⟨Relation.ReflTransGen.mono hmono s s' path, hstop⟩

theorem inside_next {code : Set Address} {s : Machine} {i : Instr} (hi : i.Encodable)
    (hret : i ≠ .ret) (hrip : s.rip ∈ code) (h : BytesAt s.mem s.rip (encode i)) :
    Inside code s (next i s) := by
  refine ⟨hrip, fun hat => ?_, step_of_bytesAt hi h⟩
  rw [AtRet, decode_encode hi h] at hat
  exact hret (congrArg Prod.fst (Option.some.inj hat))

/-! ## Straight code -/

/-- The instructions of `is` one after the other. -/
def runBlock : List Instr → Machine → Machine
  | [], s => s
  | i :: is, s => runBlock is (next i s)

/-- No instruction of the block changes a byte of `code`. -/
def KeepsCode (code : Set Address) : List Instr → Machine → Prop
  | [], _ => True
  | i :: is, s => (∀ x ∈ code, (next i s).mem x = s.mem x) ∧ KeepsCode code is (next i s)

theorem encode_pos (i : Instr) : 0 < (encode i).length := by
  cases i <;> simp [encode]

theorem block_path {code : Set Address} (is : List Instr) (s : Machine)
    (hok : ∀ i ∈ is, i.Encodable ∧ i ≠ .ret)
    (hbytes : BytesAt s.mem s.rip (is.flatMap encode))
    (hin : Span s.rip (is.flatMap encode).length ⊆ code) (hkeep : KeepsCode code is s) :
    Relation.ReflTransGen (Inside code) s (runBlock is s) := by
  induction is generalizing s with
  | nil => exact Relation.ReflTransGen.refl
  | cons i is ih =>
    obtain ⟨henc, hret⟩ := hok i List.mem_cons_self
    rw [List.flatMap_cons] at hbytes hin
    obtain ⟨hi, his⟩ := bytesAt_append.mp hbytes
    have hlen : (encode i ++ is.flatMap encode).length =
        (encode i).length + (is.flatMap encode).length := List.length_append
    have hrip : s.rip ∈ code := hin (mem_span_self _ (by have := encode_pos i; omega))
    -- The rest of the block lies in the code too, and this instruction leaves it as it is.
    have hrest : Span (next i s).rip (is.flatMap encode).length ⊆ code := by
      rw [next_rip hret]
      exact (span_off_subset _ (by omega)).trans hin
    have hbytes' : BytesAt (next i s).mem (next i s).rip (is.flatMap encode) := by
      have hx := hrest
      rw [next_rip hret] at hx ⊢
      exact his.congr fun x hspan => hkeep.1 x (hx hspan)
    exact Relation.ReflTransGen.head (inside_next henc hret hrip hi)
      (ih (next i s) (fun j hj => hok j (List.mem_cons_of_mem i hj)) hbytes' hrest hkeep.2)

theorem runBlock_rip (is : List Instr) (s : Machine) (hret : ∀ i ∈ is, i ≠ .ret) :
    (runBlock is s).rip = off s.rip (is.flatMap encode).length := by
  induction is generalizing s with
  | nil => exact (off_zero s.rip).symm
  | cons i is ih =>
    rw [runBlock, ih _ fun j hj => hret j (List.mem_cons_of_mem i hj),
      next_rip (hret i List.mem_cons_self), off_off, List.flatMap_cons, List.length_append]

end X86

end NeuroVerse.Lib
