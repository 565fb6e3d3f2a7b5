/-
  The stack IR of the JIT (`jit/engine.hpp`) and what its instructions mean.

  The source has no interpreter; `irStep` is the meaning the comments of `OpKind` state, over a
  stack of 64-bit words (top first) and a flat memory: `Add`, `Sub` and `Mul` pop a then b and
  push a op b, `Load` pops an address, `Store` an address and then a value. `Ret` ends a
  function (`evalFunction`), `Call` has no meaning here.

  A double is its 64 bits; the conversion of a constant to an integer is the one `emit_instr`
  makes. Where C++ leaves it undefined (infinities, NaNs, values out of range) it is the result
  of the x86-64 conversion instruction.
-/
import NeuroVerse.Lib.X86

namespace NeuroVerse.Jit

open NeuroVerse.Lib

/-! ## The IR -/

inductive OpKind where
  | const
  | add
  | sub
  | mul
  | load
  | store
  | ret
  | call
  deriving DecidableEq, Repr

inductive Kind where
  | i64
  | f64
  deriving DecidableEq, Repr

/-- A constant; `f64` holds the bits of the double. -/
structure Value where
  kind : Kind := .i64
  i64 : BitVec 64 := 0
  f64 : BitVec 64 := 0
  deriving DecidableEq, Repr

structure Instr where
  op : OpKind := .const
  arg : Value := {}
  callee : String := ""
  deriving DecidableEq, Repr

structure Function where
  name : String
  code : List Instr

/-- A double rounded toward zero; infinities and NaNs have no value. -/
def truncF64 (bits : BitVec 64) : Option Int :=
  let exponent := (bits.extractLsb' 52 11).toNat
  let fraction := (bits.extractLsb' 0 52).toNat
  let mantissa := if exponent = 0 then fraction else fraction + 2 ^ 52
  let magnitude : Nat :=
    if 1075 ≤ exponent then mantissa * 2 ^ (exponent - 1075)
    else mantissa / 2 ^ (1075 - exponent)
  if exponent = 2047 then none
  else some (if bits.msb then -(magnitude : Int) else magnitude)

/-- `static_cast<std::int64_t>` of a double. -/
def f64ToI64 (bits : BitVec 64) : BitVec 64 :=
  match truncF64 bits with
  | some z => if -(2 : Int) ^ 63 ≤ z ∧ z < 2 ^ 63 then BitVec.ofInt 64 z else BitVec.intMin 64
  | none => BitVec.intMin 64

/-- The word a `Const` stands for. -/
def Value.immediate (v : Value) : BitVec 64 :=
  if v.kind = .i64 then v.i64 else f64ToI64 v.f64

/-! ## Evaluation -/

structure IrState where
  stack : List (BitVec 64)
  mem : Memory

/-- One instruction other than `Ret` and `Call`; `none` when the stack is too short for it. -/
def irStep (ins : Instr) (st : IrState) : Option IrState :=
  match ins.op, st.stack with
  | .const, stack => some { st with stack := ins.arg.immediate :: stack }
  | .add, a :: b :: stack => some { st with stack := (a + b) :: stack }
  | .sub, a :: b :: stack => some { st with stack := (a - b) :: stack }
  | .mul, a :: b :: stack => some { st with stack := (a * b) :: stack }
  | .load, address :: stack => some { st with stack := word st.mem address :: stack }
  | .store, address :: value :: stack => some { stack, mem := setWord st.mem address value }
  | _, _ => none

def irRun : List Instr → IrState → Option IrState
  | [], st => some st
  | ins :: rest, st => (irStep ins st).bind (irRun rest)

/-- The state in which a function ends, and the value on top of the stack at its first `Ret`. -/
def evalFunction : List Instr → IrState → Option (IrState × Option (BitVec 64))
  | [], st => some (st, none)
  | ins :: rest, st =>
    if ins.op = .ret then
      match st.stack with
      | [] => none
      | a :: stack => some ({ st with stack }, some a)
    else (irStep ins st).bind (evalFunction rest)

/-- The operation of the three instructions that take two words to one. -/
def OpKind.binary : OpKind → Option (BitVec 64 → BitVec 64 → BitVec 64)
  | .add => some (· + ·)
  | .sub => some (· - ·)
  | .mul => some (· * ·)
  | _ => none

/-- An instruction of straight code: one that `irStep` runs. -/
def OpKind.Straight (op : OpKind) : Prop := op ≠ .ret ∧ op ≠ .call

instance (op : OpKind) : Decidable op.Straight := inferInstanceAs (Decidable (_ ∧ _))

theorem irStep_op {ins : Instr} {st st' : IrState} (h : irStep ins st = some st') :
    ins.op.Straight := by
  constructor <;>
  · intro hop
    rw [irStep, hop] at h
    cases h

/-- Everything a step can do. -/
theorem irStep_cases {ins : Instr} {st st' : IrState} (h : irStep ins st = some st') :
    (ins.op = .const ∧ st' = ⟨ins.arg.immediate :: st.stack, st.mem⟩) ∨
    (∃ f a b rest, ins.op.binary = some f ∧ st.stack = a :: b :: rest ∧
      st' = ⟨f a b :: rest, st.mem⟩) ∨
    (∃ address rest, ins.op = .load ∧ st.stack = address :: rest ∧
      st' = ⟨word st.mem address :: rest, st.mem⟩) ∨
    (∃ address value rest, ins.op = .store ∧ st.stack = address :: value :: rest ∧
      st' = ⟨rest, setWord st.mem address value⟩) := by
  unfold irStep at h
  split at h
  case h_1 stack hop => exact Or.inl ⟨hop, (Option.some.inj h).symm⟩
  case h_2 a b stack hop hstack =>
    exact Or.inr (Or.inl ⟨_, a, b, stack, by rw [hop]; rfl, hstack, (Option.some.inj h).symm⟩)
  case h_3 a b stack hop hstack =>
    exact Or.inr (Or.inl ⟨_, a, b, stack, by rw [hop]; rfl, hstack, (Option.some.inj h).symm⟩)
  case h_4 a b stack hop hstack =>
    exact Or.inr (Or.inl ⟨_, a, b, stack, by rw [hop]; rfl, hstack, (Option.some.inj h).symm⟩)
  case h_5 address stack hop hstack =>
    exact Or.inr (Or.inr (Or.inl ⟨address, stack, hop, hstack, (Option.some.inj h).symm⟩))
  case h_6 address value stack hop hstack =>
    exact Or.inr (Or.inr (Or.inr ⟨address, value, stack, hop, hstack, (Option.some.inj h).symm⟩))
  case h_7 => cases h

/-! ## Stack depth -/

/-- How many values an instruction pops. -/
def OpKind.pops : OpKind → Nat
  | .const => 0
  | .add | .sub | .mul | .store => 2
  | .load | .ret => 1
  | .call => 0

def OpKind.pushes : OpKind → Nat
  | .const | .add | .sub | .mul | .load => 1
  | .store | .ret | .call => 0

def depthAfter : List Instr → Nat → Nat
  | [], d => d
  | ins :: rest, d => depthAfter rest (d - ins.op.pops + ins.op.pushes)

/-- From a stack of `d` values, no prefix pops more values than there are. -/
def NoUnderflow : List Instr → Nat → Prop
  | [], _ => True
  | ins :: rest, d => ins.op.pops ≤ d ∧ NoUnderflow rest (d - ins.op.pops + ins.op.pushes)

instance decidableNoUnderflow : (is : List Instr) → (d : Nat) → Decidable (NoUnderflow is d)
  | [], _ => inferInstanceAs (Decidable True)
  | ins :: rest, d =>
    have := decidableNoUnderflow rest (d - ins.op.pops + ins.op.pushes)
    inferInstanceAs (Decidable (_ ∧ _))

/-- The largest number of values on the stack. -/
def maxDepth : List Instr → Nat → Nat
  | [], d => d
  | ins :: rest, d => max d (maxDepth rest (d - ins.op.pops + ins.op.pushes))

theorem le_maxDepth (is : List Instr) (d : Nat) : d ≤ maxDepth is d := by
  cases is with
  | nil => exact Nat.le_refl d
  | cons ins rest => exact Nat.le_max_left ..

theorem depthAfter_le_maxDepth (is : List Instr) (d : Nat) : depthAfter is d ≤ maxDepth is d := by
  induction is generalizing d with
  | nil => exact Nat.le_refl d
  | cons ins rest ih => exact (ih _).trans (Nat.le_max_right ..)

/-- Code that never pops from an empty stack pushes first. -/
theorem maxDepth_pos {is : List Instr} (hne : is ≠ []) (hops : ∀ i ∈ is, i.op.Straight)
    (h : NoUnderflow is 0) : 0 < maxDepth is 0 := by
  cases is with
  | nil => exact absurd rfl hne
  | cons ins rest =>
    have hpops : ins.op.pops = 0 := Nat.le_zero.mp h.1
    have hpushes : ins.op.pushes = 1 := by
      have hop := hops ins List.mem_cons_self
      cases hins : ins.op <;> simp_all [OpKind.pops, OpKind.pushes, OpKind.Straight]
    have hrest := le_maxDepth rest (0 - ins.op.pops + ins.op.pushes)
    rw [maxDepth]
    omega

theorem depthAfter_append (is js : List Instr) (d : Nat) :
    depthAfter (is ++ js) d = depthAfter js (depthAfter is d) := by
  induction is generalizing d with
  | nil => rfl
  | cons ins rest ih => exact ih _

theorem noUnderflow_append {is js : List Instr} {d : Nat} :
    NoUnderflow (is ++ js) d ↔ NoUnderflow is d ∧ NoUnderflow js (depthAfter is d) := by
  induction is generalizing d with
  | nil => simp [NoUnderflow, depthAfter]
  | cons ins rest ih => simp only [List.cons_append, NoUnderflow, depthAfter, ih, and_assoc]

/-- With enough values on the stack a straight instruction runs, whatever they are. -/
theorem irStep_of_pops {ins : Instr} {st : IrState} (hop : ins.op.Straight)
    (h : ins.op.pops ≤ st.stack.length) : ∃ st', irStep ins st = some st' := by
  obtain ⟨stack, mem⟩ := st
  rcases hins : ins.op with _ | _ | _ | _ | _ | _ | _ | _ <;>
    rw [hins] at h hop <;>
    rcases stack with _ | ⟨a, _ | ⟨b, stack⟩⟩ <;>
    simp_all [irStep, OpKind.pops, OpKind.Straight]

theorem OpKind.depth_of_binary {op : OpKind} {f : BitVec 64 → BitVec 64 → BitVec 64}
    (hf : op.binary = some f) : op.pops = 2 ∧ op.pushes = 1 := by
  cases op with
  | add | sub | mul => exact ⟨rfl, rfl⟩
  | const | load | store | ret | call => cases hf

theorem irStep_length {ins : Instr} {st st' : IrState} (h : irStep ins st = some st') :
    st'.stack.length = st.stack.length - ins.op.pops + ins.op.pushes := by
  obtain ⟨hop, rfl⟩ | ⟨f, a, b, rest, hf, hstack, rfl⟩ | ⟨address, rest, hop, hstack, rfl⟩ |
    ⟨address, value, rest, hop, hstack, rfl⟩ := irStep_cases h
  · simp [hop, OpKind.pops, OpKind.pushes]
  · obtain ⟨hpops, hpushes⟩ := OpKind.depth_of_binary hf
    simp [hpops, hpushes, hstack]
  · simp [hop, hstack, OpKind.pops, OpKind.pushes]
  · simp [hop, hstack, OpKind.pops, OpKind.pushes]

theorem irRun_of_noUnderflow {is : List Instr} (st : IrState) (hops : ∀ i ∈ is, i.op.Straight)
    (h : NoUnderflow is st.stack.length) :
    ∃ st', irRun is st = some st' ∧ st'.stack.length = depthAfter is st.stack.length := by
  induction is generalizing st with
  | nil => exact ⟨st, rfl, rfl⟩
  | cons ins rest ih =>
    obtain ⟨st1, hstep⟩ := irStep_of_pops (hops ins List.mem_cons_self) h.1
    have hlen := irStep_length hstep
    have hrest : NoUnderflow rest st1.stack.length := by rw [hlen]; exact h.2
    obtain ⟨st', hrun, hlen'⟩ := ih st1 (fun i hi => hops i (List.mem_cons_of_mem ins hi)) hrest
    refine ⟨st', ?_, ?_⟩
    · rw [irRun, hstep, Option.bind_some, hrun]
    · rw [hlen', hlen, depthAfter]

/-! ## Memory -/

/-- The addresses of the word an instruction loads or stores. -/
def touches (ins : Instr) (st : IrState) : Set Address :=
  match ins.op, st.stack with
  | .load, address :: _ => Span address 8
  | .store, address :: _ => Span address 8
  | _, _ => ∅

/-- The addresses a run loads and stores. -/
def touched : List Instr → IrState → Set Address
  | [], _ => ∅
  | ins :: rest, st => touches ins st ∪ {x | ∃ st', irStep ins st = some st' ∧ x ∈ touched rest st'}

theorem irStep_frame {ins : Instr} {st st' : IrState} (h : irStep ins st = some st') {x : Address}
    (hx : x ∉ touches ins st) : st'.mem x = st.mem x := by
  obtain ⟨-, rfl⟩ | ⟨f, a, b, rest, -, -, rfl⟩ | ⟨address, rest, -, -, rfl⟩ |
    ⟨address, value, rest, hop, hstack, rfl⟩ := irStep_cases h
  · rfl
  · rfl
  · rfl
  · rw [touches, hop, hstack] at hx
    exact setWord_frame st.mem value hx

theorem irRun_frame {is : List Instr} {st st' : IrState} (h : irRun is st = some st')
    {x : Address} (hx : x ∉ touched is st) : st'.mem x = st.mem x := by
  induction is generalizing st with
  | nil =>
    obtain rfl : st = st' := Option.some.inj h
    rfl
  | cons ins rest ih =>
    obtain ⟨st1, hstep, hrest⟩ := Option.bind_eq_some_iff.mp h
    have htail : x ∉ touched rest st1 := fun hmem => hx (Or.inr ⟨st1, hstep, hmem⟩)
    rw [ih hrest htail, irStep_frame hstep fun hmem => hx (Or.inl hmem)]

end NeuroVerse.Jit
