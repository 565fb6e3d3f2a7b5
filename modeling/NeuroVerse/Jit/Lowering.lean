/-
  The lowering simulates the stack IR.

  A run of emitted code uses a stack area below its entry rsp and the area of its own bytes;
  `Layout` holds the two, and that they do not meet. `Holds` relates the evaluation stack and the
  memory of the IR to the machine stack and the memory of the machine, `Sim` adds where the
  machine stands in the code. One IR instruction keeps `Sim` (`Sim.step`), so a straight piece of
  code does (`Sim.run`), and `lowering_simulates` is the run from an empty stack.

  When the two areas meet, a push may overwrite code that has not run (`push_over_code`).
-/
import NeuroVerse.Jit.Emit

namespace NeuroVerse.Jit

open NeuroVerse.Lib
open X86 (Machine RunsUntil Inside KeepsCode encode exec next runBlock rax rbx rsp)
open Relation (ReflTransGen)

/-! ## Memory of a run -/

/-- The area of `depth` words below `top`. -/
def stackArea (top : Address) (depth : Nat) : Set Address :=
  Span (top - BitVec.ofNat 64 (8 * depth)) (8 * depth)

/-- Where a run keeps its stack and its code. -/
structure Layout where
  top : Address
  depth : Nat
  start : Address
  bytes : List Byte
  disjoint : Disjoint (stackArea top depth) (Span start bytes.length)

namespace Layout

abbrev stack (L : Layout) : Set Address := stackArea L.top L.depth

abbrev code (L : Layout) : Set Address := Span L.start L.bytes.length

/-- rsp when `n` words are on the stack. -/
def slot (L : Layout) (n : Nat) : Address :=
  off (L.top - BitVec.ofNat 64 (8 * L.depth)) (8 * (L.depth - n))

theorem slot_eq (L : Layout) {n : Nat} (hn : n ≤ L.depth) :
    L.slot n = L.top - BitVec.ofNat 64 (8 * n) := by
  have hsum : BitVec.ofNat 64 (8 * L.depth) =
      BitVec.ofNat 64 (8 * (L.depth - n)) + BitVec.ofNat 64 (8 * n) := by
    rw [← BitVec.ofNat_add, show 8 * (L.depth - n) + 8 * n = 8 * L.depth by omega]
  rw [slot, off, hsum]
  generalize BitVec.ofNat 64 (8 * (L.depth - n)) = u
  generalize BitVec.ofNat 64 (8 * n) = v
  bv_omega

theorem slot_zero (L : Layout) : L.slot 0 = L.top := by
  rw [L.slot_eq (Nat.zero_le _)]
  simp

theorem slot_succ (L : Layout) {n : Nat} (hn : n < L.depth) :
    off (L.slot (n + 1)) 8 = L.slot n := by
  rw [slot, slot, off_off, show 8 * (L.depth - (n + 1)) + 8 = 8 * (L.depth - n) by omega]

theorem depth_lt (L : Layout) (h : L.bytes ≠ []) : 8 * L.depth < 2 ^ 64 := by
  by_contra hbig
  have hall : L.stack = Set.univ := span_univ _ (by omega)
  have hstack : L.start ∈ L.stack := by
    rw [hall]
    exact Set.mem_univ L.start
  have hcode : L.start ∈ L.code := mem_span_self _ (List.length_pos_of_ne_nil h)
  exact Set.disjoint_left.mp L.disjoint hstack hcode

theorem slot_subset (L : Layout) {n : Nat} (hn : n < L.depth) :
    Span (L.slot (n + 1)) 8 ⊆ L.stack :=
  span_off_subset _ (by omega)

/-- The word pushed on `n` words is none of them. -/
theorem slot_disjoint (L : Layout) (h : L.bytes ≠ []) {n : Nat} (hn : n < L.depth) :
    Disjoint (Span (L.slot (n + 1)) 8) (Span (L.slot n) (8 * n)) :=
  span_disjoint_off _ (N := 8 * L.depth) (L.depth_lt h).le (by omega) (by omega)

theorem slots_subset (L : Layout) {n : Nat} (hn : n ≤ L.depth) :
    Span (L.slot n) (8 * n) ⊆ L.stack :=
  span_off_subset _ (by omega)

end Layout

/-! ## The simulation relation -/

/-- The machine with rsp `p` and memory `m` holds the stack `ws`, and the memory `mem` beside
    the stack area, which the machine uses freely. -/
structure Holds (L : Layout) (ws : List (BitVec 64)) (mem : Memory) (p : Address) (m : Memory) :
    Prop where
  room : ws.length ≤ L.depth
  rsp : p = L.slot ws.length
  words : WordsAt m p ws
  mem : ∀ x ∉ L.stack, m x = mem x
  code : BytesAt m L.start L.bytes

namespace Holds

variable {L : Layout} {ws : List (BitVec 64)} {w v : BitVec 64} {mem m : Memory} {p a : Address}

theorem top (h : Holds L (w :: ws) mem p m) : word m p = w :=
  (wordsAt_cons.mp h.words).1

theorem pop (h : Holds L (w :: ws) mem p m) : Holds L ws mem (p + 8) m where
  room := Nat.le_of_succ_le h.room
  rsp := by
    rw [h.rsp]
    exact L.slot_succ h.room
  words := (wordsAt_cons.mp h.words).2
  mem := h.mem
  code := h.code

theorem push (h : Holds L ws mem p m) (hroom : ws.length < L.depth) (hbytes : L.bytes ≠ []) :
    Holds L (v :: ws) mem (p - 8) (setWord m (p - 8) v) := by
  have hslot : p - 8 = L.slot (ws.length + 1) := by
    rw [h.rsp, ← L.slot_succ hroom]
    exact BitVec.add_sub_cancel _ _
  have hframe : ∀ x ∉ Span (p - 8) 8, setWord m (p - 8) v x = m x :=
    fun x hx => setWord_frame m v hx
  have hp : off (p - 8) 8 = p := BitVec.sub_add_cancel _ _
  refine ⟨hroom, hslot, wordsAt_cons.mpr ⟨word_setWord m (p - 8) v, ?_⟩, ?_, ?_⟩
  · rw [hp]
    refine h.words.congr fun x hx => hframe x fun hx' => ?_
    rw [hslot] at hx'
    rw [h.rsp] at hx
    exact Set.disjoint_left.mp (L.slot_disjoint hbytes hroom) hx' hx
  · intro x hx
    rw [← h.mem x hx]
    exact hframe x fun hx' => hx (L.slot_subset hroom (hslot ▸ hx'))
  · refine h.code.congr fun x hx => hframe x fun hx' => ?_
    exact Set.disjoint_left.mp L.disjoint (L.slot_subset hroom (hslot ▸ hx')) hx

/-- A word beside the stack area is the same on both sides. -/
theorem load (h : Holds L ws mem p m) (ha : Disjoint (Span a 8) L.stack) :
    word m a = word mem a :=
  word_congr fun x hx => h.mem x (Set.disjoint_left.mp ha hx)

theorem store (h : Holds L ws mem p m) (hs : Disjoint (Span a 8) L.stack)
    (hc : Disjoint (Span a 8) L.code) :
    Holds L ws (setWord mem a v) p (setWord m a v) := by
  have hframe : ∀ x ∉ Span a 8, setWord m a v x = m x := fun x hx => setWord_frame m v hx
  refine ⟨h.room, h.rsp, h.words.congr fun x hx => ?_, fun x hx => ?_, h.code.congr fun x hx => ?_⟩
  · rw [h.rsp] at hx
    exact hframe x (Set.disjoint_right.mp hs (L.slots_subset h.room hx))
  · exact writeWord_congr (n := 8) v (h.mem x hx)
  · exact hframe x (Set.disjoint_right.mp hc hx)

end Holds

/-- The machine has run the first `k` bytes of the code, the IR is in state `st`. -/
structure Sim (L : Layout) (k : Nat) (st : IrState) (s : Machine) : Prop where
  rip : s.rip = off L.start k
  holds : Holds L st.stack st.mem (s.regs rsp) s.mem

/-! ## Blocks -/

/-- What a block does to memory, rsp and rbx; only its last instruction writes memory. -/
structure BlockSpec (is : List X86.Instr) (s : Machine) (m : Memory) (p : Address)
    (b : BitVec 64) : Prop where
  ok : ∀ i ∈ is, i.Encodable ∧ i ≠ .ret
  mem : (runBlock is s).mem = m
  rsp : (runBlock is s).regs rsp = p
  rbx : (runBlock is s).regs rbx = b
  keeps : ∀ code : Set Address, (∀ x ∈ code, m x = s.mem x) → KeepsCode code is s

theorem loweredConst_spec (v : BitVec 64) (s : Machine) :
    BlockSpec (loweredConst v) s (setWord s.mem (s.regs rsp - 8) v) (s.regs rsp - 8)
      (s.regs rbx) := by
  unfold loweredConst
  by_cases hfits : fitsImm8 v
  · rw [if_pos hfits]
    have hmem : (runBlock [.pushImm8 (v.setWidth 8)] s).mem = setWord s.mem (s.regs rsp - 8) v := by
      simp [runBlock, next, exec, signExtend_of_fitsImm8 hfits]
    refine ⟨by simp [X86.Instr.Encodable], hmem, ?_, ?_, fun code h => ⟨?_, trivial⟩⟩
    · simp [runBlock, next, exec]
    · simp [runBlock, next, exec]
    · rw [← hmem] at h
      exact h
  · rw [if_neg hfits]
    have hmem : (runBlock [.movImm64 rax v, .push rax] s).mem =
        setWord s.mem (s.regs rsp - 8) v := by
      simp [runBlock, next, exec]
    refine ⟨by simp [X86.Instr.Encodable], hmem, ?_, ?_,
      fun code h => ⟨fun _ _ => rfl, ?_, trivial⟩⟩
    · simp [runBlock, next, exec]
    · simp [runBlock, next, exec]
    · rw [← hmem] at h
      exact h

theorem loweredBinary_spec {i : X86.Instr} {f : BitVec 64 → BitVec 64 → BitVec 64}
    (hi : ∀ s, exec i s = s.setReg rax (f (s.regs rax) (s.regs rbx)))
    (henc : i.Encodable ∧ i ≠ .ret) (s : Machine) :
    BlockSpec (loweredBinary i) s
      (setWord s.mem (s.regs rsp + 8) (f (word s.mem (s.regs rsp)) (word s.mem (s.regs rsp + 8))))
      (s.regs rsp + 8) (word s.mem (s.regs rsp + 8)) := by
  have hmem : (runBlock (loweredBinary i) s).mem = setWord s.mem (s.regs rsp + 8)
      (f (word s.mem (s.regs rsp)) (word s.mem (s.regs rsp + 8))) := by
    simp only [loweredBinary, runBlock, next, hi]
    simp [exec, Machine.topWord]
  refine ⟨?_, hmem, ?_, ?_, fun code h => ?_⟩
  · intro j hj
    simp only [loweredBinary, List.mem_cons, List.not_mem_nil, or_false] at hj
    rcases hj with rfl | rfl | rfl | rfl
    · exact ⟨trivial, by simp⟩
    · exact ⟨trivial, by simp⟩
    · exact henc
    · exact ⟨trivial, by simp⟩
  · simp only [loweredBinary, runBlock, next, hi]
    simp [exec]
  · simp only [loweredBinary, runBlock, next, hi]
    simp [exec, Machine.topWord]
  · rw [← hmem] at h
    simp only [loweredBinary, runBlock, next, hi, KeepsCode] at h ⊢
    exact ⟨fun _ _ => rfl, fun _ _ => rfl, fun _ _ => rfl, h, trivial⟩

theorem loweredLoad_spec (s : Machine) :
    BlockSpec [.pop rax, .load rax (.mem rax), .push rax] s
      (setWord s.mem (s.regs rsp) (word s.mem (word s.mem (s.regs rsp)))) (s.regs rsp)
      (s.regs rbx) := by
  have hmem : (runBlock [.pop rax, .load rax (.mem rax), .push rax] s).mem =
      setWord s.mem (s.regs rsp) (word s.mem (word s.mem (s.regs rsp))) := by
    simp [runBlock, next, exec, Machine.topWord, Machine.readOperand]
  refine ⟨?_, hmem, ?_, ?_, fun code h => ?_⟩
  · simp [X86.Instr.Encodable, X86.Operand.Encodable, show rax ≠ X86.rbp by decide]
  · simp [runBlock, next, exec]
  · simp [runBlock, next, exec]
  · rw [← hmem] at h
    exact ⟨fun _ _ => rfl, fun _ _ => rfl, h, trivial⟩

theorem loweredStore_spec (s : Machine) :
    BlockSpec [.pop rax, .pop rbx, .store (.mem rax) rbx] s
      (setWord s.mem (word s.mem (s.regs rsp)) (word s.mem (s.regs rsp + 8))) (s.regs rsp + 8 + 8)
      (word s.mem (s.regs rsp + 8)) := by
  have hmem : (runBlock [.pop rax, .pop rbx, .store (.mem rax) rbx] s).mem =
      setWord s.mem (word s.mem (s.regs rsp)) (word s.mem (s.regs rsp + 8)) := by
    simp [runBlock, next, exec, Machine.topWord, Machine.writeOperand]
  refine ⟨?_, hmem, ?_, ?_, fun code h => ?_⟩
  · simp [X86.Instr.Encodable, X86.Operand.Encodable, show rax ≠ X86.rbp by decide]
  · simp [runBlock, next, exec, Machine.writeOperand]
  · simp [runBlock, next, exec, Machine.topWord, Machine.writeOperand]
  · rw [← hmem] at h
    exact ⟨fun _ _ => rfl, fun _ _ => rfl, h, trivial⟩

/-! ## Simulation -/

/-- The instructions that take a second operand, which the lowering pops into rbx. -/
def OpKind.popsRbx : OpKind → Bool
  | .add | .sub | .mul | .store => true
  | _ => false

/-- rbx after an instruction that finds `r` there. -/
def rbxStep (ins : Instr) (st : IrState) (r : BitVec 64) : BitVec 64 :=
  match ins.op.popsRbx, st.stack with
  | true, _ :: b :: _ => b
  | _, _ => r

def rbxAfter : List Instr → IrState → BitVec 64 → BitVec 64
  | [], _, r => r
  | ins :: rest, st, r =>
    match irStep ins st with
    | some st' => rbxAfter rest st' (rbxStep ins st r)
    | none => r

/-- A block that stands at rip runs to its end, and the state it reaches holds what its
    specification says. -/
theorem Sim.block {L : Layout} {is : List X86.Instr} {pre post : List Byte} {st : IrState}
    {s : Machine} {ws : List (BitVec 64)} {mem m : Memory} {p : Address} {b : BitVec 64}
    (hL : L.bytes = pre ++ is.flatMap encode ++ post) (hsim : Sim L pre.length st s)
    (hspec : BlockSpec is s m p b) (hholds : Holds L ws mem p m) :
    ReflTransGen (Inside L.code) s (runBlock is s) ∧
      Sim L (pre ++ is.flatMap encode).length ⟨ws, mem⟩ (runBlock is s) := by
  have hlen : L.bytes.length = pre.length + (is.flatMap encode).length + post.length := by
    rw [hL, List.length_append, List.length_append]
  have hbytes : BytesAt s.mem s.rip (is.flatMap encode) := by
    have hall := hsim.holds.code
    rw [hL, List.append_assoc] at hall
    rw [hsim.rip]
    exact (bytesAt_append.mp (bytesAt_append.mp hall).2).1
  have hin : Span s.rip (is.flatMap encode).length ⊆ L.code := by
    rw [hsim.rip]
    exact span_off_subset L.start (by omega)
  have hkeep := hspec.keeps L.code (hsim.holds.code.agree hholds.code)
  refine ⟨X86.block_path is s hspec.ok hbytes hin hkeep, ?_, ?_⟩
  · rw [X86.runBlock_rip is s fun i hi => (hspec.ok i hi).2, hsim.rip, off_off, List.length_append]
  · rw [hspec.rsp, hspec.mem]
    exact hholds

/-- The machine comes to a state that simulates `st` behind the first `k` bytes, with `b` in
    rbx. -/
def Reaches (L : Layout) (s : Machine) (k : Nat) (st : IrState) (b : BitVec 64) : Prop :=
  ∃ s', ReflTransGen (Inside L.code) s s' ∧ Sim L k st s' ∧ s'.regs rbx = b

/-- The three instructions that take two words are lowered to one machine operation each. -/
theorem lowered_binary {ins : Instr} {f : BitVec 64 → BitVec 64 → BitVec 64}
    (hf : ins.op.binary = some f) :
    ins.op.popsRbx = true ∧
    ∃ i : X86.Instr, lowered ins = loweredBinary i ∧ i.Encodable ∧ i ≠ .ret ∧
      ∀ s, exec i s = s.setReg rax (f (s.regs rax) (s.regs rbx)) := by
  unfold lowered
  cases hop : ins.op with
  | add | sub | mul =>
    rw [hop] at hf
    obtain rfl := Option.some.inj hf
    exact ⟨rfl, _, rfl, trivial, by simp, fun _ => rfl⟩
  | const | load | store | ret | call =>
    rw [hop] at hf
    cases hf

section

variable {L : Layout} {pre post : List Byte} {ins : Instr} {st : IrState} {s : Machine}

theorem push_pop (p : Address) : p + 8 - 8 = p := BitVec.add_sub_cancel p 8

/-- A constant is pushed on the stack as it is. -/
theorem Sim.const (hL : L.bytes = pre ++ (lowered ins).flatMap encode ++ post)
    (hbytes : L.bytes ≠ []) (hsim : Sim L pre.length st s) (hop : ins.op = .const)
    (hroom : st.stack.length < L.depth) :
    Reaches L s (pre ++ (lowered ins).flatMap encode).length
      ⟨ins.arg.immediate :: st.stack, st.mem⟩ (rbxStep ins st (s.regs rbx)) := by
  have hlow : lowered ins = loweredConst ins.arg.immediate := by simp only [lowered, hop]
  have hrbx : rbxStep ins st (s.regs rbx) = s.regs rbx := by
    simp only [rbxStep, hop, OpKind.popsRbx]
  have hspec := loweredConst_spec ins.arg.immediate s
  rw [hlow] at hL ⊢
  obtain ⟨path, hsim'⟩ := hsim.block hL hspec (hsim.holds.push hroom hbytes)
  exact ⟨_, path, hsim', hspec.rbx.trans hrbx.symm⟩

/-- Two words come off the stack and the result goes on. -/
theorem Sim.binary (hL : L.bytes = pre ++ (lowered ins).flatMap encode ++ post)
    (hbytes : L.bytes ≠ []) (hsim : Sim L pre.length st s)
    {f : BitVec 64 → BitVec 64 → BitVec 64} (hf : ins.op.binary = some f) {a b : BitVec 64}
    {rest : List (BitVec 64)} (hst : st.stack = a :: b :: rest) (hroom : rest.length < L.depth) :
    Reaches L s (pre ++ (lowered ins).flatMap encode).length ⟨f a b :: rest, st.mem⟩
      (rbxStep ins st (s.regs rbx)) := by
  obtain ⟨hpops, i, hlow, henc, hret, hexec⟩ := lowered_binary hf
  have hrbx : rbxStep ins st (s.regs rbx) = b := by simp only [rbxStep, hpops, hst]
  have hholds := hsim.holds
  rw [hst] at hholds
  have hb := hholds.pop.top
  have hpush := hholds.pop.pop.push (v := f a b) hroom hbytes
  rw [push_pop] at hpush
  have hspec := loweredBinary_spec hexec ⟨henc, hret⟩ s
  rw [hholds.top, hb] at hspec
  rw [hlow] at hL ⊢
  obtain ⟨path, hsim'⟩ := hsim.block hL hspec hpush
  exact ⟨_, path, hsim', hspec.rbx.trans hrbx.symm⟩

/-- An address comes off the stack and the word there goes on. -/
theorem Sim.load (hL : L.bytes = pre ++ (lowered ins).flatMap encode ++ post)
    (hbytes : L.bytes ≠ []) (hsim : Sim L pre.length st s) (hop : ins.op = .load)
    {address : BitVec 64} {rest : List (BitVec 64)} (hst : st.stack = address :: rest)
    (hroom : rest.length < L.depth) (hstack : Disjoint (Span address 8) L.stack) :
    Reaches L s (pre ++ (lowered ins).flatMap encode).length
      ⟨word st.mem address :: rest, st.mem⟩ (rbxStep ins st (s.regs rbx)) := by
  have hlow : lowered ins = [.pop rax, .load rax (.mem rax), .push rax] := by
    simp only [lowered, hop]
  have hrbx : rbxStep ins st (s.regs rbx) = s.regs rbx := by
    simp only [rbxStep, hop, OpKind.popsRbx]
  have hholds := hsim.holds
  rw [hst] at hholds
  have hpush := hholds.pop.push (v := word st.mem address) hroom hbytes
  rw [push_pop] at hpush
  have hspec := loweredLoad_spec s
  rw [hholds.top, hholds.load hstack] at hspec
  rw [hlow] at hL ⊢
  obtain ⟨path, hsim'⟩ := hsim.block hL hspec hpush
  exact ⟨_, path, hsim', hspec.rbx.trans hrbx.symm⟩

/-- The address comes off the stack, then the value, which is stored there. -/
theorem Sim.store (hL : L.bytes = pre ++ (lowered ins).flatMap encode ++ post)
    (hsim : Sim L pre.length st s) (hop : ins.op = .store) {address value : BitVec 64}
    {rest : List (BitVec 64)} (hst : st.stack = address :: value :: rest)
    (hstack : Disjoint (Span address 8) L.stack) (hcode : Disjoint (Span address 8) L.code) :
    Reaches L s (pre ++ (lowered ins).flatMap encode).length
      ⟨rest, setWord st.mem address value⟩ (rbxStep ins st (s.regs rbx)) := by
  have hlow : lowered ins = [.pop rax, .pop rbx, .store (.mem rax) rbx] := by
    simp only [lowered, hop]
  have hrbx : rbxStep ins st (s.regs rbx) = value := by
    simp only [rbxStep, hop, hst, OpKind.popsRbx]
  have hholds := hsim.holds
  rw [hst] at hholds
  have hvalue := hholds.pop.top
  have hspec := loweredStore_spec s
  rw [hholds.top, hvalue] at hspec
  rw [hlow] at hL ⊢
  obtain ⟨path, hsim'⟩ := hsim.block hL hspec (hholds.pop.pop.store hstack hcode)
  exact ⟨_, path, hsim', hspec.rbx.trans hrbx.symm⟩

end

/-- One IR instruction is simulated by the machine instructions it is lowered to. -/
theorem Sim.step {L : Layout} (pre post : List Byte) {ins : Instr} {st st' : IrState}
    {s : Machine} (hL : L.bytes = pre ++ (lowered ins).flatMap encode ++ post)
    (hsim : Sim L pre.length st s) (hstep : irStep ins st = some st')
    (hroom : st'.stack.length ≤ L.depth) (hstack : Disjoint (touches ins st) L.stack)
    (hcode : Disjoint (touches ins st) L.code) :
    Reaches L s (pre ++ (lowered ins).flatMap encode).length st'
      (rbxStep ins st (s.regs rbx)) := by
  have hbytes : L.bytes ≠ [] := by
    have hne := lowered_bytes_ne_nil (irStep_op hstep).2
    intro hnil
    rw [hL] at hnil
    exact hne (List.append_eq_nil_iff.mp (List.append_eq_nil_iff.mp hnil).1).2
  obtain ⟨hop, rfl⟩ | ⟨f, a, b, rest, hf, hst, rfl⟩ | ⟨address, rest, hop, hst, rfl⟩ |
    ⟨address, value, rest, hop, hst, rfl⟩ := irStep_cases hstep
  · exact hsim.const hL hbytes hop hroom
  · exact hsim.binary hL hbytes hf hst hroom
  · rw [touches, hop, hst] at hstack
    exact hsim.load hL hbytes hop hst hroom hstack
  · rw [touches, hop, hst] at hstack hcode
    exact hsim.store hL hop hst hstack hcode

/-- A piece of straight code runs to its end. -/
theorem Sim.run {L : Layout} (is : List Instr) (pre post : List Byte) {st st' : IrState}
    {s : Machine} (hL : L.bytes = pre ++ (is.flatMap lowered).flatMap encode ++ post)
    (hsim : Sim L pre.length st s) (hrun : irRun is st = some st')
    (hroom : maxDepth is st.stack.length ≤ L.depth) (hstack : Disjoint (touched is st) L.stack)
    (hcode : Disjoint (touched is st) L.code) :
    Reaches L s (pre ++ (is.flatMap lowered).flatMap encode).length st'
      (rbxAfter is st (s.regs rbx)) := by
  induction is generalizing pre st s with
  | nil =>
    obtain rfl : st = st' := Option.some.inj hrun
    refine ⟨s, ReflTransGen.refl, ?_, rfl⟩
    simpa using hsim
  | cons ins rest ih =>
    obtain ⟨st1, hstep, hrest⟩ := Option.bind_eq_some_iff.mp hrun
    have hlen := irStep_length hstep
    have htouches : touches ins st ⊆ touched (ins :: rest) st := Set.subset_union_left
    have htouched : touched rest st1 ⊆ touched (ins :: rest) st :=
      fun x hx => Or.inr ⟨st1, hstep, hx⟩
    rw [maxDepth, ← hlen] at hroom
    have hroom1 := (le_max_right _ _).trans hroom
    rw [List.flatMap_cons, List.flatMap_append] at hL ⊢
    -- The first instruction, then the others behind its bytes.
    obtain ⟨s1, path1, hsim1, hrbx1⟩ := hsim.step pre
      ((rest.flatMap lowered).flatMap encode ++ post) (by simp [hL]) hstep
      ((le_maxDepth rest _).trans hroom1) (hstack.mono_left htouches) (hcode.mono_left htouches)
    obtain ⟨s', path', hsim', hrbx'⟩ := ih (pre ++ (lowered ins).flatMap encode)
      (by simp [hL])
      hsim1 hrest hroom1 (hstack.mono_left htouched) (hcode.mono_left htouched)
    refine ⟨s', path1.trans path', ?_, ?_⟩
    · rwa [List.append_assoc] at hsim'
    · rw [hrbx', hrbx1, rbxAfter, hstep]

/-! ## Running from an empty stack -/

/-- The bytes `emit_instr` produces for a piece of code. -/
def codeBytes (is : List Instr) : List Byte := (emitCode [] is).2

theorem codeBytes_eq {is : List Instr} (hops : ∀ i ∈ is, i.op.Straight) :
    emitCode [] is = (true, (is.flatMap lowered).flatMap encode) :=
  emitCode_eq (fun i hi => (hops i hi).2) []

/-- The machine stands before the bytes of `is`, with the memory `mem` beside its stack, and
    the words `is` loads and stores lie beside its stack and its code. -/
structure Placed (is : List Instr) (mem : Memory) (s : Machine) : Prop where
  code : BytesAt s.mem s.rip (codeBytes is)
  memory : ∀ x ∉ stackArea (s.regs rsp) (maxDepth is 0), s.mem x = mem x
  stackFree : Disjoint (touched is ⟨[], mem⟩) (stackArea (s.regs rsp) (maxDepth is 0))
  codeFree : Disjoint (touched is ⟨[], mem⟩) (Span s.rip (codeBytes is).length)

/-- The machine leaves the bytes of `is` at their end, with the evaluation stack of the IR below
    the rsp it started with and the memory of the IR beside its stack. -/
def RunsAsIr (is : List Instr) (mem : Memory) (s : Machine) : Prop :=
  ∃ st s', irRun is ⟨[], mem⟩ = some st ∧
    RunsUntil (fun t => t.rip ∉ Span s.rip (codeBytes is).length) s s' ∧
    s'.rip = off s.rip (codeBytes is).length ∧
    s'.regs rsp = s.regs rsp - BitVec.ofNat 64 (8 * st.stack.length) ∧
    WordsAt s'.mem (s'.regs rsp) st.stack ∧
    ∀ x ∉ stackArea (s.regs rsp) (maxDepth is 0), s'.mem x = st.mem x

/-- Before the first instruction the stack is empty and the two memories agree beside it. -/
theorem Sim.start {L : Layout} {mem : Memory} {s : Machine} (hrip : s.rip = L.start)
    (hrsp : s.regs rsp = L.top) (hcode : BytesAt s.mem L.start L.bytes)
    (hmem : ∀ x ∉ L.stack, s.mem x = mem x) : Sim L 0 ⟨[], mem⟩ s where
  rip := by rw [hrip, off_zero]
  holds := ⟨Nat.zero_le _, by rw [hrsp]; exact L.slot_zero.symm, fun i hi => absurd hi (by simp),
    hmem, hcode⟩

theorem lowering_simulates {is : List Instr} {mem : Memory} {s : Machine}
    (hops : ∀ i ∈ is, i.op.Straight) (hdepth : NoUnderflow is 0) (hplaced : Placed is mem s)
    (hdisjoint : Disjoint (stackArea (s.regs rsp) (maxDepth is 0))
      (Span s.rip (codeBytes is).length)) :
    (emitCode [] is).1 = true ∧ RunsAsIr is mem s := by
  have hemit := codeBytes_eq hops
  have hbytes : codeBytes is = (is.flatMap lowered).flatMap encode := congrArg Prod.snd hemit
  refine ⟨congrArg Prod.fst hemit, ?_⟩
  let L : Layout := ⟨s.regs rsp, maxDepth is 0, s.rip, codeBytes is, hdisjoint⟩
  have hsim : Sim L 0 ⟨[], mem⟩ s := Sim.start rfl rfl hplaced.code hplaced.memory
  obtain ⟨st, hrun, -⟩ := irRun_of_noUnderflow ⟨[], mem⟩ hops hdepth
  obtain ⟨s', path, hsim', -⟩ := hsim.run is [] []
    (by rw [List.nil_append, List.append_nil]; exact hbytes) hrun (Nat.le_refl _)
    hplaced.stackFree hplaced.codeFree
  -- The code is shorter than memory, so its end lies outside it.
  have hlen : (codeBytes is).length < 2 ^ 64 := by
    by_contra hbig
    have hne : is ≠ [] := by
      intro hnil
      rw [hbytes, hnil] at hbig
      exact hbig (by decide)
    have hpos : 0 < 8 * maxDepth is 0 := by
      have := maxDepth_pos hne hops hdepth
      omega
    have hall : Span s.rip (codeBytes is).length = Set.univ := span_univ _ (by omega)
    rw [hall] at hdisjoint
    exact Set.disjoint_left.mp hdisjoint (mem_span_self _ hpos) (Set.mem_univ _)
  have hrip : s'.rip = off s.rip (codeBytes is).length := by
    rw [hsim'.rip, List.nil_append, ← hbytes]
  have hend : s'.rip ∉ Span s.rip (codeBytes is).length := by
    rw [hrip]
    exact off_not_mem_span s.rip hlen
  have hrsp : s'.regs rsp = s.regs rsp - BitVec.ofNat 64 (8 * st.stack.length) := by
    rw [hsim'.holds.rsp, L.slot_eq hsim'.holds.room]
  exact ⟨st, s', hrun, RunsUntil.of_path path (fun t ht _ => not_not_intro ht) hend, hrip, hrsp,
    hsim'.holds.words, hsim'.holds.mem⟩

/-- Stores 7 beside the stack and loads it again. -/
def storeLoad : List Instr :=
  [{ arg := { i64 := 7 } }, { arg := { i64 := 0x3000 } }, { op := .store },
    { arg := { i64 := 0x3000 } }, { op := .load }]

theorem lowering_simulates_storeLoad :
    (emitCode [] storeLoad).1 = true ∧
      RunsAsIr storeLoad (loaded 0x1000 (codeBytes storeLoad))
        ⟨fun _ => 0x2000, 0x1000, loaded 0x1000 (codeBytes storeLoad)⟩ := by
  have htouched : touched storeLoad ⟨[], loaded 0x1000 (codeBytes storeLoad)⟩ ⊆ Span 0x3000 8 := by
    intro x hx
    simpa [storeLoad, touched, touches, irStep, Value.immediate] using hx
  refine lowering_simulates (by decide) (by decide) ⟨bytesAt_loaded _ (by decide), fun _ _ => rfl,
    Disjoint.mono_left htouched ?_, Disjoint.mono_left htouched ?_⟩ ?_
  · exact (span_disjoint (by decide) (by decide)).symm
  · exact (span_disjoint (by decide) (by decide)).symm
  · exact (span_disjoint (by decide) (by decide)).symm

def twoConsts : List Instr := [{ arg := { i64 := 1 } }, { arg := { i64 := 2 } }]

/-- The first word of the stack lies over the code of the second constant. -/
def overlapping : Machine := ⟨fun _ => 10, 0, loaded 0 (codeBytes twoConsts)⟩

theorem push_over_code :
    (∀ i ∈ twoConsts, i.op.Straight) ∧ NoUnderflow twoConsts 0 ∧
      Placed twoConsts overlapping.mem overlapping ∧
      ¬ RunsAsIr twoConsts overlapping.mem overlapping := by
  have hnone : touched twoConsts ⟨[], overlapping.mem⟩ = ∅ := by
    simp [twoConsts, touched, touches, irStep]
  have hbytes : BytesAt overlapping.mem 0 (codeBytes twoConsts) := bytesAt_loaded 0 (by decide)
  refine ⟨by decide, by decide, ⟨hbytes, fun _ _ => rfl, ?_, ?_⟩, ?_⟩
  · rw [hnone]
    exact Set.empty_disjoint _
  · rw [hnone]
    exact Set.empty_disjoint _
  · rintro ⟨st, s', -, hrun, -⟩
    -- The first push overwrites the second instruction, which then does not decode.
    let t : Machine := X86.next (.pushImm8 1) overlapping
    have hcode : codeBytes twoConsts = encode (.pushImm8 1) ++ encode (.pushImm8 2) := by decide
    have hstep : X86.step overlapping = some t := by
      rw [hcode] at hbytes
      exact X86.step_of_bytesAt trivial (bytesAt_append.mp hbytes).1
    have hstuck : X86.step t = none := by
      have hdecode : X86.decode t.mem t.rip = none := by decide +kernel
      rw [X86.step, hdecode]
      rfl
    obtain ⟨u, hu, hrun⟩ := hrun.head (not_not_intro (show (0 : Address) - 0 < 4 by decide))
    obtain rfl : t = u := Option.some.inj (hstep.symm.trans hu)
    obtain ⟨u, hu, -⟩ := hrun.head (not_not_intro (show (2 : Address) - 0 < 4 by decide))
    rw [hstuck] at hu
    cases hu

end NeuroVerse.Jit
