/-
  Emitted functions under the C calling convention, as `HostEngine::execute` calls them: the
  return address on top of the stack, rbx callee-saved, the result in rax.

  `function_run` says where the bytes of a function stop, at the first `ret` they reach, and what
  the machine holds there. The function returns to its caller exactly when its code leaves
  nothing on the evaluation stack beside the value returned and uses no second operand
  (`returns_iff`): values left over stay on the machine stack on top of the return address, and rbx
  is written but never saved. The emitter's own test function loses rbx (`addTwoThree_loses_rbx`).
-/
import NeuroVerse.Jit.Lowering
import Mathlib.Data.List.TakeWhile

namespace NeuroVerse.Jit

open NeuroVerse.Lib
open X86 (Machine RunsUntil Inside AtRet encode exec next runBlock rax rbx rsp)
open Relation (ReflTransGen)

/-! ## The code a call runs -/

/-- The code before the first `Ret`. -/
def beforeRet (code : List Instr) : List Instr := code.takeWhile fun i => i.op != .ret

/-- The code up to its first `Ret`, with it. -/
def upToRet : List Instr → List Instr
  | [] => []
  | ins :: rest => if ins.op = .ret then [ins] else ins :: upToRet rest

theorem beforeRet_op {code : List Instr} {i : Instr} (hi : i ∈ beforeRet code) : i.op ≠ .ret := by
  have h := List.mem_takeWhile_imp hi
  simpa using h

/-- Without a `Ret` all the code runs; else the first `Ret` parts it. -/
theorem code_cases (code : List Instr) :
    (beforeRet code = code ∧ upToRet code = code) ∨
    ∃ r rest, r.op = .ret ∧ code = beforeRet code ++ r :: rest ∧
      upToRet code = beforeRet code ++ [r] := by
  induction code with
  | nil => exact Or.inl ⟨rfl, rfl⟩
  | cons ins rest ih =>
    by_cases hop : ins.op = .ret
    · refine Or.inr ⟨ins, rest, hop, ?_, ?_⟩
      · simp [beforeRet, hop]
      · simp [beforeRet, upToRet, hop]
    · have hbefore : beforeRet (ins :: rest) = ins :: beforeRet rest := by
        simp [beforeRet, hop]
      have hupTo : upToRet (ins :: rest) = ins :: upToRet rest := by simp [upToRet, hop]
      rw [hbefore, hupTo]
      rcases ih with ⟨h1, h2⟩ | ⟨r, tail, hr, h1, h2⟩
      · exact Or.inl ⟨by rw [h1], by rw [h2]⟩
      · exact Or.inr ⟨r, tail, hr, congrArg (ins :: ·) h1, congrArg (ins :: ·) h2⟩

theorem evalFunction_append (is rest : List Instr) (hops : ∀ i ∈ is, i.op ≠ .ret)
    (st : IrState) : evalFunction (is ++ rest) st = (irRun is st).bind (evalFunction rest) := by
  induction is generalizing st with
  | nil => rfl
  | cons ins is ih =>
    have hop := hops ins List.mem_cons_self
    rw [List.cons_append, evalFunction, if_neg hop, irRun, Option.bind_assoc]
    congr 1
    funext st1
    exact ih (fun i hi => hops i (List.mem_cons_of_mem ins hi)) st1

/-! ## rbx -/

theorem rbxAfter_kept {is : List Instr} (hno : ∀ i ∈ is, i.op.popsRbx = false) (st : IrState)
    (r : BitVec 64) : rbxAfter is st r = r := by
  induction is generalizing st r with
  | nil => rfl
  | cons ins rest ih =>
    have hstep : rbxStep ins st r = r := by
      rw [rbxStep, hno ins List.mem_cons_self]
    rw [rbxAfter, hstep]
    cases irStep ins st with
    | none => rfl
    | some st1 => exact ih (fun i hi => hno i (List.mem_cons_of_mem ins hi)) st1 r

/-- An instruction with a second operand leaves that operand in rbx. -/
theorem rbxStep_const {ins : Instr} {st st' : IrState} (h : irStep ins st = some st')
    (hpops : ins.op.popsRbx = true) : ∃ b, ∀ r, rbxStep ins st r = b := by
  obtain ⟨hop, rfl⟩ | ⟨f, a, b, rest, hf, hst, rfl⟩ | ⟨address, rest, hop, hst, rfl⟩ |
    ⟨address, value, rest, hop, hst, rfl⟩ := irStep_cases h
  · rw [hop] at hpops
    cases hpops
  · exact ⟨b, fun r => by simp only [rbxStep, hpops, hst]⟩
  · rw [hop] at hpops
    cases hpops
  · exact ⟨value, fun r => by simp only [rbxStep, hpops, hst]⟩

/-- Code with a second operand somewhere leaves in rbx a word of its own. -/
theorem rbxAfter_const {is : List Instr} {st st' : IrState} (hrun : irRun is st = some st')
    (hpops : ∃ i ∈ is, i.op.popsRbx = true) : ∃ b, ∀ r, rbxAfter is st r = b := by
  induction is generalizing st with
  | nil =>
    obtain ⟨i, hi, -⟩ := hpops
    cases hi
  | cons ins rest ih =>
    obtain ⟨st1, hstep, hrest⟩ := Option.bind_eq_some_iff.mp hrun
    by_cases hlater : ∃ i ∈ rest, i.op.popsRbx = true
    · obtain ⟨b, hb⟩ := ih hrest hlater
      exact ⟨b, fun r => by rw [rbxAfter, hstep]; exact hb _⟩
    · have hhere : ins.op.popsRbx = true := by
        obtain ⟨i, hi, hpop⟩ := hpops
        rcases List.mem_cons.mp hi with rfl | hi
        · exact hpop
        · exact absurd ⟨i, hi, hpop⟩ hlater
      obtain ⟨b, hb⟩ := rbxStep_const hstep hhere
      exact ⟨rbxAfter rest st1 b, fun r => by rw [rbxAfter, hstep, hb r]⟩

/-! ## A call -/

/-- The bytes `emit_function` produces. -/
def functionBytes (fn : Function) : List Byte := (emitFunction [] fn).2

/-- The stack of a call: the return address at `top` and the words below it. -/
def callArea (top : Address) (depth : Nat) : Set Address :=
  Span (top - BitVec.ofNat 64 (8 * depth)) (8 * depth + 8)

/-- Memory as a call finds it: the function's bytes at `start`, apart from the stack, and the
    words the function loads and stores apart from both. -/
structure Callable (fn : Function) (mem : Memory) (start top : Address) : Prop where
  code : BytesAt mem start (functionBytes fn)
  apart : Disjoint (callArea top (maxDepth (beforeRet fn.code) 0))
    (Span start (functionBytes fn).length)
  stackFree : Disjoint (touched (beforeRet fn.code) ⟨[], mem⟩)
    (callArea top (maxDepth (beforeRet fn.code) 0))
  codeFree : Disjoint (touched (beforeRet fn.code) ⟨[], mem⟩)
    (Span start (functionBytes fn).length)

/-- The run from `s` comes to a `ret` with rsp as on entry and the return address there, with rbx
    as on entry, and with the value of the function's `Ret` in rax. -/
def ReturnsToCaller (fn : Function) (s : Machine) : Prop :=
  ∃ s', RunsUntil AtRet s s' ∧ s'.regs rsp = s.regs rsp ∧
    word s'.mem (s.regs rsp) = word s.mem (s.regs rsp) ∧ s'.regs rbx = s.regs rbx ∧
    ∀ st v, evalFunction fn.code ⟨[], s.mem⟩ = some (st, some v) → s'.regs rax = v

theorem functionBytes_eq {fn : Function} (hcall : ∀ i ∈ fn.code, i.op ≠ .call) :
    functionBytes fn = (fn.code.flatMap lowered).flatMap encode ++ encode .ret := by
  rw [functionBytes, emitFunction_eq hcall]
  simp

theorem functionBytes_ne_nil {fn : Function} (hcall : ∀ i ∈ fn.code, i.op ≠ .call) :
    functionBytes fn ≠ [] := by
  rw [functionBytes_eq hcall]
  simp [encode]

/-- A machine whose next bytes are a `ret` stands at a `ret`. -/
theorem Sim.atRet {L : Layout} {pre post : List Byte} {st : IrState} {s : Machine}
    (hL : L.bytes = pre ++ (encode .ret ++ post)) (hsim : Sim L pre.length st s) : AtRet s := by
  have hbytes := hsim.holds.code
  rw [hL] at hbytes
  have hret := (bytesAt_append.mp (bytesAt_append.mp hbytes).2).1
  rw [← hsim.rip] at hret
  exact X86.decode_encode (i := .ret) trivial hret

namespace Callable

variable {fn : Function} {mem : Memory} {start top : Address}

def layout (hc : Callable fn mem start top) : Layout where
  top := top
  depth := maxDepth (beforeRet fn.code) 0
  start := start
  bytes := functionBytes fn
  disjoint := hc.apart.mono_left (span_mono _ (Nat.le_add_right _ 8))

/-- The return address lies above the words the code pushes. -/
theorem return_apart (hc : Callable fn mem start top) (hcall : ∀ i ∈ fn.code, i.op ≠ .call) :
    Disjoint hc.layout.stack (Span top 8) := by
  have hlt := hc.layout.depth_lt (functionBytes_ne_nil hcall)
  have htop : off (top - BitVec.ofNat 64 (8 * hc.layout.depth)) (8 * hc.layout.depth) = top :=
    hc.layout.slot_zero
  have hd := span_disjoint_off (top - BitVec.ofNat 64 (8 * hc.layout.depth)) (j := 0)
    (n := 8 * hc.layout.depth) (k := 8 * hc.layout.depth) (l := 8)
    (N := 8 * hc.layout.depth + 8) (by omega) (by omega) (Nat.le_refl _)
  rwa [off_zero, htop] at hd

theorem return_subset (hc : Callable fn mem start top) :
    Span top 8 ⊆ callArea top (maxDepth (beforeRet fn.code) 0) := by
  have htop : off (top - BitVec.ofNat 64 (8 * hc.layout.depth)) (8 * hc.layout.depth) = top :=
    hc.layout.slot_zero
  have hsub := span_off_subset (top - BitVec.ofNat 64 (8 * hc.layout.depth))
    (k := 8 * hc.layout.depth) (n := 8) (Nat.le_refl _)
  rwa [htop] at hsub

/-- Neither the code's pushes nor its stores reach the return address. -/
theorem return_word (hc : Callable fn mem start top) (hcall : ∀ i ∈ fn.code, i.op ≠ .call)
    {st : IrState} (hrun : irRun (beforeRet fn.code) ⟨[], mem⟩ = some st)
    {ws : List (BitVec 64)} {p : Address} {m : Memory} (h : Holds hc.layout ws st.mem p m) :
    word m top = word mem top := by
  apply word_congr
  intro x hx
  have htouch : x ∉ touched (beforeRet fn.code) ⟨[], mem⟩ :=
    Set.disjoint_right.mp hc.stackFree (hc.return_subset hx)
  rw [h.mem x (Set.disjoint_right.mp (hc.return_apart hcall) hx), irRun_frame hrun htouch]

/-- The code before the first `Ret` runs to its end. -/
theorem run_beforeRet (hc : Callable fn mem start top) (hcall : ∀ i ∈ fn.code, i.op ≠ .call)
    (hdepth : NoUnderflow (beforeRet fn.code) 0) (post : List Byte)
    (hL : functionBytes fn = ((beforeRet fn.code).flatMap lowered).flatMap encode ++ post)
    {regs : X86.Reg → BitVec 64} (hrsp : regs rsp = top) :
    ∃ st s', irRun (beforeRet fn.code) ⟨[], mem⟩ = some st ∧
      st.stack.length = depthAfter (beforeRet fn.code) 0 ∧
      ReflTransGen (Inside hc.layout.code) ⟨regs, start, mem⟩ s' ∧
      Sim hc.layout (((beforeRet fn.code).flatMap lowered).flatMap encode).length st s' ∧
      s'.regs rbx = rbxAfter (beforeRet fn.code) ⟨[], mem⟩ (regs rbx) := by
  have hops : ∀ i ∈ beforeRet fn.code, i.op.Straight := fun i hi =>
    ⟨beforeRet_op hi, hcall i (List.takeWhile_subset _ hi)⟩
  obtain ⟨st, hrun, hlen⟩ := irRun_of_noUnderflow ⟨[], mem⟩ hops hdepth
  have hsim : Sim hc.layout 0 ⟨[], mem⟩ ⟨regs, start, mem⟩ :=
    Sim.start rfl hrsp hc.code fun _ _ => rfl
  obtain ⟨s', path, hsim', hrbx⟩ := hsim.run (beforeRet fn.code) [] post hL hrun
    (Nat.le_refl _) (hc.stackFree.mono_right (span_mono _ (Nat.le_add_right _ 8))) hc.codeFree
  exact ⟨st, s', hrun, hlen, path, hsim', hrbx⟩

end Callable

theorem popRax_spec (s : Machine) :
    BlockSpec [.pop rax] s s.mem (s.regs rsp + 8) (s.regs rbx) where
  ok := by simp [X86.Instr.Encodable]
  mem := rfl
  rsp := by simp [runBlock, next, exec]
  rbx := by simp [runBlock, next, exec]
  keeps := fun _ _ => ⟨fun _ _ => rfl, trivial⟩

theorem noUnderflow_beforeRet {code : List Instr} (h : NoUnderflow (upToRet code) 0) :
    NoUnderflow (beforeRet code) 0 := by
  rcases code_cases code with ⟨h1, h2⟩ | ⟨r, rest, -, -, h2⟩
  · rwa [h2, ← h1] at h
  · rw [h2] at h
    exact (noUnderflow_append.mp h).1

/-- The state in which a call with the registers `regs` stops. -/
structure CallEnds (fn : Function) (mem : Memory) (start top : Address)
    (regs : X86.Reg → BitVec 64) (s' : Machine) : Prop where
  run : RunsUntil AtRet ⟨regs, start, mem⟩ s'
  rsp : s'.regs rsp = top - BitVec.ofNat 64 (8 * depthAfter (upToRet fn.code) 0)
  word : word s'.mem top = word mem top
  rbx : s'.regs rbx = rbxAfter (beforeRet fn.code) ⟨[], mem⟩ (regs rbx)
  rax : ∀ st v, evalFunction fn.code ⟨[], mem⟩ = some (st, some v) → s'.regs rax = v

section

variable {fn : Function} {mem : Memory} {start top : Address} {regs : X86.Reg → BitVec 64}

/-- Code without a `Ret` runs to its end, where the last `ret` stands. -/
theorem callEnds_end (hcall : ∀ i ∈ fn.code, i.op ≠ .call)
    (hdepth : NoUnderflow (beforeRet fn.code) 0) (hc : Callable fn mem start top)
    (hrsp : regs rsp = top) (h1 : beforeRet fn.code = fn.code) (h2 : upToRet fn.code = fn.code) :
    ∃ s', CallEnds fn mem start top regs s' := by
  have hbytes := functionBytes_eq hcall
  obtain ⟨st, s', hrun, hlen, path, hsim, hrbx⟩ :=
    hc.run_beforeRet hcall hdepth (encode .ret) (by rw [h1]; exact hbytes) hrsp
  have hL : functionBytes fn =
      ((beforeRet fn.code).flatMap lowered).flatMap encode ++ (encode .ret ++ []) := by
    rw [List.append_nil, h1]
    exact hbytes
  refine ⟨s', RunsUntil.of_path path (fun _ _ h => h) (hsim.atRet hL), ?_,
    hc.return_word hcall hrun hsim.holds, hrbx, ?_⟩
  · rw [hsim.holds.rsp, hc.layout.slot_eq hsim.holds.room, hlen, h1, h2]
    rfl
  · intro st' v heval
    have hend := evalFunction_append (beforeRet fn.code) [] (fun i hi => beforeRet_op hi) ⟨[], mem⟩
    rw [hrun, List.append_nil, h1, heval] at hend
    cases hend

/-- The first `Ret` pops its value into rax, then its own `ret` is next. -/
theorem callEnds_ret (hcall : ∀ i ∈ fn.code, i.op ≠ .call)
    (hdepth : NoUnderflow (upToRet fn.code) 0) (hc : Callable fn mem start top)
    (hrsp : regs rsp = top) {r : Instr} {rest : List Instr} (hr : r.op = .ret)
    (h1 : fn.code = beforeRet fn.code ++ r :: rest)
    (h2 : upToRet fn.code = beforeRet fn.code ++ [r]) :
    ∃ s', CallEnds fn mem start top regs s' := by
  have hlow : lowered r = [.pop rax, .ret] := by simp only [lowered, hr]
  have hL : functionBytes fn = ((beforeRet fn.code).flatMap lowered).flatMap encode ++
      ([X86.Instr.pop rax].flatMap encode ++
        (encode .ret ++ ((rest.flatMap lowered).flatMap encode ++ encode .ret))) := by
    rw [functionBytes_eq hcall, congrArg (List.flatMap lowered) h1]
    simp [hlow]
  obtain ⟨st, s1, hrun, hlen, path, hsim, hrbx⟩ :=
    hc.run_beforeRet hcall (noUnderflow_beforeRet hdepth) _ hL hrsp
  obtain ⟨stack, m⟩ := st
  rw [h2, noUnderflow_append, ← hlen] at hdepth
  obtain ⟨a, ws, rfl⟩ : ∃ a ws, stack = a :: ws := by
    have hpops : r.op.pops ≤ stack.length := hdepth.2.1
    rw [hr] at hpops
    exact List.exists_cons_of_length_pos hpops
  have hspec := popRax_spec s1
  rw [← List.append_assoc] at hL
  obtain ⟨path', hsim'⟩ := hsim.block hL hspec hsim.holds.pop
  refine ⟨runBlock [.pop rax] s1,
    RunsUntil.of_path (path.trans path') (fun _ _ h => h) (hsim'.atRet hL), ?_,
    hc.return_word hcall hrun hsim'.holds, hspec.rbx.trans hrbx, ?_⟩
  · have hdepth' : depthAfter (upToRet fn.code) 0 = ws.length := by
      rw [h2, depthAfter_append, ← hlen]
      simp [depthAfter, hr, OpKind.pops, OpKind.pushes]
    rw [hsim'.holds.rsp, hc.layout.slot_eq hsim'.holds.room, hdepth']
    rfl
  · intro st' v heval
    have hend := evalFunction_append (beforeRet fn.code) (r :: rest) (fun i hi => beforeRet_op hi)
      ⟨[], mem⟩
    rw [hrun, ← h1, heval, Option.bind_some, evalFunction, if_pos hr] at hend
    have hv : v = a := by
      injection hend with hend
      injection hend with _ hend
      injection hend
    rw [hv, ← hsim.holds.top]
    rfl

/-- Where the bytes of a function stop, and what the machine holds there. -/
theorem function_run (hcall : ∀ i ∈ fn.code, i.op ≠ .call)
    (hdepth : NoUnderflow (upToRet fn.code) 0) (hc : Callable fn mem start top)
    (hrsp : regs rsp = top) : ∃ s', CallEnds fn mem start top regs s' := by
  rcases code_cases fn.code with ⟨h1, h2⟩ | ⟨r, rest, hr, h1, h2⟩
  · exact callEnds_end hcall (noUnderflow_beforeRet hdepth) hc hrsp h1 h2
  · exact callEnds_ret hcall hdepth hc hrsp hr h1 h2

end

theorem depth_upToRet_le (code : List Instr) :
    depthAfter (upToRet code) 0 ≤ maxDepth (beforeRet code) 0 := by
  rcases code_cases code with ⟨h1, h2⟩ | ⟨r, rest, hr, -, h2⟩
  · rw [h1, h2]
    exact depthAfter_le_maxDepth code 0
  · have hle := depthAfter_le_maxDepth (beforeRet code) 0
    rw [h2, depthAfter_append]
    simp only [depthAfter, hr, OpKind.pops, OpKind.pushes]
    omega

/-- A `Ret` has no second operand. -/
theorem popsRbx_upToRet {code : List Instr} :
    (∃ i ∈ upToRet code, i.op.popsRbx = true) ↔ ∃ i ∈ beforeRet code, i.op.popsRbx = true := by
  rcases code_cases code with ⟨h1, h2⟩ | ⟨r, rest, hr, -, h2⟩
  · rw [h1, h2]
  · have hno : r.op.popsRbx = false := by rw [hr]; rfl
    rw [h2]
    simp [hno]

/-- rsp is back at the return address exactly when nothing is left on the stack. -/
theorem Callable.rsp_eq_top_iff {fn : Function} {mem : Memory} {start top : Address}
    (hc : Callable fn mem start top) (hcall : ∀ i ∈ fn.code, i.op ≠ .call) :
    top - BitVec.ofNat 64 (8 * depthAfter (upToRet fn.code) 0) = top ↔
      depthAfter (upToRet fn.code) 0 = 0 := by
  have hlt := hc.layout.depth_lt (functionBytes_ne_nil hcall)
  have hle : depthAfter (upToRet fn.code) 0 ≤ hc.layout.depth := depth_upToRet_le fn.code
  constructor
  · intro htop
    have hzero : BitVec.ofNat 64 (8 * depthAfter (upToRet fn.code) 0) = 0 := by
      generalize BitVec.ofNat 64 (8 * depthAfter (upToRet fn.code) 0) = u at htop
      bv_omega
    have hnat := congrArg BitVec.toNat hzero
    rw [BitVec.toNat_ofNat, Nat.mod_eq_of_lt (by omega)] at hnat
    have h0 : (0 : BitVec 64).toNat = 0 := rfl
    omega
  · intro hempty
    rw [hempty]
    simp

/-- With given registers a function returns to its caller exactly when it leaves an empty stack
    and in rbx the word it found there. -/
theorem returnsToCaller_iff {fn : Function} {mem : Memory} {start top : Address}
    {regs : X86.Reg → BitVec 64} (hcall : ∀ i ∈ fn.code, i.op ≠ .call)
    (hdepth : NoUnderflow (upToRet fn.code) 0) (hc : Callable fn mem start top)
    (hrsp : regs rsp = top) :
    ReturnsToCaller fn ⟨regs, start, mem⟩ ↔
      depthAfter (upToRet fn.code) 0 = 0 ∧
        rbxAfter (beforeRet fn.code) ⟨[], mem⟩ (regs rbx) = regs rbx := by
  obtain ⟨s1, hend⟩ := function_run hcall hdepth hc hrsp
  rw [← hc.rsp_eq_top_iff hcall, ← hend.rsp, ← hend.rbx]
  constructor
  · rintro ⟨s2, hrun, hrsp2, -, hrbx2, -⟩
    obtain rfl := hend.run.unique hrun
    exact ⟨hrsp2.trans hrsp, hrbx2⟩
  · rintro ⟨hrsp1, hrbx1⟩
    refine ⟨s1, hend.run, hrsp1.trans hrsp.symm, ?_, hrbx1, hend.rax⟩
    show word s1.mem (regs rsp) = word mem (regs rsp)
    rw [hrsp, hend.word]

/-- Code leaves rbx alone, whatever stands there, exactly when it uses no second operand. -/
theorem rbxAfter_eq_self_iff {fn : Function} (mem : Memory) (hcall : ∀ i ∈ fn.code, i.op ≠ .call)
    (hdepth : NoUnderflow (upToRet fn.code) 0) :
    (∀ w, rbxAfter (beforeRet fn.code) ⟨[], mem⟩ w = w) ↔
      ∀ i ∈ upToRet fn.code, i.op.popsRbx = false := by
  constructor
  · intro hkept
    by_contra hsome
    have hpops : ∃ i ∈ upToRet fn.code, i.op.popsRbx = true := by simpa using hsome
    obtain ⟨st, hrun, -⟩ := irRun_of_noUnderflow ⟨[], mem⟩
      (fun i hi => ⟨beforeRet_op hi, hcall i (List.takeWhile_subset _ hi)⟩)
      (noUnderflow_beforeRet hdepth)
    obtain ⟨b, hb⟩ := rbxAfter_const hrun (popsRbx_upToRet.mp hpops)
    -- rbx ends as `b`, so a caller that keeps anything else there loses it
    have hlost : b = b + 1 := (hb (b + 1)).symm.trans (hkept (b + 1))
    bv_omega
  · intro hno w
    refine rbxAfter_kept (fun i hi => ?_) _ w
    by_contra hpop
    obtain ⟨j, hj, hpops⟩ := popsRbx_upToRet.mpr ⟨i, hi, by simpa using hpop⟩
    rw [hno j hj] at hpops
    cases hpops

/-- The registers of a call: the stack pointer, and one word everywhere else. -/
def callRegs (top w : BitVec 64) : X86.Reg → BitVec 64 := fun r => if r = rsp then top else w

/-- A function returns to its caller, whatever the registers hold, exactly when its code up to
    the first `Ret` leaves an empty stack and has no `Add`, `Sub`, `Mul` or `Store`. -/
theorem returns_iff {fn : Function} {mem : Memory} {start top : Address}
    (hcall : ∀ i ∈ fn.code, i.op ≠ .call) (hdepth : NoUnderflow (upToRet fn.code) 0)
    (hc : Callable fn mem start top) :
    (∀ regs : X86.Reg → BitVec 64, regs rsp = top → ReturnsToCaller fn ⟨regs, start, mem⟩) ↔
      depthAfter (upToRet fn.code) 0 = 0 ∧ ∀ i ∈ upToRet fn.code, i.op.popsRbx = false := by
  rw [← rbxAfter_eq_self_iff mem hcall hdepth]
  constructor
  · intro hreturns
    have hiff : ∀ w, depthAfter (upToRet fn.code) 0 = 0 ∧
        rbxAfter (beforeRet fn.code) ⟨[], mem⟩ w = w := by
      intro w
      have hrsp : callRegs top w rsp = top := if_pos rfl
      exact (returnsToCaller_iff hcall hdepth hc hrsp).mp (hreturns (callRegs top w) hrsp)
    exact ⟨(hiff 0).1, fun w => (hiff w).2⟩
  · rintro ⟨hempty, hkept⟩ regs hrsp
    exact (returnsToCaller_iff hcall hdepth hc hrsp).mpr ⟨hempty, hkept (regs rbx)⟩

/-- A function that loads and stores nothing, in a memory that holds its bytes only. -/
theorem callable_loaded {fn : Function} {start top : Address}
    (hnone : touched (beforeRet fn.code) ⟨[], loaded start (functionBytes fn)⟩ = ∅)
    (hlen : (functionBytes fn).length ≤ 2 ^ 64)
    (hapart : Disjoint (callArea top (maxDepth (beforeRet fn.code) 0))
      (Span start (functionBytes fn).length)) :
    Callable fn (loaded start (functionBytes fn)) start top where
  code := bytesAt_loaded start hlen
  apart := hapart
  stackFree := by
    rw [hnone]
    exact Set.empty_disjoint _
  codeFree := by
    rw [hnone]
    exact Set.empty_disjoint _

def seven : Function := ⟨"seven", [{ arg := { i64 := 7 } }, { op := .ret }]⟩

theorem returns_iff_seven :
    (∀ regs : X86.Reg → BitVec 64, regs rsp = 0x8000 →
      ReturnsToCaller seven ⟨regs, 0x1000, loaded 0x1000 (functionBytes seven)⟩) ↔
      depthAfter (upToRet seven.code) 0 = 0 ∧
        ∀ i ∈ upToRet seven.code, i.op.popsRbx = false := by
  refine returns_iff (by decide) (by decide) (callable_loaded ?_ (by decide) ?_)
  · simp [seven, beforeRet, touched, touches, irStep]
  · exact (span_disjoint (by decide) (by decide)).symm

/-- The function the emitter's test builds. -/
def addTwoThree : Function :=
  ⟨"add_2_3", [{ arg := { i64 := 2 } }, { arg := { i64 := 3 } }, { op := .add }, { op := .ret }]⟩

/-- Called with 0 in rbx, it comes back with 2 there. -/
theorem addTwoThree_loses_rbx :
    (∀ i ∈ addTwoThree.code, i.op ≠ .call) ∧ NoUnderflow (upToRet addTwoThree.code) 0 ∧
      Callable addTwoThree (loaded 0x1000 (functionBytes addTwoThree)) 0x1000 0x8000 ∧
      ¬ ReturnsToCaller addTwoThree
        ⟨callRegs 0x8000 0, 0x1000, loaded 0x1000 (functionBytes addTwoThree)⟩ := by
  have hcall : ∀ i ∈ addTwoThree.code, i.op ≠ .call := by decide
  have hdepth : NoUnderflow (upToRet addTwoThree.code) 0 := by decide
  have hc : Callable addTwoThree (loaded 0x1000 (functionBytes addTwoThree)) 0x1000 0x8000 := by
    refine callable_loaded ?_ (by decide) (span_disjoint (by decide) (by decide)).symm
    simp [addTwoThree, beforeRet, touched, touches, irStep]
  refine ⟨hcall, hdepth, hc, ?_⟩
  have hrsp : callRegs 0x8000 0 rsp = 0x8000 := if_pos rfl
  intro hreturns
  have hkept := ((returnsToCaller_iff hcall hdepth hc hrsp).mp hreturns).2
  have htwo : rbxAfter (beforeRet addTwoThree.code) ⟨[], loaded 0x1000 (functionBytes addTwoThree)⟩
      (callRegs 0x8000 0 rbx) = 2 := rfl
  have hbad : (2 : BitVec 64) = 0 := htwo.symm.trans hkept
  cases hbad

end NeuroVerse.Jit
