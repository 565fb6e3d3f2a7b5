/-
  The engine of the JIT (`jit/engine.cpp`): code generation for a module of functions.

  When a function cannot be lowered, `emit_module_x86_64` takes back the bytes of that function and
  not those of the functions before it, and the result keeps them. `codegen` is all or nothing
  exactly when every function can be lowered or the first one cannot (`codegen_all_or_nothing_iff`).

  How a stream prints a double is a parameter.
-/
import NeuroVerse.Jit.Emit
import Mathlib.Data.List.TakeWhile

namespace NeuroVerse.Jit

open NeuroVerse.Lib

structure Module where
  name : String
  functions : List Function

inductive Target where
  | host
  | x86_64
  | aarch64
  | riscv64
deriving DecidableEq

structure CodegenResult where
  target : Target := .host
  bytes : List Byte := []
  disasm : String := ""

/-! ## Textual disassembly -/

def opName : OpKind → String
  | .const => "const"
  | .add => "add"
  | .sub => "sub"
  | .mul => "mul"
  | .load => "load"
  | .store => "store"
  | .ret => "ret"
  | .call => "call"

section
variable (showF64 : BitVec 64 → String)

def formatArg (v : Value) : String :=
  match v.kind with
  | .i64 => toString v.i64.toInt
  | .f64 => showF64 v.f64

def disasmInstr (ins : Instr) : String :=
  "  " ++ opName ins.op ++
    (match ins.op with
    | .call => " " ++ ins.callee
    | .const => " " ++ formatArg showF64 ins.arg
    | _ => "") ++ "\n"

def textualDisasm (m : Module) : String :=
  m.functions.foldl (fun d fn =>
    fn.code.foldl (fun d ins => d ++ disasmInstr showF64 ins) (d ++ "fn " ++ fn.name ++ ":\n"))
    (";; module " ++ m.name ++ "\n")

/-! ## Code generation -/

/-- The loop of `emit_module_x86_64`, which stops at a function that is not lowered. -/
def emitModule : List Byte → List Function → Bool × List Byte
  | out, [] => (!out.isEmpty, out)
  | out, fn :: rest =>
    match emitFunction out fn with
    | (true, out') => emitModule out' rest
    | (false, out') => (false, out'.take out.length)

/-- The bytes that are there when the emitter fails stay in the result. -/
def codegen (m : Module) (t : Target) : CodegenResult :=
  if t = .x86_64 then
    match emitModule [] m.functions with
    | (true, bytes) => { target := .x86_64, bytes, disasm := textualDisasm showF64 m }
    | (false, bytes) => { target := t, bytes, disasm := textualDisasm showF64 m }
  else { target := t, disasm := textualDisasm showF64 m }

end

/-- The bytes that `execute` copies to a page and calls; for other code it returns an empty
    value. -/
def executed (code : CodegenResult) : Option (List Byte) :=
  if code.target ≠ .x86_64 || code.bytes.isEmpty then none else some code.bytes

/-! ## What is emitted -/

/-- What `emit_function` makes of a function, by itself. -/
def lowering (fn : Function) : List Byte := (emitFunction [] fn).2

def lowers (fn : Function) : Bool := (emitFunction [] fn).1

theorem emitInstr_append (out : List Byte) (ins : Instr) :
    emitInstr out ins = ((emitInstr [] ins).1, out ++ (emitInstr [] ins).2) := by
  by_cases hop : ins.op = .call
  · rw [emitInstr, emitInstr, hop, List.append_nil]
  · rw [emitInstr_eq hop, emitInstr_eq hop, List.nil_append]

theorem emitCode_append (out : List Byte) (code : List Instr) :
    emitCode out code = ((emitCode [] code).1, out ++ (emitCode [] code).2) := by
  induction code generalizing out with
  | nil => rw [emitCode, emitCode, List.append_nil]
  | cons ins rest ih =>
    rw [emitCode, emitCode, emitInstr_append out]
    cases h : emitInstr [] ins with
    | mk ok bytes =>
      cases ok with
      | true =>
        show emitCode (out ++ bytes) rest = _
        rw [ih (out ++ bytes)]
        show _ = ((emitCode bytes rest).1, out ++ (emitCode bytes rest).2)
        rw [ih bytes, List.append_assoc]
      | false => rfl

theorem emitFunction_append (out : List Byte) (fn : Function) :
    emitFunction out fn = (lowers fn, out ++ lowering fn) := by
  rw [lowers, lowering, emitFunction, emitFunction, emitCode_append out]
  cases h : emitCode [] fn.code with
  | mk ok bytes =>
    cases ok with
    | true =>
      show (true, emitByte (out ++ bytes) 0xC3) = (true, out ++ emitByte bytes 0xC3)
      rw [emitByte, emitByte, List.append_assoc]
    | false => rfl

/-- The bytes of the functions before the first that is not lowered, and whether that is all. -/
theorem emitModule_eq (out : List Byte) (fns : List Function) :
    emitModule out fns =
      (fns.all lowers && !(out ++ (fns.takeWhile lowers).flatMap lowering).isEmpty,
        out ++ (fns.takeWhile lowers).flatMap lowering) := by
  induction fns generalizing out with
  | nil => rw [emitModule, List.all_nil, List.takeWhile_nil, List.flatMap_nil, List.append_nil,
      Bool.true_and]
  | cons fn rest ih =>
    rw [emitModule, emitFunction_append, List.all_cons, List.takeWhile_cons]
    cases h : lowers fn with
    | true =>
      show emitModule (out ++ lowering fn) rest = _
      rw [ih, if_pos rfl, List.flatMap_cons, List.append_assoc, Bool.true_and]
    | false =>
      show (false, (out ++ lowering fn).take out.length) = _
      rw [List.take_left' rfl, if_neg Bool.false_ne_true, List.flatMap_nil, List.append_nil,
        Bool.false_and, Bool.false_and]

theorem emitInstr_fst (ins : Instr) : (emitInstr [] ins).1 = decide (ins.op ≠ .call) := by
  by_cases hop : ins.op = .call
  · rw [emitInstr, hop]
    rfl
  · rw [emitInstr_eq hop, decide_eq_true hop]

theorem emitCode_fst (out : List Byte) (code : List Instr) :
    (emitCode out code).1 = code.all fun ins => ins.op ≠ .call := by
  induction code generalizing out with
  | nil => rfl
  | cons ins rest ih =>
    rw [emitCode, emitInstr_append out, emitInstr_fst, List.all_cons]
    cases h : decide (ins.op ≠ .call) with
    | true =>
      rw [Bool.true_and]
      exact ih _
    | false => rw [Bool.false_and]

theorem lowers_eq (fn : Function) : lowers fn = fn.code.all fun ins => ins.op ≠ .call := by
  rw [← emitCode_fst [] fn.code, lowers, emitFunction]
  split <;> next h => rw [h]

theorem lowers_iff {fn : Function} : lowers fn = true ↔ ∀ ins ∈ fn.code, ins.op ≠ .call := by
  rw [lowers_eq, List.all_eq_true]
  exact forall₂_congr fun ins _ => decide_eq_true_iff

theorem lowers_eq_false_iff {fn : Function} :
    lowers fn = false ↔ ∃ ins ∈ fn.code, ins.op = .call := by
  rw [← Bool.not_eq_true, lowers_iff]
  push Not
  rfl

/-- A function that is lowered ends in a `ret`. -/
theorem lowering_ne_nil {fn : Function} (h : lowers fn = true) : lowering fn ≠ [] := by
  rw [lowering, emitFunction_eq (lowers_iff.mp h)]
  simp [X86.encode]

theorem codegen_bytes (showF64 : BitVec 64 → String) (m : Module) :
    (codegen showF64 m .x86_64).bytes = (m.functions.takeWhile lowers).flatMap lowering := by
  rw [codegen, if_pos rfl, emitModule_eq, List.nil_append]
  split <;> next h => exact (Prod.ext_iff.mp h).2.symm

/-! ## All or nothing -/

/-- The result has bytes only if every function was lowered, and then all of them in order; and
    nothing else is ever executed. -/
structure AllOrNothing (m : Module) (code : CodegenResult) : Prop where
  lowered : code.bytes ≠ [] →
    (∀ fn ∈ m.functions, lowers fn = true) ∧ code.bytes = m.functions.flatMap lowering
  empty : (∃ fn ∈ m.functions, ∃ ins ∈ fn.code, (emitInstr [] ins).1 = false) → code.bytes = []
  executed : ∀ bytes, executed code = some bytes →
    (∀ fn ∈ m.functions, lowers fn = true) ∧ bytes = m.functions.flatMap lowering

theorem bytes_of_executed {code : CodegenResult} {bytes : List Byte}
    (h : executed code = some bytes) : code.bytes = bytes ∧ code.bytes ≠ [] := by
  rw [executed] at h
  split at h
  · cases h
  · next hrun =>
    refine ⟨Option.some.inj h, fun hnil => hrun ?_⟩
    rw [hnil, List.isEmpty_nil, Bool.or_true]

theorem allOrNothing_of_all {m : Module} (hall : ∀ fn ∈ m.functions, lowers fn = true)
    {code : CodegenResult} (hbytes : code.bytes = m.functions.flatMap lowering) :
    AllOrNothing m code := by
  refine ⟨fun _ => ⟨hall, hbytes⟩, ?_, fun bytes h => ?_⟩
  · rintro ⟨fn, hfn, ins, hins, hbad⟩
    rw [emitInstr_fst] at hbad
    exact absurd (lowers_iff.mp (hall fn hfn) ins hins) (of_decide_eq_false hbad)
  · exact ⟨hall, (bytes_of_executed h).1.symm.trans hbytes⟩

/-- With an instruction that cannot be lowered there must be no bytes. -/
theorem allOrNothing_iff_nil {m : Module}
    (hsome : ∃ fn ∈ m.functions, ∃ ins ∈ fn.code, ins.op = .call) {code : CodegenResult} :
    AllOrNothing m code ↔ code.bytes = [] := by
  constructor
  · intro h
    obtain ⟨fn, hfn, ins, hins, hop⟩ := hsome
    have hbad : (emitInstr [] ins).1 = false := by
      rw [emitInstr_fst, hop]
      rfl
    exact h.empty ⟨fn, hfn, ins, hins, hbad⟩
  · intro hnil
    exact ⟨fun hne => absurd hnil hne, fun _ => hnil,
      fun bytes h => absurd hnil (bytes_of_executed h).2⟩

/-- The bytes are those of the functions up to the first that is not lowered. -/
theorem flatMap_takeWhile_eq_nil_iff {functions : List Function}
    (hsome : ∃ fn ∈ functions, ∃ ins ∈ fn.code, ins.op = .call) :
    (functions.takeWhile lowers).flatMap lowering = [] ↔
      ∃ fn, functions.head? = some fn ∧ ∃ ins ∈ fn.code, ins.op = .call := by
  cases functions with
  | nil =>
    obtain ⟨fn, hfn, -⟩ := hsome
    cases hfn
  | cons first rest =>
    rw [List.takeWhile_cons]
    cases hfirst : lowers first with
    | false => exact iff_of_true rfl ⟨first, rfl, lowers_eq_false_iff.mp hfirst⟩
    | true =>
      rw [if_pos rfl, List.flatMap_cons]
      refine iff_of_false (fun h => lowering_ne_nil hfirst (List.append_eq_nil_iff.mp h).1) ?_
      rintro ⟨fn, hhead, hcall⟩
      obtain rfl := Option.some.inj hhead
      rw [lowers_eq_false_iff.mpr hcall] at hfirst
      cases hfirst

/-- Code generation is all or nothing exactly when no function of the module has an instruction
    that cannot be lowered, or the first one has. -/
theorem codegen_all_or_nothing_iff (showF64 : BitVec 64 → String) (m : Module) :
    AllOrNothing m (codegen showF64 m .x86_64) ↔
      (∀ fn ∈ m.functions, ∀ ins ∈ fn.code, ins.op ≠ .call) ∨
        ∃ fn, m.functions.head? = some fn ∧ ∃ ins ∈ fn.code, ins.op = .call := by
  have hbytes := codegen_bytes showF64 m
  by_cases hall : ∀ fn ∈ m.functions, lowers fn = true
  · rw [List.takeWhile_eq_self_iff.mpr hall] at hbytes
    exact iff_of_true (allOrNothing_of_all hall hbytes)
      (Or.inl fun fn hfn => lowers_iff.mp (hall fn hfn))
  · -- some function is not lowered: it all depends on whether the first one is
    have hsome : ∃ fn ∈ m.functions, ∃ ins ∈ fn.code, ins.op = .call := by
      by_contra hno
      exact hall fun fn hfn => lowers_iff.mpr fun ins hins hop => hno ⟨fn, hfn, ins, hins, hop⟩
    have hcalls : ¬ ∀ fn ∈ m.functions, ∀ ins ∈ fn.code, ins.op ≠ .call := by
      obtain ⟨fn, hfn, ins, hins, hop⟩ := hsome
      exact fun h => h fn hfn ins hins hop
    rw [or_iff_right hcalls, allOrNothing_iff_nil hsome, hbytes]
    exact flatMap_takeWhile_eq_nil_iff hsome

/-- A function that returns 1, and one that calls another. -/
def partlyLowered : Module where
  name := "m"
  functions := [⟨"one", [{ arg := { i64 := 1 } }, { op := .ret }]⟩,
    ⟨"calls", [{ op := .call, callee := "one" }]⟩]

/-- The result for it; it has no double to print. -/
def partlyLoweredCode : CodegenResult := codegen (fun _ => "") partlyLowered .x86_64

/-- The first of two functions is left in the result, and is executed, though the second cannot be
    lowered. -/
theorem codegen_keeps_first :
    partlyLoweredCode.bytes = [0x6A, 0x01, 0x58, 0xC3, 0xC3] ∧
      executed partlyLoweredCode = some [0x6A, 0x01, 0x58, 0xC3, 0xC3] ∧
      ¬ AllOrNothing partlyLowered partlyLoweredCode := by
  have hbytes : partlyLoweredCode.bytes = [0x6A, 0x01, 0x58, 0xC3, 0xC3] := rfl
  refine ⟨hbytes, rfl, fun h => ?_⟩
  have hnil := h.empty ⟨_, List.mem_cons_of_mem _ List.mem_cons_self, _, List.mem_cons_self, rfl⟩
  rw [hbytes] at hnil
  cases hnil

end NeuroVerse.Jit
