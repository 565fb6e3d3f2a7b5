/-
  The VNodes of the two in-memory file systems behind one trait (`fs/vnode.hpp`).

  `arrayStep` is the trait: a byte array, where "truncate / extend to size bytes" gives the file
  exactly that size. A `MemVNode` is such an array. `RamVNode::truncate` only ever cuts, so a
  `RamVNode` is one as long as nothing is truncated to more than its size
  (`vnodes_implement_trait_iff`).
-/
import NeuroVerse.Fs.RamFS

namespace NeuroVerse.Fs

open NeuroVerse.Lib

inductive NodeOp where
  | read (offset size : Nat)
  | write (offset : Nat) (buf : List Byte)
  | truncate (size : Nat)
  | stat

/-- What a call gives its caller; of an error the kind. -/
inductive NodeAnswer where
  | failed (e : ErrorKind)
  | bytes (d : List Byte)
  | count (n : Nat)
  | done
  | stat (s : Stat)
deriving DecidableEq

def nodeAnswer {α : Type} (f : α → NodeAnswer) : Except Error α → NodeAnswer
  | .ok a => f a
  | .error e => .failed e.kind

def MemVNode.step (n : MemVNode) : NodeOp → NodeAnswer × MemVNode
  | .read offset size => (nodeAnswer .bytes (n.read offset size), n)
  | .write offset buf => (.count buf.length, n.write offset buf)
  | .truncate size => (.done, n.truncate size)
  | .stat => (.stat n.stat, n)

def RamVNode.step (n : RamVNode) : NodeOp → NodeAnswer × RamVNode
  | .read offset size => (nodeAnswer .bytes (n.read offset size), n)
  | .write offset buf => (nodeAnswer .count (n.write offset buf).1, (n.write offset buf).2)
  | .truncate size => (.done, n.truncate size)
  | .stat => (.stat n.stat, n)

/-- The trait, on the bytes of the file. -/
def arrayStep (a : List Byte) : NodeOp → NodeAnswer × List Byte
  | .read offset size =>
    if offset > a.length then (.failed .invalidArgument, a)
    else (.bytes ((a.drop offset).take size), a)
  | .write offset buf => (.count buf.length, spliced a offset buf)
  | .truncate size => (.done, resize a size)
  | .stat => (.stat { type := .regular, size := a.length, gen := 1 }, a)

/-- A write begins within the file. -/
def Inside (a : List Byte) : NodeOp → Prop
  | .write offset _ => offset ≤ a.length
  | _ => True

instance (a : List Byte) : (op : NodeOp) → Decidable (Inside a op)
  | .write _ _ => inferInstanceAs (Decidable (_ ≤ _))
  | .read _ _ => isTrue trivial
  | .truncate _ => isTrue trivial
  | .stat => isTrue trivial

/-- A truncation is to no more than the size of the file. -/
def Cuts (a : List Byte) : NodeOp → Prop
  | .truncate size => size ≤ a.length
  | _ => True

/-! ## One call -/

/-- The node is the array `a`, of the first generation. -/
structure MemVNode.Holds (n : MemVNode) (a : List Byte) : Prop where
  data : n.data = a
  gen : n.gen = 1

theorem MemVNode.step_array {n : MemVNode} {a : List Byte} (h : n.Holds a) (op : NodeOp) :
    (n.step op).1 = (arrayStep a op).1 ∧ (n.step op).2.Holds (arrayStep a op).2 := by
  obtain ⟨rfl, hgen⟩ := h
  cases op with
  | read offset size =>
    rw [step, arrayStep, MemVNode.read]
    split <;> exact ⟨rfl, rfl, hgen⟩
  | write offset buf => exact ⟨rfl, write_data n offset buf, hgen⟩
  | truncate size => exact ⟨rfl, rfl, hgen⟩
  | stat =>
    refine ⟨?_, rfl, hgen⟩
    show NodeAnswer.stat n.stat = _
    rw [MemVNode.stat, hgen]
    rfl

theorem take_min (d : List Byte) (offset size : Nat) :
    (d.drop offset).take (min size (d.length - offset)) = (d.drop offset).take size := by
  rw [← List.length_drop]
  exact (List.take_eq_take_min).symm

/-- A read clamped in three steps gives what one clamp gives. -/
theorem RamVNode.read_eq (n : RamVNode) (offset size : Nat) :
    nodeAnswer .bytes (n.read offset size) = (arrayStep n.data (.read offset size)).1 := by
  rw [RamVNode.read, arrayStep]
  by_cases hpast : offset > n.data.length
  · rw [if_pos hpast, if_pos hpast]
    rfl
  · rw [if_neg hpast, if_neg hpast]
    split
    · next hend =>
      rcases Bool.or_eq_true _ _ |>.mp hend with hend | hend
      · rw [of_decide_eq_true hend, List.drop_length, List.take_nil]
        rfl
      · rw [of_decide_eq_true hend, List.take_zero]
        rfl
    · rw [take_min]
      rfl

/-- The length of a node after a truncation: it never grows. -/
theorem RamVNode.truncate_length (n : RamVNode) (size : Nat) :
    (n.truncate size).data.length = min size n.data.length := by
  unfold truncate
  split
  · next h => rw [resize_length, Nat.min_eq_left (Nat.le_of_lt h)]
  · next h => rw [Nat.min_eq_right (Nat.le_of_not_lt h)]

theorem RamVNode.truncate_data {n : RamVNode} {size : Nat} (h : size ≤ n.data.length) :
    (n.truncate size).data = resize n.data size := by
  unfold truncate
  split
  · rfl
  · next hge =>
    rw [show size = n.data.length by omega, resize_self]

theorem RamVNode.step_array {n : RamVNode} {a : List Byte} (h : n.data = a) {op : NodeOp}
    (hin : Inside a op) (hcut : Cuts a op) :
    (n.step op).1 = (arrayStep a op).1 ∧ (n.step op).2.data = (arrayStep a op).2 := by
  subst h
  cases op with
  | read offset size =>
    refine ⟨n.read_eq offset size, ?_⟩
    rw [arrayStep]
    split <;> rfl
  | write offset buf =>
    obtain ⟨hres, -, hdata⟩ : (n.write offset buf).1 = .ok buf.length ∧
        (n.write offset buf).2.path = n.path ∧
        (n.write offset buf).2.data = spliced n.data offset buf := RamVNode.write_ok hin
    refine ⟨?_, hdata⟩
    rw [step, hres]
    rfl
  | truncate size => exact ⟨rfl, truncate_data hcut⟩
  | stat => exact ⟨rfl, rfl⟩

/-! ## Runs -/

/-- The run gives on both nodes the answers of the trait, and the size that `stat` shows is always
    that of the trait. -/
structure BothAsArray (m : MemVNode) (r : RamVNode) (ops : List NodeOp) : Prop where
  mem : results MemVNode.step m ops = results arrayStep [] ops
  ram : results RamVNode.step r ops = results arrayStep [] ops
  sizes : ∀ pre, pre <+: ops →
    (finalState MemVNode.step m pre).stat.size = (finalState arrayStep [] pre).length ∧
      (finalState RamVNode.step r pre).stat.size = (finalState arrayStep [] pre).length

theorem mem_as_array {m : MemVNode} (hm : m.Holds []) (ops : List NodeOp) :
    results MemVNode.step m ops = results arrayStep [] ops ∧
      (finalState MemVNode.step m ops).Holds (finalState arrayStep [] ops) := by
  have hok : StepsMeet (fun a op => (arrayStep a op).2) (fun _ _ => True) [] ops :=
    fun _ _ _ => trivial
  exact refinement MemVNode.step arrayStep (fun _ _ op h _ => MemVNode.step_array h op) hm hok

theorem ram_as_array {r : RamVNode} (hr : r.data = []) {ops : List NodeOp}
    (hin : StepsMeet (fun a op => (arrayStep a op).2) Inside [] ops)
    (hcut : StepsMeet (fun a op => (arrayStep a op).2) Cuts [] ops) :
    results RamVNode.step r ops = results arrayStep [] ops ∧
      (finalState RamVNode.step r ops).data = finalState arrayStep [] ops := by
  have hok : StepsMeet (fun a op => (arrayStep a op).2) (fun a op => Inside a op ∧ Cuts a op)
      [] ops :=
    fun pre op hp => ⟨hin pre op hp, hcut pre op hp⟩
  exact refinement RamVNode.step arrayStep (R := fun n a => n.data = a)
    (fun _ _ _ h hmeet => RamVNode.step_array h hmeet.1 hmeet.2) hr hok

/-- A truncation to more than the size of the file shows in the size. -/
theorem cuts_of_size {n : RamVNode} {op : NodeOp}
    (h : (n.step op).2.data.length = (arrayStep n.data op).2.length) : Cuts n.data op := by
  cases op with
  | truncate size =>
    have hram : (n.step (.truncate size)).2.data.length = min size n.data.length :=
      n.truncate_length size
    have harray : (arrayStep n.data (.truncate size)).2.length = size := resize_length _ _
    show size ≤ n.data.length
    omega
  | read offset size => trivial
  | write offset buf => trivial
  | stat => trivial

/-- The size that a `RamVNode` shows is always that of the trait exactly when the run truncates to
    no more than the size of the file. -/
theorem ram_sizes_iff {r : RamVNode} (hr : r.data = []) {ops : List NodeOp}
    (hin : StepsMeet (fun a op => (arrayStep a op).2) Inside [] ops) :
    (∀ pre, pre <+: ops →
      (finalState RamVNode.step r pre).stat.size = (finalState arrayStep [] pre).length) ↔
      StepsMeet (fun a op => (arrayStep a op).2) Cuts [] ops := by
  refine prefixes_iff (congrArg List.length hr) fun pre op hp _ hcut => ?_
  have hpre := (List.prefix_append pre [op]).trans hp
  have hdata := (ram_as_array hr (hin.restrict hpre) hcut).2
  rw [finalState, finalState, run_snoc, run_snoc]
  constructor
  · intro hsize
    have hcuts : Cuts (finalState RamVNode.step r pre).data op := by
      refine cuts_of_size ?_
      rw [hdata]
      exact hsize
    rwa [hdata] at hcuts
  · intro hop
    exact congrArg List.length (RamVNode.step_array hdata (hin pre op hp) hop).2

/-- Both nodes implement the trait in a run, from an empty file on, exactly when the run
    truncates to no more than the size of the file. -/
theorem vnodes_implement_trait_iff (id id' : BitVec 64) (path path' : Path) (ops : List NodeOp)
    (hin : StepsMeet (fun a op => (arrayStep a op).2) Inside [] ops) :
    BothAsArray { id := id, path := path } { id := id', path := path' } ops ↔
      StepsMeet (fun a op => (arrayStep a op).2) Cuts [] ops := by
  have hmem := mem_as_array (m := { id := id, path := path }) ⟨rfl, rfl⟩
  have hram := ram_sizes_iff (r := { id := id', path := path' }) rfl hin
  constructor
  · intro h
    exact hram.mp fun pre hp => (h.sizes pre hp).2
  · intro hcut
    refine ⟨(hmem ops).1, (ram_as_array rfl hin hcut).1, fun pre hp => ⟨?_, hram.mpr hcut pre hp⟩⟩
    exact congrArg List.length (hmem pre).2.data

theorem vnodes_implement_trait_iff_cut :
    BothAsArray { id := 1, path := "a" } { id := 1, path := "a" }
        [.write 0 [1, 2, 3], .truncate 1, .read 0 4] ↔
      StepsMeet (fun a op => (arrayStep a op).2) Cuts []
        [.write 0 [1, 2, 3], .truncate 1, .read 0 4] :=
  vnodes_implement_trait_iff 1 1 "a" "a" _ (by decide)

/-- Extending an empty file gives it a size on one node only. -/
theorem truncate_extends_one :
    results MemVNode.step { id := 1, path := "a" } [.truncate 5, .stat] ≠
      results RamVNode.step { id := 1, path := "a" } [.truncate 5, .stat] := by
  decide

end NeuroVerse.Fs
