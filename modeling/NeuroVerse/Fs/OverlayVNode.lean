/-
  The VNode over a VNode of each layer (`OverlayVNode` of `fs/overlayfs.cpp`).

  Its size and its writes are those of the upper node. A read takes what the upper node gives and
  goes on in the lower node when that is short, so that it agrees with the size exactly when the
  lower node has nothing to add (`read_exact_iff`). The nodes are held in the state; a null pointer
  is no node.
-/
import NeuroVerse.Fs.MemFS

namespace NeuroVerse.Fs

open NeuroVerse.Lib ErrorState

/-- The virtual functions of a VNode, on the node itself. -/
class VNode (ν : Type) where
  read : Nat → Nat → FsM ν (List Byte)
  write : Nat → List Byte → FsM ν Nat
  truncate : Nat → FsM ν Unit
  stat : FsM ν Stat

instance : VNode MemVNode where
  read offset size := ⟨fun n => (n.read offset size, n)⟩
  write offset buf := ⟨fun n => (.ok buf.length, n.write offset buf)⟩
  truncate size := ⟨fun n => (.ok (), n.truncate size)⟩
  stat := ⟨fun n => (.ok n.stat, n)⟩

structure OverlayVNode (L U : Type) where
  lower : Option L
  upper : Option U

namespace OverlayVNode

variable {L U α : Type}

def onLower (l : L) (x : FsM L α) : FsM (OverlayVNode L U) α := ⟨fun n =>
  ((x.run l).1, { n with lower := some (x.run l).2 })⟩

def onUpper (u : U) (x : FsM U α) : FsM (OverlayVNode L U) α := ⟨fun n =>
  ((x.run u).1, { n with upper := some (x.run u).2 })⟩

variable [VNode L] [VNode U]

def read (offset size : Nat) : FsM (OverlayVNode L U) (List Byte) := ⟨fun n =>
  (match n.upper, n.lower with
  | some u, lower => do
    let r ← onUpper u (VNode.read offset size)
    if r.length = size then pure r
    else
      match lower with
      | some l =>
        -- short read: the lower node for the remainder
        if r.length < size then do
          let lr ← onLower l (VNode.read (offset + r.length) (size - r.length))
          pure (r ++ lr)
        else pure r
      | none => pure r
  | none, some l => onLower l (VNode.read offset size)
  | none, none =>
    throw ⟨.notFound, "OverlayVNode::read: no upper or lower"⟩ : FsM _ _).run n⟩

def write (offset : Nat) (buf : List Byte) : FsM (OverlayVNode L U) Nat := ⟨fun n =>
  (match n.upper with
  | none => throw ⟨.notPermitted, "OverlayVNode::write: upper layer not configured"⟩
  | some u => onUpper u (VNode.write offset buf) : FsM _ _).run n⟩

def truncate (size : Nat) : FsM (OverlayVNode L U) Unit := ⟨fun n =>
  (match n.upper with
  | none => throw ⟨.notPermitted, "OverlayVNode::truncate: upper layer not configured"⟩
  | some u => onUpper u (VNode.truncate size) : FsM _ _).run n⟩

def stat : FsM (OverlayVNode L U) Stat := ⟨fun n =>
  (match n.upper, n.lower with
  | some u, _ => onUpper u VNode.stat
  | none, some l => onLower l VNode.stat
  | none, none =>
    throw ⟨.notFound, "OverlayVNode::stat: no upper or lower"⟩ : FsM _ _).run n⟩

instance : VNode (OverlayVNode L U) where
  read := read
  write := write
  truncate := truncate
  stat := stat

/-! ## Two in-memory nodes -/

/-- The bytes from `a` on and before `b`. -/
def slice (d : List Byte) (a b : Nat) : List Byte := (d.drop a).take (b - a)

/-- What a read of the bytes before `b` takes from the lower node, from `a` on. -/
def remainder (l : Option MemVNode) (a b : Nat) : List Byte :=
  match l with
  | none => []
  | some m => slice m.data a b

theorem stat_size (l : Option MemVNode) {u : MemVNode} {st : Stat}
    (h : (stat.run ⟨l, some u⟩).1 = .ok st) : st.size = u.data.length := by
  cases h
  rfl

theorem memRead_run (n : MemVNode) {offset : Nat} (h : offset ≤ n.data.length) (size : Nat) :
    (VNode.read offset size).run n = (.ok ((n.data.drop offset).take size), n) := by
  show (n.read offset size, n) = _
  rw [MemVNode.read, if_neg (by omega)]

theorem onUpper_read (l : Option MemVNode) (u : MemVNode) {offset : Nat}
    (h : offset ≤ u.data.length) (size : Nat) :
    (onUpper u (VNode.read offset size)).run (⟨l, some u⟩ : OverlayVNode MemVNode MemVNode) =
      (.ok ((u.data.drop offset).take size), ⟨l, some u⟩) := by
  rw [onUpper, memRead_run u h]

/-- A read that ends within the upper node. -/
theorem read_within (l : Option MemVNode) (u : MemVNode) {offset size : Nat}
    (h : offset + size ≤ u.data.length) :
    ((read offset size).run ⟨l, some u⟩).1 = .ok (slice u.data offset (offset + size)) := by
  have hlen : ((u.data.drop offset).take size).length = size := by
    rw [List.length_take, List.length_drop]
    omega
  show (ErrorState.run (_ >>= _) _).1 = _
  rw [bind_ok (onUpper_read l u (by omega) size), if_pos hlen, slice, Nat.add_sub_cancel_left]
  rfl

theorem read_no_lower (u : MemVNode) {offset size : Nat} (hoff : offset ≤ u.data.length)
    (hpast : u.data.length < offset + size) :
    ((read offset size).run (⟨none, some u⟩ : OverlayVNode MemVNode MemVNode)).1 =
      .ok (slice u.data offset u.data.length) := by
  have htake : (u.data.drop offset).take size = u.data.drop offset :=
    List.take_of_length_le (by rw [List.length_drop]; omega)
  have hshort : (u.data.drop offset).length ≠ size := by
    rw [List.length_drop]
    omega
  show (ErrorState.run (_ >>= _) _).1 = _
  rw [bind_ok (onUpper_read none u hoff size), htake, if_neg hshort, slice,
    List.take_of_length_le (by rw [List.length_drop])]
  rfl

/-- A read past the end of the upper node is a read of the lower one from there on. -/
theorem read_past (m u : MemVNode) {offset size : Nat} (hoff : offset ≤ u.data.length)
    (hpast : u.data.length < offset + size) :
    ((read offset size).run ⟨some m, some u⟩).1 =
      if u.data.length > m.data.length then
        .error ⟨.invalidArgument, "MemVNode::read: offset past EOF"⟩
      else .ok (slice u.data offset u.data.length ++
        slice m.data u.data.length (offset + size)) := by
  have hlen : (u.data.drop offset).length = u.data.length - offset := List.length_drop
  have htake : (u.data.drop offset).take size = u.data.drop offset :=
    List.take_of_length_le (by omega)
  have hslice : slice u.data offset u.data.length = u.data.drop offset :=
    List.take_of_length_le (by omega)
  have hat : offset + (u.data.length - offset) = u.data.length := by omega
  have hrest : size - (u.data.length - offset) = offset + size - u.data.length := by omega
  show (ErrorState.run (_ >>= _) _).1 = _
  rw [bind_ok (onUpper_read (some m) u hoff size), htake, hslice, if_neg (by omega)]
  simp only
  rw [if_pos (by omega), hlen, hat, hrest]
  by_cases hend : u.data.length > m.data.length
  · have hrun : (onLower m (VNode.read u.data.length (offset + size - u.data.length))).run
        (⟨some m, some u⟩ : OverlayVNode MemVNode MemVNode) =
          (.error ⟨.invalidArgument, "MemVNode::read: offset past EOF"⟩, ⟨some m, some u⟩) := by
      show ((m.read _ _), _) = _
      rw [MemVNode.read, if_pos hend]
      rfl
    rw [if_pos hend, bind_error hrun]
  · have hrun : (onLower m (VNode.read u.data.length (offset + size - u.data.length))).run
        (⟨some m, some u⟩ : OverlayVNode MemVNode MemVNode) =
          (.ok (slice m.data u.data.length (offset + size)), ⟨some m, some u⟩) := by
      rw [onLower, memRead_run m (by omega)]
      rfl
    rw [if_neg hend, bind_ok hrun]
    rfl

theorem slice_of_le {d : List Byte} {a b : Nat} (h : b ≤ a) : slice d a b = [] := by
  rw [slice, Nat.sub_eq_zero_of_le h, List.take_zero]

theorem slice_eq_nil_iff {d : List Byte} {a b : Nat} (h : a < b) :
    slice d a b = [] ↔ d.length ≤ a := by
  rw [slice, ← List.length_eq_zero_iff, List.length_take, List.length_drop]
  omega

/-- Unless it goes on in a lower node that ends before the upper one, a read succeeds. It gives the
    bytes of the upper node up to its size, and after them the bytes that the lower node has from
    there on. -/
theorem read_falls_through (l : Option MemVNode) (u : MemVNode) {st : Stat}
    (hst : (stat.run ⟨l, some u⟩).1 = .ok st) {offset : Nat} (hoff : offset ≤ st.size) (size : Nat)
    (hlower : offset + size ≤ st.size ∨ ∀ m ∈ l, st.size ≤ m.data.length) :
    ((read offset size).run ⟨l, some u⟩).1 =
      .ok (slice u.data offset (min (offset + size) st.size) ++
        remainder l st.size (offset + size)) := by
  rw [stat_size l hst] at hoff hlower ⊢
  rcases Nat.lt_or_ge u.data.length (offset + size) with hpast | hin
  · rw [Nat.min_eq_right (Nat.le_of_lt hpast)]
    cases l with
    | none => rw [read_no_lower u hoff hpast, remainder, List.append_nil]
    | some m =>
      have hlong := hlower.resolve_left (Nat.not_le_of_lt hpast) m rfl
      rw [read_past m u hoff hpast, if_neg (Nat.not_lt_of_le hlong), remainder]
  · have hnone : remainder l u.data.length (offset + size) = [] := by
      cases l with
      | none => rfl
      | some m => exact slice_of_le hin
    rw [read_within l u hin, Nat.min_eq_left hin, hnone, List.append_nil]

/-- An upper node of one byte over a lower one of three. -/
def longLower : OverlayVNode MemVNode MemVNode :=
  ⟨some { id := 2, path := "f", data := [4, 5, 6] }, some { id := 1, path := "f", data := [1] }⟩

theorem read_falls_through_longLower :
    ((read 0 6).run longLower).1 =
      .ok (slice [1] 0 (min (0 + 6) 1) ++ remainder longLower.lower 1 (0 + 6)) := by
  have hst : (stat.run longLower).1 = .ok { size := 1, gen := 1 } := rfl
  refine read_falls_through longLower.lower _ hst (by decide) 6 (Or.inr ?_)
  rintro m ⟨⟩
  decide

/-- Two bytes of the lower node follow the one byte that the size promises. -/
theorem lower_tail_leaks :
    (stat.run longLower).1 = .ok { size := 1, gen := 1 } ∧
      ((read 0 6).run longLower).1 = .ok [1, 5, 6] ∧
      ((read 0 6).run longLower).1 ≠ .ok (slice [1] 0 (min (0 + 6) 1)) := by
  have hread : ((read 0 6).run longLower).1 = .ok [1, 5, 6] := rfl
  refine ⟨rfl, hread, ?_⟩
  rw [hread, Ne, Except.ok.injEq]
  decide

/-- A read gives what the size promises exactly when it ends within the upper node or the lower one
    adds nothing and does not end before it. -/
theorem read_exact_iff (l : Option MemVNode) (u : MemVNode) {offset : Nat}
    (hoff : offset ≤ u.data.length) (size : Nat) :
    ((read offset size).run ⟨l, some u⟩).1 =
        .ok (slice u.data offset (min (offset + size) u.data.length)) ↔
      offset + size ≤ u.data.length ∨ ∀ m ∈ l, m.data.length = u.data.length := by
  rcases Nat.lt_or_ge u.data.length (offset + size) with hpast | hin
  · rw [Nat.min_eq_right (Nat.le_of_lt hpast), or_iff_right (Nat.not_le_of_lt hpast)]
    cases l with
    | none => exact iff_of_true (read_no_lower u hoff hpast) nofun
    | some m =>
      rw [read_past m u hoff hpast]
      split
      · next hend => exact iff_of_false nofun fun h => Nat.ne_of_lt hend (h m rfl)
      · next hend =>
        rw [Except.ok.injEq, List.append_right_eq_self, slice_eq_nil_iff hpast]
        constructor
        · rintro h m' ⟨⟩
          omega
        · intro h
          exact Nat.le_of_eq (h m rfl)
  · rw [Nat.min_eq_left hin]
    exact iff_of_true (read_within l u hin) (Or.inl hin)

end OverlayVNode

end NeuroVerse.Fs
