/-
  The file system trait (`fs/vnode.hpp`, `fs/vfs.hpp`) and the operations every file system
  inherits from it.

  A `VFS` gives the virtual functions of VFS and of its VNodes over a state and a type of VNode
  pointers. `read` fills a buffer of the given size, here it returns the bytes read. Sizes and
  offsets are natural numbers: a resize that does not fit in memory throws in the source before
  any 64-bit sum wraps.
-/
import NeuroVerse.Lib.ErrorState
import Mathlib.Data.BitVec
import Mathlib.Order.Basic

namespace NeuroVerse.Fs

open NeuroVerse.Lib

abbrev Byte := BitVec 8
abbrev Path := String

inductive ErrorKind where
  | none
  | invalidArgument
  | outOfMemory
  | unreachable
  | notPermitted
  | notFound
  | timeout
  | wouldBlock
  | internal
  | external
  | unknown
deriving DecidableEq, Repr

structure Error where
  kind : ErrorKind
  message : String
deriving DecidableEq, Repr

abbrev FsM (σ α : Type) := ErrorState Error σ α

/-- Open flags are a bit field. -/
abbrev OpenFlags := BitVec 32

namespace OpenFlags

def read : OpenFlags := 1
def write : OpenFlags := 2
/-- Create if absent. -/
def create : OpenFlags := 4
/-- Truncate to 0 on open. -/
def truncate : OpenFlags := 8
/-- Fail if `create` and the file already exists. -/
def exclusive : OpenFlags := 16
/-- Every write goes to the end. -/
def append : OpenFlags := 32

def has (f bit : OpenFlags) : Bool := f &&& bit != 0

end OpenFlags

structure VNodeHandle where
  id : BitVec 64 := 0
  gen : BitVec 64 := 0
deriving DecidableEq, Repr

inductive FileType where
  | regular
  | directory
  | symlink
deriving DecidableEq, Repr

structure Stat where
  type : FileType := .regular
  size : Nat := 0
  gen : BitVec 64 := 0
deriving DecidableEq, Repr

structure FileHandle where
  path : Path
  flags : OpenFlags
  vnode : VNodeHandle
deriving DecidableEq, Repr

/-- The virtual functions of a file system with state `σ` and VNode pointers `ν`. -/
structure VFS (σ ν : Type) where
  lookup : Path → FsM σ ν
  open_ : Path → OpenFlags → FsM σ FileHandle
  handle : ν → FsM σ VNodeHandle
  read : ν → Nat → Nat → FsM σ (List Byte)
  write : ν → Nat → List Byte → FsM σ Nat
  truncate : ν → Nat → FsM σ Unit
  stat : ν → FsM σ Stat

namespace VFS

variable {σ ν : Type} (F : VFS σ ν)

/-- The read loop of `read_all` and `copy_up`: reads on from the end of `out` until `size`
    bytes are there or a read gives none. Every other round adds a byte, so `size` rounds are
    enough. -/
def readLoop (v : ν) (size : Nat) : Nat → List Byte → FsM σ (List Byte)
  | 0, out => pure out
  | fuel + 1, out =>
    if out.length < size then do
      let r ← F.read v out.length (size - out.length)
      if r.length = 0 then pure out else readLoop v size fuel (out ++ r)
    else pure out

def readAll (path : Path) : FsM σ (List Byte) := do
  let v ← F.lookup path
  let s ← F.stat v
  F.readLoop v s.size s.size []

def writeAll (path : Path) (bytes : List Byte) : FsM σ Unit := do
  let _ ← F.open_ path (OpenFlags.write ||| OpenFlags.create ||| OpenFlags.truncate)
  let v ← F.lookup path
  let _ ← F.write v 0 bytes
  pure ()

/-- Writes at the size `stat` gives, and creates the file if there is none. -/
def append (path : Path) (bytes : List Byte) : FsM σ Unit := do
  let _ ← F.open_ path (OpenFlags.write ||| OpenFlags.create)
  let v ← F.lookup path
  let s ← F.stat v
  let _ ← F.write v s.size bytes
  pure ()

variable {F}

/-- A read loop that has everything stops. -/
theorem readLoop_done (v : ν) {size : Nat} (fuel : Nat) {out : List Byte}
    (h : size ≤ out.length) : F.readLoop v size fuel out = pure out := by
  cases fuel with
  | zero => rfl
  | succ fuel => rw [readLoop, if_neg (by omega)]

/-- The read loop is done after one read that gives the whole file. -/
theorem readLoop_whole {v : ν} {s : σ} {d : List Byte}
    (hread : (F.read v 0 d.length).run s = (.ok d, s)) :
    (F.readLoop v d.length d.length []).run s = (.ok d, s) := by
  rcases Nat.eq_zero_or_pos d.length with h0 | hpos
  · rw [readLoop_done v d.length (by rw [h0]; exact Nat.zero_le _),
      List.eq_nil_of_length_eq_zero h0]
    rfl
  · obtain ⟨k, hk⟩ := Nat.exists_eq_add_of_lt hpos
    rw [show d.length = k + 1 by omega] at hread ⊢
    rw [readLoop, if_pos (show ([] : List Byte).length < k + 1 from Nat.succ_pos k)]
    refine (ErrorState.bind_ok hread).trans ?_
    rw [if_neg (by omega), List.nil_append, readLoop_done v k (by omega)]
    rfl

/-- A read of the file `d` gives a first part of what is asked for, and something if there is
    anything. -/
def ReadsSome (d : List Byte) (offset size : Nat) (r : List Byte) : Prop :=
  r <+: (d.drop offset).take size ∧ (r = [] → (d.drop offset).take size = [])

/-- Where every read gives a first part, the read loop still gives the whole file. -/
theorem readLoop_short {v : ν} {d : List Byte} {P : σ → Prop}
    (hread : ∀ s offset size, P s → offset ≤ d.length →
      ∃ r s', (F.read v offset size).run s = (.ok r, s') ∧ ReadsSome d offset size r ∧ P s')
    (fuel : Nat) {k : Nat} (hk : k ≤ d.length) (hfuel : d.length ≤ k + fuel) {s : σ} (hs : P s) :
    ∃ s', (F.readLoop v d.length fuel (d.take k)).run s = (.ok d, s') ∧ P s' := by
  have hlen : (d.take k).length = k := by rw [List.length_take]; omega
  induction fuel generalizing k s with
  | zero =>
    rw [List.take_of_length_le (by omega)]
    exact ⟨s, rfl, hs⟩
  | succ fuel ih =>
    rw [readLoop, hlen]
    by_cases hlt : k < d.length
    · obtain ⟨r, s₁, hrun, ⟨hpre, hsome⟩, hs₁⟩ := hread s k (d.length - k) hs hk
      rw [List.take_of_length_le (by rw [List.length_drop])] at hpre hsome
      have hpos : r.length ≠ 0 := by
        intro h0
        have hnil := congrArg List.length (hsome (List.eq_nil_of_length_eq_zero h0))
        rw [List.length_drop, List.length_nil] at hnil
        omega
      have hle := hpre.length_le
      rw [List.length_drop] at hle
      have hjoin : d.take k ++ r = d.take (k + r.length) := by
        conv => lhs; rw [List.prefix_iff_eq_take.mp hpre]
        exact List.take_add.symm
      rw [if_pos hlt, ErrorState.bind_ok hrun, if_neg hpos, hjoin]
      exact ih (by omega) (by omega) hs₁ (by rw [List.length_take]; omega)
    · rw [if_neg hlt, List.take_of_length_le (by omega)]
      exact ⟨s, rfl, hs⟩

theorem readAll_whole {path : Path} {v : ν} {s : σ} {st : Stat} {d : List Byte}
    (hlookup : (F.lookup path).run s = (.ok v, s)) (hstat : (F.stat v).run s = (.ok st, s))
    (hsize : st.size = d.length) (hread : (F.read v 0 d.length).run s = (.ok d, s)) :
    (F.readAll path).run s = (.ok d, s) := by
  unfold readAll
  refine (ErrorState.bind_ok hlookup).trans ((ErrorState.bind_ok hstat).trans ?_)
  rw [hsize]
  exact readLoop_whole hread

/-- The virtual functions of the file system change its state only as `R` allows. -/
structure Within (F : VFS σ ν) (R : σ → σ → Prop) : Prop where
  refl : ∀ s, R s s
  trans : ∀ s t u, R s t → R t u → R s u
  lookup : ∀ path, (F.lookup path).Moves R
  open_ : ∀ path flags, (F.open_ path flags).Moves R
  read : ∀ v offset size, (F.read v offset size).Moves R
  write : ∀ v offset buf, (F.write v offset buf).Moves R
  truncate : ∀ v size, (F.truncate v size).Moves R
  stat : ∀ v, (F.stat v).Moves R

namespace Within

variable {R : σ → σ → Prop}

theorem readLoop (h : F.Within R) (v : ν) (size fuel : Nat) (out : List Byte) :
    (F.readLoop v size fuel out).Moves R := by
  induction fuel generalizing out with
  | zero => exact ErrorState.moves_pure h.refl out
  | succ fuel ih =>
    rw [VFS.readLoop]
    split
    · refine (h.read v _ _).bind h.trans fun r => ?_
      split
      · exact ErrorState.moves_pure h.refl out
      · exact ih _
    · exact ErrorState.moves_pure h.refl out

theorem readAll (h : F.Within R) (path : Path) : (F.readAll path).Moves R :=
  (h.lookup path).bind h.trans fun v => (h.stat v).bind h.trans fun _ => h.readLoop v _ _ _

theorem writeAll (h : F.Within R) (path : Path) (bytes : List Byte) :
    (F.writeAll path bytes).Moves R :=
  (h.open_ path _).bind h.trans fun _ => (h.lookup path).bind h.trans fun v =>
    (h.write v 0 bytes).bind h.trans fun _ => ErrorState.moves_pure h.refl ()

theorem append (h : F.Within R) (path : Path) (bytes : List Byte) :
    (F.append path bytes).Moves R :=
  (h.open_ path _).bind h.trans fun _ => (h.lookup path).bind h.trans fun v =>
    (h.stat v).bind h.trans fun s => (h.write v s.size bytes).bind h.trans fun _ =>
      ErrorState.moves_pure h.refl ()

end Within

end VFS

/-! ## Operations by path -/

inductive FsOp where
  | open_ (path : Path) (flags : OpenFlags)
  | writeAll (path : Path) (bytes : List Byte)
  | append (path : Path) (bytes : List Byte)
  | readAll (path : Path)

/-- What a caller sees of an operation: the kind of its error, or the bytes it returns. -/
abbrev Seen := Except ErrorKind (List Byte)

def seen {α : Type} (bytes : α → List Byte) : Except Error α → Seen
  | .ok a => .ok (bytes a)
  | .error e => .error e.kind

/-- One operation on a file system, with what its caller sees. -/
def VFS.exec {σ ν : Type} (F : VFS σ ν) (s : σ) : FsOp → Seen × σ
  | .open_ path flags => ((F.open_ path flags).run s).map (seen fun _ => []) id
  | .writeAll path bytes => ((F.writeAll path bytes).run s).map (seen fun _ => []) id
  | .append path bytes => ((F.append path bytes).run s).map (seen fun _ => []) id
  | .readAll path => ((F.readAll path).run s).map (seen id) id

/-- Every operation changes the state only as the virtual functions do. -/
theorem VFS.Within.exec {σ ν : Type} {F : VFS σ ν} {R : σ → σ → Prop} (h : F.Within R) (s : σ)
    (op : FsOp) : R s (F.exec s op).2 := by
  cases op with
  | open_ path flags => exact h.open_ path flags s
  | writeAll path bytes => exact h.writeAll path bytes s
  | append path bytes => exact h.append path bytes s
  | readAll path => exact h.readAll path s

end NeuroVerse.Fs
