/-
  The bounded in-memory file system (`fs/ramfs.cpp`).

  A `RamFS` keeps a count of the bytes it stores and, when a write would go over its capacity,
  drops the files that were accessed longest ago. The count and the sums it is compared in are
  64-bit numbers. A file is named by its path.

  `write_charging` holds a reference to its node while it makes room, and the node may be among
  the files dropped. What happens then is undefined; `undefined` remembers that it did.

  The ticks of the last accesses are natural numbers. They are drawn from one counter, so that no
  two files have the same and it does not matter in which order the nodes are gone through.
-/
import NeuroVerse.Fs.MemFS

namespace NeuroVerse.Fs

open NeuroVerse.Lib

structure RamVNode where
  id : BitVec 64
  path : Path
  data : List Byte := []
  lastAccess : Nat := 0
deriving DecidableEq

namespace RamVNode

def read (n : RamVNode) (offset size : Nat) : Except Error (List Byte) :=
  if offset > n.data.length then
    .error ⟨.invalidArgument, "RamVNode::read: offset past end of file"⟩
  else if offset = n.data.length || size = 0 then .ok []
  else .ok ((n.data.drop offset).take (min size (n.data.length - offset)))

def write (n : RamVNode) (offset : Nat) (buf : List Byte) : Except Error Nat × RamVNode :=
  if offset > n.data.length then
    (.error ⟨.invalidArgument, "RamVNode::write: offset past end of file"⟩, n)
  else if buf.isEmpty then (.ok 0, n)
  else
    let data := if offset + buf.length > n.data.length then resize n.data (offset + buf.length)
      else n.data
    (.ok buf.length, { n with data := data.take offset ++ buf ++ data.drop (offset + buf.length) })

def truncate (n : RamVNode) (size : Nat) : RamVNode :=
  if size < n.data.length then { n with data := resize n.data size } else n

def stat (n : RamVNode) : Stat := { type := .regular, size := n.data.length, gen := 1 }

def sizeBytes (n : RamVNode) : Nat := n.data.length

def touch (n : RamVNode) (now : Nat) : RamVNode := { n with lastAccess := now }

def handle (n : RamVNode) : VNodeHandle := { id := n.id, gen := 1 }

@[simp] theorem truncate_path (n : RamVNode) (size : Nat) : (n.truncate size).path = n.path := by
  unfold truncate
  split <;> rfl

@[simp] theorem truncate_lastAccess (n : RamVNode) (size : Nat) :
    (n.truncate size).lastAccess = n.lastAccess := by
  unfold truncate
  split <;> rfl

theorem write_lastAccess (n : RamVNode) (offset : Nat) (buf : List Byte) :
    (n.write offset buf).2.lastAccess = n.lastAccess := by
  unfold write
  split
  · rfl
  · split <;> rfl

theorem truncate_zero (n : RamVNode) : (n.truncate 0).sizeBytes = 0 := by
  unfold truncate sizeBytes
  split
  · exact resize_length n.data 0
  · next h => exact Nat.eq_zero_of_not_pos h

theorem write_rejected {n : RamVNode} {offset : Nat} {buf : List Byte}
    (h : n.data.length < offset) : n.write offset buf =
      (.error ⟨.invalidArgument, "RamVNode::write: offset past end of file"⟩, n) :=
  if_pos h

/-- A write within the file makes it as long as the end of what is written. -/
theorem write_ok {n : RamVNode} {offset : Nat} {buf : List Byte} (h : offset ≤ n.data.length) :
    (n.write offset buf).1 = .ok buf.length ∧ (n.write offset buf).2.path = n.path ∧
      (n.write offset buf).2.data = spliced n.data offset buf := by
  unfold write
  rw [if_neg (Nat.not_lt_of_le h)]
  cases buf with
  | nil =>
    have hoff : (n.data.take offset).length = offset := by rw [List.length_take]; omega
    have hself := resize_self (n.data.take offset)
    rw [hoff] at hself
    refine ⟨rfl, rfl, ?_⟩
    rw [spliced, hself, List.append_nil, List.length_nil, Nat.add_zero, List.take_append_drop]
    rfl
  | cons b buf =>
    have hoff : (n.data.take offset).length = offset := by rw [List.length_take]; omega
    have hself := resize_self (n.data.take offset)
    rw [hoff] at hself
    refine ⟨rfl, rfl, ?_⟩
    rw [spliced, hself]
    exact splice_resize (b :: buf) h

end RamVNode

structure RamFS where
  capacity : Nat
  nodes : List RamVNode := []
  bytesUsed : Nat := 0
  tick : Nat := 1
  nextId : BitVec 64 := 1
  /-- A node has been used after it was dropped. -/
  undefined : Bool := false

namespace RamFS

def find (s : RamFS) (path : Path) : Option RamVNode := s.nodes.find? fun n => n.path = path

def update (s : RamFS) (path : Path) (f : RamVNode → RamVNode) : RamFS :=
  { s with nodes := s.nodes.map fun n => if n.path = path then f n else n }

/-- `touch` of a node with `tick_.fetch_add(1)`. -/
def touch (s : RamFS) (path : Path) : RamFS :=
  { s.update path (fun n => n.touch s.tick) with tick := s.tick + 1 }

def lookup (path : Path) : FsM RamFS Path := ⟨fun s =>
  match s.find path with
  | none => (.error ⟨.notFound, "RamFS::lookup: not found"⟩, s)
  | some _ => (.ok path, s.touch path)⟩

def open_ (path : Path) (flags : OpenFlags) : FsM RamFS FileHandle := ⟨fun s =>
  match s.find path with
  | some node =>
    if flags.has OpenFlags.exclusive then
      (.error ⟨.invalidArgument, "RamFS::open: Exclusive flag on existing file"⟩, s)
    else
      let s :=
        if flags.has OpenFlags.truncate then
          { s.update path (fun n => n.truncate 0) with
            bytesUsed := s.bytesUsed - min s.bytesUsed node.sizeBytes }
        else s
      (.ok ⟨path, flags, node.handle⟩, s.touch path)
  | none =>
    if !flags.has OpenFlags.create then
      (.error ⟨.notFound, "RamFS::open: missing path without Create"⟩, s)
    else
      let node : RamVNode := { id := s.nextId, path := path, lastAccess := s.tick }
      (.ok ⟨path, flags, node.handle⟩,
        { s with nodes := node :: s.nodes, nextId := s.nextId + 1, tick := s.tick + 1 })⟩

/-- The node that was accessed longest ago. -/
def oldest : List RamVNode → Option RamVNode
  | [] => none
  | n :: nodes => some (nodes.foldl (fun o m => if m.lastAccess < o.lastAccess then m else o) n)

def evictOldest (s : RamFS) : RamFS :=
  match oldest s.nodes with
  | none => s
  | some o =>
    { s with
      nodes := s.nodes.filter fun n => n.path ≠ o.path
      bytesUsed := s.bytesUsed - min s.bytesUsed o.sizeBytes }

/-- The loop of `reserve_locked`, for as many rounds as there are nodes. -/
def reserveLoop (n : Nat) : Nat → RamFS → Bool × RamFS
  | 0, s => (decide ((s.bytesUsed + n) % 2 ^ 64 ≤ s.capacity), s)
  | k + 1, s =>
    if (s.bytesUsed + n) % 2 ^ 64 ≤ s.capacity then (true, s)
    else if s.nodes.isEmpty then (false, s)
    else reserveLoop n k s.evictOldest

def reserve (s : RamFS) (n : Nat) : Bool × RamFS :=
  if s.capacity = 0 then (true, s) else reserveLoop n s.nodes.length s

/-- How much a write makes a file grow, by the sums `write_charging` computes. -/
def growth (before : Nat) (offset : BitVec 64) (bytes : List Byte) : Nat :=
  let endOff := (offset.toNat + bytes.length) % 2 ^ 64
  let after := max before endOff
  after - before

/-- The write itself, once there is room: `node` was looked up before. -/
def writeNode (s : RamFS) (path : Path) (offset : BitVec 64) (bytes : List Byte) (delta : Nat) :
    Except Error Nat × RamFS :=
  match s.find path with
  | none => (.error ⟨.unreachable, ""⟩, { s with undefined := true })
  | some node =>
    match node.write offset.toNat bytes with
    | (.error e, _) =>
      -- rolls back a charge that has not been made yet
      (.error e, { s with bytesUsed := s.bytesUsed - min s.bytesUsed delta })
    | (.ok w, node') =>
      let s := { s.update path (fun _ => node') with
        bytesUsed := (s.bytesUsed + delta) % 2 ^ 64 }
      (.ok w, s.touch path)

def writeCharging (path : Path) (offset : BitVec 64) (bytes : List Byte) :
    FsM RamFS Nat := ⟨fun s =>
  match s.find path with
  | none => (.error ⟨.notFound, "RamFS::write_charging: file not found"⟩, s)
  | some node =>
    let delta := growth node.sizeBytes offset bytes
    let (ok, s) := if delta > 0 then s.reserve delta else (true, s)
    if !ok then (.error ⟨.outOfMemory, "RamFS::write_charging: capacity exhausted"⟩, s)
    else s.writeNode path offset bytes delta⟩

def clear (s : RamFS) : RamFS := { s with nodes := [], bytesUsed := 0 }

inductive Op where
  | open_ (path : Path) (flags : OpenFlags)
  | lookup (path : Path)
  | writeCharging (path : Path) (offset : BitVec 64) (bytes : List Byte)
  | clear

def step (s : RamFS) : Op → RamFS
  | .open_ path flags => ((open_ path flags).run s).2
  | .lookup path => ((lookup path).run s).2
  | .writeCharging path offset bytes => ((writeCharging path offset bytes).run s).2
  | .clear => s.clear

/-- What `bytes_used` should be: the sizes of the files that are there. -/
def total (s : RamFS) : Nat := (s.nodes.map RamVNode.sizeBytes).sum

end RamFS

end NeuroVerse.Fs
