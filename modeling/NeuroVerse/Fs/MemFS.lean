/-
  The in-memory file system (`fs/memfs.cpp`).

  `MemFS` maps paths to nodes. A node is created once for its path and never dropped, so a
  VNode pointer is named by the path of its node. `Files` is what the file system is about, the
  bytes under each path, and `plainStep` says what an operation by path does to them;
  `exec_memFS` connects the two.
-/
import NeuroVerse.Fs.Vfs
import NeuroVerse.Lib.Run
import Mathlib.Data.List.AList

namespace NeuroVerse.Fs

open NeuroVerse.Lib

/-- `std::vector::resize` for bytes: drops the tail or adds zeros. -/
def resize (data : List Byte) (size : Nat) : List Byte :=
  data.take size ++ List.replicate (size - data.length) 0

structure MemVNode where
  id : BitVec 64
  gen : BitVec 64 := 1
  path : Path
  data : List Byte := []

namespace MemVNode

def read (n : MemVNode) (offset size : Nat) : Except Error (List Byte) :=
  if offset > n.data.length then
    .error ⟨.invalidArgument, "MemVNode::read: offset past EOF"⟩
  else .ok ((n.data.drop offset).take size)

def write (n : MemVNode) (offset : Nat) (buf : List Byte) : MemVNode :=
  let data := if offset > n.data.length then resize n.data offset else n.data
  let data :=
    if offset + buf.length > data.length then resize data (offset + buf.length) else data
  { n with data := data.take offset ++ buf ++ data.drop (offset + buf.length) }

def truncate (n : MemVNode) (size : Nat) : MemVNode := { n with data := resize n.data size }

def stat (n : MemVNode) : Stat := { type := .regular, size := n.data.length, gen := n.gen }

def handle (n : MemVNode) : VNodeHandle := { id := n.id, gen := n.gen }

end MemVNode

structure MemFS where
  nodes : AList fun _ : Path => MemVNode := ∅
  nextId : BitVec 64 := 1

namespace MemFS

def lookup (path : Path) : FsM MemFS Path := ⟨fun s =>
  if path ∈ s.nodes then (.ok path, s)
  else (.error ⟨.notFound, "MemFS::lookup: path not found"⟩, s)⟩

def open_ (path : Path) (flags : OpenFlags) : FsM MemFS FileHandle := ⟨fun s =>
  match s.nodes.lookup path with
  | none =>
    if !flags.has OpenFlags.create then
      (.error ⟨.notFound, "MemFS::open: path not found and Create not set"⟩, s)
    else
      let node : MemVNode := { id := s.nextId, path := path }
      (.ok ⟨path, flags, node.handle⟩,
        { nodes := s.nodes.insert path node, nextId := s.nextId + 1 })
  | some node =>
    if flags.has OpenFlags.exclusive && flags.has OpenFlags.create then
      (.error ⟨.invalidArgument, "MemFS::open: Exclusive and Create on existing file"⟩, s)
    else
      let node := if flags.has OpenFlags.truncate then node.truncate 0 else node
      (.ok ⟨path, flags, node.handle⟩, { s with nodes := s.nodes.insert path node })⟩

/-- Runs a member function on the node a pointer names. No pointer of a `MemFS` dangles. -/
def onNode {α : Type} (v : Path) (f : MemVNode → Except Error α × MemVNode) :
    FsM MemFS α := ⟨fun s =>
  match s.nodes.lookup v with
  | none => (.error ⟨.unreachable, ""⟩, s)
  | some node => ((f node).1, { s with nodes := s.nodes.insert v (f node).2 })⟩

/-- Runs a member function that leaves the node as it is. -/
def readNode {α : Type} (v : Path) (f : MemVNode → Except Error α) : FsM MemFS α := ⟨fun s =>
  match s.nodes.lookup v with
  | none => (.error ⟨.unreachable, ""⟩, s)
  | some node => (f node, s)⟩

end MemFS

def memFS : VFS MemFS Path where
  lookup := MemFS.lookup
  open_ := MemFS.open_
  handle v := MemFS.readNode v fun n => .ok n.handle
  read v offset size := MemFS.readNode v fun n => n.read offset size
  write v offset buf := MemFS.onNode v fun n => (.ok buf.length, n.write offset buf)
  truncate v size := MemFS.onNode v fun n => (.ok (), n.truncate size)
  stat v := MemFS.readNode v fun n => .ok n.stat

/-! ## Bytes -/

/-- The bytes of `data` after writing `buf` at `offset`. -/
def spliced (data : List Byte) (offset : Nat) (buf : List Byte) : List Byte :=
  resize (data.take offset) offset ++ buf ++ data.drop (offset + buf.length)

theorem resize_length (data : List Byte) (size : Nat) : (resize data size).length = size := by
  rw [resize, List.length_append, List.length_take, List.length_replicate]
  omega

theorem resize_self (data : List Byte) : resize data data.length = data := by
  rw [resize, List.take_length, Nat.sub_self, List.replicate_zero, List.append_nil]

theorem resize_zero (data : List Byte) : resize data 0 = [] := by
  simp [resize]

theorem resize_eq_self_iff (data : List Byte) (size : Nat) :
    resize data size = data ↔ size = data.length := by
  constructor
  · intro h
    rw [← resize_length data size, h]
  · rintro rfl
    exact resize_self data

/-- Growing keeps what stands at the front. -/
theorem take_resize {data : List Byte} {size k : Nat} (hk : k ≤ data.length)
    (hs : data.length ≤ size) : (resize data size).take k = data.take k := by
  rw [resize, List.take_of_length_le hs, List.take_append_of_le_length hk]

/-- Growing a file to the end of what is written changes nothing else. -/
theorem splice_resize {data : List Byte} {offset : Nat} (buf : List Byte)
    (h : offset ≤ data.length) :
    (let data := if offset + buf.length > data.length then resize data (offset + buf.length)
      else data
    data.take offset ++ buf ++ data.drop (offset + buf.length)) =
      data.take offset ++ buf ++ data.drop (offset + buf.length) := by
  dsimp only
  split
  · rename_i hlt
    rw [take_resize h (by omega), List.drop_eq_nil_of_le (by rw [resize_length]),
      List.drop_eq_nil_of_le (by omega)]
  · rfl

theorem write_data (n : MemVNode) (offset : Nat) (buf : List Byte) :
    (n.write offset buf).data = spliced n.data offset buf := by
  show (let data := if offset > n.data.length then resize n.data offset else n.data
    let data := if offset + buf.length > data.length then resize data (offset + buf.length)
      else data
    data.take offset ++ buf ++ data.drop (offset + buf.length)) = _
  unfold spliced
  by_cases hgt : offset > n.data.length
  · have hlen := resize_length n.data offset
    simp only [if_pos hgt]
    rw [splice_resize buf (by omega), List.take_of_length_le (by omega),
      List.drop_eq_nil_of_le (by omega), List.take_of_length_le (by omega),
      List.drop_eq_nil_of_le (by omega)]
  · have hlen : (n.data.take offset).length = offset := by rw [List.length_take]; omega
    have hself := resize_self (n.data.take offset)
    rw [hlen] at hself
    simp only [if_neg hgt]
    rw [splice_resize buf (by omega), hself]

theorem length_spliced (data : List Byte) (offset : Nat) (buf : List Byte) :
    (spliced data offset buf).length = max data.length (offset + buf.length) := by
  rw [spliced, List.length_append, List.length_append, resize_length, List.length_drop]
  omega

theorem spliced_zero (data buf : List Byte) : spliced data 0 buf = buf ++ data.drop buf.length := by
  simp [spliced, resize]

theorem spliced_end (data buf : List Byte) : spliced data data.length buf = data ++ buf := by
  rw [spliced, List.take_length, resize_self, List.drop_eq_nil_of_le (by omega), List.append_nil]

/-- A write leaves the bytes as they are exactly when it writes the bytes that stand there. -/
theorem spliced_eq_self_iff (data : List Byte) (offset : Nat) (buf : List Byte) :
    spliced data offset buf = data ↔
      offset + buf.length ≤ data.length ∧ (data.drop offset).take buf.length = buf := by
  have hlen := resize_length (data.take offset) offset
  constructor
  · intro h
    have hsum := congrArg List.length h
    simp only [spliced, List.length_append, List.length_drop, hlen] at hsum
    refine ⟨by omega, ?_⟩
    conv => lhs; rw [← h]
    rw [spliced, List.append_assoc, List.drop_left' hlen, List.take_left' rfl]
  · rintro ⟨hle, hbuf⟩
    have hoff : (data.take offset).length = offset := by rw [List.length_take]; omega
    have hself := resize_self (data.take offset)
    rw [hoff] at hself
    have hdrop : data.drop (offset + buf.length) = (data.drop offset).drop buf.length := by
      rw [List.drop_drop]
    calc spliced data offset buf
        = data.take offset ++ ((data.drop offset).take buf.length ++
            (data.drop offset).drop buf.length) := by
          rw [spliced, hself, hbuf, hdrop, List.append_assoc]
      _ = data := by rw [List.take_append_drop, List.take_append_drop]

/-! ## Files -/

/-- The bytes under each path. -/
abbrev Files := Path → Option (List Byte)

namespace MemFS

def files (s : MemFS) : Files := fun path => (s.nodes.lookup path).map MemVNode.data

theorem files_eq_none {s : MemFS} {path : Path} : s.files path = none ↔ path ∉ s.nodes := by
  rw [files, Option.map_eq_none_iff, AList.lookup_eq_none]

theorem files_insert (s : MemFS) (path : Path) (node : MemVNode) (id : BitVec 64) :
    files { nodes := s.nodes.insert path node, nextId := id } =
      Function.update s.files path (some node.data) := by
  funext p
  unfold files
  by_cases h : p = path
  · subst h
    rw [AList.lookup_insert, Function.update_self]
    rfl
  · rw [AList.lookup_insert_ne h, Function.update_of_ne h]

theorem files_eq_some {s : MemFS} {path : Path} {d : List Byte} (h : s.files path = some d) :
    ∃ node, s.nodes.lookup path = some node ∧ node.data = d :=
  Option.map_eq_some_iff.mp h

theorem lookup_some {s : MemFS} {path : Path} {d : List Byte} (h : s.files path = some d) :
    (memFS.lookup path).run s = (.ok path, s) := by
  have hmem : path ∈ s.nodes := by
    by_contra hn
    rw [files_eq_none.mpr hn] at h
    cases h
  exact if_pos hmem

theorem lookup_none {s : MemFS} {path : Path} (h : s.files path = none) :
    (memFS.lookup path).run s = (.error ⟨.notFound, "MemFS::lookup: path not found"⟩, s) :=
  if_neg (files_eq_none.mp h)

/-! ### One call -/

theorem open_missing {s : MemFS} {path : Path} (hf : s.files path = none) (flags : OpenFlags) :
    (memFS.open_ path flags).run s =
      if !flags.has OpenFlags.create then
        (.error ⟨.notFound, "MemFS::open: path not found and Create not set"⟩, s)
      else
        (.ok ⟨path, flags, { id := s.nextId, gen := 1 }⟩,
          { nodes := s.nodes.insert path { id := s.nextId, path := path }
            nextId := s.nextId + 1 }) := by
  have hn : s.nodes.lookup path = none := Option.map_eq_none_iff.mp hf
  show (open_ path flags).run s = _
  simp only [open_, hn]
  rfl

theorem open_existing {s : MemFS} {path : Path} {node : MemVNode}
    (hn : s.nodes.lookup path = some node) (flags : OpenFlags) :
    (memFS.open_ path flags).run s =
      if flags.has OpenFlags.exclusive && flags.has OpenFlags.create then
        (.error ⟨.invalidArgument, "MemFS::open: Exclusive and Create on existing file"⟩, s)
      else
        let node := if flags.has OpenFlags.truncate then node.truncate 0 else node
        (.ok ⟨path, flags, node.handle⟩, { s with nodes := s.nodes.insert path node }) := by
  show (open_ path flags).run s = _
  simp only [open_, hn]

/-- Opening a missing path with `Create` succeeds and leaves an empty file. -/
theorem open_new {s : MemFS} {path : Path} (hf : s.files path = none) {flags : OpenFlags}
    (hc : flags.has OpenFlags.create = true) :
    ∃ fh s', (memFS.open_ path flags).run s = (.ok fh, s') ∧
      s'.files = Function.update s.files path (some []) := by
  rw [open_missing hf, hc]
  exact ⟨_, _, rfl, files_insert _ _ _ _⟩

/-- Opening with `Create` and without `Exclusive` succeeds and leaves a file. -/
theorem open_create (s : MemFS) (path : Path) (flags : OpenFlags)
    (hc : flags.has OpenFlags.create = true) (hx : flags.has OpenFlags.exclusive = false) :
    ∃ fh s', (memFS.open_ path flags).run s = (.ok fh, s') ∧
      s'.files = Function.update s.files path
        (some (if flags.has OpenFlags.truncate then [] else (s.files path).getD [])) := by
  cases hf : s.files path with
  | none =>
    rw [Option.getD_none, ite_self]
    exact open_new hf hc
  | some d =>
    obtain ⟨node, hn, rfl⟩ := files_eq_some hf
    rw [open_existing hn, hx]
    refine ⟨_, _, rfl, (files_insert _ _ _ _).trans ?_⟩
    split
    · simp [MemVNode.truncate, resize_zero]
    · rfl

theorem readNode_run {α : Type} {s : MemFS} {path : Path} {node : MemVNode}
    (hn : s.nodes.lookup path = some node) (f : MemVNode → Except Error α) :
    (readNode path f).run s = (f node, s) := by
  simp only [readNode, hn]

theorem onNode_run {α : Type} {s : MemFS} {path : Path} {node : MemVNode}
    (hn : s.nodes.lookup path = some node) (f : MemVNode → Except Error α × MemVNode) :
    (onNode path f).run s =
      ((f node).1, { s with nodes := s.nodes.insert path (f node).2 }) := by
  simp only [onNode, hn]

theorem readNode_state {α : Type} (s : MemFS) (path : Path) (f : MemVNode → Except Error α) :
    ((readNode path f).run s).2 = s := by
  unfold readNode
  dsimp only
  split <;> rfl

theorem onNode_missing {α : Type} {s : MemFS} {path : Path} (h : s.files path = none)
    (f : MemVNode → Except Error α × MemVNode) : ((onNode path f).run s).2 = s := by
  have hn : s.nodes.lookup path = none := Option.map_eq_none_iff.mp h
  simp only [onNode, hn]

theorem handle_run {s : MemFS} {path : Path} {d : List Byte} (h : s.files path = some d) :
    ∃ vh, (memFS.handle path).run s = (.ok vh, s) := by
  obtain ⟨node, hn, -⟩ := files_eq_some h
  exact ⟨node.handle, readNode_run hn _⟩

theorem stat_run {s : MemFS} {path : Path} {d : List Byte} (h : s.files path = some d) :
    ∃ st : Stat, (memFS.stat path).run s = (.ok st, s) ∧ st.size = d.length := by
  obtain ⟨node, hn, rfl⟩ := files_eq_some h
  exact ⟨node.stat, readNode_run hn _, rfl⟩

theorem read_run {s : MemFS} {path : Path} {d : List Byte} (h : s.files path = some d)
    {offset : Nat} (ho : offset ≤ d.length) (size : Nat) :
    (memFS.read path offset size).run s = (.ok ((d.drop offset).take size), s) := by
  obtain ⟨node, hn, rfl⟩ := files_eq_some h
  refine (readNode_run hn _).trans ?_
  rw [MemVNode.read, if_neg (by omega)]

theorem write_run {s : MemFS} {path : Path} {d : List Byte} (h : s.files path = some d)
    (offset : Nat) (buf : List Byte) :
    ∃ s', (memFS.write path offset buf).run s = (.ok buf.length, s') ∧
      s'.files = Function.update s.files path (some (spliced d offset buf)) := by
  obtain ⟨node, hn, rfl⟩ := files_eq_some h
  refine ⟨_, onNode_run hn _, ?_⟩
  rw [files_insert, write_data]

theorem truncate_run {s : MemFS} {path : Path} {d : List Byte} (h : s.files path = some d)
    (size : Nat) :
    ∃ s', (memFS.truncate path size).run s = (.ok (), s') ∧
      s'.files = Function.update s.files path (some (resize d size)) := by
  obtain ⟨node, hn, rfl⟩ := files_eq_some h
  refine ⟨_, onNode_run hn _, ?_⟩
  rw [files_insert]
  rfl

/-- Reading the length of the file gives the file. -/
theorem read_whole {s : MemFS} {path : Path} {d : List Byte} (h : s.files path = some d) :
    (memFS.read path 0 d.length).run s = (.ok d, s) := by
  have hread := read_run h (Nat.zero_le _) d.length
  rwa [List.drop_zero, List.take_length] at hread

theorem readAll_run {s : MemFS} {path : Path} {d : List Byte} (h : s.files path = some d) :
    (memFS.readAll path).run s = (.ok d, s) := by
  obtain ⟨st, hst, hsize⟩ := stat_run h
  exact VFS.readAll_whole (lookup_some h) hst hsize (read_whole h)

end MemFS

/-! ## Operations by path -/

/-- What an operation by path does to the files. -/
def plainStep (f : Files) : FsOp → Seen × Files
  | .open_ path flags =>
    match f path with
    | none =>
      if flags.has OpenFlags.create then (.ok [], Function.update f path (some []))
      else (.error .notFound, f)
    | some _ =>
      if flags.has OpenFlags.exclusive && flags.has OpenFlags.create then
        (.error .invalidArgument, f)
      else if flags.has OpenFlags.truncate then (.ok [], Function.update f path (some []))
      else (.ok [], f)
  | .writeAll path bytes => (.ok [], Function.update f path (some bytes))
  | .append path bytes => (.ok [], Function.update f path (some ((f path).getD [] ++ bytes)))
  | .readAll path =>
    match f path with
    | none => (.error .notFound, f)
    | some d => (.ok d, f)

namespace MemFS

/-- The operation ends as `plainStep` says, and leaves the files it says. -/
def ActsPlain (s : MemFS) (op : FsOp) : Prop :=
  (memFS.exec s op).1 = (plainStep s.files op).1 ∧
    (memFS.exec s op).2.files = (plainStep s.files op).2

theorem exec_open (s : MemFS) (path : Path) (flags : OpenFlags) :
    ActsPlain s (.open_ path flags) := by
  rw [ActsPlain, VFS.exec, plainStep]
  cases hf : s.files path with
  | none =>
    rw [open_missing hf]
    cases flags.has OpenFlags.create
    · exact ⟨rfl, rfl⟩
    · exact ⟨rfl, files_insert _ _ _ _⟩
  | some d =>
    obtain ⟨node, hn, rfl⟩ := files_eq_some hf
    have hself : Function.update s.files path (some node.data) = s.files := by
      rw [← hf, Function.update_eq_self]
    rw [open_existing hn]
    cases flags.has OpenFlags.exclusive && flags.has OpenFlags.create
    · cases flags.has OpenFlags.truncate
      · exact ⟨rfl, (files_insert _ _ _ _).trans hself⟩
      · refine ⟨rfl, (files_insert _ _ _ _).trans ?_⟩
        simp [MemVNode.truncate, resize_zero]
    · exact ⟨rfl, rfl⟩

theorem exec_writeAll (s : MemFS) (path : Path) (bytes : List Byte) :
    ActsPlain s (.writeAll path bytes) := by
  obtain ⟨fh, s₁, hopen, hf₁⟩ := open_create s path
    (OpenFlags.write ||| OpenFlags.create ||| OpenFlags.truncate) rfl rfl
  have hpath : s₁.files path = some [] := by rw [hf₁, Function.update_self]; rfl
  obtain ⟨s₂, hwrite, hf₂⟩ := write_run hpath 0 bytes
  have hrun : (memFS.writeAll path bytes).run s = (.ok (), s₂) := by
    unfold VFS.writeAll
    rw [ErrorState.bind_ok hopen, ErrorState.bind_ok (lookup_some hpath),
      ErrorState.bind_ok hwrite]
    rfl
  rw [ActsPlain, VFS.exec, hrun]
  refine ⟨rfl, ?_⟩
  show s₂.files = Function.update s.files path (some bytes)
  rw [hf₂, hf₁, Function.update_idem, spliced_zero, List.drop_nil, List.append_nil]

theorem exec_append (s : MemFS) (path : Path) (bytes : List Byte) :
    ActsPlain s (.append path bytes) := by
  obtain ⟨fh, s₁, hopen, hf₁⟩ := open_create s path
    (OpenFlags.write ||| OpenFlags.create) rfl rfl
  have hpath : s₁.files path = some ((s.files path).getD []) := by
    rw [hf₁, Function.update_self]; rfl
  obtain ⟨st, hstat, hsize⟩ := stat_run hpath
  obtain ⟨s₂, hwrite, hf₂⟩ := write_run hpath st.size bytes
  have hrun : (memFS.append path bytes).run s = (.ok (), s₂) := by
    unfold VFS.append
    rw [ErrorState.bind_ok hopen, ErrorState.bind_ok (lookup_some hpath),
      ErrorState.bind_ok hstat, ErrorState.bind_ok hwrite]
    rfl
  rw [ActsPlain, VFS.exec, hrun]
  refine ⟨rfl, ?_⟩
  show s₂.files = Function.update s.files path (some ((s.files path).getD [] ++ bytes))
  rw [hf₂, hf₁, Function.update_idem, hsize, spliced_end]

theorem exec_readAll (s : MemFS) (path : Path) : ActsPlain s (.readAll path) := by
  rw [ActsPlain, VFS.exec, plainStep]
  cases hf : s.files path with
  | none =>
    have hrun : (memFS.readAll path).run s =
        (.error ⟨.notFound, "MemFS::lookup: path not found"⟩, s) := by
      unfold VFS.readAll
      rw [ErrorState.bind_error (lookup_none hf)]
    rw [hrun]
    exact ⟨rfl, rfl⟩
  | some d =>
    rw [readAll_run hf]
    exact ⟨rfl, rfl⟩

/-- The in-memory file system does to its files what `plainStep` says. -/
theorem exec_memFS (s : MemFS) (op : FsOp) :
    (memFS.exec s op).1 = (plainStep s.files op).1 ∧
      (memFS.exec s op).2.files = (plainStep s.files op).2 := by
  cases op with
  | open_ path flags => exact exec_open s path flags
  | writeAll path bytes => exact exec_writeAll s path bytes
  | append path bytes => exact exec_append s path bytes
  | readAll path => exact exec_readAll s path

end MemFS

end NeuroVerse.Fs
