/-
  The in-memory file system as a map from paths to bytes (`fs/memfs.cpp`).

  A caller works on paths and on the VNodes that `lookup` gave it. `pathStep` is the map: one
  byte array per path. `memfs_refines_map`: `MemFS` gives the answers of the map, and a VNode
  stays the node of its path through everything that happens to the file.

  `seen` and `answer` keep of an error its kind.
-/
import NeuroVerse.Fs.MemFS

namespace NeuroVerse.Fs

open NeuroVerse.Lib

inductive FileOp where
  | byPath (op : FsOp)
  | lookup (path : Path)
  | read (v : Path) (offset size : Nat)
  | write (v : Path) (offset : Nat) (buf : List Byte)
  | truncate (v : Path) (size : Nat)

inductive Answer where
  | bytes (d : List Byte)
  | vnode (v : Path)
  | count (n : Nat)
  | done
deriving DecidableEq

def answer {α : Type} (f : α → Answer) : Except Error α → Except ErrorKind Answer
  | .ok a => .ok (f a)
  | .error e => .error e.kind

/-- The path of the file an operation is about. -/
def FsOp.path : FsOp → Path
  | .open_ path _ => path
  | .writeAll path _ => path
  | .append path _ => path
  | .readAll path => path

def FileOp.path : FileOp → Path
  | .byPath op => op.path
  | .lookup path => path
  | .read v _ _ => v
  | .write v _ _ => v
  | .truncate v _ => v

/-- One operation on the in-memory file system. -/
def MemFS.perform (s : MemFS) : FileOp → Except ErrorKind Answer × MemFS
  | .byPath op => (memFS.exec s op).map (Except.map Answer.bytes) id
  | .lookup path => ((memFS.lookup path).run s).map (answer .vnode) id
  | .read v offset size => ((memFS.read v offset size).run s).map (answer .bytes) id
  | .write v offset buf => ((memFS.write v offset buf).run s).map (answer .count) id
  | .truncate v size => ((memFS.truncate v size).run s).map (answer fun _ => .done) id

/-- The same operation on a map from paths to bytes. -/
def pathStep (f : Files) : FileOp → Except ErrorKind Answer × Files
  | .byPath op => (plainStep f op).map (Except.map Answer.bytes) id
  | .lookup path =>
    match f path with
    | none => (.error .notFound, f)
    | some _ => (.ok (.vnode path), f)
  | .read v offset size =>
    match f v with
    | none => (.error .unreachable, f)
    | some d =>
      if offset > d.length then (.error .invalidArgument, f)
      else (.ok (.bytes ((d.drop offset).take size)), f)
  | .write v offset buf =>
    match f v with
    | none => (.error .unreachable, f)
    | some d => (.ok (.count buf.length), Function.update f v (some (spliced d offset buf)))
  | .truncate v size =>
    match f v with
    | none => (.error .unreachable, f)
    | some d => (.ok .done, Function.update f v (some (resize d size)))

theorem plainStep_frame (f : Files) (op : FsOp) {p : Path} (hp : p ≠ op.path) :
    (plainStep f op).2 p = f p := by
  cases op with
  | open_ path flags =>
    unfold plainStep
    dsimp only
    split
    · split
      · exact Function.update_of_ne hp _ _
      · rfl
    · split
      · rfl
      · split
        · exact Function.update_of_ne hp _ _
        · rfl
  | writeAll path bytes => exact Function.update_of_ne hp _ _
  | append path bytes => exact Function.update_of_ne hp _ _
  | readAll path =>
    unfold plainStep
    dsimp only
    split <;> rfl

/-- An operation on one path changes no other path. -/
theorem pathStep_frame (f : Files) (op : FileOp) {p : Path} (hp : p ≠ op.path) :
    (pathStep f op).2 p = f p := by
  cases op with
  | byPath op => exact plainStep_frame f op hp
  | lookup path =>
    unfold pathStep
    dsimp only
    split <;> rfl
  | read v offset size =>
    unfold pathStep
    dsimp only
    split
    · rfl
    · split <;> rfl
  | write v offset buf =>
    unfold pathStep
    dsimp only
    split
    · rfl
    · exact Function.update_of_ne hp _ _
  | truncate v size =>
    unfold pathStep
    dsimp only
    split
    · rfl
    · exact Function.update_of_ne hp _ _

/-- A VNode that is given to the caller is that of a file. -/
theorem pathStep_vnode {f : Files} {op : FileOp} {v : Path}
    (h : (pathStep f op).1 = .ok (.vnode v)) : ∃ d, (pathStep f op).2 v = some d := by
  cases op with
  | byPath op =>
    rw [pathStep] at h
    cases hr : (plainStep f op).1 <;> simp [hr, Except.map] at h
  | lookup path =>
    rw [pathStep] at h ⊢
    cases hf : f path with
    | none => simp [hf] at h
    | some d =>
      simp only [hf, Except.ok.injEq, Answer.vnode.injEq] at h
      exact ⟨d, h ▸ hf⟩
  | read u offset size =>
    rw [pathStep] at h
    revert h
    split
    · nofun
    · split <;> nofun
  | write u offset buf =>
    rw [pathStep] at h
    revert h
    split <;> nofun
  | truncate u size =>
    rw [pathStep] at h
    revert h
    split <;> nofun

namespace MemFS

/-! ## The answers -/

theorem lookup_eq_none {s : MemFS} {path : Path} (h : s.files path = none) :
    s.nodes.lookup path = none :=
  Option.map_eq_none_iff.mp h

/-- The operation answers as the map does, and leaves the files the map says. -/
theorem perform_pathStep (s : MemFS) (op : FileOp) :
    (s.perform op).1 = (pathStep s.files op).1 ∧
      (s.perform op).2.files = (pathStep s.files op).2 := by
  cases op with
  | byPath op =>
    obtain ⟨hr, hs⟩ := exec_memFS s op
    exact ⟨congrArg (Except.map Answer.bytes) hr, hs⟩
  | lookup path =>
    rw [perform, pathStep]
    cases hf : s.files path with
    | none =>
      rw [lookup_none hf]
      exact ⟨rfl, rfl⟩
    | some d =>
      rw [lookup_some hf]
      exact ⟨rfl, rfl⟩
  | read v offset size =>
    rw [perform, pathStep]
    cases hf : s.files v with
    | none =>
      simp only [memFS, readNode, lookup_eq_none hf]
      exact ⟨rfl, rfl⟩
    | some d =>
      obtain ⟨node, hn, rfl⟩ := files_eq_some hf
      have hrun : (memFS.read v offset size).run s = (node.read offset size, s) := readNode_run hn _
      rw [hrun, MemVNode.read]
      dsimp only
      split <;> exact ⟨rfl, rfl⟩
  | write v offset buf =>
    rw [perform, pathStep]
    cases hf : s.files v with
    | none =>
      simp only [memFS, onNode, lookup_eq_none hf]
      exact ⟨rfl, rfl⟩
    | some d =>
      obtain ⟨s', hrun, hfiles⟩ := write_run hf offset buf
      rw [hrun]
      exact ⟨rfl, hfiles⟩
  | truncate v size =>
    rw [perform, pathStep]
    cases hf : s.files v with
    | none =>
      simp only [memFS, onNode, lookup_eq_none hf]
      exact ⟨rfl, rfl⟩
    | some d =>
      obtain ⟨s', hrun, hfiles⟩ := truncate_run hf size
      rw [hrun]
      exact ⟨rfl, hfiles⟩

/-! ## VNodes -/

/-- Every file that is there stays there, with the node it has. -/
def Stays (s t : MemFS) : Prop :=
  ∀ p n, s.nodes.lookup p = some n → ∃ n', t.nodes.lookup p = some n' ∧ n'.handle = n.handle

theorem stays_refl (s : MemFS) : Stays s s := fun _ n hn => ⟨n, hn, rfl⟩

theorem stays_trans (s t u : MemFS) (hst : Stays s t) (htu : Stays t u) : Stays s u := by
  intro p n hn
  obtain ⟨n', hn', hh'⟩ := hst p n hn
  obtain ⟨n'', hn'', hh''⟩ := htu p n' hn'
  exact ⟨n'', hn'', hh''.trans hh'⟩

theorem stays_insert {s : MemFS} {path : Path} {node : MemVNode} (id : BitVec 64)
    (h : ∀ n, s.nodes.lookup path = some n → node.handle = n.handle) :
    Stays s { nodes := s.nodes.insert path node, nextId := id } := by
  intro p n hn
  by_cases hp : p = path
  · subst hp
    exact ⟨node, AList.lookup_insert _, h n hn⟩
  · exact ⟨n, (AList.lookup_insert_ne hp).trans hn, rfl⟩

/-- Each file has an id of its own, as long as there are no more files than ids: the next id is
    one more than the number of files, and `rank` says when a file was created. -/
def Minted (s : MemFS) : Prop :=
  s.nextId = BitVec.ofNat 64 (s.nodes.keys.length + 1) ∧
    ∃ rank : Path → Nat,
      (∀ p n, s.nodes.lookup p = some n →
        rank p < s.nodes.keys.length ∧ n.id = BitVec.ofNat 64 (rank p + 1)) ∧
      ∀ p ∈ s.nodes, ∀ q ∈ s.nodes, rank p = rank q → p = q

theorem length_keys_insert (s : MemFS) (path : Path) (node : MemVNode) :
    (s.nodes.insert path node).keys.length =
      if path ∈ s.nodes then s.nodes.keys.length else s.nodes.keys.length + 1 := by
  rw [AList.keys_insert, List.length_cons]
  split
  · next h =>
    have hpos := List.length_pos_of_mem (AList.mem_keys.mp h)
    rw [List.length_erase_of_mem (AList.mem_keys.mp h)]
    omega
  · next h => rw [List.erase_of_not_mem (fun hk => h (AList.mem_keys.mpr hk))]

/-- A change of the bytes of a file keeps the ids. -/
theorem Minted.replace {s : MemFS} (hs : s.Minted) {path : Path} {n node : MemVNode}
    (hn : s.nodes.lookup path = some n) (hid : node.id = n.id) :
    Minted { s with nodes := s.nodes.insert path node } := by
  obtain ⟨hnext, rank, hrank, hinj⟩ := hs
  have hmem : path ∈ s.nodes := AList.lookup_isSome.mp (Option.isSome_of_mem hn)
  have hlen : (s.nodes.insert path node).keys.length = s.nodes.keys.length := by
    rw [length_keys_insert, if_pos hmem]
  have hsame : ∀ p, p ∈ s.nodes.insert path node → p ∈ s.nodes := fun p hp =>
    (AList.mem_insert s.nodes).mp hp |>.elim (fun h => h ▸ hmem) id
  refine ⟨hnext.trans (by rw [hlen]), rank, fun p m hm => ?_, fun p hp q hq => ?_⟩
  · rw [hlen]
    by_cases hp : p = path
    · subst hp
      rw [AList.lookup_insert] at hm
      rw [← Option.some.inj hm, hid]
      exact hrank p n hn
    · rw [AList.lookup_insert_ne hp] at hm
      exact hrank p m hm
  · exact hinj p (hsame p hp) q (hsame q hq)

/-- A new file gets the next id. -/
theorem Minted.create {s : MemFS} (hs : s.Minted) {path : Path}
    (hn : s.nodes.lookup path = none) :
    Minted { nodes := s.nodes.insert path { id := s.nextId, path := path }
             nextId := s.nextId + 1 } := by
  obtain ⟨hnext, rank, hrank, hinj⟩ := hs
  have hmem : path ∉ s.nodes := AList.lookup_eq_none.mp hn
  have hlen : (s.nodes.insert path { id := s.nextId, path := path }).keys.length =
      s.nodes.keys.length + 1 := by rw [length_keys_insert, if_neg hmem]
  have hold : ∀ p ∈ s.nodes, p ≠ path ∧ rank p < s.nodes.keys.length := by
    intro p hp
    obtain ⟨n, hpn⟩ := Option.isSome_iff_exists.mp (AList.lookup_isSome.mpr hp)
    exact ⟨fun h => hmem (h ▸ hp), (hrank p n hpn).1⟩
  refine ⟨?_, Function.update rank path s.nodes.keys.length, fun p n hpn => ?_, ?_⟩
  · show s.nextId + 1 = _
    rw [hlen, hnext]
    exact (BitVec.ofNat_add (s.nodes.keys.length + 1) 1).symm
  · rw [hlen]
    by_cases hp : p = path
    · subst hp
      rw [AList.lookup_insert] at hpn
      rw [← Option.some.inj hpn, Function.update_self]
      exact ⟨Nat.lt_succ_self _, hnext⟩
    · rw [AList.lookup_insert_ne hp] at hpn
      rw [Function.update_of_ne hp]
      obtain ⟨hlt, hid⟩ := hrank p n hpn
      exact ⟨Nat.lt_succ_of_lt hlt, hid⟩
  · intro p hp q hq heq
    rcases (AList.mem_insert s.nodes).mp hp with hp | hp <;>
      rcases (AList.mem_insert s.nodes).mp hq with hq | hq
    · exact hp.trans hq.symm
    · obtain ⟨hne, hlt⟩ := hold q hq
      rw [hp, Function.update_self, Function.update_of_ne hne] at heq
      omega
    · obtain ⟨hne, hlt⟩ := hold p hp
      rw [hq, Function.update_self, Function.update_of_ne hne] at heq
      omega
    · rw [Function.update_of_ne (hold p hp).1, Function.update_of_ne (hold q hq).1] at heq
      exact hinj p hp q hq heq

theorem Minted.distinct {s : MemFS} (hs : s.Minted) (hfit : s.nodes.keys.length ≤ 2 ^ 64)
    {p q : Path} {n m : MemVNode} (hp : s.nodes.lookup p = some n)
    (hq : s.nodes.lookup q = some m) (hid : n.id = m.id) : p = q := by
  obtain ⟨-, rank, hrank, hinj⟩ := hs
  obtain ⟨hltp, hidp⟩ := hrank p n hp
  obtain ⟨hltq, hidq⟩ := hrank q m hq
  refine hinj p (AList.lookup_isSome.mp (Option.isSome_of_mem hp)) q
    (AList.lookup_isSome.mp (Option.isSome_of_mem hq)) ?_
  have hnat := congrArg BitVec.toNat (hidp.symm.trans (hid.trans hidq))
  rw [BitVec.toNat_ofNat, BitVec.toNat_ofNat] at hnat
  omega

/-! ## What every operation keeps -/

/-- A relation that creating a file and changing the bytes of a file keep holds between the
    states before and after every function of the file system. -/
theorem memFS_within {R : MemFS → MemFS → Prop} (hrefl : ∀ s, R s s)
    (htrans : ∀ s t u, R s t → R t u → R s u)
    (hcreate : ∀ s path, s.nodes.lookup path = none →
      R s { nodes := s.nodes.insert path { id := s.nextId, path := path }
            nextId := s.nextId + 1 })
    (hchange : ∀ s path n node, s.nodes.lookup path = some n → node.handle = n.handle →
      R s { s with nodes := s.nodes.insert path node }) : memFS.Within R := by
  have hread : ∀ {α : Type} (v : Path) (f : MemVNode → Except Error α),
      (readNode v f).Moves R := by
    intro α v f s
    rw [readNode_state]
    exact hrefl s
  have hon : ∀ {α : Type} (v : Path) (f : MemVNode → Except Error α × MemVNode),
      (∀ n, (f n).2.handle = n.handle) → (onNode v f).Moves R := by
    intro α v f hf s
    cases hn : s.nodes.lookup v with
    | none =>
      rw [onNode_missing (Option.map_eq_none_iff.mpr hn)]
      exact hrefl s
    | some n =>
      rw [onNode_run hn]
      exact hchange s v n _ hn (hf n)
  refine ⟨hrefl, htrans, fun path s => ?_, fun path flags s => ?_, fun v _ _ => hread v _,
    fun v _ _ => hon v _ fun _ => rfl, fun v _ => hon v _ fun _ => rfl, fun v => hread v _⟩
  · show R s ((lookup path).run s).2
    unfold lookup
    dsimp only
    split <;> exact hrefl s
  · cases hn : s.nodes.lookup path with
    | none =>
      rw [open_missing (Option.map_eq_none_iff.mpr hn)]
      split
      · exact hrefl s
      · exact hcreate s path hn
    | some n =>
      rw [open_existing hn]
      split
      · exact hrefl s
      · refine hchange s path n _ hn ?_
        split <;> rfl

theorem perform_within {R : MemFS → MemFS → Prop} (h : memFS.Within R) (s : MemFS)
    (op : FileOp) : R s (s.perform op).2 := by
  cases op with
  | byPath op => exact h.exec s op
  | lookup path => exact h.lookup path s
  | read v offset size => exact h.read v offset size s
  | write v offset buf => exact h.write v offset buf s
  | truncate v size => exact h.truncate v size s

theorem perform_stays (s : MemFS) (op : FileOp) : Stays s (s.perform op).2 :=
  perform_within (memFS_within stays_refl stays_trans
    (fun s path hn => stays_insert _ fun n hn' => by rw [hn] at hn'; cases hn')
    (fun s path n node hn hh => stays_insert _ fun n' hn' => by
      rw [← Option.some.inj (hn.symm.trans hn')]; exact hh)) s op

theorem perform_minted {s : MemFS} (hs : s.Minted) (op : FileOp) : (s.perform op).2.Minted :=
  perform_within (R := fun s t => s.Minted → t.Minted)
    (memFS_within (fun _ hs => hs) (fun _ _ _ hst htu hs => htu (hst hs))
      (fun _ _ hn hs => hs.create hn)
      (fun _ _ _ _ hn hh hs => hs.replace hn (congrArg VNodeHandle.id hh))) s op hs

theorem empty_minted : Minted {} := by
  refine ⟨rfl, fun _ => 0, fun p n hn => ?_, fun p hp => ?_⟩
  · rw [AList.lookup_empty] at hn
    cases hn
  · exact absurd hp (AList.notMem_empty p)

theorem finalState_stays (s : MemFS) (ops : List FileOp) :
    Stays s (finalState perform s ops) :=
  run_invariant (stays_refl s) (fun t op h => stays_trans s t _ h (perform_stays t op)) ops

theorem finalState_minted (ops : List FileOp) : (finalState perform {} ops).Minted :=
  run_invariant empty_minted (fun _ op hs => perform_minted hs op) ops

/-- A VNode that was looked up in a run is the node of its path. -/
theorem vnode_there {s : MemFS} {ops : List FileOp} {v : Path}
    (h : .ok (.vnode v) ∈ results perform s ops) :
    ∃ n, (finalState perform s ops).nodes.lookup v = some n := by
  induction ops generalizing s with
  | nil => cases h
  | cons op ops ih =>
    rcases List.mem_cons.mp h with h | h
    · have hmap : (pathStep s.files op).1 = .ok (.vnode v) := by
        rw [← (perform_pathStep s op).1, ← h]
      obtain ⟨d, hd⟩ := pathStep_vnode hmap
      rw [← (perform_pathStep s op).2] at hd
      obtain ⟨n, hn, -⟩ := files_eq_some hd
      obtain ⟨n', hn', -⟩ := finalState_stays (s.perform op).2 ops v n hn
      exact ⟨n', hn'⟩
    · exact ih h

/-! ## The run as a whole -/

theorem open_error {s : MemFS} {path : Path} {flags : OpenFlags} {e : Error}
    (h : ((memFS.open_ path flags).run s).1 = .error e) :
    ((memFS.open_ path flags).run s).2 = s := by
  cases hn : s.nodes.lookup path with
  | none =>
    rw [open_missing (Option.map_eq_none_iff.mpr hn)] at h ⊢
    split at h
    · next hc => rw [if_pos hc]
    · cases h
  | some n =>
    rw [open_existing hn] at h ⊢
    split at h
    · next hx => rw [if_pos hx]
    · cases h

theorem handle_node {s : MemFS} {p : Path} {n : MemVNode} (hn : s.nodes.lookup p = some n) :
    ((memFS.handle p).run s).1 = .ok n.handle :=
  congrArg Prod.fst (readNode_run hn _)

/-- The file handle names the node of the path. -/
theorem open_ok {s : MemFS} {path : Path} {flags : OpenFlags} {fh : FileHandle}
    (h : ((memFS.open_ path flags).run s).1 = .ok fh) :
    fh.path = path ∧ fh.flags = flags ∧
      ((memFS.handle path).run ((memFS.open_ path flags).run s).2).1 = .ok fh.vnode := by
  cases hn : s.nodes.lookup path with
  | none =>
    rw [open_missing (Option.map_eq_none_iff.mpr hn)] at h ⊢
    split at h
    · cases h
    · next hc =>
      rw [if_neg hc, ← Except.ok.inj h]
      have hnew : (s.nodes.insert path { id := s.nextId, path := path }).lookup path =
          some { id := s.nextId, path := path } := AList.lookup_insert _
      exact ⟨rfl, rfl, congrArg Prod.fst (readNode_run (s := { nodes := _, nextId := _ }) hnew _)⟩
  | some n =>
    rw [open_existing hn] at h ⊢
    split at h
    · cases h
    · next hx =>
      rw [if_neg hx, ← Except.ok.inj h]
      exact ⟨rfl, rfl, handle_node (AList.lookup_insert s.nodes)⟩

theorem handle_eq {s : MemFS} {p : Path} {h : VNodeHandle}
    (hh : ((memFS.handle p).run s).1 = .ok h) :
    ∃ n, s.nodes.lookup p = some n ∧ n.handle = h := by
  cases hn : s.nodes.lookup p with
  | none => simp [memFS, readNode, hn] at hh
  | some n => exact ⟨n, rfl, Except.ok.inj ((handle_node hn).symm.trans hh)⟩

/-- What the file system promises after the operations `ops`. -/
structure RefinesMap (ops : List FileOp) : Prop where
  answers : results perform {} ops = results pathStep (fun _ => none) ops
  files : (finalState perform {} ops).files = finalState pathStep (fun _ => none) ops
  frame : ∀ op p, p ≠ op.path →
    ((finalState perform {} ops).perform op).2.files p = (finalState perform {} ops).files p
  openFails : ∀ path flags e,
    ((memFS.open_ path flags).run (finalState perform {} ops)).1 = .error e →
    ((memFS.open_ path flags).run (finalState perform {} ops)).2 = finalState perform {} ops
  opens : ∀ path flags fh,
    ((memFS.open_ path flags).run (finalState perform {} ops)).1 = .ok fh →
    fh.path = path ∧ fh.flags = flags ∧
      ((memFS.handle path).run
        ((memFS.open_ path flags).run (finalState perform {} ops)).2).1 = .ok fh.vnode
  vnodes : ∀ pre, pre <+: ops → ∀ v, .ok (.vnode v) ∈ results perform {} pre →
    ∃ h, ((memFS.handle v).run (finalState perform {} pre)).1 = .ok h ∧
      ((memFS.handle v).run (finalState perform {} ops)).1 = .ok h
  distinct : ∀ p q hp hq, ((memFS.handle p).run (finalState perform {} ops)).1 = .ok hp →
    ((memFS.handle q).run (finalState perform {} ops)).1 = .ok hq → hp.id = hq.id → p = q

/-- The in-memory file system is a map from paths to bytes, and the files have VNodes of their
    own, which stay what they are. -/
theorem memfs_refines_map (ops : List FileOp)
    (hfit : (finalState perform {} ops).nodes.keys.length ≤ 2 ^ 64) : RefinesMap ops := by
  have hempty : files {} = fun _ => none := by
    funext p
    rw [files, AList.lookup_empty]
    rfl
  have hsim := simulation perform pathStep files perform_pathStep {} ops
  rw [hempty] at hsim
  refine ⟨hsim.1, hsim.2, fun op p hp => ?_, fun _ _ _ => open_error, fun _ _ _ => open_ok,
    fun pre hpre v hv => ?_, fun p q hp hq hhp hhq hid => ?_⟩
  · rw [(perform_pathStep _ op).2]
    exact pathStep_frame _ op hp
  · obtain ⟨post, rfl⟩ := hpre
    obtain ⟨n, hn⟩ := vnode_there hv
    obtain ⟨n', hn', hsame⟩ := finalState_stays (finalState perform {} pre) post v n hn
    refine ⟨n.handle, handle_node hn, ?_⟩
    rw [finalState_append, ← hsame]
    exact handle_node hn'
  · obtain ⟨n, hn, rfl⟩ := handle_eq hhp
    obtain ⟨m, hm, rfl⟩ := handle_eq hhq
    exact (finalState_minted ops).distinct hfit hn hm hid

/-- A write past the end of a file that was truncated after its VNode was looked up. -/
theorem memfs_refines_map_sparse :
    RefinesMap [.byPath (.writeAll "a" [1, 2]), .lookup "a",
      .byPath (.open_ "a" (OpenFlags.write ||| OpenFlags.truncate)), .write "a" 3 [9],
      .read "a" 1 8] :=
  memfs_refines_map _ (by decide)

end MemFS

end NeuroVerse.Fs
