/-
  Clients that append to one file of the in-memory file system at the same time
  (`VFS::append` in `fs/vfs.hpp`).

  `append` calls `open`, `lookup`, `stat` and `write`, and each of these takes and releases a lock
  of its own. So the calls of several clients interleave (`append_run_alone` connects the small
  steps with `VFS.append`), and two clients that see the same size write to the same place.
  `appends_kept_iff`: nothing is lost exactly when every write lands at the size its client has
  seen.
-/
import NeuroVerse.Fs.MemFS
import NeuroVerse.Lib.Threads

namespace NeuroVerse.Fs

open NeuroVerse.Lib

/-! ## One append in small steps -/

/-- The places of `append`. -/
inductive AppendPc (ν : Type) where
  | open_
  | lookup
  | stat (v : ν)
  | write (v : ν) (offset : Nat)
deriving DecidableEq

namespace VFS

variable {σ ν : Type} (F : VFS σ ν)

/-- One locked step of `append`: where it goes on, or what it returns. -/
def appendStep (path : Path) (bytes : List Byte) (s : σ) :
    AppendPc ν → (Except Error Unit ⊕ AppendPc ν) × σ
  | .open_ =>
    match (F.open_ path (OpenFlags.write ||| OpenFlags.create)).run s with
    | (.ok _, s) => (.inr .lookup, s)
    | (.error e, s) => (.inl (.error e), s)
  | .lookup =>
    match (F.lookup path).run s with
    | (.ok v, s) => (.inr (.stat v), s)
    | (.error e, s) => (.inl (.error e), s)
  | .stat v =>
    match (F.stat v).run s with
    | (.ok st, s) => (.inr (.write v st.size), s)
    | (.error e, s) => (.inl (.error e), s)
  | .write v offset =>
    match (F.write v offset bytes).run s with
    | (.ok _, s) => (.inl (.ok ()), s)
    | (.error e, s) => (.inl (.error e), s)

/-- The steps of an append that nothing comes between. -/
def appendAlone (path : Path) (bytes : List Byte) :
    Nat → σ → AppendPc ν → Option (Except Error Unit) × σ
  | 0, s, _ => (none, s)
  | fuel + 1, s, pc =>
    match F.appendStep path bytes s pc with
    | (.inl r, s) => (some r, s)
    | (.inr pc, s) => appendAlone path bytes fuel s pc

/-- A step that makes one call and hands on what it gives. -/
theorem appendAlone_bind {α : Type} {path : Path} {bytes : List Byte} {x : FsM σ α}
    {f : α → FsM σ Unit} {pc : AppendPc ν} {fuel : Nat} (next : α → AppendPc ν)
    (hok : ∀ s a s', x.run s = (.ok a, s') → F.appendStep path bytes s pc = (.inr (next a), s'))
    (herr : ∀ s e s', x.run s = (.error e, s') →
      F.appendStep path bytes s pc = (.inl (.error e), s'))
    (htail : ∀ a s, F.appendAlone path bytes fuel s (next a) = ((f a).run s).map some id) (s : σ) :
    F.appendAlone path bytes (fuel + 1) s pc = ((x >>= f).run s).map some id := by
  rw [appendAlone]
  cases h : x.run s with
  | mk r s' =>
    cases r with
    | ok a =>
      rw [hok s a s' h, ErrorState.bind_ok h]
      exact htail a s'
    | error e =>
      rw [herr s e s' h, ErrorState.bind_error h]
      rfl

/-- The steps of a client that is alone are those of `append`. -/
theorem append_run_alone (path : Path) (bytes : List Byte) (s : σ) :
    F.appendAlone path bytes 4 s .open_ = ((F.append path bytes).run s).map some id := by
  unfold append
  refine F.appendAlone_bind (fun _ => .lookup) ?_ ?_ (fun fh s => ?_) s
  · exact fun s a s' h => by rw [appendStep, h]
  · exact fun s e s' h => by rw [appendStep, h]
  refine F.appendAlone_bind (fun v => .stat v) ?_ ?_ (fun v s => ?_) s
  · exact fun s a s' h => by rw [appendStep, h]
  · exact fun s e s' h => by rw [appendStep, h]
  refine F.appendAlone_bind (fun st => .write v st.size) ?_ ?_ (fun st s => ?_) s
  · exact fun s a s' h => by rw [appendStep, h]
  · exact fun s e s' h => by rw [appendStep, h]
  -- the last call ends the append
  rw [appendAlone, appendStep]
  cases h : (F.write v st.size bytes).run s with
  | mk r s' =>
    cases r with
    | ok n =>
      rw [ErrorState.bind_ok h]
      rfl
    | error e =>
      rw [ErrorState.bind_error h]
      rfl

end VFS

/-! ## Clients -/

/-- A client: what it has still to append, the first of it being appended now. -/
structure Appender where
  todo : List (List Byte)
  pc : AppendPc Path := .open_

/-- An append that has returned. -/
structure Returned where
  client : Nat
  bytes : List Byte
  result : Except Error Unit

/-- A file, its clients, and the appends that have returned, in order. -/
structure Appends where
  path : Path
  fs : MemFS
  clients : List Appender
  returned : List Returned := []

namespace Appends

def start (path : Path) (fs : MemFS) (programs : List (List (List Byte))) : Appends :=
  { path, fs, clients := programs.map fun todo => { todo } }

/-- Client `k` takes its next step. -/
def step (s : Appends) (k : Nat) : Appends :=
  match s.clients[k]? with
  | none => s
  | some c =>
    match c.todo with
    | [] => s
    | bytes :: rest =>
      match memFS.appendStep s.path bytes s.fs c.pc with
      | (.inr pc, fs) => { s with fs, clients := s.clients.set k { c with pc } }
      | (.inl result, fs) =>
        { s with
          fs
          clients := s.clients.set k { todo := rest }
          returned := s.returned ++ [{ client := k, bytes, result }] }

def content (s : Appends) : List Byte := (s.fs.files s.path).getD []

/-- What client `k` has appended, in its order. -/
def ofClient (k : Nat) (log : List (Nat × List Byte)) : List (List Byte) :=
  (log.filter fun e => e.1 = k).map Prod.snd

def log (s : Appends) : List (Nat × List Byte) := s.returned.map fun r => (r.client, r.bytes)

/-- The file has grown by what was appended, in some order that is that of each client. -/
def Kept (initial : List Byte) (s : Appends) : Prop :=
  ∃ order : List (Nat × List Byte), (∀ k, ofClient k order = ofClient k s.log) ∧
    s.content = initial ++ (order.map Prod.snd).flatten

/-- If the next step of the client writes, it writes at the end of the file, or nothing. -/
def AtEnd (s : Appends) (k : Nat) : Prop :=
  match s.clients[k]? with
  | some ⟨bytes :: _, .write _ offset⟩ => bytes = [] ∨ offset = s.content.length
  | _ => True

/-! ## One step -/

/-- The file is there, and a client that is about to write has seen a size it has had. -/
def Placed (s : Appends) : AppendPc Path → Prop
  | .open_ => True
  | .lookup => (s.fs.files s.path).isSome
  | .stat v => v = s.path ∧ (s.fs.files s.path).isSome
  | .write v offset => v = s.path ∧ (s.fs.files s.path).isSome ∧ offset ≤ s.content.length

def Inv (s : Appends) : Prop := ∀ c ∈ s.clients, s.Placed c.pc

theorem Placed.mono {s t : Appends} {pc : AppendPc Path} (h : s.Placed pc)
    (hpath : t.path = s.path) (hthere : (s.fs.files s.path).isSome → (t.fs.files t.path).isSome)
    (hlen : s.content.length ≤ t.content.length) : t.Placed pc := by
  cases pc with
  | open_ => trivial
  | lookup => exact hthere h
  | stat v => exact ⟨h.1.trans hpath.symm, hthere h.2⟩
  | write v offset => exact ⟨h.1.trans hpath.symm, hthere h.2.1, Nat.le_trans h.2.2 hlen⟩

/-- What the step of a client can do. -/
inductive Stepped (s : Appends) (k : Nat) (t : Appends) : Prop where
  /-- There is nothing left to do. -/
  | idle (same : t = s) (idle : ∀ c, s.clients[k]? = some c → c.todo = [])
  | moved (c : Appender) (pc : AppendPc Path) (here : s.clients[k]? = some c)
      (noWrite : ∀ v offset, c.pc ≠ .write v offset) (path : t.path = s.path)
      (there : (t.fs.files t.path).isSome) (content : t.content = s.content)
      (clients : t.clients = s.clients.set k { c with pc }) (placed : t.Placed pc)
      (returned : t.returned = s.returned)
  | wrote (bytes : List Byte) (rest : List (List Byte)) (offset : Nat)
      (here : s.clients[k]? = some ⟨bytes :: rest, .write s.path offset⟩)
      (seen : offset ≤ s.content.length) (path : t.path = s.path)
      (there : (t.fs.files t.path).isSome) (content : t.content = spliced s.content offset bytes)
      (clients : t.clients = s.clients.set k { todo := rest })
      (returned : t.returned = s.returned ++ [{ client := k, bytes, result := .ok () }])

theorem content_some {s : Appends} {d : List Byte} (h : s.fs.files s.path = some d) :
    s.content = d := by
  rw [content, h]
  rfl

theorem step_stepped {s : Appends} (hs : s.Inv) (k : Nat) : Stepped s k (s.step k) := by
  rw [step]
  cases hk : s.clients[k]? with
  | none =>
    refine .idle rfl fun c hc => ?_
    rw [hk] at hc
    cases hc
  | some c =>
    have hplaced := hs c (List.mem_of_getElem? hk)
    obtain ⟨todo, pc⟩ := c
    cases todo with
    | nil =>
      refine .idle rfl fun c hc => ?_
      rw [← Option.some.inj (hk.symm.trans hc)]
    | cons bytes rest =>
      dsimp only
      cases pc with
      | open_ =>
        obtain ⟨fh, fs, hopen, hfiles⟩ := MemFS.open_create s.fs s.path
          (OpenFlags.write ||| OpenFlags.create) rfl rfl
        have hfile : fs.files s.path = some s.content := by
          rw [hfiles, Function.update_self]
          rfl
        rw [VFS.appendStep, hopen]
        refine .moved _ .lookup hk nofun rfl ?_ (content_some hfile) rfl ?_ rfl
        · exact Option.isSome_of_mem hfile
        · exact Option.isSome_of_mem hfile
      | lookup =>
        obtain ⟨d, hd⟩ := Option.isSome_iff_exists.mp hplaced
        rw [VFS.appendStep, MemFS.lookup_some hd]
        exact .moved _ (.stat s.path) hk nofun rfl hplaced rfl rfl ⟨rfl, hplaced⟩ rfl
      | stat v =>
        obtain ⟨rfl, hthere⟩ := hplaced
        obtain ⟨d, hd⟩ := Option.isSome_iff_exists.mp hthere
        obtain ⟨st, hst, hsize⟩ := MemFS.stat_run hd
        rw [VFS.appendStep, hst]
        refine .moved _ (.write s.path st.size) hk nofun rfl hthere rfl rfl ⟨rfl, hthere, ?_⟩ rfl
        exact Nat.le_of_eq (hsize.trans (congrArg List.length (content_some hd).symm))
      | write v offset =>
        obtain ⟨rfl, hthere, hoff⟩ := hplaced
        obtain ⟨d, hd⟩ := Option.isSome_iff_exists.mp hthere
        obtain ⟨fs, hwrite, hfiles⟩ := MemFS.write_run hd offset bytes
        have hfile : fs.files s.path = some (spliced s.content offset bytes) := by
          rw [hfiles, Function.update_self, content_some hd]
        rw [VFS.appendStep, hwrite]
        exact .wrote bytes rest offset hk hoff rfl (Option.isSome_of_mem hfile)
          (content_some hfile) rfl rfl

theorem step_inv {s : Appends} (hs : s.Inv) (k : Nat) : (s.step k).Inv := by
  cases step_stepped hs k with
  | idle same _ => rwa [same]
  | moved c pc here _ path there content clients placed _ =>
    intro c' hc'
    rw [clients] at hc'
    rcases List.mem_or_eq_of_mem_set hc' with hc' | rfl
    · exact (hs c' hc').mono path (fun _ => there) (Nat.le_of_eq (congrArg _ content.symm))
    · exact placed
  | wrote bytes rest offset here seen path there content clients _ =>
    intro c' hc'
    rw [clients] at hc'
    rcases List.mem_or_eq_of_mem_set hc' with hc' | rfl
    · refine (hs c' hc').mono path (fun _ => there) ?_
      rw [content, length_spliced]
      exact Nat.le_max_left _ _
    · trivial

theorem start_inv (path : Path) (fs : MemFS) (programs : List (List (List Byte))) :
    (start path fs programs).Inv := by
  intro c hc
  obtain ⟨todo, -, rfl⟩ := List.mem_map.mp hc
  trivial

theorem run_inv (path : Path) (fs : MemFS) (programs : List (List (List Byte)))
    (sched : List Nat) : (run step (start path fs programs) sched).Inv :=
  run_invariant (start_inv path fs programs) (fun _ k hs => step_inv hs k) sched

/-! ## What has returned -/

theorem ofClient_snoc_self (k : Nat) (log : List (Nat × List Byte)) (bytes : List Byte) :
    ofClient k (log ++ [(k, bytes)]) = ofClient k log ++ [bytes] := by
  simp [ofClient, List.filter_append]

theorem ofClient_snoc_other {j k : Nat} (h : j ≠ k) (log : List (Nat × List Byte))
    (bytes : List Byte) : ofClient j (log ++ [(k, bytes)]) = ofClient j log := by
  simp [ofClient, List.filter_append, Ne.symm h]

theorem log_snoc {s t : Appends} {k : Nat} {bytes : List Byte} {result : Except Error Unit}
    (h : t.returned = s.returned ++ [{ client := k, bytes, result }]) :
    t.log = s.log ++ [(k, bytes)] := by
  rw [log, h, List.map_append]
  rfl

/-- What a client has appended and what it has still to append make up its program, and every
    append that has returned has returned success. -/
structure Progress (programs : List (List (List Byte))) (s : Appends) : Prop where
  length : s.clients.length = programs.length
  parts : ∀ k c, s.clients[k]? = some c → programs[k]? = some (ofClient k s.log ++ c.todo)
  clients : ∀ r ∈ s.returned, r.client < programs.length
  success : ∀ r ∈ s.returned, r.result = .ok ()

theorem start_progress (path : Path) (fs : MemFS) (programs : List (List (List Byte))) :
    (start path fs programs).Progress programs := by
  refine ⟨List.length_map _, fun k c hc => ?_, nofun, nofun⟩
  rw [start, List.getElem?_map, Option.map_eq_some_iff] at hc
  obtain ⟨todo, hk, rfl⟩ := hc
  exact hk

theorem step_progress {programs : List (List (List Byte))} {s : Appends} (hs : s.Inv)
    (hp : s.Progress programs) (k : Nat) : (s.step k).Progress programs := by
  cases step_stepped hs k with
  | idle same _ => rwa [same]
  | moved c pc here _ _ _ _ clients _ returned =>
    have hlog : (s.step k).log = s.log := by rw [log, returned, log]
    refine ⟨?_, fun j c' hj => ?_, returned ▸ hp.clients, returned ▸ hp.success⟩
    · rw [clients, List.length_set, hp.length]
    · rw [clients] at hj
      rw [hlog]
      rcases getElem?_moved hj with ⟨rfl, rfl⟩ | ⟨-, hj⟩
      · exact hp.parts j c here
      · exact hp.parts j c' hj
  | wrote bytes rest offset here _ _ _ _ clients returned =>
    have hlog := log_snoc returned
    have hlt : k < programs.length := hp.length ▸ (List.getElem?_eq_some_iff.mp here).1
    refine ⟨?_, fun j c' hj => ?_, ?_, ?_⟩
    · rw [clients, List.length_set, hp.length]
    · rw [clients] at hj
      rw [hlog]
      rcases getElem?_moved hj with ⟨rfl, rfl⟩ | ⟨hne, hj⟩
      · rw [ofClient_snoc_self, List.append_assoc]
        exact hp.parts j _ here
      · rw [ofClient_snoc_other hne]
        exact hp.parts j c' hj
    · rw [returned]
      exact List.forall_mem_append.mpr ⟨hp.clients, List.forall_mem_singleton.mpr hlt⟩
    · rw [returned]
      exact List.forall_mem_append.mpr ⟨hp.success, List.forall_mem_singleton.mpr rfl⟩

theorem run_progress (path : Path) (fs : MemFS) (programs : List (List (List Byte)))
    (sched : List Nat) : (run step (start path fs programs) sched).Progress programs :=
  (run_invariant (I := fun s : Appends => s.Inv ∧ s.Progress programs)
    ⟨start_inv path fs programs, start_progress path fs programs⟩
    (fun _ k hs => ⟨step_inv hs.1 k, step_progress hs.1 hs.2 k⟩) sched).2

/-! ## Lengths -/

/-- How many bytes have been appended. -/
def appended (s : Appends) : Nat := (s.log.map fun e => e.2.length).sum

theorem filter_client (k : Nat) (log : List (Nat × List Byte)) :
    log.filter (fun e => e.1 = k) = (ofClient k log).map (Prod.mk k) := by
  rw [ofClient, List.map_map]
  refine (List.map_id _).symm.trans (List.map_congr_left fun e he => ?_)
  rw [← of_decide_eq_true (List.mem_filter.mp he).2]
  rfl

/-- Orders that agree on each client have the same entries. -/
theorem perm_of_ofClient {order log : List (Nat × List Byte)}
    (h : ∀ k, ofClient k order = ofClient k log) : order.Perm log := by
  refine List.perm_iff_count.mpr fun e => ?_
  have hcount : ∀ l : List (Nat × List Byte),
      l.count e = (l.filter fun x => x.1 = e.1).count e := fun l =>
    (List.count_filter (p := fun x : Nat × List Byte => x.1 = e.1) (decide_eq_true rfl)).symm
  rw [hcount order, hcount log, filter_client, filter_client, h]

theorem Kept.length {initial : List Byte} {s : Appends} (h : s.Kept initial) :
    s.content.length = initial.length + s.appended := by
  obtain ⟨order, hsame, hcontent⟩ := h
  have hsum := ((perm_of_ofClient hsame).map fun e => e.2.length).sum_nat
  rw [hcontent, List.length_append, List.length_flatten, List.map_map, appended, ← hsum]
  rfl

theorem atEnd_of {s : Appends} {k : Nat}
    (h : ∀ bytes rest v offset, s.clients[k]? = some ⟨bytes :: rest, .write v offset⟩ →
      bytes = [] ∨ offset = s.content.length) : s.AtEnd k := by
  unfold AtEnd
  split
  · next bytes rest v offset hk => exact h bytes rest v offset hk
  · trivial

theorem appended_snoc {s t : Appends} {k : Nat} {bytes : List Byte}
    {result : Except Error Unit}
    (h : t.returned = s.returned ++ [{ client := k, bytes, result }]) :
    t.appended = s.appended + bytes.length := by
  rw [appended, log_snoc h, List.map_append, List.sum_append]
  rfl

/-- The file grows by what is appended exactly when the write is at its end. -/
theorem step_length {s : Appends} (hs : s.Inv) (k : Nat) :
    (s.step k).content.length + s.appended ≤ s.content.length + (s.step k).appended ∧
      ((s.step k).content.length + s.appended = s.content.length + (s.step k).appended ↔
        s.AtEnd k) := by
  cases step_stepped hs k with
  | idle same idle =>
    rw [same]
    refine ⟨Nat.le_refl _, iff_of_true rfl (atEnd_of fun bytes rest v offset hk => ?_)⟩
    cases idle _ hk
  | moved c pc here noWrite _ _ content _ _ returned =>
    have hsame : (s.step k).appended = s.appended := by rw [appended, log, returned]; rfl
    rw [content, hsame]
    refine ⟨Nat.le_refl _, iff_of_true rfl (atEnd_of fun bytes rest v offset hk => ?_)⟩
    obtain rfl := Option.some.inj (here.symm.trans hk)
    exact absurd rfl (noWrite v offset)
  | wrote bytes rest offset here seen _ _ content _ returned =>
    have hatEnd : s.AtEnd k ↔ bytes = [] ∨ offset = s.content.length := by
      simp only [AtEnd, here]
    rw [hatEnd, content, length_spliced, appended_snoc returned, ← List.length_eq_zero_iff]
    omega

/-! ## Whole runs -/

/-- A write at the end of the file appends. -/
theorem step_content {s : Appends} (hs : s.Inv) {k : Nat} (hend : s.AtEnd k)
    {initial : List Byte} (h : s.content = initial ++ (s.log.map Prod.snd).flatten) :
    (s.step k).content = initial ++ ((s.step k).log.map Prod.snd).flatten := by
  cases step_stepped hs k with
  | idle same _ => rw [same, h]
  | moved c pc _ _ _ _ content _ _ returned =>
    rw [content, h, log, log, returned]
  | wrote bytes rest offset here seen _ _ content _ returned =>
    have hsplice : spliced s.content offset bytes = s.content ++ bytes := by
      have hend : bytes = [] ∨ offset = s.content.length := by
        simpa only [AtEnd, here] using hend
      rcases hend with rfl | rfl
      · rw [List.append_nil, spliced_eq_self_iff]
        exact ⟨seen, rfl⟩
      · exact spliced_end _ _
    rw [content, hsplice, log_snoc returned, List.map_append, List.flatten_append, h,
      List.append_assoc]
    simp

/-- The clients' appends come back one by one, each with success, and the file has grown by all
    of them exactly when every write landed at the end of the file. -/
theorem appends_kept_iff (path : Path) (fs : MemFS) (programs : List (List (List Byte)))
    (sched : List Nat) :
    (run step (start path fs programs) sched).Progress programs ∧
      ((run step (start path fs programs) sched).Kept ((fs.files path).getD []) ↔
        StepsMeet step AtEnd (start path fs programs) sched) := by
  refine ⟨run_progress path fs programs sched, fun h => ?_, fun h => ?_⟩
  · have hlen := h.length
    clear h
    -- the file is never longer than what was appended, and what falls behind stays behind
    have hbound : ∀ pre, (run step (start path fs programs) pre).content.length ≤
        ((fs.files path).getD []).length + (run step (start path fs programs) pre).appended := by
      intro pre
      induction pre using List.reverseRecOn with
      | nil => exact Nat.le_refl _
      | append_singleton pre k ih =>
        have := (step_length (run_inv path fs programs pre) k).1
        rw [run_snoc]
        omega
    induction sched using List.reverseRecOn with
    | nil => exact stepsMeet_nil _ _ _
    | append_singleton sched k ih =>
      obtain ⟨hle, hiff⟩ := step_length (run_inv path fs programs sched) k
      have hb := hbound sched
      rw [run_snoc] at hlen
      exact (stepsMeet_snoc _ _ _ _ _).mpr ⟨ih (by omega), hiff.mp (by omega)⟩
  · refine ⟨(run step (start path fs programs) sched).log, fun _ => rfl, ?_⟩
    refine (run_invariant_of_meet (I := fun s : Appends => s.Inv ∧
      s.content = (fs.files path).getD [] ++ (s.log.map Prod.snd).flatten)
      ⟨start_inv path fs programs, ?_⟩ ?_ h).2
    · exact (List.append_nil _).symm
    · exact fun s k hs hend => ⟨step_inv hs.1 k, step_content hs.1 hend hs.2⟩

/-- Two clients see the same size before either writes. -/
theorem append_overwritten :
    let s := run step (start "a" ((memFS.writeAll "a" [7]).run {}).2 [[[1]], [[2]]])
      [0, 0, 0, 1, 1, 1, 0, 1]
    (∀ c ∈ s.clients, c.todo = []) ∧ s.log = [(0, [1]), (1, [2])] ∧
      (∀ r ∈ s.returned, r.result.isOk) ∧ s.content = [7, 2] ∧ ¬ s.Kept [7] := by
  refine ⟨by decide, by decide, by decide, by decide, fun h => ?_⟩
  have hlen := h.length
  revert hlen
  decide

end Appends

end NeuroVerse.Fs
