/-
  The overlay file system (`fs/overlayfs.cpp`): a writable upper layer over a lower one.

  `OverlayFS` is written over any two file systems; a VNode pointer it hands out is a pointer
  of one of its layers. `overlay` puts an in-memory layer over another. `view` is what a reader
  sees, the upper file if there is one and else the lower, and `overlayStep` says what an
  operation by path does to it; `exec_overlay` connects the two and says that operations by
  path leave the lower layer as it is. The mutex is left out: one caller does not notice it.
-/
import NeuroVerse.Fs.MemFS

namespace NeuroVerse.Fs

open NeuroVerse.Lib ErrorState

/-- The layers; no upper layer until `set_upper`. -/
structure OverlayFS (σl νl σu νu : Type) where
  lower : VFS σl νl
  upper : Option (VFS σu νu)

namespace OverlayFS

variable {σl νl σu νu : Type} (o : OverlayFS σl νl σu νu)

def lookup (path : Path) : FsM (σl × σu) (νl ⊕ νu) :=
  match o.upper with
  | none => do
    let v ← onFst (o.lower.lookup path)
    pure (.inl v)
  | some up => do
    match ← attempt (onSnd (up.lookup path)) with
    | some v => pure (.inr v)
    | none =>
      let v ← onFst (o.lower.lookup path)
      pure (.inl v)

/-- Copies `path` from the lower layer to the upper layer; the writable VNode. -/
def copyUp (path : Path) : FsM (σl × σu) νu :=
  match o.upper with
  | none => throw ⟨.notPermitted, "OverlayFS::copy_up: upper layer not configured"⟩
  | some up => do
    match ← attempt (onSnd (up.lookup path)) with
    | some v => pure v
    | none =>
      let lv ← onFst (o.lower.lookup path)
      let st ← onFst (o.lower.stat lv)
      let buf ← onFst (o.lower.readLoop lv st.size st.size [])
      let _ ← onSnd (up.open_ path
        (OpenFlags.write ||| OpenFlags.create ||| OpenFlags.truncate))
      let v ← onSnd (up.lookup path)
      let _ ← onSnd (up.write v 0 buf)
      pure v

/-- The head of `open`, when the upper layer has the path. -/
def openUpper (path : Path) (flags : OpenFlags) : FsM (σl × σu) (Option FileHandle) :=
  match o.upper with
  | none => pure none
  | some up => do
    match ← attempt (onSnd (up.lookup path)) with
    | none => pure none
    | some v =>
      let vh ← onSnd (up.handle v)
      pure (some ⟨path, flags, vh⟩)

/-- The middle of `open`, when only the lower layer has the path. -/
def openLower (path : Path) (flags : OpenFlags) : FsM (σl × σu) (Option FileHandle) := do
  match ← attempt (onFst (o.lower.lookup path)) with
  | none => pure none
  | some v =>
    if flags.has OpenFlags.write || flags.has OpenFlags.create then
      let cu ← o.copyUp path
      match o.upper with
      | none => pure none
      | some up =>
        let vh ← onSnd (up.handle cu)
        pure (some ⟨path, flags, vh⟩)
    else
      let vh ← onFst (o.lower.handle v)
      pure (some ⟨path, flags, vh⟩)

def open_ (path : Path) (flags : OpenFlags) : FsM (σl × σu) FileHandle := do
  match ← o.openUpper path flags with
  | some fh => pure fh
  | none =>
    match ← o.openLower path flags with
    | some fh => pure fh
    | none =>
      match flags.has OpenFlags.create, o.upper with
      | true, some up => onSnd (up.open_ path flags)
      | _, _ => throw ⟨.notFound, "OverlayFS::open: path not found"⟩

/-- A member function of an upper VNode. There is none without an upper layer. -/
def onUpper {α : Type} (f : VFS σu νu → FsM σu α) : FsM (σl × σu) α :=
  match o.upper with
  | none => throw ⟨.unreachable, ""⟩
  | some up => onSnd (f up)

/-- The overlay as a file system. Its VNodes are the VNodes of its layers. -/
def toVFS : VFS (σl × σu) (νl ⊕ νu) where
  lookup := o.lookup
  open_ := o.open_
  handle
    | .inl v => onFst (o.lower.handle v)
    | .inr v => o.onUpper fun up => up.handle v
  read
    | .inl v, offset, size => onFst (o.lower.read v offset size)
    | .inr v, offset, size => o.onUpper fun up => up.read v offset size
  write
    | .inl v, offset, buf => onFst (o.lower.write v offset buf)
    | .inr v, offset, buf => o.onUpper fun up => up.write v offset buf
  truncate
    | .inl v, size => onFst (o.lower.truncate v size)
    | .inr v, size => o.onUpper fun up => up.truncate v size
  stat
    | .inl v => onFst (o.lower.stat v)
    | .inr v => o.onUpper fun up => up.stat v

end OverlayFS

/-- An in-memory layer over an in-memory layer. -/
def layers : OverlayFS MemFS Path MemFS Path where
  lower := memFS
  upper := some memFS

def overlay : VFS (MemFS × MemFS) (Path ⊕ Path) := layers.toVFS

/-! ## What a reader sees -/

/-- The upper file if there is one, else the lower file. -/
def view (s : MemFS × MemFS) : Files := fun path => (s.2.files path).or (s.1.files path)

theorem view_update {s : MemFS × MemFS} {U : MemFS} {path : Path} {d : List Byte}
    (h : U.files = Function.update s.2.files path (some d)) :
    view (s.1, U) = Function.update (view s) path (some d) := by
  funext p
  show (U.files p).or (s.1.files p) = _
  rw [h]
  by_cases hp : p = path
  · subst hp
    rw [Function.update_self, Function.update_self]
    rfl
  · rw [Function.update_of_ne hp, Function.update_of_ne hp]
    rfl

theorem view_upper {s : MemFS × MemFS} {path : Path} {d : List Byte}
    (h : s.2.files path = some d) : view s path = some d := by
  rw [view, h]
  rfl

theorem view_lower {s : MemFS × MemFS} {path : Path} (h : s.2.files path = none) :
    view s path = s.1.files path := by
  rw [view, h]
  rfl

namespace OverlayFS

/-! ### One call -/

theorem lookup_upper {s : MemFS × MemFS} {path : Path} {d : List Byte}
    (h : s.2.files path = some d) : (overlay.lookup path).run s = (.ok (.inr path), s) := by
  show (layers.lookup path).run s = _
  unfold lookup
  exact bind_ok (attempt_ok (onSnd_run (MemFS.lookup_some h)))

theorem lookup_lower {s : MemFS × MemFS} {path : Path} {d : List Byte}
    (hu : s.2.files path = none) (hl : s.1.files path = some d) :
    (overlay.lookup path).run s = (.ok (.inl path), s) := by
  show (layers.lookup path).run s = _
  unfold lookup
  refine (bind_ok (attempt_error (onSnd_run (MemFS.lookup_none hu)))).trans ?_
  exact bind_ok (onFst_run (MemFS.lookup_some hl))

theorem lookup_none {s : MemFS × MemFS} {path : Path} (h : view s path = none) :
    (overlay.lookup path).run s =
      (.error ⟨.notFound, "MemFS::lookup: path not found"⟩, s) := by
  obtain ⟨hu, hl⟩ := Option.or_eq_none_iff.mp h
  show (layers.lookup path).run s = _
  unfold lookup
  refine (bind_ok (attempt_error (onSnd_run (MemFS.lookup_none hu)))).trans ?_
  exact bind_error (onFst_run (MemFS.lookup_none hl))

/-- Copying up gives the upper layer the bytes of the lower file. -/
theorem copyUp_run {s : MemFS × MemFS} {path : Path} {d : List Byte}
    (hu : s.2.files path = none) (hl : s.1.files path = some d) :
    ∃ U, (layers.copyUp path).run s =
        (.ok path, (s.1, U)) ∧ U.files = Function.update s.2.files path (some d) := by
  obtain ⟨st, hst, hsize⟩ := MemFS.stat_run hl
  obtain ⟨fh, U₁, hopen, hf₁⟩ := MemFS.open_create s.2 path
    (OpenFlags.write ||| OpenFlags.create ||| OpenFlags.truncate) rfl rfl
  have hpath : U₁.files path = some [] := by rw [hf₁, Function.update_self]; rfl
  obtain ⟨U₂, hwrite, hf₂⟩ := MemFS.write_run hpath 0 d
  have hloop := VFS.readLoop_whole (MemFS.read_whole hl)
  rw [← hsize] at hloop
  refine ⟨U₂, ?_, ?_⟩
  · unfold copyUp
    refine (bind_ok (attempt_error (onSnd_run (MemFS.lookup_none hu)))).trans ?_
    refine (bind_ok (onFst_run (MemFS.lookup_some hl))).trans ?_
    refine (bind_ok (onFst_run hst)).trans ?_
    refine (bind_ok (onFst_run hloop)).trans ?_
    refine (bind_ok (onSnd_run hopen)).trans ?_
    refine (bind_ok (onSnd_run (MemFS.lookup_some hpath))).trans ?_
    exact bind_ok (onSnd_run hwrite)
  · rw [hf₂, hf₁, Function.update_idem, spliced_zero, List.drop_nil, List.append_nil]

theorem open_upper {s : MemFS × MemFS} {path : Path} {d : List Byte}
    (h : s.2.files path = some d) (flags : OpenFlags) :
    ∃ fh, (overlay.open_ path flags).run s = (.ok fh, s) := by
  obtain ⟨vh, hvh⟩ := MemFS.handle_run h
  refine ⟨⟨path, flags, vh⟩, ?_⟩
  have hhead : (layers.openUpper path flags).run s =
      (.ok (some ⟨path, flags, vh⟩), s) := by
    unfold openUpper
    refine (bind_ok (attempt_ok (onSnd_run (MemFS.lookup_some h)))).trans ?_
    exact bind_ok (onSnd_run hvh)
  show (layers.open_ path flags).run s = _
  unfold open_
  exact bind_ok hhead

theorem openUpper_none {s : MemFS × MemFS} {path : Path} (h : s.2.files path = none)
    (flags : OpenFlags) :
    (layers.openUpper path flags).run s = (.ok none, s) := by
  unfold openUpper
  exact bind_ok (attempt_error (onSnd_run (MemFS.lookup_none h)))

theorem openLower_none {s : MemFS × MemFS} {path : Path} (h : s.1.files path = none)
    (flags : OpenFlags) :
    (layers.openLower path flags).run s = (.ok none, s) := by
  unfold openLower
  exact bind_ok (attempt_error (onFst_run (MemFS.lookup_none h)))

/-- Opening a file of the lower layer for writing or with `Create` copies it up, and leaves
    both layers as they are otherwise. -/
theorem open_lower {s : MemFS × MemFS} {path : Path} {d : List Byte}
    (hu : s.2.files path = none) (hl : s.1.files path = some d) (flags : OpenFlags) :
    ∃ fh U, (overlay.open_ path flags).run s = (.ok fh, (s.1, U)) ∧
      if flags.has OpenFlags.write || flags.has OpenFlags.create then
        U.files = Function.update s.2.files path (some d)
      else U = s.2 := by
  show ∃ fh U, (layers.open_ path flags).run s = _ ∧ _
  unfold open_
  cases hw : flags.has OpenFlags.write || flags.has OpenFlags.create with
  | true =>
    obtain ⟨U, hcu, hU⟩ := copyUp_run hu hl
    have hpath : U.files path = some d := by rw [hU, Function.update_self]
    obtain ⟨vh, hvh⟩ := MemFS.handle_run hpath
    refine ⟨⟨path, flags, vh⟩, U, ?_, hU⟩
    have hmid : (layers.openLower path flags).run s =
        (.ok (some ⟨path, flags, vh⟩), (s.1, U)) := by
      unfold openLower
      refine (bind_ok (attempt_ok (onFst_run (MemFS.lookup_some hl)))).trans ?_
      simp only [hw, if_true]
      refine (bind_ok hcu).trans ?_
      exact bind_ok (onSnd_run hvh)
    exact (bind_ok (openUpper_none hu flags)).trans (bind_ok hmid)
  | false =>
    obtain ⟨vh, hvh⟩ := MemFS.handle_run hl
    refine ⟨⟨path, flags, vh⟩, s.2, ?_, rfl⟩
    have hmid : (layers.openLower path flags).run s =
        (.ok (some ⟨path, flags, vh⟩), s) := by
      unfold openLower
      refine (bind_ok (attempt_ok (onFst_run (MemFS.lookup_some hl)))).trans ?_
      simp only [hw, Bool.false_eq_true, if_false]
      exact bind_ok (onFst_run hvh)
    exact (bind_ok (openUpper_none hu flags)).trans (bind_ok hmid)

/-- Opening a path that no layer has creates it in the upper layer, or fails. -/
theorem open_none {s : MemFS × MemFS} {path : Path} (h : view s path = none)
    (flags : OpenFlags) :
    if flags.has OpenFlags.create then
      ∃ fh U, (overlay.open_ path flags).run s = (.ok fh, (s.1, U)) ∧
        U.files = Function.update s.2.files path (some [])
    else
      (overlay.open_ path flags).run s =
        (.error ⟨.notFound, "OverlayFS::open: path not found"⟩, s) := by
  obtain ⟨hu, hl⟩ := Option.or_eq_none_iff.mp h
  show if flags.has OpenFlags.create then
      ∃ fh U, (layers.open_ path flags).run s = _ ∧ _
    else (layers.open_ path flags).run s = _
  unfold open_
  cases hc : flags.has OpenFlags.create with
  | true =>
    obtain ⟨fh, U, hopen, hU⟩ := MemFS.open_new hu hc
    refine ⟨fh, U, ?_, hU⟩
    refine (bind_ok (openUpper_none hu flags)).trans ?_
    refine (bind_ok (openLower_none hl flags)).trans ?_
    exact onSnd_run hopen
  | false =>
    refine (bind_ok (openUpper_none hu flags)).trans ?_
    exact bind_ok (openLower_none hl flags)

/-- Opening with `Create` leaves a file with the bytes seen before in the upper layer. -/
theorem open_create (s : MemFS × MemFS) (path : Path) (flags : OpenFlags)
    (hc : flags.has OpenFlags.create = true) :
    ∃ fh U, (overlay.open_ path flags).run s = (.ok fh, (s.1, U)) ∧
      U.files = Function.update s.2.files path (some ((view s path).getD [])) := by
  cases hu : s.2.files path with
  | some d =>
    obtain ⟨fh, hrun⟩ := open_upper hu flags
    refine ⟨fh, s.2, hrun, ?_⟩
    rw [view_upper hu, Option.getD_some, ← hu, Function.update_eq_self]
  | none =>
    cases hl : s.1.files path with
    | some d =>
      obtain ⟨fh, U, hrun, hU⟩ := open_lower hu hl flags
      rw [hc, Bool.or_true, if_pos rfl] at hU
      refine ⟨fh, U, hrun, ?_⟩
      rw [hU, view_lower hu, hl]
      rfl
    | none =>
      have hv : view s path = none := by rw [view_lower hu, hl]
      have hopen := open_none hv flags
      rw [hc, if_pos rfl] at hopen
      rw [hv]
      exact hopen

theorem stat_upper {s : MemFS × MemFS} {path : Path} {d : List Byte}
    (h : s.2.files path = some d) :
    ∃ st : Stat, (overlay.stat (.inr path)).run s = (.ok st, s) ∧ st.size = d.length := by
  obtain ⟨st, hst, hsize⟩ := MemFS.stat_run h
  exact ⟨st, onSnd_run hst, hsize⟩

theorem write_upper {s : MemFS × MemFS} {path : Path} {d : List Byte}
    (h : s.2.files path = some d) (offset : Nat) (buf : List Byte) :
    ∃ U, (overlay.write (.inr path) offset buf).run s = (.ok buf.length, (s.1, U)) ∧
      U.files = Function.update s.2.files path (some (spliced d offset buf)) := by
  obtain ⟨U, hrun, hU⟩ := MemFS.write_run h offset buf
  exact ⟨U, onSnd_run hrun, hU⟩

/-- `read_all` gives what a reader sees. -/
theorem readAll_run {s : MemFS × MemFS} {path : Path} {d : List Byte}
    (h : view s path = some d) : (overlay.readAll path).run s = (.ok d, s) := by
  cases hu : s.2.files path with
  | some d' =>
    obtain rfl := Option.some.inj ((view_upper hu).symm.trans h)
    obtain ⟨st, hst, hsize⟩ := stat_upper hu
    exact VFS.readAll_whole (lookup_upper hu) hst hsize (onSnd_run (MemFS.read_whole hu))
  | none =>
    rw [view_lower hu] at h
    obtain ⟨st, hst, hsize⟩ := MemFS.stat_run h
    exact VFS.readAll_whole (lookup_lower hu h) (onFst_run hst) hsize
      (onFst_run (MemFS.read_whole h))

end OverlayFS

/-! ## Operations by path -/

/-- What an operation by path through the overlay does to what a reader sees. -/
def overlayStep (f : Files) : FsOp → Seen × Files
  | .open_ path flags =>
    match f path with
    | none =>
      if flags.has OpenFlags.create then (.ok [], Function.update f path (some []))
      else (.error .notFound, f)
    | some _ => (.ok [], f)
  | .writeAll path bytes =>
    (.ok [], Function.update f path (some (bytes ++ ((f path).getD []).drop bytes.length)))
  | .append path bytes => (.ok [], Function.update f path (some ((f path).getD [] ++ bytes)))
  | .readAll path =>
    match f path with
    | none => (.error .notFound, f)
    | some d => (.ok d, f)

namespace OverlayFS

/-- The overlay does to what a reader sees what `overlayStep` says, and no operation by path
    changes the lower layer. -/
structure Follows (s : MemFS × MemFS) (op : FsOp) : Prop where
  seen : (overlay.exec s op).1 = (overlayStep (view s) op).1
  view : view (overlay.exec s op).2 = (overlayStep (view s) op).2
  lower : (overlay.exec s op).2.1 = s.1

theorem follows_of_run {s : MemFS × MemFS} {op : FsOp} {r : Seen} {U : MemFS} {f : Files}
    (hrun : overlay.exec s op = (r, (s.1, U))) (hstep : overlayStep (view s) op = (r, f))
    (hview : view (s.1, U) = f) : Follows s op := by
  refine ⟨?_, ?_, ?_⟩
  · rw [hrun, hstep]
  · rw [hrun, hstep]
    exact hview
  · rw [hrun]

theorem exec_open (s : MemFS × MemFS) (path : Path) (flags : OpenFlags) :
    Follows s (.open_ path flags) := by
  cases hv : Fs.view s path with
  | none =>
    have hopen := open_none hv flags
    cases hc : flags.has OpenFlags.create with
    | true =>
      rw [hc, if_pos rfl] at hopen
      obtain ⟨fh, U, hrun, hU⟩ := hopen
      refine follows_of_run (r := .ok []) (by rw [VFS.exec, hrun]; rfl) ?_ (view_update hU)
      simp [overlayStep, hv, hc]
    | false =>
      rw [hc, if_neg Bool.false_ne_true] at hopen
      refine follows_of_run (r := .error .notFound) (by rw [VFS.exec, hopen]; rfl) ?_ rfl
      simp [overlayStep, hv, hc]
  | some d =>
    have hstep : overlayStep (Fs.view s) (.open_ path flags) = (.ok [], Fs.view s) := by
      simp [overlayStep, hv]
    cases hu : s.2.files path with
    | some d' =>
      obtain ⟨fh, hrun⟩ := open_upper hu flags
      exact follows_of_run (by rw [VFS.exec, hrun]; rfl) hstep rfl
    | none =>
      have hl := (view_lower hu).symm.trans hv
      obtain ⟨fh, U, hrun, hU⟩ := open_lower hu hl flags
      refine follows_of_run (by rw [VFS.exec, hrun]; rfl) hstep ?_
      split at hU
      · rw [view_update hU, ← hv, Function.update_eq_self]
      · rw [hU]

theorem exec_writeAll (s : MemFS × MemFS) (path : Path) (bytes : List Byte) :
    Follows s (.writeAll path bytes) := by
  obtain ⟨fh, U₁, hopen, hf₁⟩ := open_create s path
    (OpenFlags.write ||| OpenFlags.create ||| OpenFlags.truncate) rfl
  have hpath : U₁.files path = some ((Fs.view s path).getD []) := by
    rw [hf₁, Function.update_self]
  obtain ⟨U₂, hwrite, hf₂⟩ := write_upper (s := (s.1, U₁)) hpath 0 bytes
  have hrun : (overlay.writeAll path bytes).run s = (.ok (), (s.1, U₂)) := by
    unfold VFS.writeAll
    refine (bind_ok hopen).trans ?_
    refine (bind_ok (lookup_upper (s := (s.1, U₁)) hpath)).trans ?_
    exact bind_ok hwrite
  refine follows_of_run (by rw [VFS.exec, hrun]; rfl) rfl (view_update ?_)
  rw [hf₂, hf₁, Function.update_idem, spliced_zero]

theorem exec_append (s : MemFS × MemFS) (path : Path) (bytes : List Byte) :
    Follows s (.append path bytes) := by
  obtain ⟨fh, U₁, hopen, hf₁⟩ := open_create s path
    (OpenFlags.write ||| OpenFlags.create) rfl
  have hpath : U₁.files path = some ((Fs.view s path).getD []) := by
    rw [hf₁, Function.update_self]
  obtain ⟨st, hstat, hsize⟩ := stat_upper (s := (s.1, U₁)) hpath
  obtain ⟨U₂, hwrite, hf₂⟩ := write_upper (s := (s.1, U₁)) hpath st.size bytes
  have hrun : (overlay.append path bytes).run s = (.ok (), (s.1, U₂)) := by
    unfold VFS.append
    refine (bind_ok hopen).trans ?_
    refine (bind_ok (lookup_upper (s := (s.1, U₁)) hpath)).trans ?_
    refine (bind_ok hstat).trans ?_
    exact bind_ok hwrite
  refine follows_of_run (by rw [VFS.exec, hrun]; rfl) rfl (view_update ?_)
  rw [hf₂, hf₁, Function.update_idem, hsize, spliced_end]

theorem exec_readAll (s : MemFS × MemFS) (path : Path) : Follows s (.readAll path) := by
  cases hv : Fs.view s path with
  | none =>
    have hrun : (overlay.readAll path).run s =
        (.error ⟨.notFound, "MemFS::lookup: path not found"⟩, s) := by
      unfold VFS.readAll
      exact bind_error (lookup_none hv)
    refine follows_of_run (r := .error .notFound) (by rw [VFS.exec, hrun]; rfl) ?_ rfl
    simp [overlayStep, hv]
  | some d =>
    refine follows_of_run (r := .ok d) (by rw [VFS.exec, readAll_run hv]; rfl) ?_ rfl
    simp [overlayStep, hv]

theorem exec_overlay (s : MemFS × MemFS) (op : FsOp) : Follows s op := by
  cases op with
  | open_ path flags => exact exec_open s path flags
  | writeAll path bytes => exact exec_writeAll s path bytes
  | append path bytes => exact exec_append s path bytes
  | readAll path => exact exec_readAll s path

end OverlayFS

/-- A layer with one file of three bytes. -/
def oneFile : MemFS :=
  { nodes := AList.singleton "f" { id := 1, path := "f", data := [1, 2, 3] }, nextId := 2 }

end NeuroVerse.Fs
