/-
  Copy-up (`OverlayFS::copy_up`) into an upper layer that may fail.

  `Honours` is what the traits of `fs/vfs.hpp` and `fs/vnode.hpp` promise of a file system, whose
  `open` and `write` may fail and whose `write` may take a first part of the bytes only. `copy_up`
  creates the upper file before it writes to it and does not look at how much was written, so what
  is left can be a file that is empty or cut short, and that hides the lower one
  (`copy_up_all_or_nothing_iff`).
-/
import NeuroVerse.Fs.OverlayFS

namespace NeuroVerse.Fs

open NeuroVerse.Lib ErrorState

variable {σ ν : Type}

/-! ## The trait -/

/-- `files` are the bytes of the files of `F`, and `file v` is the path of the node `v`. A call that
    fails leaves the files as they are. -/
structure VFS.Honours (F : VFS σ ν) (files : σ → Files) (file : ν → Path) : Prop where
  lookup_none : ∀ s path, files s path = none →
    ∃ e s', (F.lookup path).run s = (.error e, s') ∧ files s' = files s
  lookup_some : ∀ s path d, files s path = some d →
    ∃ v s', (F.lookup path).run s = (.ok v, s') ∧ file v = path ∧ files s' = files s
  open_new : ∀ s path flags, files s path = none → flags.has OpenFlags.create = true →
    (∃ e s', (F.open_ path flags).run s = (.error e, s') ∧ files s' = files s) ∨
    ∃ fh s', (F.open_ path flags).run s = (.ok fh, s') ∧
      files s' = Function.update (files s) path (some [])
  handle : ∀ s v d, files s (file v) = some d →
    ∃ vh s', (F.handle v).run s = (.ok vh, s') ∧ files s' = files s
  stat : ∀ s v d, files s (file v) = some d →
    ∃ st s', (F.stat v).run s = (.ok st, s') ∧ st.size = d.length ∧ files s' = files s
  read : ∀ s v d offset size, files s (file v) = some d → offset ≤ d.length →
    ∃ r s', (F.read v offset size).run s = (.ok r, s') ∧ VFS.ReadsSome d offset size r ∧
      files s' = files s
  write : ∀ s v d offset buf, files s (file v) = some d →
    (∃ e s', (F.write v offset buf).run s = (.error e, s') ∧ files s' = files s) ∨
    ∃ w s', (F.write v offset buf).run s = (.ok w, s') ∧ w ≤ buf.length ∧
      files s' = Function.update (files s) (file v) (some (spliced d offset (buf.take w)))

/-- An overlay over an in-memory lower layer. -/
def overMem (up : VFS σ ν) : OverlayFS MemFS Path σ ν where
  lower := memFS
  upper := some up

variable {up : VFS σ ν} {files : σ → Files} {file : ν → Path}

/-! ## What a reader sees -/

/-- `read_all` through the overlay gives the upper file. -/
theorem VFS.Honours.readAll_upper (h : up.Honours files file) {s : MemFS × σ} {path : Path}
    {c : List Byte} (hc : files s.2 path = some c) :
    (((overMem up).toVFS.readAll path).run s).1 = .ok c := by
  obtain ⟨v, u₁, hlookup, hv, hf₁⟩ := h.lookup_some s.2 path c hc
  obtain ⟨st, u₂, hstat, hsize, hf₂⟩ := h.stat u₁ v c (by rw [hf₁, hv, hc])
  have hsizes : ((overMem up).toVFS.stat (.inr v)).run (s.1, u₁) = (.ok st, s.1, u₂) :=
    onSnd_run hstat
  have hfound : ((overMem up).toVFS.lookup path).run s = (.ok (.inr v), s.1, u₁) := by
    show ((overMem up).lookup path).run s = _
    unfold OverlayFS.lookup
    exact bind_ok (attempt_ok (onSnd_run hlookup))
  obtain ⟨s₃, hloop, -⟩ := VFS.readLoop_short (F := (overMem up).toVFS) (v := .inr v) (d := c)
    (P := fun s => files s.2 (file v) = some c)
    (fun s offset size hs hoff => by
      obtain ⟨r, u', hread, hsome, hf⟩ := h.read s.2 v c offset size hs hoff
      exact ⟨r, (s.1, u'), onSnd_run hread, hsome, by rw [hf, hs]⟩)
    c.length (Nat.zero_le _) (by omega) (s := (s.1, u₂)) (by rw [hf₂, hf₁, hv, hc])
  rw [List.take_zero] at hloop
  unfold VFS.readAll
  rw [bind_ok hfound, bind_ok hsizes, hsize, hloop]

/-- Where there is no upper file it gives the lower one. -/
theorem VFS.Honours.readAll_lower (h : up.Honours files file) {s : MemFS × σ} {path : Path}
    {d : List Byte} (hu : files s.2 path = none) (hl : s.1.files path = some d) :
    (((overMem up).toVFS.readAll path).run s).1 = .ok d := by
  obtain ⟨e, u₁, hlookup, -⟩ := h.lookup_none s.2 path hu
  obtain ⟨st, hst, hsize⟩ := MemFS.stat_run hl
  have hfound : ((overMem up).toVFS.lookup path).run s = (.ok (.inl path), s.1, u₁) := by
    show ((overMem up).lookup path).run s = _
    unfold OverlayFS.lookup
    refine (bind_ok (attempt_error (onSnd_run hlookup))).trans ?_
    exact bind_ok (onFst_run (MemFS.lookup_some hl))
  have hstat : ((overMem up).toVFS.stat (.inl path)).run (s.1, u₁) = (.ok st, s.1, u₁) :=
    onFst_run hst
  have hloop : ((overMem up).toVFS.readLoop (.inl path) d.length d.length []).run (s.1, u₁) =
      (.ok d, s.1, u₁) := VFS.readLoop_whole (onFst_run (MemFS.read_whole hl))
  unfold VFS.readAll
  rw [bind_ok hfound, bind_ok hstat, hsize, hloop]

/-! ## Opening a file of the lower layer -/

/-- The flags `copy_up` opens the upper file with. -/
def seedFlags : OpenFlags := OpenFlags.write ||| OpenFlags.create ||| OpenFlags.truncate

/-- How copying `d` up ends, with the upper layer in the state `u` when it opens the file. -/
inductive Copied (up : VFS σ ν) (files : σ → Files) (file : ν → Path) (path : Path)
    (d : List Byte) (u : σ) : Except Error ν → σ → Prop where
  | notOpened {e : Error} {u₁ : σ} (hopen : (up.open_ path seedFlags).run u = (.error e, u₁))
      (hfiles : files u₁ = files u) : Copied up files file path d u (.error e) u₁
  | notWritten {fh : FileHandle} {v : ν} {e : Error} {u₁ u₂ u₃ : σ}
      (hopen : (up.open_ path seedFlags).run u = (.ok fh, u₁))
      (hlookup : (up.lookup path).run u₁ = (.ok v, u₂))
      (hwrite : (up.write v 0 d).run u₂ = (.error e, u₃))
      (hfiles : files u₃ path = some []) : Copied up files file path d u (.error e) u₃
  | written {fh : FileHandle} {v : ν} {w : Nat} {u₁ u₂ u₃ : σ}
      (hopen : (up.open_ path seedFlags).run u = (.ok fh, u₁))
      (hlookup : (up.lookup path).run u₁ = (.ok v, u₂))
      (hwrite : (up.write v 0 d).run u₂ = (.ok w, u₃)) (hle : w ≤ d.length)
      (hfile : file v = path) (hfiles : files u₃ path = some (d.take w)) :
      Copied up files file path d u (.ok v) u₃

/-- The part of `copy_up` after the lower file was read. -/
def seedUpper (up : VFS σ ν) (path : Path) (d : List Byte) : FsM σ ν := do
  let _ ← up.open_ path seedFlags
  let v ← up.lookup path
  let _ ← up.write v 0 d
  pure v

theorem VFS.Honours.seedUpper_copied (h : up.Honours files file) {u : σ} {path : Path}
    (hu : files u path = none) (d : List Byte) :
    Copied up files file path d u ((seedUpper up path d).run u).1
      ((seedUpper up path d).run u).2 := by
  unfold seedUpper
  rcases h.open_new u path seedFlags hu rfl with ⟨e, u₁, hopen, hf₁⟩ | ⟨fh, u₁, hopen, hf₁⟩
  · rw [bind_error hopen]
    exact .notOpened hopen hf₁
  · have hempty : files u₁ path = some [] := by rw [hf₁, Function.update_self]
    obtain ⟨v, u₂, hlookup, hv, hf₂⟩ := h.lookup_some u₁ path [] hempty
    have hempty₂ : files u₂ (file v) = some [] := by rw [hf₂, hv, hempty]
    rw [bind_ok hopen, bind_ok hlookup]
    rcases h.write u₂ v [] 0 d hempty₂ with ⟨e, u₃, hwrite, hf₃⟩ | ⟨w, u₃, hwrite, hle, hf₃⟩
    · rw [bind_error hwrite]
      exact .notWritten hopen hlookup hwrite (by rw [hf₃, ← hv, hempty₂])
    · rw [bind_ok hwrite]
      refine .written hopen hlookup hwrite hle hv ?_
      show files u₃ path = _
      rw [hf₃, hv, Function.update_self, spliced_zero, List.drop_nil, List.append_nil]

/-- The upper layer after it was searched for the path, by `open` and again by `copy_up`. -/
def searched (up : VFS σ ν) (path : Path) (u : σ) : σ :=
  ((up.lookup path).run ((up.lookup path).run u).2).2

theorem VFS.Honours.searched_files (h : up.Honours files file) {u : σ} {path : Path}
    (hu : files u path = none) : files (searched up path u) = files u := by
  obtain ⟨e₁, u₁, hlook₁, hf₁⟩ := h.lookup_none u path hu
  obtain ⟨e₂, u₂, hlook₂, hf₂⟩ := h.lookup_none u₁ path (by rw [hf₁, hu])
  rw [searched, hlook₁, hlook₂, hf₂, hf₁]

theorem copyUp_run {s : MemFS × σ} {path : Path} {d : List Byte} {e : Error} {u : σ}
    (hlookup : (up.lookup path).run s.2 = (.error e, u)) (hl : s.1.files path = some d) :
    ((overMem up).copyUp path).run s =
      (((seedUpper up path d).run u).1, s.1, ((seedUpper up path d).run u).2) := by
  obtain ⟨st, hst, hsize⟩ := MemFS.stat_run hl
  have hloop := VFS.readLoop_whole (MemFS.read_whole hl)
  rw [← hsize] at hloop
  show (OverlayFS.copyUp ⟨memFS, some up⟩ path).run s = _
  unfold OverlayFS.copyUp
  refine (bind_ok (attempt_error (onSnd_run hlookup))).trans ?_
  refine (bind_ok (onFst_run (MemFS.lookup_some hl))).trans ?_
  refine (bind_ok (onFst_run hst)).trans ?_
  refine (bind_ok (onFst_run hloop)).trans ?_
  have hseed : (onSnd (seedUpper up path d) : FsM (MemFS × σ) ν) = (do
      let _ ← onSnd (up.open_ path seedFlags)
      let v ← onSnd (up.lookup path)
      let _ ← onSnd (up.write v 0 d)
      pure v) := by
    simp only [seedUpper, onSnd_bind, onSnd_pure]
  exact (congrArg (fun x => x.run (s.1, u)) hseed).symm

/-- Opening a file that only the lower layer has, for writing or with `Create`: if the file was
    copied up its handle is given, else the error. -/
theorem VFS.Honours.open_copied (h : up.Honours files file) {s : MemFS × σ} {path : Path}
    {d : List Byte} (hu : files s.2 path = none) (hl : s.1.files path = some d) {flags : OpenFlags}
    (hf : (flags.has OpenFlags.write || flags.has OpenFlags.create) = true) :
    ∃ r u, Copied up files file path d (searched up path s.2) r u ∧
      match r with
      | .error e => ((overMem up).open_ path flags).run s = (.error e, s.1, u)
      | .ok _ => ∃ fh u', ((overMem up).open_ path flags).run s = (.ok fh, s.1, u') ∧
          files u' path = files u path := by
  obtain ⟨e₁, u₁, hlook₁, hf₁⟩ := h.lookup_none s.2 path hu
  obtain ⟨e₂, u₂, hlook₂, hf₂⟩ := h.lookup_none u₁ path (by rw [hf₁, hu])
  have hsearch : searched up path s.2 = u₂ := by rw [searched, hlook₁, hlook₂]
  have hcopied := h.seedUpper_copied (u := u₂) (by rw [hf₂, hf₁, hu]) d
  have hrun := copyUp_run (s := (s.1, u₁)) hlook₂ hl
  have hhead : ((overMem up).openUpper path flags).run s = (.ok none, s.1, u₁) := by
    unfold OverlayFS.openUpper
    exact bind_ok (attempt_error (onSnd_run hlook₁))
  rw [hsearch]
  refine ⟨_, _, hcopied, ?_⟩
  cases hseed : (seedUpper up path d).run u₂ with
  | mk r u =>
    rw [hseed] at hcopied hrun
    cases r with
    | error e =>
      have hmid : ((overMem up).openLower path flags).run (s.1, u₁) = (.error e, s.1, u) := by
        unfold OverlayFS.openLower
        refine (bind_ok (attempt_ok (onFst_run (MemFS.lookup_some hl)))).trans ?_
        simp only [hf, if_true]
        exact bind_error hrun
      exact (bind_ok hhead).trans (bind_error hmid)
    | ok v =>
      obtain ⟨d', hpath⟩ : ∃ d', files u (file v) = some d' := by
        cases hcopied with
        | written hopen hlookup hwrite hle hfile hfiles => exact ⟨_, hfile ▸ hfiles⟩
      obtain ⟨vh, u', hhandle, hf'⟩ := h.handle u v d' hpath
      have hmid : ((overMem up).openLower path flags).run (s.1, u₁) =
          (.ok (some ⟨path, flags, vh⟩), s.1, u') := by
        unfold OverlayFS.openLower
        refine (bind_ok (attempt_ok (onFst_run (MemFS.lookup_some hl)))).trans ?_
        simp only [hf, if_true]
        refine (bind_ok hrun).trans ?_
        exact bind_ok (onSnd_run hhandle)
      exact ⟨_, u', (bind_ok hhead).trans (bind_ok hmid), congrFun hf' path⟩

/-! ## All or nothing -/

/-- What a copy-up should do: when `open` succeeds the upper file is the lower one, and when it
    fails a reader of the overlay sees what was there before. -/
structure AllOrNothing (up : VFS σ ν) (files : σ → Files) (path : Path) (d : List Byte)
    (s : MemFS × σ) (r : Except Error FileHandle × (MemFS × σ)) : Prop where
  copied : (∃ fh, r.1 = .ok fh) → files r.2.2 path = some d
  kept : (∃ e, r.1 = .error e) → (((overMem up).toVFS.readAll path).run r.2).1 =
    (((overMem up).toVFS.readAll path).run s).1

/-- Where the upper layer opens the file, its write takes all the bytes there are. -/
def TakesAll (up : VFS σ ν) (path : Path) (d : List Byte) (u : σ) : Prop :=
  ∀ fh u₁ v u₂, (up.open_ path seedFlags).run u = (.ok fh, u₁) →
    (up.lookup path).run u₁ = (.ok v, u₂) → d ≠ [] → ((up.write v 0 d).run u₂).1 = .ok d.length

/-- Once the upper file is open, only its write counts. -/
theorem takesAll_iff {path : Path} {d : List Byte} {u u₁ u₂ : σ} {fh : FileHandle} {v : ν}
    (hopen : (up.open_ path seedFlags).run u = (.ok fh, u₁))
    (hlookup : (up.lookup path).run u₁ = (.ok v, u₂)) :
    TakesAll up path d u ↔ (d ≠ [] → ((up.write v 0 d).run u₂).1 = .ok d.length) := by
  constructor
  · intro h hne
    exact h _ _ _ _ hopen hlookup hne
  · intro h fh' u₁' v' u₂' hopen' hlookup'
    cases hopen.symm.trans hopen'
    cases hlookup.symm.trans hlookup'
    exact h

theorem allOrNothing_error {path : Path} {d : List Byte} {s : MemFS × σ} {e : Error}
    {r : MemFS × σ} :
    AllOrNothing up files path d s (.error e, r) ↔
      (((overMem up).toVFS.readAll path).run r).1 =
        (((overMem up).toVFS.readAll path).run s).1 := by
  constructor
  · intro h
    exact h.kept ⟨e, rfl⟩
  · intro h
    exact ⟨fun ⟨_, hok⟩ => (by cases hok), fun _ => h⟩

theorem allOrNothing_ok {path : Path} {d : List Byte} {s : MemFS × σ} {fh : FileHandle}
    {r : MemFS × σ} :
    AllOrNothing up files path d s (.ok fh, r) ↔ files r.2 path = some d := by
  constructor
  · intro h
    exact h.copied ⟨fh, rfl⟩
  · intro h
    exact ⟨fun _ => h, fun ⟨_, herr⟩ => (by cases herr)⟩

/-- A copy-up is all or nothing exactly when the upper layer refuses to open the file, or its write
    takes all the bytes there are. -/
theorem copy_up_all_or_nothing_iff (h : up.Honours files file) {s : MemFS × σ} {path : Path}
    {d : List Byte} (hl : s.1.files path = some d) (hu : files s.2 path = none) {flags : OpenFlags}
    (hf : (flags.has OpenFlags.write || flags.has OpenFlags.create) = true) :
    AllOrNothing up files path d s (((overMem up).open_ path flags).run s) ↔
      TakesAll up path d (searched up path s.2) := by
  have hbefore := h.readAll_lower hu hl
  obtain ⟨r, u, hcopied, hrun⟩ := h.open_copied hu hl hf
  cases hcopied with
  | notOpened hopen hfiles =>
    have hrun : ((overMem up).open_ path flags).run s = (.error _, s.1, u) := hrun
    have hafter := h.readAll_lower (s := (s.1, u)) (by rw [hfiles, h.searched_files hu, hu]) hl
    rw [hrun, allOrNothing_error, hafter, hbefore]
    refine iff_of_true rfl ?_
    intro fh u₁ v u₂ hok
    rw [hopen] at hok
    cases hok
  | notWritten hopen hlookup hwrite hfiles =>
    have hrun : ((overMem up).open_ path flags).run s = (.error _, s.1, u) := hrun
    have hafter := h.readAll_upper (s := (s.1, u)) hfiles
    rw [takesAll_iff hopen hlookup, hwrite, hrun, allOrNothing_error, hafter, hbefore]
    constructor
    · intro hkept hne
      cases hkept
      exact absurd rfl hne
    · intro htakes
      have hnil : d = [] := by
        by_contra hne
        cases htakes hne
      rw [hnil]
  | @written _ _ w _ _ _ hopen hlookup hwrite hle hfile hfiles =>
    obtain ⟨fh, u', hrun, hu'⟩ := hrun
    rw [takesAll_iff hopen hlookup, hwrite, hrun, allOrNothing_ok, hu', hfiles]
    constructor
    · intro hcopied _
      have hlen := congrArg List.length (Option.some.inj hcopied)
      rw [List.length_take, Nat.min_eq_left hle] at hlen
      exact congrArg Except.ok hlen
    · intro htakes
      by_cases hnil : d = []
      · rw [hnil, List.take_nil]
      · cases htakes hnil
        rw [List.take_length]

/-- An in-memory file system whose writes take at most `k` bytes. -/
def limited (k : Nat) : VFS MemFS Path :=
  { memFS with write := fun v offset buf => memFS.write v offset (buf.take k) }

theorem limited_honours (k : Nat) : (limited k).Honours MemFS.files id where
  lookup_none _ _ h := ⟨_, _, MemFS.lookup_none h, rfl⟩
  lookup_some _ path _ h := ⟨path, _, MemFS.lookup_some h, rfl, rfl⟩
  open_new _ _ _ h hc := Or.inr (MemFS.open_new h hc)
  handle s v d h := by
    obtain ⟨vh, hrun⟩ := MemFS.handle_run h
    exact ⟨vh, s, hrun, rfl⟩
  stat s v d h := by
    obtain ⟨st, hrun, hsize⟩ := MemFS.stat_run h
    exact ⟨st, s, hrun, hsize, rfl⟩
  read s _ d offset size h hoff :=
    ⟨_, s, MemFS.read_run h hoff size, ⟨List.prefix_refl _, id⟩, rfl⟩
  write s v d offset buf h := by
    obtain ⟨s', hrun, hf⟩ := MemFS.write_run h offset (buf.take k)
    have hsame : buf.take (buf.take k).length = buf.take k := by
      rw [List.length_take, List.take_eq_take_iff]
      omega
    exact Or.inr ⟨_, s', hrun, (List.take_sublist k buf).length_le, by rw [hsame]; exact hf⟩

theorem copy_up_all_or_nothing_iff_limited :
    AllOrNothing (limited 4) MemFS.files "f" [1, 2, 3] (oneFile, {})
        (((overMem (limited 4)).open_ "f" OpenFlags.write).run (oneFile, {})) ↔
      TakesAll (limited 4) "f" [1, 2, 3] (searched (limited 4) "f" {}) :=
  copy_up_all_or_nothing_iff (limited_honours 4) (s := (oneFile, {})) rfl rfl rfl

/-- Over an upper layer that writes a byte at a time, `open` succeeds and the file of three bytes is
    left with one. -/
theorem copy_up_cuts :
    (limited 1).Honours MemFS.files id ∧
      (((overMem (limited 1)).open_ "f" OpenFlags.write).run (oneFile, {})).1 =
        .ok ⟨"f", OpenFlags.write, ⟨1, 1⟩⟩ ∧
      (((overMem (limited 1)).open_ "f" OpenFlags.write).run (oneFile, {})).2.2.files "f" =
        some [1] ∧
      ¬ AllOrNothing (limited 1) MemFS.files "f" [1, 2, 3] (oneFile, {})
        (((overMem (limited 1)).open_ "f" OpenFlags.write).run (oneFile, {})) := by
  have hopen : (((overMem (limited 1)).open_ "f" OpenFlags.write).run (oneFile, {})).1 =
      .ok ⟨"f", OpenFlags.write, ⟨1, 1⟩⟩ := rfl
  have hleft : (((overMem (limited 1)).open_ "f" OpenFlags.write).run
      (oneFile, {})).2.2.files "f" = some [1] := rfl
  refine ⟨limited_honours 1, hopen, hleft, fun h => ?_⟩
  have hcopied := h.copied ⟨_, hopen⟩
  rw [hleft] at hcopied
  cases hcopied

end NeuroVerse.Fs
