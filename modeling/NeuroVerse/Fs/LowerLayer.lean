/-
  The lower layer of an overlay under everything a caller can do with it.

  A `Session` is an overlay with the VNodes its `lookup` has returned so far; a caller reads,
  writes and truncates through any of them at any later time. The overlay means its lower layer
  to be read-only. No operation by path changes it, but `lookup` hands out the lower layer's own
  VNode for a path that only the lower layer has, and writes through it land there
  (`write_through_lookup`). `lower_unchanged_iff`: the lower layer keeps its files exactly in the
  runs in which every write through such a VNode writes what is there already.
-/
import NeuroVerse.Fs.OverlayFS

namespace NeuroVerse.Fs

open NeuroVerse.Lib

structure Session where
  fs : MemFS × MemFS
  vnodes : List (Path ⊕ Path) := []

/-- What a caller does; a VNode is named by its position among those looked up. -/
inductive Call where
  | lookup (path : Path)
  | byPath (op : FsOp)
  | read (vnode offset size : Nat)
  | write (vnode offset : Nat) (buf : List Byte)
  | truncate (vnode size : Nat)

namespace Session

/-- A member function of a VNode looked up before. -/
def onVNode {α : Type} (s : Session) (k : Nat) (f : Path ⊕ Path → FsM (MemFS × MemFS) α) :
    Session :=
  match s.vnodes[k]? with
  | none => s
  | some v => { s with fs := ((f v).run s.fs).2 }

def step (s : Session) : Call → Session
  | .lookup path =>
    match (overlay.lookup path).run s.fs with
    | (.ok v, fs) => { fs := fs, vnodes := s.vnodes ++ [v] }
    | (.error _, fs) => { s with fs := fs }
  | .byPath op => { s with fs := (overlay.exec s.fs op).2 }
  | .read k offset size => s.onVNode k fun v => overlay.read v offset size
  | .write k offset buf => s.onVNode k fun v => overlay.write v offset buf
  | .truncate k size => s.onVNode k fun v => overlay.truncate v size

/-- The paths of the lower layer with their bytes. -/
def lowerFiles (s : Session) : Files := s.fs.1.files

/-- The lower layer has the files it started with at every point of the run. -/
def LowerUnchanged (L U : MemFS) (calls : List Call) : Prop :=
  ∀ pre, pre <+: calls → (run step { fs := (L, U) } pre).lowerFiles = L.files

/-- The file of the lower layer that a VNode looked up before stands for. -/
def lowerData (s : Session) (k : Nat) : Option (List Byte) :=
  match s.vnodes[k]? with
  | some (.inl path) => s.lowerFiles path
  | _ => none

/-- A write or a truncation through a VNode of the lower layer leaves its bytes as they are. -/
def Harmless (s : Session) : Call → Prop
  | .lookup _ => True
  | .byPath _ => True
  | .read _ _ _ => True
  | .write k offset buf => ∀ d ∈ s.lowerData k,
      offset + buf.length ≤ d.length ∧ (d.drop offset).take buf.length = buf
  | .truncate k size => ∀ d ∈ s.lowerData k, size = d.length

instance (s : Session) : (c : Call) → Decidable (Harmless s c)
  | .lookup _ => inferInstanceAs (Decidable True)
  | .byPath _ => inferInstanceAs (Decidable True)
  | .read _ _ _ => inferInstanceAs (Decidable True)
  | .write _ _ _ => inferInstanceAs (Decidable (∀ d ∈ _, _ ∧ _))
  | .truncate _ _ => inferInstanceAs (Decidable (∀ d ∈ _, _))

/-! ## One call -/

theorem lookup_fs (s : MemFS × MemFS) (path : Path) : ((overlay.lookup path).run s).2 = s := by
  cases hu : s.2.files path with
  | some d => rw [OverlayFS.lookup_upper hu]
  | none =>
    cases hl : s.1.files path with
    | some d => rw [OverlayFS.lookup_lower hu hl]
    | none => rw [OverlayFS.lookup_none (by rw [view_lower hu, hl])]

theorem step_lookup (s : Session) (path : Path) :
    (s.step (.lookup path)).lowerFiles = s.lowerFiles := by
  have hfs := lookup_fs s.fs path
  rw [lowerFiles, step]
  split <;>
  · rename_i heq
    rw [heq] at hfs
    rw [lowerFiles, ← hfs]

/-- What a member function does to the lower layer: nothing through an upper VNode, and through
    a lower VNode what it does to the bytes there. -/
theorem onVNode_lowerFiles_iff {α : Type} (s : Session) (k : Nat)
    {f : Path ⊕ Path → FsM (MemFS × MemFS) α} {g : Path → FsM MemFS α} (ok : List Byte → Prop)
    (hupper : ∀ path, ((f (.inr path)).run s.fs).2.1 = s.fs.1)
    (hlower : ∀ path, ((f (.inl path)).run s.fs).2.1 = ((g path).run s.fs.1).2)
    (hmissing : ∀ path, s.fs.1.files path = none → ((g path).run s.fs.1).2 = s.fs.1)
    (hok : ∀ path d, s.fs.1.files path = some d →
      (((g path).run s.fs.1).2.files = s.fs.1.files ↔ ok d)) :
    (s.onVNode k f).lowerFiles = s.lowerFiles ↔ ∀ d ∈ s.lowerData k, ok d := by
  unfold onVNode lowerData
  split
  · rename_i hk
    simp [hk]
  · rename_i v hk
    rw [hk]
    cases v with
    | inr path =>
      show ((f (.inr path)).run s.fs).2.1.files = _ ↔ _
      rw [hupper path]
      simp [lowerFiles]
    | inl path =>
      show ((f (.inl path)).run s.fs).2.1.files = s.fs.1.files ↔ ∀ d ∈ s.fs.1.files path, ok d
      rw [hlower path]
      cases hd : s.fs.1.files path with
      | none => simp [hmissing path hd]
      | some d =>
        rw [hok path d hd]
        simp

theorem update_files_eq_iff {L : MemFS} {path : Path} {d : List Byte} (h : L.files path = some d)
    (d' : List Byte) : Function.update L.files path (some d') = L.files ↔ d' = d := by
  rw [Function.update_eq_self_iff, h, Option.some.injEq]

theorem step_lowerFiles_iff (s : Session) (c : Call) :
    (s.step c).lowerFiles = s.lowerFiles ↔ s.Harmless c := by
  cases c with
  | lookup path => exact ⟨fun _ => trivial, fun _ => step_lookup s path⟩
  | byPath op =>
    have hl := (OverlayFS.exec_overlay s.fs op).lower
    refine ⟨fun _ => trivial, fun _ => ?_⟩
    rw [lowerFiles, step, hl, lowerFiles]
  | read k offset size =>
    have h := onVNode_lowerFiles_iff s k (f := fun v => overlay.read v offset size)
      (g := fun path => memFS.read path offset size) (fun _ => True) (fun _ => rfl)
      (fun _ => rfl) (fun path _ => MemFS.readNode_state s.fs.1 path _)
      (fun path _ _ => ⟨fun _ => trivial,
        fun _ => congrArg MemFS.files (MemFS.readNode_state s.fs.1 path _)⟩)
    exact ⟨fun _ => trivial, fun _ => h.mpr fun _ _ => trivial⟩
  | write k offset buf =>
    refine onVNode_lowerFiles_iff s k (g := fun path => memFS.write path offset buf) _
      (fun _ => rfl) (fun _ => rfl) (fun path h => MemFS.onNode_missing h _) fun path d h => ?_
    obtain ⟨L, hrun, hL⟩ := MemFS.write_run h offset buf
    rw [hrun, hL, update_files_eq_iff h, spliced_eq_self_iff]
  | truncate k size =>
    refine onVNode_lowerFiles_iff s k (g := fun path => memFS.truncate path size) _
      (fun _ => rfl) (fun _ => rfl) (fun path h => MemFS.onNode_missing h _) fun path d h => ?_
    obtain ⟨L, hrun, hL⟩ := MemFS.truncate_run h size
    rw [hrun, hL, update_files_eq_iff h, resize_eq_self_iff]

/-- The lower layer keeps its files exactly in the runs in which every write and truncation
    through one of its own VNodes leaves the bytes as they are. -/
theorem lower_unchanged_iff (L U : MemFS) (calls : List Call) :
    LowerUnchanged L U calls ↔ StepsMeet step Harmless { fs := (L, U) } calls := by
  have h := unchanged_iff step lowerFiles { fs := (L, U) } calls
  simp only [step_lowerFiles_iff] at h
  exact h

/-- Looking the file up and writing through the VNode returned changes the lower layer. -/
theorem write_through_lookup : ¬ ∀ L U calls, LowerUnchanged L U calls := by
  intro h
  have hf := congrFun (h oneFile {} [.lookup "f", .write 0 0 [9]] _ (List.prefix_refl _)) "f"
  revert hf
  decide

end Session

end NeuroVerse.Fs
