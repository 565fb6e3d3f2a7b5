/-
  The overlay against one plain file system that holds the merged files.

  `RunsAsPlain L U ops` is the promise of the overlay: every operation of the run succeeds,
  fails and returns bytes as it does on the plain file system, and so would a `read_all` at any
  point. `open` keeps it for a path no layer has. For a path that is there it drops the flags:
  `Create | Exclusive` succeeds and `Truncate` does not truncate, neither on the upper file nor
  on the copy, so `write_all` over a longer file leaves the old tail. `overlay_runs_as_plain_iff`:
  the promise is kept exactly in the runs that never ask for either where it would matter.
-/
import NeuroVerse.Fs.OverlayFS

namespace NeuroVerse.Fs

open NeuroVerse.Lib

/-- The plain file system with the merged files. -/
def flat (L U : MemFS) : MemFS := { nodes := U.nodes ∪ L.nodes, nextId := U.nextId }

theorem files_flat (L U : MemFS) : (flat L U).files = view (L, U) := by
  funext path
  show ((U.nodes ∪ L.nodes).lookup path).map MemVNode.data =
    ((U.nodes.lookup path).map MemVNode.data).or ((L.nodes.lookup path).map MemVNode.data)
  by_cases h : path ∈ U.nodes
  · obtain ⟨n, hn⟩ := Option.isSome_iff_exists.mp (AList.lookup_isSome.mpr h)
    rw [AList.lookup_union_left h, hn]
    rfl
  · rw [AList.lookup_union_right h, AList.lookup_eq_none.mpr h]
    rfl

/-- Every operation of the run gives its caller what the plain file system gives, and a
    `read_all` of any path at any point would too. -/
structure RunsAsPlain (L U : MemFS) (ops : List FsOp) : Prop where
  results : results overlay.exec (L, U) ops = results memFS.exec (flat L U) ops
  reads : ∀ pre, pre <+: ops → ∀ path,
    (overlay.exec (finalState overlay.exec (L, U) pre) (.readAll path)).1 =
      (memFS.exec (finalState memFS.exec (flat L U) pre) (.readAll path)).1

/-- The operation asks for nothing that the overlay drops: for a path that is there, no
    `Create | Exclusive`, no `Truncate` unless the file is empty, no `write_all` of fewer bytes
    than the file has. -/
def Undropped (f : Files) : FsOp → Prop
  | .open_ path flags => ∀ d ∈ f path,
      (flags.has OpenFlags.exclusive && flags.has OpenFlags.create) = false ∧
        (flags.has OpenFlags.truncate = true → d = [])
  | .writeAll path bytes => ∀ d ∈ f path, d.length ≤ bytes.length
  | .append _ _ => True
  | .readAll _ => True

instance (f : Files) : (op : FsOp) → Decidable (Undropped f op)
  | .open_ _ _ => inferInstanceAs (Decidable (∀ d ∈ _, _ ∧ (_ → _)))
  | .writeAll _ _ => inferInstanceAs (Decidable (∀ d ∈ _, _))
  | .append _ _ => inferInstanceAs (Decidable True)
  | .readAll _ => inferInstanceAs (Decidable True)

theorem update_eq_iff (f : Files) (path : Path) (d d' : List Byte) :
    Function.update f path (some d) = Function.update f path (some d') ↔ d = d' := by
  constructor
  · intro h
    have hp := congrFun h path
    rw [Function.update_self, Function.update_self] at hp
    exact Option.some.inj hp
  · rintro rfl
    rfl

theorem open_eq_iff (f : Files) (path : Path) (flags : OpenFlags) :
    overlayStep f (.open_ path flags) = plainStep f (.open_ path flags) ↔
      Undropped f (.open_ path flags) := by
  rw [overlayStep, plainStep]
  unfold Undropped
  cases hf : f path with
  | none => simp [hf]
  | some d =>
    have hself : f = Function.update f path (some d) := by rw [← hf, Function.update_eq_self]
    dsimp only
    cases hx : flags.has OpenFlags.exclusive && flags.has OpenFlags.create with
    | true => simp [hf]
    | false =>
      cases ht : flags.has OpenFlags.truncate with
      | false => simp
      | true =>
        rw [if_neg Bool.false_ne_true, if_pos rfl, Prod.mk.injEq]
        conv => lhs; rhs; lhs; rw [hself]
        rw [update_eq_iff]
        simp [hf]

/-- The overlay does to a file what a plain file system does exactly when nothing asked for is
    dropped. -/
theorem overlayStep_eq_iff (f : Files) (op : FsOp) :
    overlayStep f op = plainStep f op ↔ Undropped f op := by
  cases op with
  | open_ path flags => exact open_eq_iff f path flags
  | writeAll path bytes =>
    rw [overlayStep, plainStep, Prod.mk.injEq, update_eq_iff]
    unfold Undropped
    cases hf : f path <;> simp [hf]
  | append path bytes => exact ⟨fun _ => trivial, fun _ => rfl⟩
  | readAll path => exact ⟨fun _ => trivial, fun _ => rfl⟩

/-- Reading every path tells what the files are. -/
theorem reads_eq_iff (f g : Files) :
    (∀ path, (overlayStep f (.readAll path)).1 = (plainStep g (.readAll path)).1) ↔ f = g := by
  constructor
  · intro h
    funext path
    have hp := h path
    rw [overlayStep, plainStep] at hp
    cases hf : f path <;> cases hg : g path <;> rw [hf, hg] at hp
    · cases hp
    · cases hp
    · rw [Except.ok.inj hp]
  · rintro rfl path
    rfl

/-- The overlay runs as a plain file system exactly when no operation of the run asks, for a
    path that is there, for something `open` drops. -/
theorem overlay_runs_as_plain_iff (L U : MemFS) (ops : List FsOp) :
    RunsAsPlain L U ops ↔
      StepsMeet (fun s op => (overlay.exec s op).2) (fun s op => Undropped (view s) op)
        (L, U) ops := by
  have hsim := simulation overlay.exec overlayStep view
    (fun s op => ⟨(OverlayFS.exec_overlay s op).seen, (OverlayFS.exec_overlay s op).view⟩) (L, U)
  have hplain := simulation memFS.exec plainStep MemFS.files
    MemFS.exec_memFS (flat L U)
  rw [files_flat] at hplain
  -- what is read after a prefix is read from the abstract states
  have hreads : ∀ pre, (∀ path,
      (overlay.exec (finalState overlay.exec (L, U) pre) (.readAll path)).1 =
        (memFS.exec (finalState memFS.exec (flat L U) pre) (.readAll path)).1) ↔
      finalState overlayStep (view (L, U)) pre = finalState plainStep (view (L, U)) pre := by
    intro pre
    rw [← (hsim pre).2, ← (hplain pre).2, ← reads_eq_iff]
    refine forall_congr' fun path => ?_
    rw [(OverlayFS.exec_overlay _ _).seen, (MemFS.exec_memFS _ _).1]
  have habs := stepsMeet_abs (fun s op => (overlay.exec s op).2)
    (fun f op => (overlayStep f op).2) view
    (fun s op => (OverlayFS.exec_overlay s op).view) Undropped (L, U) ops
  rw [habs]
  have hlock := lockstep_iff overlayStep plainStep (view (L, U)) ops
  simp only [overlayStep_eq_iff] at hlock
  rw [← hlock]
  constructor
  · rintro ⟨hr, hs⟩
    rw [(hsim ops).1, (hplain ops).1] at hr
    exact ⟨hr, fun pre hp => (hreads pre).mp (hs pre hp)⟩
  · rintro ⟨hr, hs⟩
    refine ⟨?_, fun pre hp => (hreads pre).mpr (hs pre hp)⟩
    rw [(hsim ops).1, (hplain ops).1]
    exact hr

/-- `write_all` of one byte over the file of three leaves the last two. -/
theorem write_all_keeps_tail :
    ¬ ∀ L U ops, results overlay.exec (L, U) ops = results memFS.exec (flat L U) ops := by
  intro h
  have hr := h oneFile {} [.writeAll "f" [9], .readAll "f"]
  revert hr
  decide

end NeuroVerse.Fs
