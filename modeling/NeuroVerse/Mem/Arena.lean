/-
  The bump allocator `Arena`.

  `allocate` rounds the cursor up, adds the size and compares the sum with the end of the
  region, all in wrapping 64-bit arithmetic. `allocate_cases` says what it does when the sum of
  the natural numbers does not come back below the end (`Fits`), `allocate_of_not_fits` what it
  does when it does: it hands out a block that reaches past the address space. A run of the
  arena keeps its promises as long as its allocations fit, and at any non-null base no longer.
-/
import NeuroVerse.Lib.Align
import NeuroVerse.Lib.Memory
import NeuroVerse.Lib.Run
import Mathlib.Order.Interval.Set.Disjoint

namespace NeuroVerse.Mem

open Lib

/-! ## The allocator -/

structure Checkpoint where
  offset : BitVec 64
deriving DecidableEq

structure Arena where
  base : Address
  cursor : Address
  end_ : Address
  size : BitVec 64
deriving DecidableEq

namespace Arena

/-- The alignment of `allocate` when the caller names none. -/
def defaultAlign : PowTwo := { val := 16, log := 4, log_lt := by decide, toNat_val := by decide }

/-- The arena over the `bytes` bytes that `operator new` found at `base`. -/
def new (base : Address) (bytes : BitVec 64) : Arena :=
  { base := base, cursor := base, end_ := base + bytes, size := bytes }

/-- No address is the thrown `std::bad_alloc`. -/
def allocate (a : Arena) (n align : BitVec 64) : Option Address × Arena :=
  let aligned := alignUp a.cursor align
  let next := aligned + n
  if next > a.end_ then (none, a) else (some aligned, { a with cursor := next })

def reserve (a : Arena) (n align : BitVec 64) : Option Address × Arena := a.allocate n align

def reset (a : Arena) : Arena := { a with cursor := a.base }

def used (a : Arena) : BitVec 64 := a.cursor - a.base

def save (a : Arena) : Checkpoint := { offset := a.used }

def resetTo (a : Arena) (cp : Checkpoint) : Arena :=
  let target := a.base + cp.offset
  if target < a.cursor then { a with cursor := target } else a

end Arena

/-! ## A client's session -/

/-- A block handed out by `allocate`. -/
structure Block where
  addr : Address
  size : BitVec 64
  align : PowTwo

/-- The end of a block is a natural number: a block may reach past the address space. -/
def Block.end_ (b : Block) : Nat := b.addr.toNat + b.size.toNat

def Block.cells (b : Block) : Set Nat := Set.Ico b.addr.toNat b.end_

/-- The arena, the checkpoints saved so far, the blocks returned so far and those of them that
    no rewind has released, the latest first. -/
structure Session where
  arena : Arena
  saved : List Checkpoint
  returned : List Block
  live : List Block

inductive Op where
  | allocate (n : BitVec 64) (align : PowTwo)
  | reserve (n : BitVec 64) (align : PowTwo)
  | save
  /-- Rewinds to the `i`-th latest checkpoint, if that many were saved. -/
  | resetTo (i : Nat)
  | reset

namespace Session

def start (base : Address) (size : BitVec 64) : Session :=
  { arena := Arena.new base size, saved := [], returned := [], live := [] }

/-- Records what `allocate` returned. -/
def record (s : Session) (n : BitVec 64) (align : PowTwo) (r : Option Address × Arena) :
    Session :=
  match r.1 with
  | none => { s with arena := r.2 }
  | some p =>
    { s with
      arena := r.2
      returned := ⟨p, n, align⟩ :: s.returned
      live := ⟨p, n, align⟩ :: s.live }

/-- A rewind that set the cursor releases the blocks that end above it. -/
def release (s : Session) (a : Arena) : Session :=
  { s with arena := a, live := s.live.filter fun b => b.end_ ≤ a.cursor.toNat }

def resetTo (s : Session) (cp : Checkpoint) : Session :=
  if s.arena.base + cp.offset < s.arena.cursor then s.release (s.arena.resetTo cp)
  else { s with arena := s.arena.resetTo cp }

def step (s : Session) : Op → Session
  | .allocate n align => s.record n align (s.arena.allocate n align.val)
  | .reserve n align => s.record n align (s.arena.reserve n align.val)
  | .save => { s with saved := s.arena.save :: s.saved }
  | .resetTo i =>
    match s.saved[i]? with
    | none => s
    | some cp => s.resetTo cp
  | .reset => s.release s.arena.reset

end Session

open Session

/-- The block is aligned and lies inside the arena's region. -/
structure Placed (a : Arena) (b : Block) : Prop where
  aligned : b.align.val.toNat ∣ b.addr.toNat
  base_le : a.base ≤ b.addr
  le_end : b.end_ ≤ a.end_.toNat

/-- What the arena promises of a state of a session. -/
structure Sound (s : Session) : Prop where
  base_le : s.arena.base ≤ s.arena.cursor
  le_end : s.arena.cursor ≤ s.arena.end_
  placed : ∀ b ∈ s.returned, Placed s.arena b
  disjoint : s.live.Pairwise fun b c => Disjoint b.cells c.cells
  throws : ∀ n align, (s.arena.allocate n align).1 = none →
    (s.arena.allocate n align).2 = s.arena

/-- The rounded cursor and the size, added as natural numbers, do not come back below the end
    of the region when the sum wraps. -/
def Fits (a : Arena) (n : BitVec 64) (align : PowTwo) : Prop :=
  roundUp a.cursor.toNat align.val.toNat + n.toNat < 2 ^ 64 ∨
    a.end_.toNat + 2 ^ 64 < roundUp a.cursor.toNat align.val.toNat + n.toNat

/-- The step does not allocate, or its allocation fits. -/
def FitsStep (s : Session) : Op → Prop
  | .allocate n align => Fits s.arena n align
  | .reserve n align => Fits s.arena n align
  | _ => True

instance decFitsStep (s : Session) : (o : Op) → Decidable (FitsStep s o)
  | .allocate _ _ => inferInstanceAs (Decidable (_ ∨ _))
  | .reserve _ _ => inferInstanceAs (Decidable (_ ∨ _))
  | .save => isTrue trivial
  | .resetTo _ => isTrue trivial
  | .reset => isTrue trivial

/-! ## What one call does -/

theorem roundUp_le_two_pow (x : BitVec 64) (a : PowTwo) :
    roundUp x.toNat a.val.toNat ≤ 2 ^ 64 :=
  roundUp_le a.pos (Nat.le_of_lt x.isLt) a.dvd_two_pow

theorem toNat_next (x n : BitVec 64) (a : PowTwo) :
    (alignUp x a.val + n).toNat = (roundUp x.toNat a.val.toNat + n.toNat) % 2 ^ 64 := by
  rw [BitVec.toNat_add, toNat_alignUp, Nat.mod_add_mod]

/-- An allocation that fits throws and changes nothing, or hands out the bytes from the rounded
    cursor on and moves the cursor to their end. -/
theorem allocate_cases (a : Arena) (n : BitVec 64) (align : PowTwo) (h : Fits a n align) :
    a.allocate n align.val = (none, a) ∨
      ∃ p next : Address, a.allocate n align.val = (some p, { a with cursor := next }) ∧
        p.toNat = roundUp a.cursor.toNat align.val.toNat ∧
        next.toNat = p.toNat + n.toNat ∧ next ≤ a.end_ := by
  have hnext := toNat_next a.cursor n align
  have hn := n.isLt
  have hround := roundUp_le_two_pow a.cursor align
  by_cases hend : alignUp a.cursor align.val + n > a.end_
  · left
    simp only [Arena.allocate, if_pos hend]
  · right
    have hle : (alignUp a.cursor align.val + n).toNat ≤ a.end_.toNat := by
      rw [gt_iff_lt, BitVec.lt_def] at hend
      omega
    have hfit : roundUp a.cursor.toNat align.val.toNat + n.toNat < 2 ^ 64 := by
      rcases h with h | h
      · exact h
      · omega
    have hp : (alignUp a.cursor align.val).toNat = roundUp a.cursor.toNat align.val.toNat := by
      rw [toNat_alignUp, Nat.mod_eq_of_lt (by omega)]
    refine ⟨alignUp a.cursor align.val, alignUp a.cursor align.val + n, ?_, hp, ?_, ?_⟩
    · simp only [Arena.allocate, if_neg hend]
    · rw [hnext, hp, Nat.mod_eq_of_lt hfit]
    · exact BitVec.le_def.mpr hle

/-- An allocation that does not fit is granted, and its block starts at the null address or
    reaches past the address space. -/
theorem allocate_of_not_fits (a : Arena) (n : BitVec 64) (align : PowTwo)
    (h : ¬ Fits a n align) :
    ∃ p next : Address, a.allocate n align.val = (some p, { a with cursor := next }) ∧
      (p = 0 ∨ 2 ^ 64 ≤ p.toNat + n.toNat) := by
  have hnext := toNat_next a.cursor n align
  have hn := n.isLt
  have hround := roundUp_le_two_pow a.cursor align
  obtain ⟨hwrap, hback⟩ := not_or.mp h
  have hend : ¬ alignUp a.cursor align.val + n > a.end_ := by
    rw [gt_iff_lt, BitVec.lt_def]
    omega
  refine ⟨alignUp a.cursor align.val, alignUp a.cursor align.val + n, ?_, ?_⟩
  · simp only [Arena.allocate, if_neg hend]
  · have hp := toNat_alignUp a.cursor align
    by_cases hmax : roundUp a.cursor.toNat align.val.toNat = 2 ^ 64
    · left
      apply BitVec.eq_of_toNat_eq
      rw [hp, hmax]
      rfl
    · right
      rw [hp, Nat.mod_eq_of_lt (by omega)]
      omega

theorem allocate_throws (a : Arena) (n align : BitVec 64) (h : (a.allocate n align).1 = none) :
    (a.allocate n align).2 = a := by
  unfold Arena.allocate at h ⊢
  dsimp only at h ⊢
  split
  · rfl
  · next hend =>
    rw [if_neg hend] at h
    cases h

/-! ## What a run keeps -/

/-- The invariant of a run whose allocations fit: live blocks lie below the cursor, and saved
    checkpoints inside the region. -/
structure Held (base : Address) (size : BitVec 64) (s : Session) : Prop where
  base_eq : s.arena.base = base
  end_eq : s.arena.end_.toNat = base.toNat + size.toNat
  base_le : base.toNat ≤ s.arena.cursor.toNat
  le_end : s.arena.cursor.toNat ≤ base.toNat + size.toNat
  placed : ∀ b ∈ s.returned, Placed s.arena b
  below : ∀ b ∈ s.live, b.end_ ≤ s.arena.cursor.toNat
  disjoint : s.live.Pairwise fun b c => Disjoint b.cells c.cells
  saved : ∀ cp ∈ s.saved, cp.offset.toNat ≤ size.toNat

theorem Held.sound {base : Address} {size : BitVec 64} {s : Session} (h : Held base size s) :
    Sound s where
  base_le := by rw [h.base_eq, BitVec.le_def]; exact h.base_le
  le_end := by rw [BitVec.le_def, h.end_eq]; exact h.le_end
  placed := h.placed
  disjoint := h.disjoint
  throws := allocate_throws s.arena

theorem start_held {base : Address} {size : BitVec 64} (h : base.toNat + size.toNat < 2 ^ 64) :
    Held base size (start base size) where
  base_eq := rfl
  end_eq := by
    show (base + size).toNat = _
    rw [BitVec.toNat_add, Nat.mod_eq_of_lt h]
  base_le := Nat.le_refl _
  le_end := Nat.le_add_right _ _
  placed := by intro b hb; cases hb
  below := by intro b hb; cases hb
  disjoint := List.Pairwise.nil
  saved := by intro cp hcp; cases hcp

/-- A block that starts at or above the end of another shares no cell with it. -/
theorem cells_disjoint {b c : Block} (h : c.end_ ≤ b.addr.toNat) : Disjoint b.cells c.cells := by
  unfold Block.cells
  rw [Set.Ico_disjoint_Ico]
  exact (Nat.min_le_right _ _).trans (h.trans (Nat.le_max_left _ _))

/-- The block handed out lies inside the region, as placed as it should be. -/
theorem placed_new {base : Address} {size : BitVec 64} {s : Session} (h : Held base size s)
    {n : BitVec 64} {align : PowTwo} {p next : Address}
    (hp : p.toNat = roundUp s.arena.cursor.toNat align.val.toNat)
    (hnext : next.toNat = p.toNat + n.toNat) (hle : next ≤ s.arena.end_) :
    Placed { s.arena with cursor := next } ⟨p, n, align⟩ := by
  have hround := le_roundUp s.arena.cursor.toNat align.pos
  have hbase := h.base_le
  rw [BitVec.le_def] at hle
  refine ⟨?_, ?_, ?_⟩
  · rw [hp]
    exact dvd_roundUp _ _
  · rw [BitVec.le_def]
    show s.arena.base.toNat ≤ p.toNat
    rw [h.base_eq]
    omega
  · show p.toNat + n.toNat ≤ s.arena.end_.toNat
    omega

theorem record_held {base : Address} {size : BitVec 64} {s : Session} (h : Held base size s)
    {n : BitVec 64} {align : PowTwo} (hfit : Fits s.arena n align) :
    Held base size (s.record n align (s.arena.allocate n align.val)) := by
  rcases allocate_cases s.arena n align hfit with heq | ⟨p, next, heq, hp, hnext, hle⟩
  · rw [heq]
    exact h
  · have hround := le_roundUp s.arena.cursor.toNat align.pos
    have hend := h.end_eq
    have hbase := h.base_le
    have hplaced := placed_new h hp hnext hle
    rw [BitVec.le_def] at hle
    rw [heq]
    refine ⟨h.base_eq, h.end_eq, ?_, ?_, ?_, ?_, ?_, h.saved⟩
    · show base.toNat ≤ next.toNat
      omega
    · show next.toNat ≤ _
      omega
    · intro b hb
      rcases List.mem_cons.mp hb with rfl | hb
      · exact hplaced
      · obtain ⟨h1, h2, h3⟩ := h.placed b hb
        exact ⟨h1, h2, h3⟩
    · intro b hb
      show b.end_ ≤ next.toNat
      rcases List.mem_cons.mp hb with rfl | hb
      · exact Nat.le_of_eq hnext.symm
      · have hbelow := h.below b hb
        omega
    · refine List.pairwise_cons.mpr ⟨fun c hc => cells_disjoint ?_, h.disjoint⟩
      have hbelow := h.below c hc
      show c.end_ ≤ p.toNat
      omega

/-- A rewind keeps the invariant when it sets the cursor inside the region. -/
theorem release_held {base : Address} {size : BitVec 64} {s : Session} (h : Held base size s)
    {cursor : Address} (hbase : base.toNat ≤ cursor.toNat)
    (hend : cursor.toNat ≤ base.toNat + size.toNat) :
    Held base size (s.release { s.arena with cursor := cursor }) where
  base_eq := h.base_eq
  end_eq := h.end_eq
  base_le := hbase
  le_end := hend
  placed := fun b hb => ⟨(h.placed b hb).aligned, (h.placed b hb).base_le, (h.placed b hb).le_end⟩
  below := by
    intro b hb
    exact of_decide_eq_true (List.mem_filter.mp hb).2
  disjoint := h.disjoint.sublist List.filter_sublist
  saved := h.saved

theorem resetTo_held {base : Address} {size : BitVec 64} {s : Session} (h : Held base size s)
    (hsize : base.toNat + size.toNat < 2 ^ 64) {cp : Checkpoint}
    (hcp : cp.offset.toNat ≤ size.toNat) : Held base size (s.resetTo cp) := by
  have htarget : (s.arena.base + cp.offset).toNat = base.toNat + cp.offset.toNat := by
    rw [h.base_eq, BitVec.toNat_add, Nat.mod_eq_of_lt (by omega)]
  unfold Session.resetTo Arena.resetTo
  dsimp only
  split
  · exact release_held h (by omega) (by omega)
  · exact h

theorem save_offset {base : Address} {size : BitVec 64} {s : Session} (h : Held base size s) :
    s.arena.save.offset.toNat ≤ size.toNat := by
  have hbase := h.base_le
  have hend := h.le_end
  show (s.arena.cursor - s.arena.base).toNat ≤ size.toNat
  rw [h.base_eq, BitVec.toNat_sub_of_le (BitVec.le_def.mpr hbase)]
  omega

theorem step_held {base : Address} {size : BitVec 64} {s : Session} (h : Held base size s)
    (hsize : base.toNat + size.toNat < 2 ^ 64) {o : Op} (hfit : FitsStep s o) :
    Held base size (s.step o) := by
  cases o with
  | allocate n align | reserve n align => exact record_held h hfit
  | save =>
    refine ⟨h.base_eq, h.end_eq, h.base_le, h.le_end, h.placed, h.below, h.disjoint, ?_⟩
    intro cp hcp
    rcases List.mem_cons.mp hcp with rfl | hcp
    · exact save_offset h
    · exact h.saved cp hcp
  | resetTo i =>
    show Held base size (match s.saved[i]? with | none => s | some cp => s.resetTo cp)
    cases hi : s.saved[i]? with
    | none => exact h
    | some cp => exact resetTo_held h hsize (h.saved cp (List.mem_of_getElem? hi))
  | reset =>
    have hbase : s.arena.base.toNat = base.toNat := by rw [h.base_eq]
    exact release_held h (Nat.le_of_eq hbase.symm) (by omega)

theorem step_base (s : Session) (o : Op) : (s.step o).arena.base = s.arena.base := by
  have hrecord : ∀ (n : BitVec 64) (align : PowTwo),
      (s.record n align (s.arena.allocate n align.val)).arena.base = s.arena.base := by
    intro n align
    unfold Session.record Arena.allocate
    dsimp only
    split <;> split <;> rfl
  cases o with
  | allocate n align | reserve n align => exact hrecord n align
  | save => rfl
  | resetTo i =>
    simp only [Session.step]
    split
    · rfl
    · unfold Session.resetTo Session.release Arena.resetTo
      dsimp only
      split <;> rfl
  | reset => rfl

/-- An allocation that does not fit breaks a promise at once, at any non-null base. -/
theorem not_sound_of_not_fits {s : Session} (hbase : s.arena.base ≠ 0) {n : BitVec 64}
    {align : PowTwo} (h : ¬ Fits s.arena n align) :
    ¬ Sound (s.record n align (s.arena.allocate n align.val)) := by
  obtain ⟨p, next, heq, hbad⟩ := allocate_of_not_fits s.arena n align h
  rw [heq]
  intro hsound
  obtain ⟨-, hle, hend⟩ := hsound.placed ⟨p, n, align⟩ List.mem_cons_self
  rcases hbad with rfl | hbad
  · apply hbase
    apply BitVec.eq_of_toNat_eq
    exact Nat.le_zero.mp (BitVec.le_def.mp hle)
  · have hlt := s.arena.end_.isLt
    have hend' : p.toNat + n.toNat ≤ s.arena.end_.toNat := hend
    omega

/-! ## Sound runs -/

/-- Along a run whose allocations fit the arena keeps every promise; at a non-null base it does
    so only along such a run. -/
theorem arena_sound_iff (base size : BitVec 64) (h : base.toNat + size.toNat < 2 ^ 64)
    (ops : List Op) :
    (StepsMeet step FitsStep (start base size) ops →
      ∀ pre, pre <+: ops → Sound (run step (start base size) pre)) ∧
    (base ≠ 0 → (∀ pre, pre <+: ops → Sound (run step (start base size) pre)) →
      StepsMeet step FitsStep (start base size) ops) := by
  constructor
  · intro hok pre hp
    have hheld := run_invariant_of_meet (I := Held base size) (start_held h)
      (fun s o hs ho => step_held hs h ho) (hok.restrict hp)
    exact hheld.sound
  · intro hbase hsound pre o hp
    have hrun : (run step (start base size) pre).arena.base ≠ 0 := by
      rw [run_invariant (I := fun s => s.arena.base = base) rfl
        (fun s o hs => (step_base s o).trans hs) pre]
      exact hbase
    have hnext := hsound (pre ++ [o]) hp
    rw [run_snoc] at hnext
    cases o with
    | allocate n align | reserve n align =>
      by_contra hnot
      exact not_sound_of_not_fits hrun hnot hnext
    | _ => trivial

/-- Two allocations, a rewind between them to a saved checkpoint, and a third that throws. -/
theorem arena_sound_rewind :
    Sound (run step (start 4096 64) [.allocate 16 Arena.defaultAlign, .save,
      .allocate 5 Arena.defaultAlign, .resetTo 0, .allocate 48 Arena.defaultAlign,
      .allocate 1 Arena.defaultAlign]) :=
  (arena_sound_iff 4096 64 (by decide) _).1 (by decide +kernel) _ (List.prefix_refl _)

/-- The size 2^64 - 16 brings the cursor back to the base of the region, and the next allocation
    hands out the first block again. -/
theorem huge_request_reuses_block :
    ¬ Sound (run step (start 4096 64) [.allocate 16 Arena.defaultAlign,
      .allocate 18446744073709551600 Arena.defaultAlign, .allocate 16 Arena.defaultAlign]) := by
  intro h
  have hlive : (run step (start 4096 64) [.allocate 16 Arena.defaultAlign,
      .allocate 18446744073709551600 Arena.defaultAlign, .allocate 16 Arena.defaultAlign]).live =
      [⟨4096, 16, Arena.defaultAlign⟩, ⟨4112, 18446744073709551600, Arena.defaultAlign⟩,
        ⟨4096, 16, Arena.defaultAlign⟩] := by rfl
  have hdisjoint := h.disjoint
  rw [hlive] at hdisjoint
  have hfirst := (List.pairwise_cons.mp hdisjoint).1 ⟨4096, 16, Arena.defaultAlign⟩ (by simp)
  rw [Block.cells, Set.Ico_disjoint_Ico] at hfirst
  revert hfirst
  decide

end NeuroVerse.Mem
