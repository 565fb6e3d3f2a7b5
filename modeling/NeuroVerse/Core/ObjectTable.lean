/-
  The kernel's object registry (`core/object_table.hpp`): a table of `N` slots, in which the
  object with a given id can only be in slot `id % N`, and the kernel objects it points to
  (`core/kobject.hpp`).

  Objects live at addresses; one that is constructed in the course of a run stands at its address
  from the start. The lock of the table makes each operation one step and is left out, and so is
  the counter that the one-argument constructor takes its ids from: an object has whatever id it
  was built with.

  `entry` is what the table holds for an id. The slot's generation is a copy, taken when the
  object is inserted and again by `refresh`, so that a lookup reads the object's generation of
  that moment (`table_refines_map`).
-/
import NeuroVerse.Lib.Since
import Mathlib.Data.Fintype.Basic
import Mathlib.Data.Finset.Card
import Mathlib.Data.BitVec

namespace NeuroVerse.Core

open Lib

inductive KObjectKind where
  | untyped
  | thread
  | endpoint
  | memoryMap
  | irqSource
  | ioPort
  | vNode
  | driver
deriving DecidableEq

structure KObject where
  kind : KObjectKind
  id : BitVec 64
  generation : BitVec 64 := 0
deriving DecidableEq

/-- Returns the generation from before. -/
def KObject.retire (o : KObject) : BitVec 64 × KObject :=
  (o.generation, { o with generation := o.generation + 1 })

/-- A slot, with `ρ` the addresses of objects. -/
structure ObjectSlot (ρ : Type*) where
  id : BitVec 64 := 0
  generation : BitVec 64 := 0
  kind : KObjectKind := .untyped
  ptr : Option ρ := none
  present : Bool := false

def ObjectSlot.validFor {ρ : Type*} (s : ObjectSlot ρ) (wantId wantGen : BitVec 64) : Bool :=
  s.present && s.id == wantId && s.generation == wantGen

namespace ObjectSlot

variable {ρ : Type*}

/-- The slot holds the object with this id. -/
def Holds (s : ObjectSlot ρ) (id : BitVec 64) : Prop := s.present = true ∧ s.id = id

/-- The slot holds an object with another id. -/
def Collides (s : ObjectSlot ρ) (id : BitVec 64) : Prop := s.present = true ∧ s.id ≠ id

instance (s : ObjectSlot ρ) (id : BitVec 64) : Decidable (s.Holds id) :=
  inferInstanceAs (Decidable (_ ∧ _))

instance (s : ObjectSlot ρ) (id : BitVec 64) : Decidable (s.Collides id) :=
  inferInstanceAs (Decidable (_ ∧ _))

def entry (s : ObjectSlot ρ) (id : BitVec 64) : Option (ρ × BitVec 64) :=
  if s.Holds id then s.ptr.map fun p => (p, s.generation) else none

theorem entry_absent {s : ObjectSlot ρ} {id : BitVec 64} (h : ¬ s.Holds id) : s.entry id = none :=
  if_neg h

theorem entry_present {s : ObjectSlot ρ} {id : BitVec 64} (h : s.Holds id) :
    s.entry id = s.ptr.map fun p => (p, s.generation) :=
  if_pos h

/-- The source's assignment to the generation of a slot. -/
def withGeneration (s : ObjectSlot ρ) (g : BitVec 64) : ObjectSlot ρ := { s with generation := g }

theorem entry_withGeneration (s : ObjectSlot ρ) (g id : BitVec 64) :
    (s.withGeneration g).entry id = (s.entry id).map fun e => (e.1, g) := by
  by_cases h : s.Holds id
  · rw [entry_present h, Option.map_map]
    exact entry_present (s := s.withGeneration g) h
  · rw [entry_absent h]
    exact entry_absent (s := s.withGeneration g) h

end ObjectSlot

structure ObjectTable (N : Nat) (ρ : Type*) where
  slots : Vector (ObjectSlot ρ) N := .replicate N {}
  count : Nat := 0

namespace ObjectTable

variable {N : Nat} {ρ : Type*}

def slot (t : ObjectTable N ρ) (i : Fin N) : ObjectSlot ρ := t.slots.get i

def setSlot (t : ObjectTable N ρ) (i : Fin N) (s : ObjectSlot ρ) : ObjectTable N ρ :=
  { t with slots := t.slots.set i s i.isLt }

def setCount (t : ObjectTable N ρ) (n : Nat) : ObjectTable N ρ := { t with count := n }

def size (t : ObjectTable N ρ) : Nat := t.count

variable [NeZero N]

def probe (id : BitVec 64) : Fin N := Fin.ofNat N id.toNat

abbrev Holds (t : ObjectTable N ρ) (id : BitVec 64) : Prop := (t.slot (probe id)).Holds id

abbrev Collides (t : ObjectTable N ρ) (id : BitVec 64) : Prop := (t.slot (probe id)).Collides id

def insert (objects : ρ → KObject) (t : ObjectTable N ρ) :
    Option ρ → Bool × ObjectTable N ρ
  | none => (false, t)
  | some p =>
    let obj := objects p
    let idx := probe obj.id
    if t.Collides obj.id then (false, t)
    else
      let replacing := (t.slot idx).present
      let t := t.setSlot idx ⟨obj.id, obj.generation, obj.kind, some p, true⟩
      (true, if replacing then t else t.setCount (t.count + 1))

/-- A present slot has a pointer (`Ok.object`), so that the third branch is never taken. -/
def refresh (objects : ρ → KObject) (t : ObjectTable N ρ) (id : BitVec 64) : ObjectTable N ρ :=
  if ¬ t.Holds id then t
  else
    match (t.slot (probe id)).ptr with
    | some p => t.setSlot (probe id) ((t.slot (probe id)).withGeneration (objects p).generation)
    | none => t

def lookup (t : ObjectTable N ρ) (id generation : BitVec 64) : Option ρ :=
  let s := t.slot (probe id)
  if s.validFor id generation then s.ptr else none

def lookupAnyGeneration (t : ObjectTable N ρ) (id : BitVec 64) : Option ρ :=
  if t.Holds id then (t.slot (probe id)).ptr else none

def remove (t : ObjectTable N ρ) (id : BitVec 64) : Bool × ObjectTable N ρ :=
  if ¬ t.Holds id then (false, t)
  else
    let t := t.setSlot (probe id) { t.slot (probe id) with present := false, ptr := none }
    (true, t.setCount (t.count - 1))

/-! ## Slots -/

omit [NeZero N] in
@[simp] theorem slot_setSlot_self (t : ObjectTable N ρ) (i : Fin N) (s : ObjectSlot ρ) :
    (t.setSlot i s).slot i = s :=
  Vector.getElem_set_self i.isLt

omit [NeZero N] in
theorem slot_setSlot_ne (t : ObjectTable N ρ) {i j : Fin N} (s : ObjectSlot ρ) (h : j ≠ i) :
    (t.setSlot i s).slot j = t.slot j :=
  Vector.getElem_set_ne i.isLt j.isLt fun heq => h (Fin.ext heq.symm)

omit [NeZero N] in
@[simp] theorem slot_setCount (t : ObjectTable N ρ) (n : Nat) (i : Fin N) :
    (t.setCount n).slot i = t.slot i := rfl

omit [NeZero N] in
theorem slot_empty (i : Fin N) : ({} : ObjectTable N ρ).slot i = {} :=
  Vector.getElem_replicate i.isLt

def presentSlots (t : ObjectTable N ρ) : Finset (Fin N) :=
  Finset.univ.filter fun i => (t.slot i).present = true

omit [NeZero N] in
theorem mem_presentSlots {t : ObjectTable N ρ} {i : Fin N} :
    i ∈ t.presentSlots ↔ (t.slot i).present = true := by
  simp [presentSlots]

omit [NeZero N] in
theorem presentSlots_setSlot_true (t : ObjectTable N ρ) (i : Fin N) {s : ObjectSlot ρ}
    (hs : s.present = true) :
    (t.setSlot i s).presentSlots = Insert.insert i t.presentSlots := by
  ext j
  rw [Finset.mem_insert, mem_presentSlots, mem_presentSlots]
  by_cases hj : j = i
  · simp [hj, hs]
  · simp [hj, slot_setSlot_ne]

omit [NeZero N] in
theorem presentSlots_setSlot_false (t : ObjectTable N ρ) (i : Fin N) {s : ObjectSlot ρ}
    (hs : s.present = false) : (t.setSlot i s).presentSlots = t.presentSlots.erase i := by
  ext j
  rw [Finset.mem_erase, mem_presentSlots, mem_presentSlots]
  by_cases hj : j = i
  · simp [hj, hs]
  · simp [hj, slot_setSlot_ne]

/-! ## The invariant -/

/-- Every present slot holds an object with the slot's id, which is one of the slot's. -/
structure Ok (objects : ρ → KObject) (t : ObjectTable N ρ) : Prop where
  home : ∀ i, (t.slot i).present = true → probe (t.slot i).id = i
  object : ∀ i, (t.slot i).present = true →
    ∃ p, (t.slot i).ptr = some p ∧ (objects p).id = (t.slot i).id
  count : t.count = t.presentSlots.card

theorem ok_empty (objects : ρ → KObject) : Ok objects ({} : ObjectTable N ρ) where
  home i h := by
    rw [slot_empty] at h
    cases h
  object i h := by
    rw [slot_empty] at h
    cases h
  count := by
    have hnone : presentSlots ({} : ObjectTable N ρ) = ∅ := by
      ext i
      rw [mem_presentSlots, slot_empty]
      simp
    rw [hnone, Finset.card_empty]

/-- What the table holds for an id: the object, and the generation in the slot. -/
def entry (t : ObjectTable N ρ) (id : BitVec 64) : Option (ρ × BitVec 64) :=
  (t.slot (probe id)).entry id

theorem entry_setSlot (t : ObjectTable N ρ) (i : Fin N) (s : ObjectSlot ρ) (id : BitVec 64) :
    (t.setSlot i s).entry id = if probe id = i then s.entry id else t.entry id := by
  unfold entry
  by_cases hi : probe id = i
  · rw [if_pos hi, hi, slot_setSlot_self]
  · rw [if_neg hi, slot_setSlot_ne _ _ hi]

@[simp] theorem entry_setCount (t : ObjectTable N ρ) (n : Nat) (id : BitVec 64) :
    (t.setCount n).entry id = t.entry id := rfl

theorem lookup_eq_some {t : ObjectTable N ρ} {id g : BitVec 64} {p : ρ} :
    t.lookup id g = some p ↔ t.entry id = some (p, g) := by
  unfold lookup entry ObjectSlot.validFor
  generalize t.slot (probe id) = s
  dsimp only
  by_cases hh : s.Holds id
  · rw [ObjectSlot.entry_present hh, hh.1, hh.2]
    cases s.ptr <;> simp [and_comm]
  · rw [ObjectSlot.entry_absent hh]
    unfold ObjectSlot.Holds at hh
    simp_all

theorem lookupAnyGeneration_eq (t : ObjectTable N ρ) (id : BitVec 64) :
    t.lookupAnyGeneration id = (t.entry id).map Prod.fst := by
  unfold lookupAnyGeneration entry ObjectSlot.entry
  split
  · rw [Option.map_map]
    exact (Option.map_id_apply).symm
  · rfl

/-! ## What each operation does -/

section Operations

variable {objects : ρ → KObject} {t : ObjectTable N ρ}

theorem Ok.of_ids {objects' : ρ → KObject} (h : Ok objects t)
    (hids : ∀ p, (objects' p).id = (objects p).id) : Ok objects' t where
  home := h.home
  object i hi := by
    obtain ⟨p, hp, hid⟩ := h.object i hi
    exact ⟨p, hp, (hids p).trans hid⟩
  count := h.count

/-- A table with one present slot set, to an object whose slot it is. -/
theorem Ok.setSlot (h : Ok objects t) {s : ObjectSlot ρ} {p : ρ} {n : Nat}
    (hs : s.present = true) (hp : s.ptr = some p) (hid : (objects p).id = s.id)
    (hn : n = (Insert.insert (probe s.id) t.presentSlots).card) :
    Ok objects ((t.setSlot (probe s.id) s).setCount n) where
  home i hi := by
    rw [slot_setCount] at hi ⊢
    by_cases heq : i = probe s.id
    · rw [heq, slot_setSlot_self]
    · rw [slot_setSlot_ne _ _ heq] at hi ⊢
      exact h.home i hi
  object i hi := by
    rw [slot_setCount] at hi ⊢
    by_cases heq : i = probe s.id
    · rw [heq, slot_setSlot_self]
      exact ⟨p, hp, hid⟩
    · rw [slot_setSlot_ne _ _ heq] at hi ⊢
      exact h.object i hi
  count := by
    refine hn.trans (congrArg Finset.card ?_)
    exact (presentSlots_setSlot_true t (probe s.id) hs).symm

/-- `insert` changes nothing when it returns false. -/
theorem insert_unchanged {obj : Option ρ} (h : (t.insert objects obj).1 = false) :
    (t.insert objects obj).2 = t := by
  cases obj with
  | none => rfl
  | some p =>
    unfold insert at h ⊢
    dsimp only at h ⊢
    split
    · rfl
    · next hfree => simp [hfree] at h

theorem insert_eq_false {obj : Option ρ} : (t.insert objects obj).1 = false ↔
    obj = none ∨ ∃ p, obj = some p ∧ t.Collides (objects p).id := by
  cases obj with
  | none => simp [insert]
  | some p =>
    unfold insert
    by_cases hc : t.Collides (objects p).id
    · simp [hc]
    · simp [hc]

/-- The slot that an object is put in. -/
abbrev filled (objects : ρ → KObject) (p : ρ) : ObjectSlot ρ :=
  ⟨(objects p).id, (objects p).generation, (objects p).kind, some p, true⟩

theorem insert_lands {p : ρ} (h : ¬ t.Collides (objects p).id) :
    ∃ n, t.insert objects (some p) =
        (true, (t.setSlot (probe (objects p).id) (filled objects p)).setCount n) ∧
      (t.count = t.presentSlots.card →
        n = (Insert.insert (probe (objects p).id) t.presentSlots).card) := by
  unfold insert
  simp only [if_neg h]
  by_cases hr : (t.slot (probe (objects p).id)).present = true
  · refine ⟨t.count, ?_, fun hcount => ?_⟩
    · rw [if_pos hr]
      rfl
    · rw [Finset.insert_eq_of_mem (mem_presentSlots.mpr hr), hcount]
  · refine ⟨t.count + 1, ?_, fun hcount => ?_⟩
    · rw [if_neg hr]
      rfl
    · rw [Finset.card_insert_of_notMem (mem_presentSlots.not.mpr hr), hcount]

theorem entry_insert {p : ρ} (h : ¬ t.Collides (objects p).id) (id : BitVec 64) :
    (t.insert objects (some p)).2.entry id =
      if id = (objects p).id then some (p, (objects p).generation) else t.entry id := by
  obtain ⟨n, heq, -⟩ := insert_lands h
  rw [heq, entry_setCount, entry_setSlot]
  by_cases hid : id = (objects p).id
  · rw [if_pos hid, if_pos (congrArg probe hid), hid]
    exact ObjectSlot.entry_present ⟨rfl, rfl⟩
  · rw [if_neg hid]
    by_cases hslot : (probe id : Fin N) = probe (objects p).id
    · -- the slot was free or held an object with the inserted id
      have hold : ¬ t.Holds id := by
        intro hh
        refine h ⟨hslot ▸ hh.1, fun hsame => hid ?_⟩
        rw [← hh.2, hslot, hsame]
      rw [if_pos hslot, ObjectSlot.entry_absent fun hh => hid hh.2.symm]
      exact (ObjectSlot.entry_absent hold).symm
    · rw [if_neg hslot]

theorem ok_insert (h : Ok objects t) (obj : Option ρ) : Ok objects (t.insert objects obj).2 := by
  cases hr : (t.insert objects obj).1 with
  | false =>
    rw [insert_unchanged hr]
    exact h
  | true =>
    cases obj with
    | none => cases hr
    | some p =>
      have hfree : ¬ t.Collides (objects p).id := fun hc =>
        Bool.false_ne_true ((insert_eq_false.mpr (Or.inr ⟨p, rfl, hc⟩)).symm.trans hr)
      obtain ⟨n, heq, hn⟩ := insert_lands hfree
      rw [heq]
      exact h.setSlot (s := filled objects p) rfl rfl rfl (hn h.count)

theorem refresh_absent {id : BitVec 64} (h : ¬ t.Holds id) : t.refresh objects id = t :=
  if_pos h

theorem refresh_eq (h : Ok objects t) {id : BitVec 64} (hh : t.Holds id) :
    ∃ p, (t.slot (probe id)).ptr = some p ∧ (objects p).id = id ∧ t.refresh objects id =
      t.setSlot (probe id) ((t.slot (probe id)).withGeneration (objects p).generation) := by
  obtain ⟨p, hp, hid⟩ := h.object _ hh.1
  refine ⟨p, hp, hid.trans hh.2, ?_⟩
  unfold refresh
  rw [if_neg (not_not.mpr hh), hp]

theorem entry_refresh (h : Ok objects t) (id k : BitVec 64) :
    (t.refresh objects id).entry k =
      if k = id then (t.entry id).map fun e => (e.1, (objects e.1).generation)
      else t.entry k := by
  by_cases hh : t.Holds id
  · obtain ⟨p, hp, -, heq⟩ := refresh_eq h hh
    rw [heq, entry_setSlot, ObjectSlot.entry_withGeneration]
    by_cases hk : k = id
    · rw [if_pos hk, if_pos (congrArg probe hk), hk, entry, ObjectSlot.entry_present hh, hp]
      rfl
    · rw [if_neg hk]
      by_cases hslot : (probe k : Fin N) = probe id
      · have hold : ¬ (t.slot (probe id)).Holds k := fun hc => hk (hc.2.symm.trans hh.2)
        rw [if_pos hslot, ObjectSlot.entry_absent hold, entry, hslot,
          ObjectSlot.entry_absent hold]
        rfl
      · rw [if_neg hslot]
  · rw [refresh_absent hh]
    split
    · next hk => rw [hk, entry, ObjectSlot.entry_absent hh, Option.map_none]
    · rfl

theorem ok_refresh (h : Ok objects t) (id : BitVec 64) : Ok objects (t.refresh objects id) := by
  by_cases hh : t.Holds id
  · obtain ⟨p, hp, hid, heq⟩ := refresh_eq h hh
    rw [heq]
    have hcount : t.count = (Insert.insert (probe (t.slot (probe id)).id) t.presentSlots).card := by
      rw [hh.2, Finset.insert_eq_of_mem (mem_presentSlots.mpr hh.1), h.count]
    have hset := h.setSlot (s := (t.slot (probe id)).withGeneration (objects p).generation)
      hh.1 hp (hid.trans hh.2.symm) hcount
    have hprobe : (probe ((t.slot (probe id)).withGeneration (objects p).generation).id : Fin N) =
        probe id := congrArg probe hh.2
    rw [hprobe] at hset
    exact hset
  · rw [refresh_absent hh]
    exact h

theorem remove_absent {id : BitVec 64} (h : ¬ t.Holds id) : t.remove id = (false, t) :=
  if_pos h

/-- The slot that an object is removed from. -/
abbrev emptied (s : ObjectSlot ρ) : ObjectSlot ρ := { s with present := false, ptr := none }

theorem remove_present {id : BitVec 64} (h : t.Holds id) :
    t.remove id = (true,
      (t.setSlot (probe id) (emptied (t.slot (probe id)))).setCount (t.count - 1)) :=
  if_neg (not_not.mpr h)

theorem entry_remove {id : BitVec 64} (h : t.Holds id) (k : BitVec 64) :
    (t.remove id).2.entry k = if k = id then none else t.entry k := by
  rw [remove_present h, entry_setCount, entry_setSlot]
  by_cases hslot : (probe k : Fin N) = probe id
  · rw [if_pos hslot, ObjectSlot.entry_absent fun hc => Bool.false_ne_true hc.1]
    split
    · rfl
    · next hk =>
      have hold : ¬ t.Holds k := fun hh => hk (hh.2.symm.trans (hslot ▸ h.2))
      exact (ObjectSlot.entry_absent hold).symm
  · rw [if_neg hslot, if_neg fun hk => hslot (congrArg probe hk)]

theorem ok_remove (h : Ok objects t) (id : BitVec 64) : Ok objects (t.remove id).2 := by
  by_cases hh : t.Holds id
  · rw [remove_present hh]
    have hkept : ∀ i, ((t.setSlot (probe id) (emptied (t.slot (probe id)))).slot i).present = true →
        (t.setSlot (probe id) (emptied (t.slot (probe id)))).slot i = t.slot i := by
      intro i hi
      refine slot_setSlot_ne _ _ ?_
      rintro rfl
      rw [slot_setSlot_self] at hi
      cases hi
    constructor
    · intro i hi
      rw [slot_setCount] at hi ⊢
      have hslot := hkept i hi
      rw [hslot] at hi ⊢
      exact h.home i hi
    · intro i hi
      rw [slot_setCount] at hi ⊢
      have hslot := hkept i hi
      rw [hslot] at hi ⊢
      exact h.object i hi
    · have hslots := presentSlots_setSlot_false t (probe id) (s := emptied (t.slot (probe id))) rfl
      refine Eq.trans ?_ (congrArg Finset.card hslots).symm
      rw [Finset.card_erase_of_mem (mem_presentSlots.mpr hh.1), ← h.count]
      rfl
  · rw [remove_absent hh]
    exact h

end Operations

end ObjectTable

end NeuroVerse.Core
