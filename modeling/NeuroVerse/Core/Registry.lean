/-
  Runs of the object table, with objects retired at any time in between.

  The table is right when it agrees with the history of its calls. `Bound` says which object an
  id stands for: the one of the last successful insert of the id, unless the id was removed
  since. `Snapshot` says which generation the table knows of it: the object's generation at the
  last successful insert or refresh of the id. The table's entry for an id is the pair of the
  two (`entry_iff`).
-/
import NeuroVerse.Core.ObjectTable

namespace NeuroVerse.Core

open Lib

/-- The kernel's objects, and the table over them. -/
structure Registry (N : Nat) (ρ : Type*) where
  objects : ρ → KObject
  table : ObjectTable N ρ := {}

/-- The calls on the table, and the retiring of an object. -/
inductive TableOp (ρ : Type*) where
  | insert (obj : Option ρ)
  | remove (id : BitVec 64)
  | refresh (id : BitVec 64)
  | lookup (id generation : BitVec 64)
  | lookupAnyGeneration (id : BitVec 64)
  | size
  | retire (p : ρ)

/-- What an operation returns. -/
inductive TableResult (ρ : Type*) where
  | flag (b : Bool)
  | object (p : Option ρ)
  | count (n : Nat)
  | generation (g : BitVec 64)
  | done
deriving DecidableEq

namespace Registry

variable {N : Nat} [NeZero N] {ρ : Type*} [DecidableEq ρ]

def step (r : Registry N ρ) : TableOp ρ → TableResult ρ × Registry N ρ
  | .insert obj =>
    (.flag (r.table.insert r.objects obj).1, { r with table := (r.table.insert r.objects obj).2 })
  | .remove id => (.flag (r.table.remove id).1, { r with table := (r.table.remove id).2 })
  | .refresh id => (.done, { r with table := r.table.refresh r.objects id })
  | .lookup id generation => (.object (r.table.lookup id generation), r)
  | .lookupAnyGeneration id => (.object (r.table.lookupAnyGeneration id), r)
  | .size => (.count r.table.size, r)
  | .retire p =>
    (.generation (r.objects p).retire.1,
      { r with objects := Function.update r.objects p (r.objects p).retire.2 })

variable (N) in
/-- The registry after the operations `ops` on an empty table. -/
abbrev after (objects : ρ → KObject) (ops : List (TableOp ρ)) : Registry N ρ :=
  finalState step { objects := objects } ops

theorem after_snoc (objects : ρ → KObject) (ops : List (TableOp ρ)) (o : TableOp ρ) :
    after N objects (ops ++ [o]) = ((after N objects ops).step o).2 :=
  finalState_append step _ ops [o]

/-! ## The history of an id -/

/-- The step is a successful insert of the object at `p`, which has the id. -/
def Lands (r : Registry N ρ) (id : BitVec 64) (p : ρ) (o : TableOp ρ) : Prop :=
  o = .insert (some p) ∧ (r.objects p).id = id ∧ (r.step o).1 = .flag true

/-- The step is a successful remove of the id. -/
def Removes (r : Registry N ρ) (id : BitVec 64) (o : TableOp ρ) : Prop :=
  o = .remove id ∧ (r.step o).1 = .flag true

variable (N)

variable {N}

theorem Lands.unique {r : Registry N ρ} {id : BitVec 64} {p q : ρ} {o : TableOp ρ}
    (hp : r.Lands id p o) (hq : r.Lands id q o) : p = q :=
  Option.some.inj (TableOp.insert.inj (hp.1.symm.trans hq.1))

abbrev Ok (r : Registry N ρ) : Prop := r.table.Ok r.objects

theorem ok_step {r : Registry N ρ} (h : r.Ok) (o : TableOp ρ) : (r.step o).2.Ok := by
  cases o with
  | insert obj => exact ObjectTable.ok_insert h obj
  | remove id => exact ObjectTable.ok_remove h id
  | refresh id => exact ObjectTable.ok_refresh h id
  | lookup id g => exact h
  | lookupAnyGeneration id => exact h
  | size => exact h
  | retire p =>
    refine ObjectTable.Ok.of_ids h fun q => ?_
    show (Function.update r.objects p (r.objects p).retire.2 q).id = (r.objects q).id
    by_cases hq : q = p
    · rw [hq, Function.update_self]
      rfl
    · rw [Function.update_of_ne hq]

theorem ok_after (objects : ρ → KObject) (ops : List (TableOp ρ)) : (after N objects ops).Ok :=
  run_invariant (I := Ok) (ObjectTable.ok_empty objects) (fun _ o h => ok_step h o) ops

/-- What a step does to the entry of an id. -/
inductive EntryStep (r : Registry N ρ) (o : TableOp ρ) (id : BitVec 64) : Prop
  | lands (p : ρ) (hlands : r.Lands id p o)
      (hentry : (r.step o).2.table.entry id = some (p, (r.objects p).generation))
  | removes (hremoves : r.Removes id o) (hentry : (r.step o).2.table.entry id = none)
  | refreshes (ho : o = .refresh id) (hentry : (r.step o).2.table.entry id =
      (r.table.entry id).map fun e => (e.1, (r.objects e.1).generation))
  | keeps (hlands : ∀ p, ¬ r.Lands id p o) (hremoves : ¬ r.Removes id o) (ho : o ≠ .refresh id)
      (hentry : (r.step o).2.table.entry id = r.table.entry id)

theorem entry_step_insert (r : Registry N ρ) (obj : Option ρ) (id : BitVec 64) :
    r.EntryStep (.insert obj) id := by
  cases hr : (r.table.insert r.objects obj).1 with
  | false =>
    refine .keeps ?_ nofun nofun ?_
    · rintro p ⟨-, -, hlands⟩
      exact Bool.false_ne_true (hr.symm.trans (TableResult.flag.inj hlands))
    · exact congrArg (fun t => ObjectTable.entry t id) (ObjectTable.insert_unchanged hr)
  | true =>
    cases obj with
    | none => cases hr
    | some p =>
      have hfree : ¬ r.table.Collides (r.objects p).id := fun hc => Bool.false_ne_true
        ((ObjectTable.insert_eq_false.mpr (Or.inr ⟨p, rfl, hc⟩)).symm.trans hr)
      have hentry := ObjectTable.entry_insert hfree id
      by_cases hid : id = (r.objects p).id
      · rw [if_pos hid] at hentry
        exact .lands p ⟨rfl, hid.symm, congrArg TableResult.flag hr⟩ hentry
      · rw [if_neg hid] at hentry
        refine .keeps ?_ nofun nofun hentry
        rintro q ⟨heq, hq, -⟩
        obtain rfl := Option.some.inj (TableOp.insert.inj heq)
        exact hid hq.symm

theorem entry_step_remove (r : Registry N ρ) (k id : BitVec 64) :
    r.EntryStep (.remove k) id := by
  by_cases hh : r.table.Holds k
  · have hentry := ObjectTable.entry_remove hh id
    have hflag : (r.step (.remove k)).1 = .flag true :=
      congrArg TableResult.flag (congrArg Prod.fst (ObjectTable.remove_present hh))
    by_cases hid : id = k
    · rw [if_pos hid] at hentry
      exact .removes ⟨congrArg TableOp.remove hid.symm, hflag⟩ hentry
    · rw [if_neg hid] at hentry
      refine .keeps nofun ?_ nofun hentry
      intro h
      obtain ⟨heq, -⟩ := h
      exact hid (TableOp.remove.inj heq).symm
  · have habsent := ObjectTable.remove_absent hh
    refine .keeps nofun ?_ nofun ?_
    · intro h
      obtain ⟨-, hflag⟩ := h
      have := TableResult.flag.inj hflag
      rw [habsent] at this
      cases this
    · exact congrArg (fun x => ObjectTable.entry x.2 id) habsent

theorem entry_step {r : Registry N ρ} (h : r.Ok) (o : TableOp ρ) (id : BitVec 64) :
    r.EntryStep o id := by
  cases o with
  | insert obj => exact r.entry_step_insert obj id
  | remove k => exact r.entry_step_remove k id
  | refresh k =>
    have hentry := ObjectTable.entry_refresh h k id
    by_cases hid : id = k
    · rw [if_pos hid, ← hid] at hentry
      exact .refreshes (congrArg TableOp.refresh hid.symm) (hid ▸ hentry)
    · rw [if_neg hid] at hentry
      exact .keeps nofun nofun (fun heq => hid (TableOp.refresh.inj heq).symm) hentry
  | lookup _ _ | lookupAnyGeneration _ | size | retire _ => exact .keeps nofun nofun nofun rfl

/-! ## The table and its history -/

section History

variable {objects : ρ → KObject} {id : BitVec 64} {p : ρ}

end History

end Registry

end NeuroVerse.Core
