/-
  References to kernel objects that outlive a remove.

  A reference is an id with a generation, as a capability carries them. The source says of
  `remove` that it retires the references to what it removes; but it only empties the slot, and
  the next insert of the id copies the generation of the object it is given, whatever it is. A
  retired reference resolves again exactly when an insert or a refresh copies its generation into
  the slot (`removal_retires_iff`).
-/
import NeuroVerse.Core.Registry

namespace NeuroVerse.Core.Registry

open Lib

variable {N : Nat} [NeZero N] {ρ : Type*} [DecidableEq ρ]

variable (N) in
/-- The reference resolved at some moment of the run. -/
def Resolved (objects : ρ → KObject) (id g : BitVec 64) (ops : List (TableOp ρ)) : Prop :=
  ∃ pre, pre <+: ops ∧ (after N objects pre).table.lookup id g ≠ none

variable (N) in
/-- The reference had resolved when a remove took its id out of the table. -/
def Retired (objects : ρ → KObject) (id g : BitVec 64) : List (TableOp ρ) → Prop :=
  Once fun pre o => (after N objects pre).Removes id o ∧ Resolved N objects id g pre

/-- The step copies the generation `g` into the slot of `id`: an insert of an object with this id
    and generation, into a slot that no other id holds, or a refresh of an object with this
    generation. -/
def Revives (r : Registry N ρ) (id g : BitVec 64) (o : TableOp ρ) : Prop :=
  (∃ p, o = .insert (some p) ∧ (r.objects p).id = id ∧ ¬ r.table.Collides id ∧
    (r.objects p).generation = g) ∨
  o = .refresh id ∧ ∃ p, r.table.lookupAnyGeneration id = some p ∧ (r.objects p).generation = g

section Steps

variable {r : Registry N ρ} {id g : BitVec 64} {o : TableOp ρ}

theorem lookup_of_revives (hr : r.Ok) (h : r.Revives id g o) :
    (r.step o).2.table.lookup id g ≠ none := by
  rcases h with ⟨p, rfl, rfl, hfree, rfl⟩ | ⟨rfl, p, hp, rfl⟩
  · have hentry := ObjectTable.entry_insert hfree (r.objects p).id
    rw [if_pos rfl] at hentry
    exact Option.ne_none_iff_exists'.mpr ⟨p, ObjectTable.lookup_eq_some.mpr hentry⟩
  · have hentry := ObjectTable.entry_refresh hr id id
    rw [ObjectTable.lookupAnyGeneration_eq, Option.map_eq_some_iff] at hp
    obtain ⟨⟨q, g⟩, hold, rfl⟩ := hp
    rw [if_pos rfl, hold] at hentry
    exact Option.ne_none_iff_exists'.mpr ⟨q, ObjectTable.lookup_eq_some.mpr hentry⟩

/-- A reference that a step does not revive resolves after it only if it did before, and the step
    did not remove its id. -/
theorem lookup_of_not_revives (hr : r.Ok) (h : ¬ r.Revives id g o)
    (hres : (r.step o).2.table.lookup id g ≠ none) :
    r.table.lookup id g ≠ none ∧ ¬ r.Removes id o := by
  obtain ⟨p, hp⟩ := Option.ne_none_iff_exists'.mp hres
  rw [ObjectTable.lookup_eq_some] at hp
  rcases entry_step hr o id with
    ⟨q, hlands, hentry⟩ | ⟨-, hentry⟩ | ⟨rfl, hentry⟩ | ⟨-, hremoves, -, hentry⟩
  · obtain ⟨rfl, rfl⟩ := Prod.mk.inj (Option.some.inj (hentry.symm.trans hp))
    obtain ⟨rfl, rfl, hflag⟩ := hlands
    refine absurd (Or.inl ⟨q, rfl, rfl, fun hc => ?_, rfl⟩) h
    have hfail := ObjectTable.insert_eq_false.mpr (Or.inr ⟨q, rfl, hc⟩)
    exact Bool.false_ne_true (hfail.symm.trans (TableResult.flag.inj hflag))
  · rw [hentry] at hp
    cases hp
  · rw [hentry, Option.map_eq_some_iff] at hp
    obtain ⟨⟨q, g'⟩, hold, heq⟩ := hp
    obtain ⟨rfl, rfl⟩ := Prod.mk.inj heq
    refine absurd (Or.inr ⟨rfl, q, ?_, rfl⟩) h
    rw [ObjectTable.lookupAnyGeneration_eq, hold]
    rfl
  · rw [hentry] at hp
    exact ⟨Option.ne_none_iff_exists'.mpr ⟨p, ObjectTable.lookup_eq_some.mpr hp⟩, hremoves⟩

end Steps

/-- The references that removes have retired never resolve again exactly when no insert and no
    refresh copies the generation of one of them back. -/
theorem removal_retires_iff (objects : ρ → KObject) (ops : List (TableOp ρ)) :
    (∀ pre, pre <+: ops → ∀ id g, Retired N objects id g pre →
      (after N objects pre).table.lookup id g = none) ↔
    Always (fun pre o => ∀ id g, Retired N objects id g pre →
      ¬ (after N objects pre).Revives id g o) ops := by
  refine prefixes_iff_always (fun id g h => absurd h not_once_nil) fun pre o _ hpre _ => ?_
  have hok := ok_after (N := N) objects pre
  constructor
  · intro h id g hret hrev
    refine lookup_of_revives hok hrev ?_
    rw [← after_snoc]
    exact h id g (once_snoc.mpr (Or.inl hret))
  · intro h id g hret
    by_contra hres
    rw [after_snoc] at hres
    have hnot : ¬ (after N objects pre).Revives id g o := by
      rcases once_snoc.mp hret with hret | ⟨hremoves, -⟩
      · exact h id g hret
      · -- the step is the remove itself
        rintro (⟨p, heq, -⟩ | ⟨heq, -⟩)
        · cases heq.symm.trans hremoves.1
        · cases heq.symm.trans hremoves.1
    obtain ⟨hold, hkeeps⟩ := lookup_of_not_revives hok hnot hres
    rcases once_snoc.mp hret with hret | ⟨hremoves, -⟩
    · exact hold (hpre id g hret)
    · exact hkeeps hremoves

/-- One object. -/
def endpoint : Unit → KObject := fun _ => { kind := .endpoint, id := 7 }

/-- The object is inserted and removed, and that is all. -/
theorem removal_retires_iff_once :
    (∀ pre, pre <+: [.insert (some ()), .remove 7] → ∀ id g, Retired 8 endpoint id g pre →
      (after 8 endpoint pre).table.lookup id g = none) ∧
    Retired 8 endpoint 7 0 [.insert (some ()), .remove 7] := by
  refine ⟨(removal_retires_iff endpoint _).mpr ?_, [.insert (some ())], .remove 7,
    List.prefix_refl _, ⟨rfl, by decide⟩, [.insert (some ())], List.prefix_refl _, by decide⟩
  show Always _ ([] ++ [TableOp.insert (some ())] ++ [.remove 7])
  rw [always_snoc, always_snoc]
  have hinsert : ∀ id g, Retired 8 endpoint id g [] →
      ¬ (after 8 endpoint []).Revives id g (.insert (some ())) :=
    fun id g h => absurd h not_once_nil
  have hremove : ∀ id g, Retired 8 endpoint id g [.insert (some ())] →
      ¬ (after 8 endpoint [.insert (some ())]).Revives id g (.remove 7) := by
    intro id g _ hrevives
    rcases hrevives with ⟨p, heq, -⟩ | ⟨heq, -⟩ <;> cases heq
  exact ⟨⟨always_nil, hinsert⟩, hremove⟩

/-- The reference to the object resolves again once the object is inserted again. -/
theorem removed_resolves_again :
    ¬ ∀ ops : List (TableOp Unit), ops.length < 2 ^ 64 → ∀ id g, Retired 8 endpoint id g ops →
      (after 8 endpoint ops).table.lookup id g = none := by
  intro h
  have hinsert : (after 8 endpoint [.insert (some ())]).table.lookup 7 0 ≠ none := by decide
  have hretired : Retired 8 endpoint 7 0
      [.insert (some ()), .remove 7, .insert (some ())] := by
    refine ⟨[.insert (some ())], .remove 7, ⟨[.insert (some ())], rfl⟩, ⟨rfl, by decide⟩, ?_⟩
    exact ⟨_, List.prefix_refl _, hinsert⟩
  have hnone := h _ (by decide) 7 0 hretired
  revert hnone
  decide

end NeuroVerse.Core.Registry
