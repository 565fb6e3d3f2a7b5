/-
  Symbols of native libraries, and the bridge that looks them up in all the libraries registered.

  A library is found under its name; one registered later takes the place of an earlier one of
  the same name. The table is an `unordered_map`, so that a lookup comes to the libraries in an
  order that the source leaves open: `resolve` takes it as an argument, any order of the table.

  `after_resolves` says which results a lookup can have after any run of registrations, and when
  it has only one. A symbol with a null function ends a lookup as well as any
  other, so that it can hide the function that another library has.
-/
import NeuroVerse.Lib.Since

namespace NeuroVerse.Ffi

open Lib

/-- A function is null or an address of some kind. -/
structure Symbol (ξ : Type*) where
  name : String
  version : String
  fn : Option ξ

structure Library (ξ : Type*) where
  name : String
  symbols : List (Symbol ξ) := []

variable {ξ : Type*}

namespace Library

def add (l : Library ξ) (s : Symbol ξ) : Library ξ := { l with symbols := l.symbols ++ [s] }

def find (l : Library ξ) (sym version : String) : Option (Symbol ξ) :=
  l.symbols.find? fun s => s.name == sym && s.version == version

/-- The first symbol of a name and a version stays the one that is found. -/
theorem find_add (l : Library ξ) (s : Symbol ξ) (sym version : String) :
    (l.add s).find sym version =
      (l.find sym version).or
        (if s.name = sym ∧ s.version = version then some s else none) := by
  unfold find add
  rw [List.find?_append, List.find?_singleton]
  simp

end Library

structure Bridge (ξ : Type*) where
  libs : List (String × Library ξ) := []

namespace Bridge

/-- `libs_[n] = lib`. -/
def registerLibrary (b : Bridge ξ) (lib : Library ξ) : Bridge ξ :=
  { b with libs := b.libs.filter (fun kv => kv.1 ≠ lib.name) ++ [(lib.name, lib)] }

/-- The loop over the table in the order given. -/
def resolve (sym version : String) : List (String × Library ξ) → Option ξ
  | [] => none
  | kv :: rest =>
    match kv.2.find sym version with
    | some s => s.fn
    | none => resolve sym version rest

def after (regs : List (Library ξ)) : Bridge ξ := run registerLibrary {} regs

end Bridge

/-- The library was registered, and no other one of its name since. -/
def Registered (lib : Library ξ) : List (Library ξ) → Prop :=
  Since (fun _ l => l = lib) fun _ l => l.name ≠ lib.name

/-- Some registered library has the symbol, with this function. -/
def Provided (regs : List (Library ξ)) (sym version : String) (fn : Option ξ) : Prop :=
  ∃ lib s, Registered lib regs ∧ lib.find sym version = some s ∧ s.fn = fn

namespace Bridge

/-- The table holds the registered libraries under their names. -/
theorem mem_after (regs : List (Library ξ)) (n : String) (lib : Library ξ) :
    (n, lib) ∈ (after regs).libs ↔ n = lib.name ∧ Registered lib regs := by
  induction regs using List.reverseRecOn with
  | nil => exact ⟨nofun, fun h => absurd h.2 not_since_nil⟩
  | append_singleton regs l ih =>
    rw [after, run_snoc, Registered, since_snoc]
    show (n, lib) ∈ (after regs).libs.filter _ ++ [_] ↔ _
    rw [List.mem_append, List.mem_filter, List.mem_singleton, ih, Prod.mk.injEq]
    simp only [decide_eq_true_eq]
    constructor
    · intro h
      rcases h with ⟨⟨rfl, hreg⟩, hne⟩ | ⟨rfl, rfl⟩
      · exact ⟨rfl, Or.inr ⟨hreg, fun heq => hne heq.symm⟩⟩
      · exact ⟨rfl, Or.inl rfl⟩
    · intro h
      rcases h with ⟨rfl, rfl | ⟨hreg, hne⟩⟩
      · exact Or.inr ⟨rfl, rfl⟩
      · exact Or.inl ⟨⟨rfl, hreg⟩, fun heq => hne heq.symm⟩

/-- A lookup ends at the first library of the order that has the symbol. -/
theorem resolve_cases (sym version : String) (order : List (String × Library ξ)) :
    (∃ kv ∈ order, ∃ s, kv.2.find sym version = some s ∧ resolve sym version order = s.fn) ∨
      (∀ kv ∈ order, kv.2.find sym version = none) ∧ resolve sym version order = none := by
  induction order with
  | nil => exact Or.inr ⟨nofun, rfl⟩
  | cons kv rest ih =>
    cases hfind : kv.2.find sym version with
    | some s =>
      refine Or.inl ⟨kv, List.mem_cons_self, s, hfind, ?_⟩
      rw [resolve, hfind]
    | none =>
      have hskip : resolve sym version (kv :: rest) = resolve sym version rest := by
        rw [resolve, hfind]
      rw [hskip]
      rcases ih with ⟨kv', hmem, hs⟩ | ⟨hnone, hres⟩
      · exact Or.inl ⟨kv', List.mem_cons_of_mem kv hmem, hs⟩
      · exact Or.inr ⟨List.forall_mem_cons.mpr ⟨hfind, hnone⟩, hres⟩

/-- Any library of the table can come first. -/
theorem exists_order {libs : List (String × Library ξ)} {kv : String × Library ξ}
    (h : kv ∈ libs) : ∃ rest, (kv :: rest).Perm libs := by
  obtain ⟨before, behind, rfl⟩ := List.append_of_mem h
  exact ⟨before ++ behind, List.perm_middle.symm⟩

/-- The results that a lookup can have, over all orders of the table: the function of any
    registered library that has the symbol, and null when none has it. -/
theorem resolves_iff (regs : List (Library ξ)) (sym version : String) (fn : Option ξ) :
    (∃ order, order.Perm (after regs).libs ∧ resolve sym version order = fn) ↔
      Provided regs sym version fn ∨ fn = none ∧ ∀ fn', ¬ Provided regs sym version fn' := by
  constructor
  · intro h
    obtain ⟨order, hperm, rfl⟩ := h
    rcases resolve_cases sym version order with ⟨kv, hmem, s, hfind, hres⟩ | ⟨hnone, hres⟩
    · obtain ⟨-, hreg⟩ := (mem_after regs kv.1 kv.2).mp (hperm.mem_iff.mp hmem)
      exact Or.inl ⟨kv.2, s, hreg, hfind, hres.symm⟩
    · refine Or.inr ⟨hres, fun fn' h => ?_⟩
      obtain ⟨lib, s, hreg, hfind, -⟩ := h
      have hmem := hperm.mem_iff.mpr ((mem_after regs lib.name lib).mpr ⟨rfl, hreg⟩)
      rw [hnone _ hmem] at hfind
      cases hfind
  · intro h
    rcases h with ⟨lib, s, hreg, hfind, rfl⟩ | ⟨rfl, hnone⟩
    · obtain ⟨rest, hperm⟩ := exists_order ((mem_after regs lib.name lib).mpr ⟨rfl, hreg⟩)
      refine ⟨_, hperm, ?_⟩
      rw [resolve, hfind]
    · refine ⟨_, List.Perm.refl _, ?_⟩
      rcases resolve_cases sym version (after regs).libs with ⟨kv, hmem, s, hfind, -⟩ | ⟨-, hres⟩
      · obtain ⟨-, hreg⟩ := (mem_after regs kv.1 kv.2).mp hmem
        exact absurd ⟨kv.2, s, hreg, hfind, rfl⟩ (hnone s.fn)
      · exact hres

/-- Whatever the order of the table, a lookup gives the function that some registered library has
    under the name and the version, each of these functions in some order, and null when there is
    none. It gives the same in all orders exactly when all these libraries have the same. -/
theorem after_resolves (regs : List (Library ξ)) (sym version : String) :
    (∀ fn, (∃ order, order.Perm (after regs).libs ∧ resolve sym version order = fn) ↔
      Provided regs sym version fn ∨ fn = none ∧ ∀ fn', ¬ Provided regs sym version fn') ∧
    ((∀ order order', order.Perm (after regs).libs → order'.Perm (after regs).libs →
        resolve sym version order = resolve sym version order') ↔
      ∀ fn fn', Provided regs sym version fn → Provided regs sym version fn' → fn = fn') := by
  have hiff := resolves_iff regs sym version
  refine ⟨hiff, ?_, ?_⟩
  · intro hsame fn fn' h h'
    obtain ⟨order, hperm, rfl⟩ := (hiff fn).mpr (Or.inl h)
    obtain ⟨order', hperm', rfl⟩ := (hiff fn').mpr (Or.inl h')
    exact hsame order order' hperm hperm'
  · intro hagree order order' hperm hperm'
    rcases (hiff _).mp ⟨order, hperm, rfl⟩ with h | ⟨h, hnone⟩
    · rcases (hiff _).mp ⟨order', hperm', rfl⟩ with h' | ⟨-, hnone⟩
      · exact hagree _ _ h h'
      · exact absurd h (hnone _)
    · rcases (hiff _).mp ⟨order', hperm', rfl⟩ with h' | ⟨h', -⟩
      · exact absurd h' (hnone _)
      · exact h.trans h'.symm

end Bridge

end NeuroVerse.Ffi
