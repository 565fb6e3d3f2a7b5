/-
  Computations that read and change a state and end in a value or an error. The changes made
  before an error stay, as they do in a program that returns an error code.

  `attempt` turns an error into no value, `onFst` and `onSnd` run a computation on one half of
  a pair of states. `bind_ok` and `bind_error` run a sequence whose first part is known. `Moves`
  says how a computation may change the state, whatever it ends in.
-/
import Mathlib.Tactic.TypeStar

namespace NeuroVerse.Lib

structure ErrorState (ε σ α : Type*) where
  run : σ → Except ε α × σ

namespace ErrorState

universe u

variable {ε σ τ : Type*} {α β : Type u}

instance : Monad (ErrorState ε σ) where
  pure a := ⟨fun s => (.ok a, s)⟩
  bind x f := ⟨fun s =>
    match x.run s with
    | (.ok a, s') => (f a).run s'
    | (.error e, s') => (.error e, s')⟩

def throw (e : ε) : ErrorState ε σ α := ⟨fun s => (.error e, s)⟩

def attempt (x : ErrorState ε σ α) : ErrorState ε σ (Option α) := ⟨fun s =>
  match x.run s with
  | (.ok a, s') => (.ok (some a), s')
  | (.error _, s') => (.ok none, s')⟩

def onFst (x : ErrorState ε σ α) : ErrorState ε (σ × τ) α := ⟨fun s =>
  ((x.run s.1).1, (x.run s.1).2, s.2)⟩

def onSnd (x : ErrorState ε τ α) : ErrorState ε (σ × τ) α := ⟨fun s =>
  ((x.run s.2).1, s.1, (x.run s.2).2)⟩

theorem bind_ok {x : ErrorState ε σ α} {f : α → ErrorState ε σ β} {s s' : σ} {a : α}
    (h : x.run s = (.ok a, s')) : (x >>= f).run s = (f a).run s' := by
  simp only [bind, h]

theorem bind_error {x : ErrorState ε σ α} {f : α → ErrorState ε σ β} {s s' : σ} {e : ε}
    (h : x.run s = (.error e, s')) : (x >>= f).run s = (.error e, s') := by
  simp only [bind, h]

theorem attempt_ok {x : ErrorState ε σ α} {s s' : σ} {a : α} (h : x.run s = (.ok a, s')) :
    x.attempt.run s = (.ok (some a), s') := by
  simp only [attempt, h]

theorem attempt_error {x : ErrorState ε σ α} {s s' : σ} {e : ε} (h : x.run s = (.error e, s')) :
    x.attempt.run s = (.ok none, s') := by
  simp only [attempt, h]

theorem onFst_run {x : ErrorState ε σ α} {s s' : σ} {t : τ} {r : Except ε α}
    (h : x.run s = (r, s')) : (onFst x).run (s, t) = (r, s', t) := by
  simp only [onFst, h]

theorem onSnd_run {x : ErrorState ε τ α} {s : σ} {t t' : τ} {r : Except ε α}
    (h : x.run t = (r, t')) : (onSnd x).run (s, t) = (r, s, t') := by
  simp only [onSnd, h]

theorem onSnd_pure (a : α) :
    (onSnd (pure a : ErrorState ε τ α) : ErrorState ε (σ × τ) α) = pure a :=
  rfl

theorem onSnd_bind (x : ErrorState ε τ α) (f : α → ErrorState ε τ β) :
    (onSnd (x >>= f) : ErrorState ε (σ × τ) β) = onSnd x >>= fun a => onSnd (f a) := by
  refine congrArg ErrorState.mk (funext fun s => ?_)
  cases h : x.run s.2 with
  | mk r t =>
    cases r with
    | ok a => simp only [bind, onSnd, h]
    | error e => simp only [bind, onSnd, h]

/-- The state a computation ends in is related to the one it starts in. -/
def Moves (R : σ → σ → Prop) (x : ErrorState ε σ α) : Prop := ∀ s, R s (x.run s).2

theorem moves_pure {R : σ → σ → Prop} (hrefl : ∀ s, R s s) (a : α) :
    Moves R (pure a : ErrorState ε σ α) :=
  hrefl

theorem Moves.bind {R : σ → σ → Prop} (htrans : ∀ s t u, R s t → R t u → R s u)
    {x : ErrorState ε σ α} {f : α → ErrorState ε σ β} (hx : Moves R x)
    (hf : ∀ a, Moves R (f a)) : Moves R (x >>= f) := by
  intro s
  have hstep := hx s
  cases h : x.run s with
  | mk r s' =>
    rw [h] at hstep
    cases r with
    | ok a =>
      rw [bind_ok h]
      exact htrans _ _ _ hstep (hf a s')
    | error e =>
      rw [bind_error h]
      exact hstep

end ErrorState

end NeuroVerse.Lib
