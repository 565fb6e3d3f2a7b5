/-
  Absorbing in pieces, finalising twice and starting over (`pkg/sha3.hpp`, `Sha3T`).

  The calls on a hasher are `absorb`, `final` and `reset`, in any order and on any data. What
  earlier blocks left behind in the buffer is the only thing two hashers may differ in and
  still answer alike: `Agree` leaves it out. `Twin` is the relation the calls keep
  (`step_twin`): two hashers that hold the same message, or that were finalised in the same
  state. A hasher reached by any calls is its own twin, and absorbing chunks makes a twin of
  absorbing their concatenation (`Twin.chunks`), so the results are read off `Twin`.
-/
import NeuroVerse.Lib.Run
import NeuroVerse.Pkg.Sha3

namespace NeuroVerse.Pkg

open NeuroVerse.Lib

namespace Sha3Base

variable {σ : Type*} {rate : Nat} {K : BlockSponge σ rate}

/-- The same state, the same buffered bytes and the same phase. -/
structure Agree (h h' : Sha3Base σ rate) : Prop where
  state : h.state = h'.state
  buffered : h.buffered = h'.buffered
  pending : h.pending = h'.pending
  finalized : h.finalized = h'.finalized

/-- Two hashers that hold the same message, or were finalised in the same state. -/
def Twin (K : BlockSponge σ rate) (h h' : Sha3Base σ rate) : Prop :=
  (∃ msg, h.Holds K msg ∧ h'.Holds K msg) ∨
    (h.finalized = true ∧ h.buffered = 0) ∧ (h'.finalized = true ∧ h'.buffered = 0) ∧
      h.state = h'.state

theorem Holds.state_eq {h h' : Sha3Base σ rate} {msg : List Byte} (hh : h.Holds K msg)
    (hh' : h'.Holds K msg) : h.state = h'.state := by
  obtain ⟨bs, hbs, hst⟩ := hh.state
  obtain ⟨bs', hbs', hst'⟩ := hh'.state
  rw [hst, hst', map_toList_inj (hbs.trans hbs'.symm)]

theorem Twin.agree {h h' : Sha3Base σ rate} (ht : Twin K h h') : h.Agree h' := by
  rcases ht with ⟨msg, hh, hh'⟩ | ⟨⟨hf, hb⟩, ⟨hf', hb'⟩, hst⟩
  · exact ⟨hh.state_eq hh', hh.buffered.trans hh'.buffered.symm,
      hh.pending.trans hh'.pending.symm, hh.open_.trans hh'.open_.symm⟩
  · refine ⟨hst, hb.trans hb'.symm, ?_, hf.trans hf'.symm⟩
    rw [pending, pending, hb, hb', List.take_zero, List.take_zero]

theorem finalise_finalized (h : Sha3Base σ rate) (pad : Byte) :
    (h.finalise K pad).finalized = true := by
  unfold finalise
  split
  · assumption
  · rfl

theorem finalise_of_finalized {h : Sha3Base σ rate} (hf : h.finalized = true) (pad : Byte) :
    h.finalise K pad = h := if_pos hf

theorem finalise_buffered {h : Sha3Base σ rate} {msg : List Byte} (hh : h.Holds K msg)
    (pad : Byte) : (h.finalise K pad).buffered = 0 := by
  rw [finalise, if_neg hh.not_finalized]

section

variable [NeZero rate]

theorem absorb_of_finalized {h : Sha3Base σ rate} (hf : h.finalized = true) (data : List Byte) :
    h.absorb K data = h := if_pos hf

theorem absorb_chunks_of_finalized {h : Sha3Base σ rate} (hf : h.finalized = true)
    (chunks : List (List Byte)) : chunks.foldl (absorb K) h = h := by
  induction chunks with
  | nil => rfl
  | cons c chunks ih => rw [List.foldl_cons, absorb_of_finalized hf, ih]

/-- Chunks on one twin and their concatenation on the other leave twins. -/
theorem Twin.chunks {h h' : Sha3Base σ rate} (ht : Twin K h h') (chunks : List (List Byte)) :
    Twin K (chunks.foldl (absorb K) h) (h'.absorb K chunks.flatten) := by
  rcases ht with ⟨msg, hh, hh'⟩ | ⟨hf, hf', hst⟩
  · exact Or.inl ⟨msg ++ chunks.flatten, absorb_chunks_holds chunks hh, absorb_holds hh' _⟩
  · rw [absorb_chunks_of_finalized hf.1, absorb_of_finalized hf'.1]
    exact Or.inr ⟨hf, hf', hst⟩

theorem Twin.absorb {h h' : Sha3Base σ rate} (ht : Twin K h h') (data : List Byte) :
    Twin K (h.absorb K data) (h'.absorb K data) := by
  have h1 := ht.chunks [data]
  rw [List.flatten_singleton] at h1
  exact h1

theorem Holds.finalise_state_eq {h h' : Sha3Base σ rate} {msg : List Byte} (hh : h.Holds K msg)
    (hh' : h'.Holds K msg) (pad : Byte) :
    (h.finalise K pad).state = (h'.finalise K pad).state := by
  obtain ⟨bs, hbs, hst⟩ := finalise_state hh pad
  obtain ⟨bs', hbs', hst'⟩ := finalise_state hh' pad
  rw [hst, hst', map_toList_inj (hbs.trans hbs'.symm)]

theorem Twin.finalise {h h' : Sha3Base σ rate} (ht : Twin K h h') (pad : Byte) :
    Twin K (h.finalise K pad) (h'.finalise K pad) := by
  rcases ht with ⟨msg, hh, hh'⟩ | ⟨hf, hf', hst⟩
  · exact Or.inr ⟨⟨finalise_finalized h pad, finalise_buffered hh pad⟩,
      ⟨finalise_finalized h' pad, finalise_buffered hh' pad⟩, hh.finalise_state_eq hh' pad⟩
  · rw [finalise_of_finalized hf.1, finalise_of_finalized hf'.1]
    exact Or.inr ⟨hf, hf', hst⟩

/-- After a reset it does not matter what the hasher was used for. -/
theorem reset_twin (h : Sha3Base σ rate) : Twin K (h.reset K) (new K) :=
  Or.inl ⟨[], reset_holds h, new_holds⟩

theorem Twin.buffered_lt {h h' : Sha3Base σ rate} (ht : Twin K h h') : h.buffered < rate := by
  rcases ht with ⟨msg, hh, -⟩ | ⟨⟨-, hb⟩, -⟩
  · exact hh.buffered_lt
  · rw [hb]
    exact Nat.pos_of_neZero rate

end

end Sha3Base

namespace Sha3T

open Sha3Base

/-- The calls on a hasher. -/
inductive Call where
  | absorb (data : List Byte)
  | final
  | reset

variable {rate : Nat} [NeZero rate] (out : Nat)

def step (h : Sha3Base State rate) : Call → Sha3Base State rate
  | .absorb data => h.absorb (keccak rate) data
  | .final => (final out h).1
  | .reset => h.reset (keccak rate)

theorem step_twin {h h' : Sha3Base State rate} (ht : Twin (keccak rate) h h') (c : Call) :
    Twin (keccak rate) (step out h c) (step out h' c) := by
  cases c with
  | absorb data => exact ht.absorb data
  | final => exact ht.finalise 0x06
  | reset => exact Or.inl ⟨[], reset_holds h, reset_holds h'⟩

theorem run_twin {h h' : Sha3Base State rate} (ht : Twin (keccak rate) h h')
    (calls : List Call) :
    Twin (keccak rate) (run (step out) h calls) (run (step out) h' calls) := by
  induction calls generalizing h h' with
  | nil => exact ht
  | cons c calls ih => exact ih (step_twin out ht c)

theorem digest_eq_of_twin {h h' : Sha3Base State rate} (ht : Twin (keccak rate) h h') :
    (final out h).2 = (final out h').2 :=
  congrArg (digest out rate) (ht.finalise 0x06).agree.state

/-- How the hasher `h` treats the data it is given from here on. -/
structure Streams (h : Sha3Base State rate) : Prop where
  /-- Chunks count as their concatenation. -/
  chunks : ∀ chunks : List (List Byte),
    (chunks.foldl (absorb (keccak rate)) h).Agree (h.absorb (keccak rate) chunks.flatten) ∧
      (final out (chunks.foldl (absorb (keccak rate)) h)).2 =
        (final out (h.absorb (keccak rate) chunks.flatten)).2
  buffered_lt : ∀ data, (h.absorb (keccak rate) data).buffered < rate
  /-- `final` can be called again, and closes the hasher. -/
  again : (final out (final out h).1).2 = (final out h).2
  closed : ∀ data, (final out h).1.absorb (keccak rate) data = (final out h).1
  /-- After a reset the hasher answers like a new one. -/
  fresh : ∀ calls : List Call,
    (final out (run (step out) (h.reset (keccak rate)) calls)).2 =
      (final out (run (step out) (new (keccak rate)) calls)).2

theorem streams_of_twin {h : Sha3Base State rate} (ht : Twin (keccak rate) h h) :
    Streams out h where
  chunks chunks := ⟨(ht.chunks chunks).agree, digest_eq_of_twin out (ht.chunks chunks)⟩
  buffered_lt data := (ht.absorb data).buffered_lt
  again := by
    have hf : (final out h).1.finalized = true := finalise_finalized h 0x06
    show digest out rate ((final out h).1.finalise (keccak rate) 0x06).state = _
    rw [finalise_of_finalized hf]
    rfl
  closed := absorb_of_finalized (finalise_finalized h 0x06)
  fresh calls := digest_eq_of_twin out (run_twin out (reset_twin h) calls)

/-- After any calls, what the hasher makes of a message does not depend on how the message is
    cut into chunks. -/
theorem absorb_chunking (calls : List Call) :
    Streams out (run (step out) (new (keccak rate)) calls) :=
  streams_of_twin out (run_twin out (Or.inl ⟨[], new_holds, new_holds⟩) calls)

/-- SHA3-256 after a message and a reset. -/
theorem absorb_chunking_sha3_256 :
    Streams 32 (run (step 32) (new (keccak 136)) [.absorb [0x61, 0x62], .final, .reset]) :=
  absorb_chunking 32 [.absorb [0x61, 0x62], .final, .reset]

end Sha3T

end NeuroVerse.Pkg
