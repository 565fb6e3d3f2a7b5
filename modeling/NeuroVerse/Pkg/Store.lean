/-
  The content-addressed store (`pkg/store.cpp`), a map from digest to artifact that keeps the
  first artifact put under a digest.

  The section `hash` takes the hash as a parameter: a run never conflates or loses a blob
  exactly when the hash separates the blobs put (`neverConflates_iff_injOn`). The store's hash
  is SHA3-512. If the Keccak sponge separates the block sequences the run feeds it, the blobs
  are conflated only by the padding: `store_keeps_iff`.
-/
import NeuroVerse.Lib.Run
import NeuroVerse.Pkg.Padding
import Mathlib.Data.List.AList

namespace NeuroVerse.Pkg

open NeuroVerse.Lib

abbrev Digest := Vector Byte 64

structure Artifact where
  digest : Digest
  bytes : List Byte
  sourcePath : String := ""

structure HostStore where
  artifacts : AList fun _ : Digest => Artifact := ∅

/-- One call on the store. A file is named with what reading it gives, nothing when it cannot
    be opened. -/
inductive StoreOp where
  | put (bytes : List Byte)
  | putFile (path : String) (contents : Option (List Byte))
  | has (d : Digest)
  | get (d : Digest)

/-- The bytes an operation ingests. -/
def StoreOp.blob : StoreOp → Option (List Byte)
  | put bytes => some bytes
  | putFile _ contents => contents
  | has _ => none
  | get _ => none

/-- The bytes a run ingests. -/
def blobs (ops : List StoreOp) : List (List Byte) := ops.filterMap StoreOp.blob

namespace HostStore

def has (s : HostStore) (d : Digest) : Bool := decide (d ∈ s.artifacts)

def get (s : HostStore) (d : Digest) : Option Artifact := s.artifacts.lookup d

section hash

variable (hash : List Byte → Digest)

def put (s : HostStore) (bytes : List Byte) : Digest × HostStore :=
  let d := hash bytes
  if d ∈ s.artifacts then (d, s)
  else (d, { artifacts := s.artifacts.insert d { digest := d, bytes := bytes } })

def putFile (s : HostStore) (path : String) (contents : Option (List Byte)) :
    Digest × HostStore :=
  match contents with
  | none => (Vector.replicate 64 0, s)
  | some v =>
    let (d, s) := s.put hash v
    match s.artifacts.lookup d with
    | none => (d, s)
    | some a => (d, { artifacts := s.artifacts.insert d { a with sourcePath := path } })

def step (s : HostStore) : StoreOp → HostStore
  | .put bytes => (s.put hash bytes).2
  | .putFile path contents => (s.putFile hash path contents).2
  | .has _ => s
  | .get _ => s

/-- The store after a run from the empty store. -/
def after (ops : List StoreOp) : HostStore := run (step hash) {} ops

/-- A blob ingested in the run is found under the digest `put` returned for it at every later
    point, with its bytes, and no two blobs of the run share a digest. -/
structure NeverConflates (ops : List StoreOp) : Prop where
  kept : ∀ pre op post b, op.blob = some b → pre ++ op :: post <+: ops →
    ∃ a, (after hash (pre ++ op :: post)).get ((after hash pre).put hash b).1 = some a ∧
      a.bytes = b
  distinct : ∀ b ∈ blobs ops, ∀ b' ∈ blobs ops, hash b = hash b' → b = b'

/-- The bytes under a digest. -/
def contents (s : HostStore) (d : Digest) : Option (List Byte) := (s.get d).map Artifact.bytes

/-- Everything stored has been ingested and stands under its hash, and something stands under
    the hash of every blob ingested. -/
structure Sound (ops : List StoreOp) (s : HostStore) : Prop where
  stored : ∀ d b, s.contents d = some b → hash b = d ∧ b ∈ blobs ops
  found : ∀ b ∈ blobs ops, s.contents (hash b) ≠ none

variable {hash}

theorem put_digest (s : HostStore) (bytes : List Byte) : (s.put hash bytes).1 = hash bytes := by
  unfold put
  dsimp only
  split <;> rfl

/-- What `put` leaves under a digest: what stood there, else the bytes put. -/
theorem contents_put (s : HostStore) (bytes : List Byte) (d : Digest) :
    (s.put hash bytes).2.contents d =
      if d = hash bytes then some ((s.contents d).getD bytes) else s.contents d := by
  unfold put contents get
  dsimp only
  by_cases hmem : hash bytes ∈ s.artifacts
  · rw [if_pos hmem]
    split
    · rename_i hd
      obtain ⟨a, ha⟩ := Option.isSome_iff_exists.mp (AList.lookup_isSome.mpr hmem)
      rw [hd, ha]
      rfl
    · rfl
  · rw [if_neg hmem]
    split
    · rename_i hd
      rw [hd, AList.lookup_insert, AList.lookup_eq_none.mpr hmem]
      rfl
    · rename_i hd
      rw [AList.lookup_insert_ne hd]

/-- `put_file` leaves the bytes `put` leaves. -/
theorem contents_putFile (s : HostStore) (path : String) (v : List Byte) (d : Digest) :
    (s.putFile hash path (some v)).2.contents d = (s.put hash v).2.contents d := by
  unfold putFile
  dsimp only
  split
  · rfl
  · rename_i a ha
    unfold contents get
    by_cases hd : d = (s.put hash v).1
    · rw [hd, AList.lookup_insert, ha]
      rfl
    · rw [AList.lookup_insert_ne hd]

/-- A step puts its blob where nothing stands under the blob's hash, and nothing else. -/
theorem contents_step (s : HostStore) (op : StoreOp) (d : Digest) :
    (s.step hash op).contents d =
      match op.blob with
      | none => s.contents d
      | some b => if d = hash b then some ((s.contents d).getD b) else s.contents d := by
  cases op with
  | put bytes => exact contents_put s bytes d
  | putFile path c =>
    cases c with
    | none => rfl
    | some v => exact (contents_putFile s path v d).trans (contents_put s v d)
  | has _ => rfl
  | get _ => rfl

theorem blobs_append (xs ys : List StoreOp) : blobs (xs ++ ys) = blobs xs ++ blobs ys :=
  List.filterMap_append

theorem mem_blobs_snoc {ops : List StoreOp} {op : StoreOp} {b : List Byte} :
    b ∈ blobs (ops ++ [op]) ↔ b ∈ blobs ops ∨ op.blob = some b := by
  rw [blobs_append, List.mem_append]
  simp [blobs]

theorem Sound.empty : Sound hash [] {} := by
  refine ⟨fun d b h => ?_, fun b h => ?_⟩
  · have hnone : (({} : HostStore).contents d) = none := rfl
    rw [hnone] at h
    cases h
  · simp [blobs] at h

theorem Sound.step {ops : List StoreOp} {s : HostStore} (hs : Sound hash ops s) (op : StoreOp) :
    Sound hash (ops ++ [op]) (s.step hash op) := by
  refine ⟨fun d b h => ?_, fun b h => ?_⟩
  · rw [mem_blobs_snoc]
    have hold : s.contents d = some b → hash b = d ∧ (b ∈ blobs ops ∨ op.blob = some b) := by
      intro hb
      obtain ⟨h1, h2⟩ := hs.stored d b hb
      exact ⟨h1, Or.inl h2⟩
    rw [contents_step] at h
    split at h
    · exact hold h
    · rename_i b' hop
      split at h
      · rename_i hd
        -- what stood under the digest stays; only an empty place takes the new bytes
        cases hc : s.contents d with
        | none =>
          rw [hc] at h
          obtain rfl := Option.some.inj h
          exact ⟨hd.symm, Or.inr hop⟩
        | some b₀ =>
          rw [hc] at h
          obtain rfl := Option.some.inj h
          exact hold hc
      · exact hold h
  · rw [contents_step]
    rcases mem_blobs_snoc.mp h with hold | hop
    · have hne := hs.found b hold
      split
      · exact hne
      · split
        · exact Option.some_ne_none _
        · exact hne
    · rw [hop]
      dsimp only
      rw [if_pos rfl]
      exact Option.some_ne_none _

theorem after_sound (ops : List StoreOp) : Sound hash ops (after hash ops) := by
  induction ops using List.reverseRecOn with
  | nil => exact Sound.empty
  | append_singleton ops op ih =>
    rw [after, run_snoc]
    exact ih.step op

/-- A store with a hash that separates the blobs of the run, and only such a store, keeps
    them all. -/
theorem neverConflates_iff_injOn (ops : List StoreOp) :
    NeverConflates hash ops ↔ Set.InjOn hash {b | b ∈ blobs ops} := by
  constructor
  · intro h b hb b' hb' heq
    exact h.distinct b hb b' hb' heq
  · intro hinj
    refine ⟨fun pre op post b hop hp => ?_, fun b hb b' hb' heq => hinj hb hb' heq⟩
    have hs : Sound hash (pre ++ op :: post) (after hash (pre ++ op :: post)) := after_sound _
    have hmem : b ∈ blobs (pre ++ op :: post) := by
      rw [blobs_append, List.mem_append]
      exact Or.inr (List.mem_filterMap.mpr ⟨op, List.mem_cons_self, hop⟩)
    have hsub : ∀ x ∈ blobs (pre ++ op :: post), x ∈ blobs ops := by
      obtain ⟨rest, rfl⟩ := hp
      intro x hx
      rw [blobs_append, List.mem_append]
      exact Or.inl hx
    obtain ⟨b', hb'⟩ := Option.ne_none_iff_exists'.mp (hs.found b hmem)
    obtain ⟨hhash, hin⟩ := hs.stored _ b' hb'
    obtain ⟨a, ha, hbytes⟩ := Option.map_eq_some_iff.mp hb'
    refine ⟨a, by rw [put_digest]; exact ha, ?_⟩
    rw [hbytes]
    exact hinj (hsub b' hin) (hsub b hmem) hhash

end hash

/-! ## SHA3-512 -/

/-- The digest the sponge gives for a sequence of blocks. -/
def spongeDigest (bs : List (Vector Byte 72)) : Digest :=
  Sha3T.digest 64 72 (bs.foldl (keccak 72).absorbBlock (keccak 72).init)

/-- The store's hash. -/
def hash (bytes : List Byte) : Digest := Sha3T.oneshot 64 72 bytes

/-- The sponge gives different digests for the different block sequences that the blobs of the
    run are turned into. -/
def SpongeSeparates (ops : List StoreOp) : Prop :=
  ∀ b ∈ blobs ops, ∀ b' ∈ blobs ops,
    spongeDigest (Member.sha3_512.absorbedBlocks [b]) =
      spongeDigest (Member.sha3_512.absorbedBlocks [b']) →
    Member.sha3_512.absorbedBlocks [b] = Member.sha3_512.absorbedBlocks [b']

/-- No blob of the run is another one followed by the padding that one gets. -/
def NoPadClash (ops : List StoreOp) : Prop :=
  ∀ b ∈ blobs ops, ∀ b' ∈ blobs ops, ¬ PadClash 72 0x06 b b'

instance (ops : List StoreOp) : Decidable (NoPadClash ops) :=
  inferInstanceAs (Decidable (∀ _ ∈ _, ∀ _ ∈ _, _))

theorem hash_eq (bytes : List Byte) :
    hash bytes = spongeDigest (Member.sha3_512.absorbedBlocks [bytes]) :=
  congrArg (Sha3T.digest 64 72) (Member.sha3_512.finalState_eq_foldl (keccak 72) [bytes])

theorem absorbedBlocks_eq_iff (b b' : List Byte) :
    Member.sha3_512.absorbedBlocks [b] = Member.sha3_512.absorbedBlocks [b'] ↔
      b = b' ∨ PadClash 72 0x06 b b' ∨ PadClash 72 0x06 b' b := by
  have hinj : Function.Injective (List.map (Vector.toList (α := Byte) (n := 72))) :=
    List.map_injective_iff.mpr fun v w h => Vector.toList_inj.mp h
  have hb := Member.sha3_512.absorbedBlocks_toList [b]
  have hb' := Member.sha3_512.absorbedBlocks_toList [b']
  rw [List.flatten_singleton] at hb hb'
  rw [← finalBlocks_eq_iff (by decide) (show (0x06 : Byte) ≠ 0 by decide)]
  constructor
  · intro h
    exact hb.symm.trans ((congrArg _ h).trans hb')
  · intro h
    exact hinj (hb.trans (h.trans hb'.symm))

/-- Two blobs put that differ by the padding alone have one digest. -/
theorem hash_eq_of_clash {b b' : List Byte} (h : PadClash 72 0x06 b b') : hash b = hash b' := by
  rw [hash_eq, hash_eq, (absorbedBlocks_eq_iff b b').mpr (Or.inr (Or.inl h))]

/-- If the sponge separates the block sequences of the run, the store keeps every blob exactly
    when no blob put is another one followed by the padding that one gets. -/
theorem store_keeps_iff (ops : List StoreOp) (hsep : SpongeSeparates ops) :
    NeverConflates hash ops ↔ NoPadClash ops := by
  rw [neverConflates_iff_injOn]
  constructor
  · intro hinj b hb b' hb' hclash
    have heq : b = b' := hinj hb hb' (hash_eq_of_clash hclash)
    obtain ⟨-, hlen⟩ := hclash
    have := congrArg List.length (heq.symm.trans hlen)
    rw [List.length_append, List.length_cons] at this
    omega
  · intro hn b hb b' hb' heq
    rw [hash_eq, hash_eq] at heq
    rcases (absorbedBlocks_eq_iff b b').mp (hsep b hb b' hb' heq) with h | h | h
    · exact h
    · exact absurd h (hn b hb b' hb')
    · exact absurd h (hn b' hb' b hb)

/-- The padding of the empty blob, without the final 0x80. -/
def emptyPadding : List Byte := 0x06 :: List.replicate 70 0

theorem clashRun_separates : SpongeSeparates [.put [], .put emptyPadding] := by
  have hclash : PadClash 72 0x06 emptyPadding [] := by decide
  intro b hb b' hb' _
  simp only [blobs, List.filterMap_cons, List.filterMap_nil, StoreOp.blob, List.mem_cons,
    List.not_mem_nil, or_false] at hb hb'
  rw [absorbedBlocks_eq_iff]
  rcases hb with rfl | rfl <;> rcases hb' with rfl | rfl
  · exact Or.inl rfl
  · exact Or.inr (Or.inr hclash)
  · exact Or.inr (Or.inl hclash)
  · exact Or.inl rfl

/-- The empty blob and its padding get one digest, and the store keeps the first. -/
theorem store_drops_padding :
    ¬ ∀ ops, SpongeSeparates ops → NeverConflates hash ops := by
  intro h
  have hinj := (neverConflates_iff_injOn _).mp (h _ clashRun_separates)
  have hmem : emptyPadding ∈ blobs [.put [], .put emptyPadding] := by decide
  have heq : emptyPadding = [] :=
    hinj hmem (by decide : [] ∈ blobs [.put [], .put emptyPadding])
      (hash_eq_of_clash (by decide))
  exact absurd heq (by decide)

theorem store_keeps_iff_clashRun :
    SpongeSeparates [.put [], .put emptyPadding] ∧
      (NeverConflates hash [.put [], .put emptyPadding] ↔
        NoPadClash [.put [], .put emptyPadding]) :=
  ⟨clashRun_separates, store_keeps_iff _ clashRun_separates⟩

end HostStore

end NeuroVerse.Pkg
