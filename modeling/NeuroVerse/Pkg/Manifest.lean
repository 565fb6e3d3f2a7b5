/-
  The package manifest (`pkg/store.cpp`): its canonical encoding, its content root, and its check
  against a store.

  Every string of the encoding has its length in front, the list of entries its count, and a digest
  is always 64 bytes. So the encoding can be parsed back, whatever follows it (`framed_encoding`).
  The length is cast to 32 bits, which is why the strings have to be shorter than 2^32.
-/
import NeuroVerse.Lib.Framing
import NeuroVerse.Pkg.Evaluate
import NeuroVerse.Pkg.Store

namespace NeuroVerse.Pkg

open NeuroVerse.Lib

/-- A `std::string`. -/
abbrev Str := List Byte

/-- A string literal. -/
def text (s : String) : Str := s.toUTF8.toList.map UInt8.toBitVec

@[ext]
structure ManifestEntry where
  name : Str
  digest : Digest
deriving DecidableEq

structure Manifest where
  packageName : Str
  version : Str
  entries : List ManifestEntry
  trustedRoot : Option Digest := none

/-! ## The encoding -/

def appendBe32 (out : List Byte) (n : BitVec 32) : List Byte :=
  out ++ [((n >>> 24) &&& 0xFF).setWidth 8, ((n >>> 16) &&& 0xFF).setWidth 8,
    ((n >>> 8) &&& 0xFF).setWidth 8, (n &&& 0xFF).setWidth 8]

def appendBytes (out bytes : List Byte) : List Byte := out ++ bytes

def appendString (out : List Byte) (s : Str) : List Byte :=
  appendBe32 out (BitVec.ofNat 32 s.length) ++ s

theorem appendBe32_eq (out : List Byte) (n : BitVec 32) :
    appendBe32 out n = out ++ bigEndian 4 n.toNat := by
  have hbyte := setWidth_shift_mask (by decide) n
  have h0 := hbyte 0
  rw [BitVec.ushiftRight_zero] at h0
  rw [appendBe32, hbyte, hbyte, hbyte, h0]
  rfl

theorem appendBe32_length (out : List Byte) (n : Nat) :
    appendBe32 out (BitVec.ofNat 32 n) = out ++ length32 n := by
  rw [appendBe32_eq, BitVec.toNat_ofNat, length32]

theorem appendString_eq (out : List Byte) (s : Str) : appendString out s = out ++ field s := by
  rw [appendString, appendBe32_length, List.append_assoc, field]

def sha3_512 (bytes : List Byte) : Digest := @Sha3T.oneshot 64 72 ⟨Nat.succ_ne_zero 71⟩ bytes

namespace Manifest

def canonicalise (m : Manifest) : List Byte :=
  let out := appendString [] m.packageName
  let out := appendString out m.version
  let out := appendBe32 out (BitVec.ofNat 32 m.entries.length)
  m.entries.foldl (fun out e => appendBytes (appendString out e.name) e.digest.toList) out

def contentRoot (m : Manifest) : Digest := sha3_512 m.canonicalise

/-! ## The check against a store -/

def notPresent (name : Str) (i : Nat) : Str :=
  text "manifest entry \"" ++ name ++ text "\" (index " ++ text (toString i) ++
    text ") not present in store"

def rootMismatch : Str := text "content_root mismatch — manifest does not match trusted_root"

/-- The first entry from number `i` on that the store does not have. -/
def checkEntries (has : Digest → Bool) : Nat → List ManifestEntry → Option Str
  | _, [] => none
  | i, e :: es => if has e.digest then checkEntries has (i + 1) es else some (notPresent e.name i)

/-- `has` is the store's: that is all the check asks of it. -/
def verify (m : Manifest) (has : Digest → Bool) : Option Str :=
  match checkEntries has 0 m.entries with
  | some reason => some reason
  | none =>
    match m.trustedRoot with
    | some root => if m.contentRoot ≠ root then some rootMismatch else none
    | none => none

/-- An error about the entries names the first one that is missing. -/
theorem checkEntries_eq (has : Digest → Bool) (i : Nat) (es : List ManifestEntry) :
    (checkEntries has i es = none ∧ ∀ e ∈ es, has e.digest = true) ∨
      ∃ pre e post, es = pre ++ e :: post ∧ (∀ x ∈ pre, has x.digest = true) ∧
        has e.digest = false ∧
          checkEntries has i es = some (notPresent e.name (i + pre.length)) := by
  induction es generalizing i with
  | nil => exact Or.inl ⟨rfl, nofun⟩
  | cons e es ih =>
    rw [checkEntries]
    by_cases h : has e.digest = true
    · rw [if_pos h]
      rcases ih (i + 1) with ⟨hnone, hall⟩ | ⟨pre, x, post, rfl, hpre, hx, hsome⟩
      · exact Or.inl ⟨hnone, List.forall_mem_cons.mpr ⟨h, hall⟩⟩
      · refine Or.inr ⟨e :: pre, x, post, rfl, List.forall_mem_cons.mpr ⟨h, hpre⟩, hx, ?_⟩
        rw [hsome, List.length_cons, Nat.add_right_comm, Nat.add_assoc]
    · rw [if_neg h]
      exact Or.inr ⟨[], e, es, rfl, nofun, Bool.eq_false_iff.mpr h, rfl⟩

theorem checkEntries_none_iff (has : Digest → Bool) (es : List ManifestEntry) :
    checkEntries has 0 es = none ↔ ∀ e ∈ es, has e.digest = true := by
  rcases checkEntries_eq has 0 es with ⟨hnone, hall⟩ | ⟨pre, e, post, rfl, -, he, hsome⟩
  · exact iff_of_true hnone hall
  · refine iff_of_false (by rw [hsome]; nofun) fun hall => ?_
    have := hall e (List.mem_append_right pre List.mem_cons_self)
    rw [he] at this
    cases this

theorem verify_none_iff (m : Manifest) (has : Digest → Bool) :
    m.verify has = none ↔
      (∀ e ∈ m.entries, has e.digest = true) ∧ ∀ root ∈ m.trustedRoot, m.contentRoot = root := by
  rw [← checkEntries_none_iff, verify]
  cases hc : checkEntries has 0 m.entries with
  | some reason => simp
  | none =>
    cases m.trustedRoot with
    | none => simp
    | some root => simp

/-! ## What the encoding binds -/

/-- What the manifest says, without the signer's root. -/
def signed (m : Manifest) : Str × Str × List ManifestEntry :=
  (m.packageName, m.version, m.entries)

/-- Strings and counts that fit in their 32-bit length fields. -/
def shortStrings : Set Str := {s | s.length < 2 ^ 32}

def shortEntries : Set (List ManifestEntry) :=
  {es | es.length < 2 ^ 32 ∧ ∀ e ∈ es, e.name ∈ shortStrings}

def Short (m : Manifest) : Prop :=
  m.signed ∈ shortStrings ×ˢ shortStrings ×ˢ shortEntries

def entryBytes (e : ManifestEntry) : List Byte := field e.name ++ e.digest.toList

def encoding (p : Str × Str × List ManifestEntry) : List Byte :=
  field p.1 ++ (field p.2.1 ++ (length32 p.2.2.length ++ p.2.2.flatMap entryBytes))

theorem canonicalise_eq (m : Manifest) : m.canonicalise = encoding m.signed := by
  have hstep : (fun out (e : ManifestEntry) =>
      appendBytes (appendString out e.name) e.digest.toList) =
      fun out e => out ++ entryBytes e := by
    funext out e
    rw [appendBytes, appendString_eq, List.append_assoc, entryBytes]
  simp only [canonicalise, hstep, List.foldl_append_eq_append]
  simp only [appendBe32_length, appendString_eq, List.nil_append, List.append_assoc, encoding,
    signed, List.flatMap_def]

theorem framed_entryBytes : Framed {e | e.name ∈ shortStrings} entryBytes := by
  have hdigest : Framed Set.univ fun d : Digest => d.toList :=
    Framed.ofLength (fun d _ => d.length_toList) fun _ _ _ _ h => Vector.toList_inj.mp h
  refine (framed_field.pair hdigest).comap (f := fun e : ManifestEntry => (e.name, e.digest))
    (fun e he => ⟨he, trivial⟩) fun e _ e' _ h => ?_
  obtain ⟨hn, hd⟩ := Prod.mk.inj h
  exact ManifestEntry.ext hn hd

/-- The encoding can be parsed back off the front of any string. -/
theorem framed_encoding : Framed (shortStrings ×ˢ shortStrings ×ˢ shortEntries) encoding :=
  framed_field.pair (framed_field.pair (framed_length32.list framed_entryBytes))

/-- Two manifests have the same content root only if they say the same, as long as SHA3-512 tells
    the encodings of `S` apart. -/
theorem contentRoot_inj {S : Set Manifest} (hshort : ∀ m ∈ S, m.Short)
    (hinj : Set.InjOn sha3_512 (canonicalise '' S)) {m m0 : Manifest} (hm : m ∈ S)
    (hm0 : m0 ∈ S) : m.contentRoot = m0.contentRoot ↔ m.signed = m0.signed := by
  constructor
  · intro h
    have heq : m.canonicalise = m0.canonicalise :=
      hinj (Set.mem_image_of_mem _ hm) (Set.mem_image_of_mem _ hm0) h
    rw [canonicalise_eq, canonicalise_eq] at heq
    exact framed_encoding.injOn (hshort m hm) (hshort m0 hm0) heq
  · intro h
    rw [contentRoot, contentRoot, canonicalise_eq, canonicalise_eq, h]

/-- The canonical encoding of a manifest is a prefix of another one's exactly when both say the
    same. So if SHA3-512 is injective on the canonical encodings, a manifest whose trusted root is
    the root of `m0` passes the check exactly when the store has its blobs and it says what `m0`
    says. -/
theorem manifest_binds :
    (∀ m m' : Manifest, m.Short → m'.Short →
      (m.canonicalise <+: m'.canonicalise ↔ m.signed = m'.signed)) ∧
    ∀ S : Set Manifest, (∀ m ∈ S, m.Short) → Set.InjOn sha3_512 (canonicalise '' S) →
      ∀ m0 ∈ S, ∀ m ∈ S, m.trustedRoot = some m0.contentRoot → ∀ has : Digest → Bool,
        (m.verify has = none ↔
          (∀ e ∈ m.entries, has e.digest = true) ∧ m.signed = m0.signed) := by
  refine ⟨fun m m' hm hm' => ⟨fun hp => ?_, fun h => ?_⟩, ?_⟩
  · rw [canonicalise_eq, canonicalise_eq] at hp
    exact framed_encoding.eq_of_prefix hm hm' hp
  · rw [canonicalise_eq, canonicalise_eq, h]
  · intro S hshort hinj m0 hm0 m hm hroot has
    rw [verify_none_iff, hroot, ← contentRoot_inj hshort hinj hm hm0]
    simp only [Option.mem_some_iff, forall_eq']

/-- A manifest of one file. -/
def oneFile : Manifest :=
  { packageName := [0x70], version := [0x31]
    entries := [{ name := [0x66], digest := Vector.replicate 64 0 }] }

/-- With its root. -/
def signedFile : Manifest := { oneFile with trustedRoot := some oneFile.contentRoot }

/-- The same root on another version. -/
def tamperedFile : Manifest := { signedFile with version := [0x32] }

/-- Against a store that has the file, the signed manifest passes and the other one does not. -/
theorem manifest_binds_oneFile :
    signedFile.verify (fun d => decide (d = Vector.replicate 64 0)) = none ∧
      tamperedFile.verify (fun d => decide (d = Vector.replicate 64 0)) ≠ none := by
  have hentries : oneFile.entries ∈ shortEntries := by
    refine ⟨by decide, fun e he => ?_⟩
    rw [List.mem_singleton.mp he]
    exact (by decide : [(0x66 : Byte)].length < 2 ^ 32)
  have hname : [(0x70 : Byte)] ∈ shortStrings := (by decide : [(0x70 : Byte)].length < 2 ^ 32)
  have hshort : ∀ m ∈ ({signedFile, tamperedFile} : Set Manifest), m.Short := by
    rintro m (rfl | rfl)
    · exact ⟨hname, (by decide : [(0x31 : Byte)].length < 2 ^ 32), hentries⟩
    · exact ⟨hname, (by decide : [(0x32 : Byte)].length < 2 ^ 32), hentries⟩
  have hinj : Set.InjOn sha3_512 (canonicalise '' {signedFile, tamperedFile}) := by
    rw [Set.image_pair, Set.injOn_pair]
    intro heq
    exact absurd heq (oneshot_ne (by decide) (by decide) (by decide +kernel))
  have hbinds := manifest_binds.2 {signedFile, tamperedFile} hshort hinj signedFile (Or.inl rfl)
  refine ⟨(hbinds signedFile (Or.inl rfl) rfl _).mpr ⟨fun e he => ?_, rfl⟩, fun hpass => ?_⟩
  · rw [List.mem_singleton.mp he]
    exact decide_eq_true rfl
  · have hversion : ([0x32] : Str) = [0x31] :=
      congrArg (·.2.1) ((hbinds tamperedFile (Or.inr rfl) rfl _).mp hpass).2
    exact absurd hversion (by decide)

end Manifest

end NeuroVerse.Pkg
