/-
  The boot manifest and its signature (`boot/protocol.hpp`, `boot/protocol.cpp`).

  The signature is SHA3-512 of the trust root followed by the canonical encoding of the manifest.
  Strings and lists have their length in front and everything else has a fixed size, so that the
  signed string can be parsed back (`framed_preimage`).

  A capability goes in as its 16 bytes: the bit-fields in two 64-bit units, the first field in the
  low bits, the units little-endian. The text form of the manifest is in `TextForm`; nothing signs
  or verifies it.
-/
import NeuroVerse.Core.Capability
import NeuroVerse.Pkg.Manifest

namespace NeuroVerse.Boot

open NeuroVerse.Lib NeuroVerse.Core NeuroVerse.Pkg

abbrev Byte := BitVec 8

inductive Kind where
  | text
  | rodata
  | data
  | bss
deriving DecidableEq

@[ext]
structure Segment where
  kind : Kind := .text
  name : Str
  vaddr : BitVec 64 := 0
  memsz : BitVec 64 := 0
  filesz : BitVec 64 := 0
  hash : BitVec 64 := 0
deriving DecidableEq

@[ext]
structure Manifest where
  kernelVersion : Str
  buildId : Str
  segments : List Segment := []
  capabilities : List Capability := []
deriving DecidableEq

abbrev Signature := Vector Byte 64
abbrev TrustRoot := Vector Byte 32

/-! ## The encoding -/

def kindByte : Kind → Byte
  | .text => 0
  | .rodata => 1
  | .data => 2
  | .bss => 3

def appendBe64 (out : List Byte) (n : BitVec 64) : List Byte :=
  [7, 6, 5, 4, 3, 2, 1, 0].foldl (fun out i => out ++ [((n >>> (i * 8)) &&& 0xFF).setWidth 8]) out

/-- The bytes of a capability in memory. -/
def capBytes (c : Capability) : List Byte :=
  littleEndian 8 (c.rights ++ c.objectId).toNat ++ littleEndian 8 (c.generation ++ c.epoch).toNat

def appendSegment (out : List Byte) (s : Segment) : List Byte :=
  let out := appendString out s.name
  let out := out ++ [kindByte s.kind]
  let out := appendBe64 out s.vaddr
  let out := appendBe64 out s.memsz
  let out := appendBe64 out s.filesz
  appendBe64 out s.hash

def canonicalise (m : Manifest) : List Byte :=
  let out := appendString [] m.kernelVersion
  let out := appendString out m.buildId
  let out := appendBe32 out (BitVec.ofNat 32 m.segments.length)
  let out := m.segments.foldl appendSegment out
  let out := appendBe32 out (BitVec.ofNat 32 m.capabilities.length)
  m.capabilities.foldl (fun out c => out ++ capBytes c) out

/-- What is signed. -/
def preimage (m : Manifest) (trustRoot : TrustRoot) : List Byte :=
  trustRoot.toList ++ canonicalise m

def sign (m : Manifest) (trustRoot : TrustRoot) : Signature := sha3_512 (preimage m trustRoot)

def verify (m : Manifest) (sig : Signature) (trustRoot : TrustRoot) : Bool :=
  decide (sign m trustRoot = sig)

/-! ## What the encoding binds -/

theorem appendBe64_eq (out : List Byte) (n : BitVec 64) :
    appendBe64 out n = out ++ bigEndian 8 n.toNat := by
  rw [appendBe64, List.foldl_append_eq_append]
  simp only [setWidth_shift_mask (by decide : 8 ≤ 64) n]
  rfl

/-- Strings and lists that fit in their 32-bit length fields. -/
structure Manifest.Short (m : Manifest) : Prop where
  kernelVersion : m.kernelVersion.length < 2 ^ 32
  buildId : m.buildId.length < 2 ^ 32
  segments : m.segments.length < 2 ^ 32
  names : ∀ s ∈ m.segments, s.name.length < 2 ^ 32
  capabilities : m.capabilities.length < 2 ^ 32

theorem framed_kindByte : Framed Set.univ fun k => [kindByte k] := by
  refine Framed.ofLength (fun _ _ => rfl) fun k _ k' _ h => ?_
  cases k <;> cases k' <;> first | rfl | cases h

theorem framed_be64 : Framed Set.univ fun n : BitVec 64 => bigEndian 8 n.toNat :=
  (framed_bigEndian 8).comap (fun n _ => n.isLt) fun _ _ _ _ h => BitVec.eq_of_toNat_eq h

theorem append_inj {v w : Nat} {x x' : BitVec v} {y y' : BitVec w} (h : x ++ y = x' ++ y') :
    x = x' ∧ y = y' := by
  have hhigh := congrArg (BitVec.extractLsb' w v) h
  have hlow := congrArg (BitVec.extractLsb' 0 w) h
  rw [BitVec.extractLsb'_append_eq_left, BitVec.extractLsb'_append_eq_left] at hhigh
  rw [BitVec.extractLsb'_append_eq_right, BitVec.extractLsb'_append_eq_right] at hlow
  exact ⟨hhigh, hlow⟩

theorem framed_capBytes : Framed Set.univ capBytes := by
  refine Framed.ofLength (n := 16) (fun c _ => ?_) fun c _ c' _ h => ?_
  · rw [capBytes, List.length_append, length_littleEndian, length_littleEndian]
  · have hword : ∀ x y : BitVec 64, littleEndian 8 x.toNat = littleEndian 8 y.toNat → x = y := by
      intro x y hxy
      have hmod := littleEndian_inj hxy
      have hx : x.toNat < 256 ^ 8 := x.isLt
      have hy : y.toNat < 256 ^ 8 := y.isLt
      rw [Nat.mod_eq_of_lt hx, Nat.mod_eq_of_lt hy] at hmod
      exact BitVec.eq_of_toNat_eq hmod
    obtain ⟨hfirst, hsecond⟩ := List.append_inj h
      (by rw [length_littleEndian, length_littleEndian])
    obtain ⟨hrights, hobject⟩ := append_inj (hword _ _ hfirst)
    obtain ⟨hgeneration, hepoch⟩ := append_inj (hword _ _ hsecond)
    cases c
    cases c'
    simp only [Capability.mk.injEq]
    exact ⟨hobject, hrights, hepoch, hgeneration⟩

def segmentBytes (s : Segment) : List Byte :=
  field s.name ++ ([kindByte s.kind] ++ (bigEndian 8 s.vaddr.toNat ++ (bigEndian 8 s.memsz.toNat ++
    (bigEndian 8 s.filesz.toNat ++ bigEndian 8 s.hash.toNat))))

theorem framed_segmentBytes : Framed {s | s.name.length < 2 ^ 32} segmentBytes := by
  have h := framed_field.pair (framed_kindByte.pair (framed_be64.pair (framed_be64.pair
    (framed_be64.pair framed_be64))))
  refine h.comap
    (f := fun s : Segment => (s.name, s.kind, s.vaddr, s.memsz, s.filesz, s.hash))
    (fun s hs => ⟨hs, trivial, trivial, trivial, trivial, trivial⟩) fun s _ s' _ heq => ?_
  simp only [Prod.mk.injEq] at heq
  obtain ⟨hname, hkind, hvaddr, hmemsz, hfilesz, hhash⟩ := heq
  exact Segment.ext hkind hname hvaddr hmemsz hfilesz hhash

def manifestBytes (m : Manifest) : List Byte :=
  field m.kernelVersion ++ (field m.buildId ++
    ((length32 m.segments.length ++ m.segments.flatMap segmentBytes) ++
      (length32 m.capabilities.length ++ m.capabilities.flatMap capBytes)))

theorem framed_manifestBytes : Framed {m | m.Short} manifestBytes := by
  have h := framed_field.pair (framed_field.pair ((framed_length32.list framed_segmentBytes).pair
    (framed_length32.list framed_capBytes)))
  refine h.comap
    (f := fun m : Manifest => (m.kernelVersion, m.buildId, m.segments, m.capabilities))
    (fun m hm => ⟨hm.kernelVersion, hm.buildId, ⟨hm.segments, hm.names⟩, hm.capabilities,
      fun _ _ => trivial⟩) fun m _ m' _ heq => ?_
  simp only [Prod.mk.injEq] at heq
  obtain ⟨hversion, hbuild, hsegments, hcapabilities⟩ := heq
  exact Manifest.ext hversion hbuild hsegments hcapabilities

theorem appendSegment_eq : appendSegment = fun out s => out ++ segmentBytes s := by
  funext out s
  simp only [appendSegment, appendString_eq, appendBe64_eq, List.append_assoc, segmentBytes]

theorem canonicalise_eq (m : Manifest) : canonicalise m = manifestBytes m := by
  simp only [canonicalise, appendSegment_eq, List.foldl_append_eq_append]
  simp only [appendBe32_length, appendString_eq, List.nil_append, List.append_assoc,
    manifestBytes, List.flatMap_def]

/-- What is signed can be parsed back into the trust root and the manifest. -/
theorem framed_preimage :
    Framed {p : TrustRoot × Manifest | p.2.Short} fun p => preimage p.2 p.1 := by
  have hroot : Framed Set.univ fun r : TrustRoot => r.toList :=
    Framed.ofLength (fun r _ => r.length_toList) fun _ _ _ _ h => Vector.toList_inj.mp h
  have h : Framed {p : TrustRoot × Manifest | p.2.Short}
      fun p => p.1.toList ++ manifestBytes p.2 :=
    (hroot.pair framed_manifestBytes).mono fun p hp => ⟨trivial, hp⟩
  refine h.congr fun p => ?_
  rw [preimage, canonicalise_eq]

/-- The signed string tells the trust root and the manifest, and no manifest's encoding is a proper
    prefix of another's. So if SHA3-512 is injective on the signed strings, a signature verifies
    for the manifest and the trust root it was made for, and for no others. -/
theorem boot_signature_binds :
    (∀ (m m' : Manifest) (r r' : TrustRoot), m.Short → m'.Short →
      preimage m r = preimage m' r' → r = r' ∧ m = m') ∧
    (∀ m m' : Manifest, m.Short → m'.Short → canonicalise m <+: canonicalise m' → m = m') ∧
    ∀ S : Set (TrustRoot × Manifest), (∀ p ∈ S, p.2.Short) →
      Set.InjOn sha3_512 ((fun p => preimage p.2 p.1) '' S) →
      ∀ p ∈ S, ∀ p' ∈ S, (verify p'.2 (sign p.2 p.1) p'.1 = true ↔ p'.2 = p.2 ∧ p'.1 = p.1) := by
  refine ⟨fun m m' r r' hm hm' h => ?_, fun m m' hm hm' hp => ?_, ?_⟩
  · have hpair : ((r, m) : TrustRoot × Manifest) = (r', m') := framed_preimage.injOn hm hm' h
    exact Prod.mk.inj hpair
  · rw [canonicalise_eq, canonicalise_eq] at hp
    exact framed_manifestBytes.eq_of_prefix hm hm' hp
  · rintro S hshort hinj ⟨r, m⟩ hp ⟨r', m'⟩ hp'
    rw [verify, decide_eq_true_iff]
    constructor
    · intro hsig
      have hpre : preimage m' r' = preimage m r :=
        hinj (Set.mem_image_of_mem _ hp') (Set.mem_image_of_mem _ hp) hsig
      have hpair : ((r', m') : TrustRoot × Manifest) = (r, m) :=
        framed_preimage.injOn (hshort _ hp') (hshort _ hp) hpre
      exact (Prod.mk.inj hpair).symm
    · rintro ⟨hm, hr⟩
      rw [show m' = m from hm, show r' = r from hr]

def hostBootManifest : Manifest :=
  { kernelVersion := text "0.1.0-host", buildId := text "host-scaffold"
    segments := [{ name := text ".text", vaddr := 0x1000, memsz := 0x10000, filesz := 0x10000 }] }

theorem hostBootManifest_short : hostBootManifest.Short := by
  refine ⟨by decide +kernel, by decide +kernel, by decide, fun s hs => ?_, by decide⟩
  rw [List.mem_singleton.mp hs]
  exact (by decide +kernel : (text ".text").length < 2 ^ 32)

/-- The manifest of the host, signed with one trust root and checked with that root and with
    another. -/
theorem boot_signature_binds_host :
    verify hostBootManifest (sign hostBootManifest (Vector.replicate 32 0))
        (Vector.replicate 32 0) = true ∧
      verify hostBootManifest (sign hostBootManifest (Vector.replicate 32 0))
        (Vector.replicate 32 1) ≠ true := by
  have hshort : ∀ p ∈ ({(Vector.replicate 32 0, hostBootManifest),
      (Vector.replicate 32 1, hostBootManifest)} : Set (TrustRoot × Manifest)), p.2.Short := by
    rintro p (rfl | rfl)
    · exact hostBootManifest_short
    · exact hostBootManifest_short
  have hinj : Set.InjOn sha3_512 ((fun p : TrustRoot × Manifest => preimage p.2 p.1) ''
      {(Vector.replicate 32 0, hostBootManifest), (Vector.replicate 32 1, hostBootManifest)}) := by
    rw [Set.image_pair, Set.injOn_pair]
    intro heq
    exact absurd heq (oneshot_ne (by decide) (by decide) (by decide +kernel))
  have hbinds := boot_signature_binds.2.2 _ hshort hinj _ (Or.inl rfl)
  refine ⟨(hbinds _ (Or.inl rfl)).mpr ⟨rfl, rfl⟩, fun hverify => ?_⟩
  have hroot : (Vector.replicate 32 1 : TrustRoot) = Vector.replicate 32 0 :=
    ((hbinds _ (Or.inr rfl)).mp hverify).2
  exact absurd hroot (by decide)

end NeuroVerse.Boot
