/-
  The boot chain (`boot/protocol.hpp`, `boot/protocol.cpp`): a manifest is signed with a trust
  root, goes out as text, is parsed where it arrives, and `load_signed_manifest` checks the
  signature with the root of the host.

  The signature covers the manifest and not its text. `parseText_returns_printable` says which
  manifests a text can stand for, and `loads_iff` which of those that were signed are loaded: the
  ones that the text form says all of, signed with the secret of the host.
-/
import NeuroVerse.Boot.TextForm

namespace NeuroVerse.Boot

open NeuroVerse.Lib NeuroVerse.Lib.StdString NeuroVerse.Core NeuroVerse.Pkg

/-! ## The manifests that a text stands for -/

/-- What `parse_text` has filled in so far. -/
structure Filled (m : Manifest) : Prop where
  capabilities : m.capabilities = []
  version : Plain m.kernelVersion
  build : Plain m.buildId
  names : ∀ s ∈ m.segments, ch ' ' ∉ s.name ∧ ch '\n' ∉ s.name

theorem not_mem_dropWhile {rest : Str} {b : Byte} (h : b ∉ rest) : b ∉ rest.dropWhile isBlank :=
  fun hmem => h ((List.dropWhile_sublist isBlank).subset hmem)

theorem plain_value {rest : Str} (h : ch '\n' ∉ rest) : Plain (rest.dropWhile isBlank) := by
  refine ⟨not_mem_dropWhile h, fun b hb => ?_⟩
  have hhead := List.head?_dropWhile_not isBlank rest
  rw [Option.mem_def] at hb
  rw [hb] at hhead
  exact hhead

theorem not_mem_field {val : Str} (h : ch '\n' ∉ val) (i : Nat) :
    ch ' ' ∉ field val i ∧ ch '\n' ∉ field val i := by
  rw [field, List.getD_eq_getElem?_getD]
  cases hi : (val.splitOn (ch ' '))[i]? with
  | none => exact ⟨List.not_mem_nil, List.not_mem_nil⟩
  | some l =>
    obtain ⟨hspace, hsub⟩ := of_mem_splitOn (List.mem_of_getElem? hi)
    exact ⟨hspace, fun hmem => h (hsub hmem)⟩

theorem parseSegment_name {val : Str} {seg : Segment} (h : parseSegment val = .ok seg) :
    seg.name = field val 1 := by
  rw [parseSegment_eq] at h
  obtain ⟨_, -, h⟩ := bind_eq_ok_iff.mp h
  obtain ⟨_, -, h⟩ := bind_eq_ok_iff.mp h
  obtain ⟨_, -, h⟩ := bind_eq_ok_iff.mp h
  obtain ⟨_, -, h⟩ := bind_eq_ok_iff.mp h
  exact congrArg Segment.name (Except.ok.inj h).symm

theorem Filled.parseLine {out m : Manifest} (h : Filled out) {line : Str} (hline : ch '\n' ∉ line)
    (hm : parseLine out line = .ok m) : Filled m := by
  by_cases hcolon : ch ':' ∈ line
  · obtain ⟨key, rest, rfl, hkey⟩ := exists_key hcolon
    have hrest : ch '\n' ∉ rest := fun hmem =>
      hline (List.mem_append_right key (List.mem_cons_of_mem _ hmem))
    rw [parseLine_key out hkey] at hm
    split at hm
    · obtain rfl := Except.ok.inj hm
      exact { h with version := plain_value hrest }
    split at hm
    · obtain rfl := Except.ok.inj hm
      exact { h with build := plain_value hrest }
    split at hm
    · cases hseg : parseSegment (rest.dropWhile isBlank) with
      | error e =>
        rw [hseg] at hm
        cases hm
      | ok seg =>
        rw [hseg] at hm
        obtain rfl := Except.ok.inj hm
        refine { h with names := fun s hs => ?_ }
        rcases List.mem_append.mp hs with hs | hs
        · exact h.names s hs
        · rw [List.mem_singleton.mp hs, parseSegment_name hseg]
          exact not_mem_field (not_mem_dropWhile hrest) 1
    · obtain rfl := Except.ok.inj hm
      exact h
  · rw [parseLine_no_colon out hcolon] at hm
    obtain rfl := Except.ok.inj hm
    exact h

theorem printable_of_parseText {s : Str} {m : Manifest} (h : parseText s = .ok (true, m)) :
    Printable m := by
  obtain ⟨out, hout, hm⟩ := bind_eq_ok_iff.mp h
  obtain ⟨htrue, rfl⟩ := Prod.mk.inj (Except.ok.inj hm)
  rw [parseLines_eq] at hout
  have hstart : Filled { kernelVersion := [], buildId := [] } :=
    ⟨rfl, ⟨List.not_mem_nil, fun _ hb => nomatch hb⟩, ⟨List.not_mem_nil, fun _ hb => nomatch hb⟩,
      fun _ hs => nomatch hs⟩
  have hfilled : Filled out := foldlM_keeps
    (fun line hline c c' hc hstep => hc.parseLine (of_mem_splitOn hline).1 hstep) hstart hout
  refine ⟨hfilled.capabilities, fun hnil => ?_, hfilled.version, hfilled.build, hfilled.names⟩
  rw [hnil] at htrue
  cases htrue

/-- The manifests that `parse_text` gives, answering true, are those that it gives back from their
    own text form. A manifest with a capability, or with a version, a build id or a name that the
    text cannot hold, is none of them. -/
theorem parseText_returns_printable (m : Manifest) :
    ((∃ s, parseText s = .ok (true, m)) ↔ Printable m) ∧
      (parseText (toText m) = .ok (true, m) ↔ Printable m) := by
  have hback : Printable m → parseText (toText m) = .ok (true, m) := fun h =>
    parseText_of_lines (parseLines_toText h) h.versionNonempty
  exact ⟨⟨fun ⟨_, h⟩ => printable_of_parseText h, fun h => ⟨_, hback h⟩⟩,
    printable_of_parseText, hback⟩

/-! ## The chain -/

def sha3_256 (bytes : List Byte) : TrustRoot :=
  @Sha3T.oneshot 32 136 ⟨Nat.succ_ne_zero 135⟩ bytes

def kHostSigningSecret : Str := text "neuroverse-os-host-boot-secret"

def hostTrustRoot : TrustRoot := sha3_256 kHostSigningSecret

def trustRootFromPassphrase (passphrase : Str) : TrustRoot := sha3_256 passphrase

def loadSignedManifest (m : Manifest) (sig : Signature) : Option Manifest :=
  if verify m sig hostTrustRoot then some m else none

/-- What the hashes have to tell apart for one manifest on its way: the passphrase and the secret
    of the host, and what was signed and what is checked. -/
structure TellsApart (m m' : Manifest) (passphrase : Str) : Prop where
  roots : Set.InjOn sha3_256 {passphrase, kHostSigningSecret}
  preimages : Set.InjOn sha3_512
    {preimage m (trustRootFromPassphrase passphrase), preimage m' hostTrustRoot}

theorem verify_iff {m m' : Manifest} {passphrase : Str} (hm : m.Short) (hm' : m'.Short)
    (happart : TellsApart m m' passphrase) :
    verify m' (sign m (trustRootFromPassphrase passphrase)) hostTrustRoot = true ↔
      m' = m ∧ passphrase = kHostSigningSecret := by
  rw [verify, decide_eq_true_iff]
  constructor
  · intro hsig
    have hpre : preimage m' hostTrustRoot = preimage m (trustRootFromPassphrase passphrase) :=
      happart.preimages (Or.inr rfl) (Or.inl rfl) hsig
    have hpair : ((hostTrustRoot, m') : TrustRoot × Manifest) =
        (trustRootFromPassphrase passphrase, m) := framed_preimage.injOn hm' hm hpre
    obtain ⟨hroot, hmanifest⟩ := Prod.mk.inj hpair
    exact ⟨hmanifest, happart.roots (Or.inl rfl) (Or.inr rfl) hroot.symm⟩
  · rintro ⟨rfl, rfl⟩
    rfl

/-- A signed manifest is loaded from its text form exactly when that form says all of it and the
    secret it was signed with is the host's, and then what is loaded is what was signed. -/
theorem loads_iff {m m' : Manifest} (passphrase : Str)
    (hparse : parseText (toText m) = .ok (true, m')) (hm : m.Short) (hm' : m'.Short)
    (happart : TellsApart m m' passphrase) (b : Manifest) :
    loadSignedManifest m' (sign m (trustRootFromPassphrase passphrase)) = some b ↔
      Printable m ∧ passphrase = kHostSigningSecret ∧ b = m := by
  have hsame : m' = m ↔ Printable m := by
    constructor
    · rintro rfl
      exact printable_of_parseText hparse
    · intro hprintable
      rw [parseText_of_lines (parseLines_toText hprintable) hprintable.versionNonempty] at hparse
      exact (Prod.mk.inj (Except.ok.inj hparse)).2.symm
  rw [loadSignedManifest, Option.ite_none_right_eq_some, verify_iff hm hm' happart, hsame,
    and_assoc]
  constructor
  · rintro ⟨hprintable, hsecret, hb⟩
    exact ⟨hprintable, hsecret, (Option.some.inj hb).symm.trans (hsame.mpr hprintable)⟩
  · rintro ⟨hprintable, hsecret, rfl⟩
    exact ⟨hprintable, hsecret, congrArg some (hsame.mpr hprintable)⟩

theorem preimage_eq (m : Manifest) (passphrase : Str) :
    preimage m (trustRootFromPassphrase passphrase) =
      evalOneshot 32 136 passphrase ++ canonicalise m := by
  rw [preimage, trustRootFromPassphrase, sha3_256, toList_oneshot (by decide) (by decide)]

/-- The manifest of the host, signed with its secret and with another one. -/
theorem loads_iff_host :
    loadSignedManifest hostBootManifest
        (sign hostBootManifest (trustRootFromPassphrase kHostSigningSecret)) =
        some hostBootManifest ∧
      loadSignedManifest hostBootManifest
        (sign hostBootManifest (trustRootFromPassphrase (text "x"))) ≠ some hostBootManifest := by
  have hprintable : Printable hostBootManifest := by
    refine ⟨rfl, by decide +kernel, ⟨by decide +kernel, by decide +kernel⟩,
      ⟨by decide +kernel, by decide +kernel⟩, fun s hs => ?_⟩
    rw [List.mem_singleton.mp hs]
    exact ⟨by decide +kernel, by decide +kernel⟩
  have hparse := parseText_of_lines (parseLines_toText hprintable) hprintable.versionNonempty
  have hshort := hostBootManifest_short
  have hsame : TellsApart hostBootManifest hostBootManifest kHostSigningSecret := by
    refine ⟨?_, ?_⟩
    · rw [Set.pair_eq_singleton]
      exact Set.injOn_singleton _ _
    · rw [hostTrustRoot, trustRootFromPassphrase, Set.pair_eq_singleton]
      exact Set.injOn_singleton _ _
  have hother : TellsApart hostBootManifest hostBootManifest (text "x") := by
    refine ⟨?_, ?_⟩
    · rw [Set.injOn_pair]
      intro heq
      exact absurd heq (oneshot_ne (by decide) (by decide) (by decide +kernel))
    · have hhost : hostTrustRoot = trustRootFromPassphrase kHostSigningSecret := rfl
      rw [hhost, preimage_eq, preimage_eq, Set.injOn_pair]
      intro heq
      exact absurd heq (oneshot_ne (by decide) (by decide) (by decide +kernel))
  refine ⟨(loads_iff kHostSigningSecret hparse hshort hshort hsame _).mpr
    ⟨hprintable, rfl, rfl⟩, fun hloads => ?_⟩
  have hsecret := ((loads_iff (text "x") hparse hshort hshort hother _).mp hloads).2.1
  exact absurd hsecret (by decide +kernel)

end NeuroVerse.Boot
