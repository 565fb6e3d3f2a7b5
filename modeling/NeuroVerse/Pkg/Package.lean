/-
  A package on its way from the site that signs it to the site that checks it, and the digests of
  files.

  The signer puts the files of the package into its store and writes a manifest with their
  digests. `delivered`: a manifest that carries the signer's root and passes the check against
  any store, whatever that store was fed, hands out the signer's files byte for byte, as long as
  SHA3-512 tells apart what the two sites fed it.

  `sha3_512_file` reads a file in pieces, `put_file` at once; they give the same digest
  (`sha3_512_file_eq`).
-/
import NeuroVerse.Pkg.Manifest
import NeuroVerse.Pkg.Store
import NeuroVerse.Pkg.Streaming

namespace NeuroVerse.Pkg

open NeuroVerse.Lib

/-! ## Files -/

namespace Sha3T

/-- The loop of `sha3_512_file` over the bytes not read yet. A read that comes back short ends
    it, an empty one before it is absorbed. -/
def absorbFile (h : Sha3Base State 72) (file : List Byte) : Sha3Base State 72 :=
  let got := file.take 4096
  if got.length = 0 then h
  else
    let h := @Sha3Base.absorb _ _ (keccak 72) ⟨Nat.succ_ne_zero 71⟩ h got
    if got.length < 4096 then h else absorbFile h (file.drop 4096)
termination_by file.length
decreasing_by
  rename_i hne _
  rw [List.length_take] at hne
  rw [List.length_drop]
  omega

/-- The digest of a file, of nothing when it cannot be opened. -/
def sha3_512_file (contents : Option (List Byte)) : Digest :=
  match contents with
  | none => Vector.replicate 64 0
  | some file => (final 64 (absorbFile (Sha3Base.new (keccak 72)) file)).2

end Sha3T

/-- `sha3::verify`. -/
def verify (d : Digest) (bytes : List Byte) : Bool := sha3_512 bytes = d

theorem absorbFile_holds {h : Sha3Base State 72} {msg : List Byte} (hh : h.Holds (keccak 72) msg)
    (file : List Byte) : (Sha3T.absorbFile h file).Holds (keccak 72) (msg ++ file) := by
  have hr : NeZero 72 := ⟨Nat.succ_ne_zero 71⟩
  induction hn : file.length using Nat.strongRecOn generalizing h msg file with
  | ind n ih =>
    rw [Sha3T.absorbFile]
    dsimp only
    split
    · next hempty =>
      have hnil : file = [] := List.eq_nil_of_length_eq_zero (by
        rw [List.length_take] at hempty; omega)
      rw [hnil, List.append_nil]
      exact hh
    · next hne =>
      have hgot := Sha3Base.absorb_holds hh (file.take 4096)
      split
      · next hshort =>
        have htake : file.take 4096 = file := List.take_of_length_le (by
          rw [List.length_take] at hshort; omega)
        rw [htake] at hgot ⊢
        exact hgot
      · next hfull =>
        have hlt : (file.drop 4096).length < n := by
          rw [List.length_take] at hne
          rw [List.length_drop]
          omega
        have hrest := ih _ hlt hgot (file.drop 4096) rfl
        rwa [List.append_assoc, List.take_append_drop] at hrest

/-- A file read in pieces has the digest of its bytes, which is what `put_file` stores it
    under. -/
theorem sha3_512_file_eq (contents : Option (List Byte)) (s : HostStore) (path : String) :
    (s.putFile HostStore.hash path contents).1 = Sha3T.sha3_512_file contents := by
  cases contents with
  | none => rfl
  | some file =>
    have hr : NeZero 72 := ⟨Nat.succ_ne_zero 71⟩
    have hput : (s.putFile HostStore.hash path (some file)).1 = HostStore.hash file := by
      unfold HostStore.putFile
      dsimp only
      split <;> exact HostStore.put_digest s file
    rw [hput]
    have honce := Sha3Base.absorb_holds (Sha3Base.new_holds (K := keccak 72)) file
    have hpieces := absorbFile_holds (Sha3Base.new_holds (K := keccak 72)) file
    exact congrArg (Sha3T.digest 64 72) (honce.finalise_state_eq hpieces 0x06)

/-! ## Delivery -/

namespace Manifest

/-- The signer's manifest of `files`, each a name with its bytes. -/
def ofFiles (packageName version : Str) (files : List (Str × List Byte)) : Manifest :=
  { packageName, version
    entries := files.map fun f => { name := f.1, digest := HostStore.hash f.2 } }

/-- What a store hands out for a manifest. -/
def install (m : Manifest) (s : HostStore) : List (Str × Option (List Byte)) :=
  m.entries.map fun e => (e.name, s.contents e.digest)

theorem has_iff (s : HostStore) (d : Digest) : s.has d = true ↔ ∃ b, s.contents d = some b := by
  rw [HostStore.has, decide_eq_true_iff, ← AList.lookup_isSome, Option.isSome_iff_exists]
  unfold HostStore.contents HostStore.get
  constructor
  · rintro ⟨a, ha⟩
    exact ⟨a.bytes, by rw [ha]; rfl⟩
  · rintro ⟨b, hb⟩
    obtain ⟨a, ha, -⟩ := Option.map_eq_some_iff.mp hb
    exact ⟨a, ha⟩

/-- A store that was fed a file hands it out, and one that hands out something under its digest
    was fed it. -/
theorem contents_eq_iff {ops : List StoreOp} {S : Set (List Byte)}
    (hinj : Set.InjOn HostStore.hash S) (hops : ∀ b ∈ blobs ops, b ∈ S) {b : List Byte}
    (hb : b ∈ S) :
    (HostStore.after HostStore.hash ops).has (HostStore.hash b) = true ↔ b ∈ blobs ops := by
  have hsound : HostStore.Sound HostStore.hash ops (HostStore.after HostStore.hash ops) :=
    HostStore.after_sound ops
  rw [has_iff]
  constructor
  · rintro ⟨b', hb'⟩
    obtain ⟨heq, hmem⟩ := hsound.stored _ b' hb'
    rwa [← hinj (hops b' hmem) hb heq]
  · intro hmem
    exact Option.ne_none_iff_exists'.mp (hsound.found b hmem)

theorem contents_of_mem {ops : List StoreOp} {S : Set (List Byte)}
    (hinj : Set.InjOn HostStore.hash S) (hops : ∀ b ∈ blobs ops, b ∈ S) {b : List Byte}
    (hmem : b ∈ blobs ops) :
    (HostStore.after HostStore.hash ops).contents (HostStore.hash b) = some b := by
  have hsound : HostStore.Sound HostStore.hash ops (HostStore.after HostStore.hash ops) :=
    HostStore.after_sound ops
  obtain ⟨b', hb'⟩ := Option.ne_none_iff_exists'.mp (hsound.found b hmem)
  obtain ⟨heq, hmem'⟩ := hsound.stored _ b' hb'
  rw [hb', hinj (hops b' hmem') (hops b hmem) heq]

/-- What SHA3-512 has to tell apart for a delivery: the encodings of the two manifests, and the
    files of the signer and of the site's store. -/
structure Separates (m m0 : Manifest) (files : List (Str × List Byte)) (ops : List StoreOp) :
    Prop where
  encodings : Set.InjOn sha3_512 (canonicalise '' {m, m0})
  blobs : Set.InjOn HostStore.hash ({b | b ∈ files.map Prod.snd} ∪ {b | b ∈ blobs ops})

/-- A manifest with the signer's root passes the check exactly when it is the signer's and the
    store was fed every file of the package, and then the package that comes out is the one that
    went in. -/
theorem delivered {m : Manifest} (packageName version : Str) (files : List (Str × List Byte))
    (ops : List StoreOp)
    (hroot : m.trustedRoot = some (ofFiles packageName version files).contentRoot)
    (hshort : m.Short) (hshort0 : (ofFiles packageName version files).Short)
    (hsep : Separates m (ofFiles packageName version files) files ops) :
    (m.verify (HostStore.after HostStore.hash ops).has = none ↔
      m.signed = (ofFiles packageName version files).signed ∧ ∀ f ∈ files, f.2 ∈ blobs ops) ∧
    (m.verify (HostStore.after HostStore.hash ops).has = none →
      m.install (HostStore.after HostStore.hash ops) = files.map fun f => (f.1, some f.2)) := by
  have hfile : ∀ f ∈ files, f.2 ∈ {b | b ∈ files.map Prod.snd} ∪ {b | b ∈ blobs ops} :=
    fun f hf => Or.inl (List.mem_map_of_mem hf)
  have hops : ∀ b ∈ blobs ops, b ∈ {b | b ∈ files.map Prod.snd} ∪ {b | b ∈ blobs ops} :=
    fun b hb => Or.inr hb
  have hiff : m.verify (HostStore.after HostStore.hash ops).has = none ↔
      m.signed = (ofFiles packageName version files).signed ∧ ∀ f ∈ files, f.2 ∈ blobs ops := by
    have hS : ∀ x ∈ ({m, ofFiles packageName version files} : Set Manifest), x.Short := by
      rintro x (rfl | rfl)
      · exact hshort
      · exact hshort0
    rw [verify_none_iff, hroot, and_comm]
    simp only [Option.mem_some_iff, forall_eq']
    rw [contentRoot_inj hS hsep.encodings (Or.inl rfl) (Or.inr rfl)]
    refine and_congr_right fun hsigned => ?_
    have hentries : m.entries = (ofFiles packageName version files).entries :=
      congrArg (fun p => p.2.2) hsigned
    rw [hentries, ofFiles]
    simp only [List.forall_mem_map]
    exact forall₂_congr fun f hf => contents_eq_iff hsep.blobs hops (hfile f hf)
  refine ⟨hiff, fun hverify => ?_⟩
  obtain ⟨hsigned, hfed⟩ := hiff.mp hverify
  have hentries : m.entries = (ofFiles packageName version files).entries :=
    congrArg (fun p => p.2.2) hsigned
  rw [install, hentries, ofFiles, List.map_map]
  refine List.map_congr_left fun f hf => ?_
  show (f.1, _) = (f.1, some f.2)
  rw [contents_of_mem hsep.blobs hops (hfed f hf)]

/-- A package of one file, signed. -/
def onePackage : Manifest :=
  { ofFiles [0x70] [0x31] [([0x66], [0x61])] with
    trustedRoot := some (ofFiles [0x70] [0x31] [([0x66], [0x61])]).contentRoot }

/-- The signer's root on another version. -/
def tamperedPackage : Manifest := { onePackage with version := [0x32] }

theorem canonicalise_onePackage (version : Str) :
    ({ onePackage with version := version } : Manifest).canonicalise =
      field [0x70] ++ (field version ++ (length32 1 ++
        (field [0x66] ++ evalOneshot 64 72 [0x61]))) := by
  have hdigest : (HostStore.hash [0x61]).toList = evalOneshot 64 72 [0x61] :=
    toList_oneshot (by decide) (by decide) _
  rw [canonicalise_eq, ← hdigest, ← List.append_nil (field [0x66] ++ _)]
  rfl

/-- A site that has been fed the file and another one installs the package, and refuses the
    tampered one. -/
theorem delivered_onePackage :
    onePackage.install (HostStore.after HostStore.hash [.put [0x61], .put [0x62]]) =
        [([0x66], some [0x61])] ∧
      tamperedPackage.verify
        (HostStore.after HostStore.hash [.put [0x61], .put [0x62]]).has ≠ none := by
  have hentries : onePackage.entries ∈ shortEntries := by
    refine ⟨Nat.one_lt_two_pow (by decide), fun e he => ?_⟩
    rw [List.mem_singleton.mp he]
    exact (by decide : [(0x66 : Byte)].length < 2 ^ 32)
  have hname : [(0x70 : Byte)] ∈ shortStrings := (by decide : [(0x70 : Byte)].length < 2 ^ 32)
  have hshort : onePackage.Short :=
    ⟨hname, (by decide : [(0x31 : Byte)].length < 2 ^ 32), hentries⟩
  have htampered : tamperedPackage.Short :=
    ⟨hname, (by decide : [(0x32 : Byte)].length < 2 ^ 32), hentries⟩
  have hblobs : Set.InjOn HostStore.hash
      ({b | b ∈ [(([0x66] : Str), ([0x61] : List Byte))].map Prod.snd} ∪
        {b | b ∈ blobs [.put [0x61], .put [0x62]]}) := by
    have hpair : {b | b ∈ [(([0x66] : Str), ([0x61] : List Byte))].map Prod.snd} ∪
        {b | b ∈ blobs [.put [0x61], .put [0x62]]} = {[0x61], [0x62]} := by
      ext b
      simp [blobs, StoreOp.blob]
    rw [hpair, Set.injOn_pair]
    intro heq
    exact absurd heq (oneshot_ne (by decide) (by decide) (by decide +kernel))
  have hsame : Separates onePackage (ofFiles [0x70] [0x31] [([0x66], [0x61])]) [([0x66], [0x61])]
      [.put [0x61], .put [0x62]] := by
    refine ⟨?_, hblobs⟩
    rw [Set.image_pair, Set.injOn_pair]
    exact fun _ => rfl
  have hother : Separates tamperedPackage (ofFiles [0x70] [0x31] [([0x66], [0x61])])
      [([0x66], [0x61])] [.put [0x61], .put [0x62]] := by
    refine ⟨?_, hblobs⟩
    have hsigner : (ofFiles [0x70] [0x31] [([0x66], [0x61])]).canonicalise =
        ({ onePackage with version := [0x31] } : Manifest).canonicalise := rfl
    rw [Set.image_pair, hsigner, tamperedPackage, canonicalise_onePackage,
      canonicalise_onePackage, Set.injOn_pair]
    intro heq
    exact absurd heq (oneshot_ne (by decide) (by decide) (by decide +kernel))
  obtain ⟨hiff, hinstall⟩ := delivered [0x70] [0x31] [([0x66], [0x61])]
    [.put [0x61], .put [0x62]] rfl hshort hshort hsame
  refine ⟨hinstall (hiff.mpr ⟨rfl, fun f hf => ?_⟩), fun hpass => ?_⟩
  · rw [List.mem_singleton.mp hf]
    exact .head _
  · have hsigned := ((delivered [0x70] [0x31] [([0x66], [0x61])] [.put [0x61], .put [0x62]] rfl
      htampered hshort hother).1.mp hpass).1
    have hversion : ([0x32] : Str) = [0x31] := congrArg (·.2.1) hsigned
    exact absurd hversion (by decide)

end Manifest

end NeuroVerse.Pkg
