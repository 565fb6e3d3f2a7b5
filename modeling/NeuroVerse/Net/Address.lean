/-
  IPv4 addresses and their dotted-quad form (`net/address.hpp`).

  `IpAddr::parse` is a function into `Except`: it throws `std::invalid_argument` with a text, and
  `substr` would throw `std::out_of_range`. An octet is read in an `unsigned` of 32 bits.
  `parseLoop_iff` says which texts are accepted, piece by piece; `Octet` is the grammar of one
  piece. The address family has one value and is left out.
-/
import NeuroVerse.Lib.StdString
import Mathlib.Data.List.Induction
import Mathlib.Tactic.IntervalCases

namespace NeuroVerse.Net

open NeuroVerse.Lib NeuroVerse.Lib.StdString

/-- What `parse` can throw. -/
inductive Failure where
  | invalidArgument (what : String)
  | outOfRange
deriving DecidableEq

@[ext]
structure IpAddr where
  v4 : Vector (BitVec 8) 4
deriving DecidableEq

namespace IpAddr

/-- One turn of the loop over the characters of an octet. -/
def readDigit (v : BitVec 32) (b : BitVec 8) : Except Failure (BitVec 32) :=
  if b < ch '0' || ch '9' < b then throw (.invalidArgument "IpAddr::parse: non-digit octet")
  else
    let v := v * 10 + (b - ch '0').setWidth 32
    if 255 < v then throw (.invalidArgument "IpAddr::parse: octet > 255") else pure v

def readOctet (part : List (BitVec 8)) : Except Failure (BitVec 32) := part.foldlM readDigit 0

def readPart (part : List (BitVec 8)) : Except Failure (BitVec 32) :=
  if part.isEmpty then throw (.invalidArgument "IpAddr::parse: empty octet") else readOctet part

def parseLoop (s : List (BitVec 8)) (i : Nat) (octets : Vector (BitVec 8) 4) (pos : Nat) :
    Except Failure (Vector (BitVec 8) 4) :=
  if _h : i < 4 then do
    let dot := find s (ch '.') pos
    let part ← (substr s pos (some (dot.getD s.length - pos))).mapError fun _ => .outOfRange
    let v ← readPart part
    let octets := octets.set i (v.setWidth 8)
    if i < 3 then
      match dot with
      | none => throw (.invalidArgument "IpAddr::parse: missing '.'")
      | some dot => parseLoop s (i + 1) octets (dot + 1)
    else if dot.isSome then throw (.invalidArgument "IpAddr::parse: trailing '.'")
    else parseLoop s (i + 1) octets pos
  else return octets
termination_by 4 - i

def parse (s : List (BitVec 8)) : Except Failure IpAddr := do
  return ⟨← parseLoop s 0 #v[0, 0, 0, 0] 0⟩

def toString (a : IpAddr) : List (BitVec 8) :=
  StdString.toString (a.v4.get 0).toNat ++ [ch '.'] ++
    StdString.toString (a.v4.get 1).toNat ++ [ch '.'] ++
    StdString.toString (a.v4.get 2).toNat ++ [ch '.'] ++
    StdString.toString (a.v4.get 3).toNat

/-! ## One octet -/

/-- A group of digits with a value that fits in a byte. -/
structure Octet (g : List (BitVec 8)) : Prop where
  ne_nil : g ≠ []
  digits : ∀ b ∈ g, isDigit b = true
  le : readDecimal g ≤ 255

/-- One more digit after a value of at most 255 does not come near 32 bits. -/
theorem toNat_next {v : BitVec 32} {b : BitVec 8} (hv : v.toNat ≤ 255) (hb : isDigit b = true) :
    v.toNat * 10 + digitVal b < 2 ^ 32 ∧
      (v * 10 + (b - ch '0').setWidth 32).toNat = v.toNat * 10 + digitVal b := by
  have hd := digitVal_lt hb
  have hsub : (b - ch '0').toNat = digitVal b := by
    rw [BitVec.toNat_sub_of_le]
    · rfl
    · exact BitVec.le_def.mpr ((isDigit_iff b).mp hb).1
  have hten : (10 : BitVec 32).toNat = 10 := rfl
  refine ⟨by omega, ?_⟩
  rw [BitVec.toNat_add, BitVec.toNat_mul, BitVec.toNat_setWidth, hsub, hten,
    Nat.mod_eq_of_lt (by omega : digitVal b < 2 ^ 32),
    Nat.mod_eq_of_lt (by omega : v.toNat * 10 < 2 ^ 32), Nat.mod_eq_of_lt (by omega)]

theorem readDigit_iff {v : BitVec 32} (hv : v.toNat ≤ 255) (b : BitVec 8) (w : BitVec 32) :
    readDigit v b = .ok w ↔
      isDigit b = true ∧ v.toNat * 10 + digitVal b ≤ 255 ∧
        w.toNat = v.toNat * 10 + digitVal b := by
  have h0 : (ch '0').toNat = 48 := rfl
  have h9 : (ch '9').toNat = 57 := rfl
  by_cases hb : isDigit b = true
  · have hrange := (isDigit_iff b).mp hb
    have hin : ¬ (b < ch '0' || ch '9' < b) = true := by
      simp only [Bool.or_eq_true, decide_eq_true_eq, BitVec.lt_def, h0, h9]
      omega
    have hnext := (toNat_next hv hb).2
    rw [readDigit, if_neg hin]
    dsimp only
    split
    · rename_i hbig
      rw [BitVec.lt_def, hnext] at hbig
      constructor
      · intro h
        cases h
      · rintro ⟨-, hle, -⟩
        exact absurd hle (Nat.not_le.mpr hbig)
    · rename_i hsmall
      rw [BitVec.lt_def, hnext] at hsmall
      constructor
      · rintro ⟨⟩
        exact ⟨hb, Nat.not_lt.mp hsmall, hnext⟩
      · rintro ⟨-, -, hw⟩
        exact congrArg Except.ok (BitVec.eq_of_toNat_eq (hnext.trans hw.symm))
  · have hout : (b < ch '0' || ch '9' < b) = true := by
      rw [isDigit_iff] at hb
      simp only [Bool.or_eq_true, decide_eq_true_eq, BitVec.lt_def, h0, h9]
      omega
    rw [readDigit, if_pos hout]
    constructor
    · intro h
      cases h
    · intro h
      exact absurd h.1 hb

/-- The digits of an octet are read without overflow, and a value above 255 ends the loop. -/
theorem readOctet_iff (part : List (BitVec 8)) (v : BitVec 32) :
    readOctet part = .ok v ↔
      (∀ b ∈ part, isDigit b = true) ∧ readDecimal part ≤ 255 ∧ v.toNat = readDecimal part := by
  induction part using List.reverseRecOn generalizing v with
  | nil =>
    constructor
    · rintro ⟨⟩
      exact ⟨fun b hb => absurd hb List.not_mem_nil, Nat.zero_le _, rfl⟩
    · rintro ⟨-, -, hv⟩
      exact congrArg Except.ok (BitVec.eq_of_toNat_eq hv).symm
  | append_singleton part b ih =>
    rw [readOctet, List.foldlM_append, ← readOctet, bind_eq_ok_iff, readDecimal_snoc,
      List.forall_mem_append, List.forall_mem_singleton]
    simp only [List.foldlM_cons, List.foldlM_nil, bind_pure]
    constructor
    · rintro ⟨u, hu, hstep⟩
      obtain ⟨hdigits, hle, hval⟩ := (ih u).mp hu
      obtain ⟨hb, hle', hw⟩ := (readDigit_iff (by omega) b v).mp hstep
      rw [hval] at hle' hw
      exact ⟨⟨hdigits, hb⟩, hle', hw⟩
    · rintro ⟨⟨hdigits, hb⟩, hle, hv⟩
      have hpart : readDecimal part ≤ 255 := by omega
      have hval : (BitVec.ofNat 32 (readDecimal part)).toNat = readDecimal part := by
        rw [BitVec.toNat_ofNat, Nat.mod_eq_of_lt (by omega)]
      refine ⟨BitVec.ofNat 32 (readDecimal part), (ih _).mpr ⟨hdigits, hpart, hval⟩, ?_⟩
      rw [readDigit_iff (by omega), hval]
      exact ⟨hb, hle, hv⟩

/-- The value of a group of digits as a byte. -/
def octetValue (g : List (BitVec 8)) : BitVec 8 := BitVec.ofNat 8 (readDecimal g)

theorem readPart_iff (part : List (BitVec 8)) (v : BitVec 32) :
    readPart part = .ok v ↔ Octet part ∧ v.toNat = readDecimal part := by
  cases part with
  | nil =>
    constructor
    · intro h
      cases h
    · rintro ⟨h, -⟩
      exact absurd rfl h.ne_nil
  | cons b part =>
    rw [readPart, List.isEmpty_cons, if_neg Bool.false_ne_true, readOctet_iff]
    constructor
    · rintro ⟨hdigits, hle, hv⟩
      exact ⟨⟨List.cons_ne_nil b part, hdigits, hle⟩, hv⟩
    · rintro ⟨h, hv⟩
      exact ⟨h.digits, h.le, hv⟩

/-! ## The loop over the octets -/

/-- One turn of the loop, with the part that `substr` cuts out: it never throws. -/
theorem parseLoop_step {s : List (BitVec 8)} {i : Nat} (hi : i < 4)
    (octets : Vector (BitVec 8) 4) {pos : Nat} (hpos : pos ≤ s.length) :
    parseLoop s i octets pos = (do
      let v ← readPart ((s.drop pos).take ((find s (ch '.') pos).getD s.length - pos))
      if i < 3 then
        match find s (ch '.') pos with
        | none => throw (.invalidArgument "IpAddr::parse: missing '.'")
        | some dot => parseLoop s (i + 1) (octets.set i (v.setWidth 8)) (dot + 1)
      else if (find s (ch '.') pos).isSome then
        throw (.invalidArgument "IpAddr::parse: trailing '.'")
      else parseLoop s (i + 1) (octets.set i (v.setWidth 8)) pos) := by
  have hsub : ∀ len, substr s pos (some len) = .ok ((s.drop pos).take len) := by
    intro len
    rw [substr, if_neg (Nat.not_lt.mpr hpos)]
    rfl
  rw [parseLoop, dif_pos hi]
  simp only [hsub]
  rfl

theorem parseLoop_end (s : List (BitVec 8)) {i : Nat} (hi : ¬ i < 4)
    (octets : Vector (BitVec 8) 4) (pos : Nat) : parseLoop s i octets pos = .ok octets := by
  rw [parseLoop, dif_neg hi]
  rfl

/-- An octet is the value of some `unsigned`, and its cast to a byte loses nothing. -/
theorem exists_readPart {g : List (BitVec 8)} (h : Octet g) :
    ∃ v : BitVec 32, v.toNat = readDecimal g := by
  refine ⟨BitVec.ofNat 32 (readDecimal g), ?_⟩
  have hle := h.le
  rw [BitVec.toNat_ofNat, Nat.mod_eq_of_lt (by omega)]

theorem setWidth_eq_octetValue {g : List (BitVec 8)} {v : BitVec 32}
    (h : v.toNat = readDecimal g) : v.setWidth 8 = octetValue g := by
  apply BitVec.eq_of_toNat_eq
  rw [BitVec.toNat_setWidth, h, octetValue, BitVec.toNat_ofNat]

theorem take_toList_set (octets : Vector (BitVec 8) 4) {i : Nat} (hi : i < 4) (x : BitVec 8) :
    (octets.set i x).toList.take (i + 1) = octets.toList.take i ++ [x] := by
  have hlen : i < octets.toList.length := by simpa using hi
  have htake : (octets.toList.take i).length = i := by simp [hi.le]
  rw [Vector.toList_set, List.set_eq_take_append_cons_drop, if_pos hlen, List.take_append,
    List.take_of_length_le (by omega), htake, Nat.add_sub_cancel_left]
  rfl

/-- What follows an octet sees its value as a byte. -/
theorem readPart_bind_iff {α : Type} {part : List (BitVec 8)} {k : BitVec 8 → Except Failure α}
    {r : α} :
    (readPart part >>= fun v => k (v.setWidth 8)) = .ok r ↔
      Octet part ∧ k (octetValue part) = .ok r := by
  rw [bind_eq_ok_iff]
  constructor
  · rintro ⟨v, hpart, hk⟩
    obtain ⟨hoctet, hv⟩ := (readPart_iff part v).mp hpart
    rw [setWidth_eq_octetValue hv] at hk
    exact ⟨hoctet, hk⟩
  · rintro ⟨hoctet, hk⟩
    obtain ⟨v, hv⟩ := exists_readPart hoctet
    refine ⟨v, (readPart_iff part v).mpr ⟨hoctet, hv⟩, ?_⟩
    rw [setWidth_eq_octetValue hv]
    exact hk

/-- The fourth octet takes the rest of the text, and there is no dot in it. -/
theorem parseLoop_last_iff {s : List (BitVec 8)} (octets : Vector (BitVec 8) 4) {pos : Nat}
    (hpos : pos ≤ s.length) (result : Vector (BitVec 8) 4) :
    parseLoop s 3 octets pos = .ok result ↔
      find s (ch '.') pos = none ∧ Octet (s.drop pos) ∧
        octets.set 3 (octetValue (s.drop pos)) = result := by
  rw [parseLoop_step (by decide) octets hpos]
  simp only [Nat.lt_irrefl, if_false]
  cases hf : find s (ch '.') pos with
  | none =>
    have hpart : (s.drop pos).take (s.length - pos) = s.drop pos :=
      List.take_of_length_le (by rw [List.length_drop])
    simp only [Option.isSome_none, Bool.false_eq_true, if_false, Option.getD_none, hpart,
      parseLoop_end s (Nat.lt_irrefl 4)]
    rw [readPart_bind_iff (k := fun x => .ok (octets.set 3 x)), Except.ok.injEq, true_and]
  | some dot =>
    simp only [Option.isSome_some, if_true]
    rw [readPart_bind_iff (k := fun _ => throw (.invalidArgument "IpAddr::parse: trailing '.'"))]
    constructor
    · rintro ⟨-, h⟩
      cases h
    · rintro ⟨h, -⟩
      cases h

/-- Another octet ends at the next dot, and the loop goes on behind it. -/
theorem parseLoop_dot_iff {s : List (BitVec 8)} {i : Nat} (hi : i < 3)
    (octets : Vector (BitVec 8) 4) {pos : Nat} (hpos : pos ≤ s.length)
    (result : Vector (BitVec 8) 4) :
    parseLoop s i octets pos = .ok result ↔
      ∃ dot, find s (ch '.') pos = some dot ∧ Octet ((s.drop pos).take (dot - pos)) ∧
        parseLoop s (i + 1) (octets.set i (octetValue ((s.drop pos).take (dot - pos))))
          (dot + 1) = .ok result := by
  rw [parseLoop_step (by omega) octets hpos]
  simp only [if_pos hi]
  cases hf : find s (ch '.') pos with
  | none =>
    rw [readPart_bind_iff (k := fun _ => throw (.invalidArgument "IpAddr::parse: missing '.'"))]
    constructor
    · rintro ⟨-, h⟩
      cases h
    · rintro ⟨_, h, -⟩
      cases h
  | some dot =>
    rw [Option.getD_some, readPart_bind_iff (k := fun x =>
      parseLoop s (i + 1) (octets.set i x) (dot + 1))]
    constructor
    · intro h
      exact ⟨dot, rfl, h⟩
    · rintro ⟨_, ⟨⟩, h⟩
      exact h

/-- From octet `i` on the loop succeeds when the rest of the text has the right number of pieces
    and each is an octet; it fills in their values. -/
theorem parseLoop_iff {s : List (BitVec 8)} {i : Nat} (hi : i < 4)
    (octets : Vector (BitVec 8) 4) {pos : Nat} (hpos : pos ≤ s.length)
    (result : Vector (BitVec 8) 4) :
    parseLoop s i octets pos = .ok result ↔
      i + ((s.drop pos).splitOn (ch '.')).length = 4 ∧
        (∀ g ∈ (s.drop pos).splitOn (ch '.'), Octet g) ∧
        result.toList =
          octets.toList.take i ++ ((s.drop pos).splitOn (ch '.')).map octetValue := by
  induction hk : 3 - i generalizing i octets pos with
  | zero =>
    obtain rfl : i = 3 := by omega
    have hlast : ∀ x, result.toList = octets.toList.take 3 ++ [x] ↔ octets.set 3 x = result := by
      intro x
      rw [← take_toList_set octets hi x, List.take_of_length_le (by simp), eq_comm]
      exact Vector.toList_inj
    rw [parseLoop_last_iff octets hpos]
    cases hf : find s (ch '.') pos with
    | none =>
      rw [splitOn_of_find_none hf, List.length_singleton, List.forall_mem_singleton,
        List.map_singleton, hlast]
      exact and_congr_left' (iff_of_true rfl rfl)
    | some dot =>
      have hne := List.length_pos_iff.mpr (List.splitOn_ne_nil (ch '.') (s.drop (dot + 1)))
      rw [splitOn_of_find_some hf, List.length_cons]
      exact iff_of_false (fun h => Option.some_ne_none dot h.1) (fun h => by omega)
  | succ k ih =>
    rw [parseLoop_dot_iff (by omega) octets hpos]
    cases hf : find s (ch '.') pos with
    | none =>
      rw [splitOn_of_find_none hf, List.length_singleton]
      exact iff_of_false (fun ⟨_, h, _⟩ => Option.some_ne_none _ h.symm) (fun h => by omega)
    | some dot =>
      obtain ⟨-, hdot, -, -⟩ := find_eq_some hf
      have hnext : dot + 1 ≤ s.length := hdot
      rw [splitOn_of_find_some hf, List.forall_mem_cons, List.length_cons, List.map_cons]
      constructor
      · rintro ⟨_, ⟨⟩, hoctet, hloop⟩
        obtain ⟨hlen, hoctets, hresult⟩ := (ih (by omega) _ hnext (by omega)).mp hloop
        refine ⟨by omega, ⟨hoctet, hoctets⟩, ?_⟩
        rw [hresult, take_toList_set, List.append_assoc, List.singleton_append]
      · rintro ⟨hlen, ⟨hoctet, hoctets⟩, hresult⟩
        refine ⟨dot, rfl, hoctet, (ih (by omega) _ hnext (by omega)).mpr ⟨by omega, hoctets, ?_⟩⟩
        rw [hresult, take_toList_set, List.append_assoc, List.singleton_append]

/-! ## The grammar -/

/-- Four octets with single dots between them. -/
structure DottedQuad (s : List (BitVec 8)) (gs : List (List (BitVec 8))) : Prop where
  length : gs.length = 4
  octets : ∀ g ∈ gs, Octet g
  text : s = [ch '.'].intercalate gs

theorem Octet.not_mem_dot {g : List (BitVec 8)} (h : Octet g) : ch '.' ∉ g := by
  intro hmem
  exact absurd (h.digits _ hmem) (by decide)

theorem DottedQuad.splitOn {s : List (BitVec 8)} {gs : List (List (BitVec 8))}
    (h : DottedQuad s gs) : s.splitOn (ch '.') = gs := by
  have hne : gs ≠ [] := List.ne_nil_of_length_eq_add_one h.length
  rw [h.text, List.splitOn_intercalate (ch '.') (fun g hg => (h.octets g hg).not_mem_dot) hne]

theorem parse_iff (s : List (BitVec 8)) (a : IpAddr) :
    parse s = .ok a ↔ ∃ gs, DottedQuad s gs ∧ a.v4.toList = gs.map octetValue := by
  have hloop : parse s = .ok a ↔ parseLoop s 0 #v[0, 0, 0, 0] 0 = .ok a.v4 := by
    rw [parse, bind_eq_ok_iff]
    constructor
    · rintro ⟨octets, hoctets, ⟨⟩⟩
      exact hoctets
    · intro h
      exact ⟨a.v4, h, rfl⟩
  rw [hloop, parseLoop_iff (by decide) _ (Nat.zero_le _), List.drop_zero, Nat.zero_add,
    List.take_zero, List.nil_append]
  constructor
  · rintro ⟨hlen, hoctets, hvalues⟩
    exact ⟨_, ⟨hlen, hoctets, (List.intercalate_splitOn (ch '.')).symm⟩, hvalues⟩
  · rintro ⟨gs, h, hvalues⟩
    rw [h.splitOn]
    exact ⟨h.length, h.octets, hvalues⟩

theorem exists_address {s : List (BitVec 8)} {gs : List (List (BitVec 8))}
    (h : DottedQuad s gs) : ∃ a : IpAddr, a.v4.toList = gs.map octetValue :=
  ⟨⟨(gs.map octetValue).toArray, by simp [h.length]⟩, by simp⟩

/-! ## What is thrown -/

theorem readDigit_error {v : BitVec 32} {b : BitVec 8} {e : Failure}
    (h : readDigit v b = .error e) : ∃ what, e = .invalidArgument what := by
  unfold readDigit at h
  split at h
  · cases h
    exact ⟨_, rfl⟩
  · dsimp only at h
    split at h
    · cases h
      exact ⟨_, rfl⟩
    · cases h

theorem readPart_error {part : List (BitVec 8)} {e : Failure} (h : readPart part = .error e) :
    ∃ what, e = .invalidArgument what := by
  unfold readPart at h
  split at h
  · cases h
    exact ⟨_, rfl⟩
  · clear * - h
    induction part using List.reverseRecOn generalizing e with
    | nil => cases h
    | append_singleton part b ih =>
      rw [readOctet, List.foldlM_append, ← readOctet, bind_eq_error_iff] at h
      rcases h with h | ⟨v, -, h⟩
      · exact ih h
      · simp only [List.foldlM_cons, List.foldlM_nil, bind_pure] at h
        exact readDigit_error h

/-- What the loop throws is always `std::invalid_argument`. -/
theorem parseLoop_error {s : List (BitVec 8)} {i : Nat} (octets : Vector (BitVec 8) 4)
    {pos : Nat} (hpos : pos ≤ s.length) {e : Failure}
    (h : parseLoop s i octets pos = .error e) : ∃ what, e = .invalidArgument what := by
  induction hk : 4 - i generalizing i octets pos with
  | zero =>
    rw [parseLoop_end s (by omega)] at h
    cases h
  | succ k ih =>
    rw [parseLoop_step (by omega) octets hpos, bind_eq_error_iff] at h
    rcases h with h | ⟨v, -, h⟩
    · exact readPart_error h
    · split at h
      · cases hf : find s (ch '.') pos with
        | none =>
          rw [hf] at h
          cases h
          exact ⟨_, rfl⟩
        | some dot =>
          rw [hf] at h
          exact ih _ (find_eq_some hf).2.1 h (by omega)
      · split at h
        · cases h
          exact ⟨_, rfl⟩
        · exact ih _ hpos h (by omega)

/-! ## Printing -/

theorem octet_toString (b : BitVec 8) : Octet (StdString.toString b.toNat) where
  ne_nil := toString_ne_nil _
  digits _ h := isDigit_of_mem_toString h
  le := by
    rw [readDecimal_toString]
    exact Nat.lt_succ_iff.mp b.isLt

theorem dottedQuad_toString (a : IpAddr) :
    DottedQuad a.toString (a.v4.toList.map fun b => StdString.toString b.toNat) where
  length := by simp
  octets g hg := by
    obtain ⟨b, -, rfl⟩ := List.mem_map.mp hg
    exact octet_toString b
  text := by
    have hlist : a.v4.toList = [a.v4.get 0, a.v4.get 1, a.v4.get 2, a.v4.get 3] := by
      refine List.ext_getElem (by simp) fun i hi _ => ?_
      rw [Vector.length_toList] at hi
      interval_cases i <;> rfl
    rw [hlist, IpAddr.toString]
    simp [List.intercalate]

/-- `parse` accepts four groups of digits with single dots between them, each of a value of at
    most 255, and nothing else; it gives their values in order, reads them without overflow,
    and gives back every address that was printed. -/
theorem parse_accepts_grammar :
    (∀ s, (∃ a, parse s = .ok a) ↔ ∃ gs, DottedQuad s gs) ∧
      (∀ s gs a, DottedQuad s gs → parse s = .ok a → a.v4.toList = gs.map octetValue) ∧
      (∀ s, (¬ ∃ gs, DottedQuad s gs) → ∃ what, parse s = .error (.invalidArgument what)) ∧
      (∀ part b v, readOctet part = .ok v → isDigit b = true →
        v.toNat * 10 + digitVal b < 2 ^ 32) ∧
      ∀ a : IpAddr, parse a.toString = .ok a := by
  have haccept : ∀ s, (∃ a, parse s = .ok a) ↔ ∃ gs, DottedQuad s gs := by
    intro s
    constructor
    · rintro ⟨a, ha⟩
      obtain ⟨gs, h, -⟩ := (parse_iff s a).mp ha
      exact ⟨gs, h⟩
    · rintro ⟨gs, h⟩
      obtain ⟨a, ha⟩ := exists_address h
      exact ⟨a, (parse_iff s a).mpr ⟨gs, h, ha⟩⟩
  refine ⟨haccept, fun s gs a h ha => ?_, fun s hs => ?_, fun part b v hv hb => ?_, fun a => ?_⟩
  · obtain ⟨gs', h', hvalues⟩ := (parse_iff s a).mp ha
    rw [← h.splitOn, h'.splitOn, hvalues]
  · cases hp : parse s with
    | ok a => exact absurd ((haccept s).mp ⟨a, hp⟩) hs
    | error e =>
      rw [parse, bind_eq_error_iff] at hp
      rcases hp with hp | ⟨octets, -, hp⟩
      · obtain ⟨what, rfl⟩ := parseLoop_error _ (Nat.zero_le _) hp
        exact ⟨what, rfl⟩
      · cases hp
  · obtain ⟨-, hle, hval⟩ := (readOctet_iff part v).mp hv
    exact (toNat_next (by omega) hb).1
  · refine (parse_iff _ a).mpr ⟨_, dottedQuad_toString a, ?_⟩
    have hread : ∀ b : BitVec 8, octetValue (StdString.toString b.toNat) = b := by
      intro b
      rw [octetValue, readDecimal_toString, BitVec.ofNat_toNat, BitVec.setWidth_eq]
    rw [List.map_map]
    simp [Function.comp_def, hread]

end IpAddr

end NeuroVerse.Net
