/-
  The text form of the boot manifest (`boot/protocol.hpp`): `to_text` and `parse_text`.

  `parse_text` throws what `substr` and `std::stoull` throw, so it is a function into `Except`;
  the manifest it fills is part of what it returns. `parseLines_eq` takes the positions out of its
  loop: it reads the lines of the text in order. `parseSegment_eq` does the same for the
  fields of a segment line.
-/
import NeuroVerse.Boot.Protocol
import NeuroVerse.Lib.StdString

namespace NeuroVerse.Boot

open NeuroVerse.Lib NeuroVerse.Lib.StdString NeuroVerse.Core NeuroVerse.Pkg

/-! ## Printing -/

def kindText : Kind → Str
  | .text => text "text"
  | .rodata => text "rodata"
  | .data => text "data"
  | .bss => text "bss"

/-- `Capability::to_string`, a placeholder in the source. -/
def capText (_ : Capability) : Str := text "cap"

def segmentText (s : Segment) : Str :=
  text "segment: " ++ (kindText s.kind ++ text " " ++ s.name ++ text " " ++
    StdString.toString s.vaddr.toNat ++ text " " ++
    StdString.toString s.memsz.toNat ++ text " " ++
    StdString.toString s.filesz.toNat ++ text " " ++
    StdString.toString s.hash.toNat ++ text "\n")

def toText (m : Manifest) : Str :=
  let out := text "version: " ++ m.kernelVersion ++ text "\n"
  let out := out ++ (text "build:   " ++ m.buildId ++ text "\n")
  let out := m.segments.foldl (fun out s => out ++ segmentText s) out
  m.capabilities.foldl (fun out c => out ++ (text "cap: " ++ capText c ++ text "\n")) out

/-! ## Parsing -/

/-- What is stripped in front of a value. -/
def isBlank (b : Byte) : Bool := b = ch ' ' || b = ch '\t'

/-- The lambda `next`: the field of `val` at position `p`, and the position behind it. -/
def next (val : Str) (p : Nat) : Except StdString.Exception (Str × Nat) := do
  let sp := find val (ch ' ') p
  let out ← substr val p (sp.map (· - p))
  return (out, (sp.map (· + 1)).getD val.length)

def kindOf (kind : Str) : Kind :=
  if kind = text "text" then .text
  else if kind = text "rodata" then .rodata
  else if kind = text "data" then .data
  else if kind = text "bss" then .bss
  else .text

def parseSegment (val : Str) : Except StdString.Exception Segment := do
  let (kind, p) ← next val 0
  let (name, p) ← next val p
  let (vaddr, p) ← next val p
  let (memsz, p) ← next val p
  let (filesz, p) ← next val p
  let (hash, _) ← next val p
  let vaddr ← stoull vaddr
  let memsz ← stoull memsz
  let filesz ← stoull filesz
  let hash ← stoull hash
  return { kind := kindOf kind, name, vaddr, memsz, filesz, hash }

def parseLine (out : Manifest) (line : Str) : Except StdString.Exception Manifest := do
  if line.isEmpty then return out
  match find line (ch ':') 0 with
  | none => return out
  | some colon =>
    let key ← substr line 0 (some colon)
    let val ← substr line (colon + 1) none
    let val := val.dropWhile isBlank
    if key = text "version" then return { out with kernelVersion := val }
    else if key = text "build" then return { out with buildId := val }
    else if key = text "segment" then
      let seg ← parseSegment val
      return { out with segments := out.segments ++ [seg] }
    -- a line of another key, `cap` among them, adds nothing
    else return out

/-- The end of the line at position `i`. -/
def lineEnd (s : Str) (i : Nat) : Nat := (find s (ch '\n') i).getD s.length

theorem le_lineEnd {s : Str} {i : Nat} (h : i < s.length) : i ≤ lineEnd s i := by
  unfold lineEnd
  cases hf : find s (ch '\n') i with
  | none => exact h.le
  | some eol => exact (find_eq_some hf).1

def parseLines (s : Str) (i : Nat) (out : Manifest) : Except StdString.Exception Manifest :=
  if h : i < s.length then do
    have hle := le_lineEnd h
    let line ← substr s i (some (lineEnd s i - i))
    let out ← parseLine out line
    parseLines s (lineEnd s i + 1) out
  else return out
termination_by s.length - i

def parseText (s : Str) : Except StdString.Exception (Bool × Manifest) := do
  let out ← parseLines s 0 { kernelVersion := [], buildId := [] }
  return (!out.kernelVersion.isEmpty, out)

/-! ## The keys -/

theorem text_version : text "version" = ['v', 'e', 'r', 's', 'i', 'o', 'n'].map ch :=
  toUTF8_ascii (by simp) (by simp)

theorem text_build : text "build" = ['b', 'u', 'i', 'l', 'd'].map ch :=
  toUTF8_ascii (by simp) (by simp)

theorem text_segment : text "segment" = ['s', 'e', 'g', 'm', 'e', 'n', 't'].map ch :=
  toUTF8_ascii (by simp) (by simp)

theorem build_ne_version : text "build" ≠ text "version" := by
  rw [text_build, text_version]
  decide

theorem segment_ne_version : text "segment" ≠ text "version" := by
  rw [text_segment, text_version]
  decide

theorem segment_ne_build : text "segment" ≠ text "build" := by
  rw [text_segment, text_build]
  decide

/-! ## What the positions do -/

theorem parseLine_nil (out : Manifest) : parseLine out [] = .ok out := rfl

/-- The loop of `parse_text` reads the lines one after the other. -/
theorem parseLines_eq (s : Str) (i : Nat) (out : Manifest) :
    parseLines s i out = ((s.drop i).splitOn (ch '\n')).foldlM parseLine out := by
  fun_induction parseLines with
  | case1 i out h hle ih =>
    have hsub : substr s i (some (lineEnd s i - i)) =
        .ok ((s.drop i).take (lineEnd s i - i)) := by
      rw [substr, if_neg (by omega)]
      rfl
    rw [hsub]
    cases hf : find s (ch '\n') i with
    | none =>
      have hend : lineEnd s i = s.length := by rw [lineEnd, hf]; rfl
      have htake : (s.drop i).take (s.length - i) = s.drop i := by
        rw [List.take_of_length_le (by rw [List.length_drop])]
      have hdrop : s.drop (s.length + 1) = [] := List.drop_eq_nil_of_le (by omega)
      rw [splitOn_of_find_none hf, hend, htake]
      rw [hend, hdrop] at ih
      simp only [ih, List.splitOn_nil, List.foldlM_cons, List.foldlM_nil, parseLine_nil]
      rfl
    | some eol =>
      have hend : lineEnd s i = eol := by rw [lineEnd, hf]; rfl
      rw [splitOn_of_find_some hf, List.foldlM_cons, hend]
      rw [hend] at ih
      simp only [ih]
      rfl
  | case2 i out h =>
    rw [List.drop_eq_nil_of_le (Nat.not_lt.mp h)]
    rfl

/-- Field `i` of what is behind position `p`; beyond the last field it is empty. -/
def fieldAt (val : Str) (p i : Nat) : Str := ((val.drop p).splitOn (ch ' ')).getD i []

/-- `next` never throws: it returns the field at its position and goes on behind it. -/
theorem next_spec {val : Str} {p : Nat} (hp : p ≤ val.length) :
    ∃ p', next val p = .ok (fieldAt val p 0, p') ∧ p' ≤ val.length ∧
      ∀ i, fieldAt val p' i = fieldAt val p (i + 1) := by
  have hsub : ∀ len, substr val p (some len) = .ok ((val.drop p).take len) := by
    intro len
    rw [substr, if_neg (Nat.not_lt.mpr hp)]
    rfl
  cases hf : find val (ch ' ') p with
  | none =>
    have hall : substr val p none = .ok (val.drop p) := by
      rw [substr, if_neg (Nat.not_lt.mpr hp)]
      rfl
    refine ⟨val.length, ?_, le_rfl, fun i => ?_⟩
    · rw [next, hf, Option.map_none, hall, fieldAt, splitOn_of_find_none hf]
      rfl
    · rw [fieldAt, fieldAt, splitOn_of_find_none hf, List.drop_length, List.splitOn_nil]
      cases i <;> rfl
  | some sp =>
    obtain ⟨-, hlt, -, -⟩ := find_eq_some hf
    refine ⟨sp + 1, ?_, hlt, fun i => ?_⟩
    · rw [next, hf, Option.map_some, hsub, fieldAt, splitOn_of_find_some hf]
      rfl
    · rw [fieldAt, fieldAt, splitOn_of_find_some hf, List.getD_cons_succ]

/-- Field `i` of a value. -/
abbrev field (val : Str) (i : Nat) : Str := (val.splitOn (ch ' ')).getD i []

theorem parseSegment_eq (val : Str) :
    parseSegment val = (do
      let vaddr ← stoull (field val 2)
      let memsz ← stoull (field val 3)
      let filesz ← stoull (field val 4)
      let hash ← stoull (field val 5)
      return { kind := kindOf (field val 0), name := field val 1, vaddr, memsz, filesz,
               hash }) := by
  obtain ⟨p1, hnext1, hp1, hfield1⟩ := next_spec (Nat.zero_le val.length)
  obtain ⟨p2, hnext2, hp2, hfield2⟩ := next_spec hp1
  obtain ⟨p3, hnext3, hp3, hfield3⟩ := next_spec hp2
  obtain ⟨p4, hnext4, hp4, hfield4⟩ := next_spec hp3
  obtain ⟨p5, hnext5, hp5, hfield5⟩ := next_spec hp4
  obtain ⟨p6, hnext6, -, -⟩ := next_spec hp5
  have hfield : ∀ i, fieldAt val 0 i = field val i := fun _ => rfl
  simp only [parseSegment, hnext1, hnext2, hnext3, hnext4, hnext5, hnext6, ok_bind, hfield5,
    hfield4, hfield3, hfield2, hfield1, hfield]

/-- A line with a key: what each key does with the value. -/
theorem parseLine_key (out : Manifest) {key rest : Str} (hkey : ch ':' ∉ key) :
    parseLine out (key ++ ch ':' :: rest) =
      if key = text "version" then
        .ok { out with kernelVersion := rest.dropWhile isBlank }
      else if key = text "build" then .ok { out with buildId := rest.dropWhile isBlank }
      else if key = text "segment" then
        (parseSegment (rest.dropWhile isBlank)).map fun seg =>
          { out with segments := out.segments ++ [seg] }
      else .ok out := by
  have hfirst : substr (key ++ ch ':' :: rest) 0 (some key.length) = .ok key := by
    rw [substr, if_neg (Nat.not_lt_zero _), List.drop_zero]
    exact congrArg Except.ok (List.take_left' rfl)
  have hsecond : substr (key ++ ch ':' :: rest) (key.length + 1) none = .ok rest := by
    have hlen : ¬ (key ++ ch ':' :: rest).length < key.length + 1 := by
      rw [List.length_append, List.length_cons]
      omega
    rw [substr, if_neg hlen, List.drop_append, List.drop_eq_nil_of_le (Nat.le_succ _),
      List.nil_append, Nat.add_sub_cancel_left]
    rfl
  have hne : (key ++ ch ':' :: rest).isEmpty = false := by cases key <;> rfl
  simp only [parseLine, hne, Bool.false_eq_true, if_false, find_append hkey, hfirst, hsecond,
    ok_bind]
  split_ifs
  · rfl
  · rfl
  · cases parseSegment (rest.dropWhile isBlank) <;> rfl
  · rfl

theorem parseLine_no_colon (out : Manifest) {line : Str} (h : ch ':' ∉ line) :
    parseLine out line = .ok out := by
  cases hf : find line (ch ':') 0 with
  | none =>
    cases line with
    | nil => rfl
    | cons b line => simp only [parseLine, hf]; rfl
  | some colon =>
    obtain ⟨-, -, -, hsplit⟩ := find_eq_some hf
    rw [List.drop_zero] at hsplit
    rw [hsplit] at h
    exact absurd (List.mem_append_right _ List.mem_cons_self) h

/-- Every line with a colon has a key. -/
theorem exists_key {line : Str} (h : ch ':' ∈ line) :
    ∃ key rest, line = key ++ ch ':' :: rest ∧ ch ':' ∉ key := by
  cases hf : find line (ch ':') 0 with
  | none => exact absurd h (find_eq_none hf)
  | some colon =>
    obtain ⟨-, -, hkey, hsplit⟩ := find_eq_some hf
    rw [List.drop_zero] at hkey hsplit
    exact ⟨_, _, hsplit, hkey⟩

/-! ## Which texts can be parsed -/

theorem text_segment_colon : text "segment:" = text "segment" ++ [ch ':'] := by
  rw [text_segment]
  exact toUTF8_ascii (l := ['s', 'e', 'g', 'm', 'e', 'n', 't', ':']) (by simp) (by simp)

theorem colon_not_mem_segment : ch ':' ∉ text "segment" := by
  rw [text_segment]
  decide

theorem parseSegment_ok_iff (val : Str) :
    (∃ seg, parseSegment val = .ok seg) ↔
      ∀ i, 2 ≤ i → i ≤ 5 → LeadingNumber (field val i) := by
  rw [parseSegment_eq]
  constructor
  · rintro ⟨seg, hseg⟩ i hlow hhigh
    obtain ⟨vaddr, hvaddr, hseg⟩ := bind_eq_ok_iff.mp hseg
    obtain ⟨memsz, hmemsz, hseg⟩ := bind_eq_ok_iff.mp hseg
    obtain ⟨filesz, hfilesz, hseg⟩ := bind_eq_ok_iff.mp hseg
    obtain ⟨hash, hhash, -⟩ := bind_eq_ok_iff.mp hseg
    rw [← stoull_ok_iff]
    obtain rfl | rfl | rfl | rfl : i = 2 ∨ i = 3 ∨ i = 4 ∨ i = 5 := by omega
    · exact ⟨vaddr, hvaddr⟩
    · exact ⟨memsz, hmemsz⟩
    · exact ⟨filesz, hfilesz⟩
    · exact ⟨hash, hhash⟩
  · intro h
    obtain ⟨vaddr, hvaddr⟩ := (stoull_ok_iff _).mpr (h 2 (by omega) (by omega))
    obtain ⟨memsz, hmemsz⟩ := (stoull_ok_iff _).mpr (h 3 (by omega) (by omega))
    obtain ⟨filesz, hfilesz⟩ := (stoull_ok_iff _).mpr (h 4 (by omega) (by omega))
    obtain ⟨hash, hhash⟩ := (stoull_ok_iff _).mpr (h 5 (by omega) (by omega))
    simp only [hvaddr, hmemsz, hfilesz, hhash, ok_bind]
    exact ⟨_, rfl⟩

/-- The line has no number to be read, or every number it should have. -/
def Readable (line : Str) : Prop :=
  ∀ rest, line = text "segment:" ++ rest →
    ∀ i, 2 ≤ i → i ≤ 5 → LeadingNumber (field (rest.dropWhile isBlank) i)

theorem segment_line_iff {rest rest' : Str} :
    text "segment" ++ ch ':' :: rest = text "segment:" ++ rest' ↔ rest = rest' := by
  rw [text_segment_colon, List.append_assoc, List.singleton_append, List.append_cancel_left_eq,
    List.cons.injEq, and_iff_right rfl]

theorem readable_segment (rest : Str) :
    Readable (text "segment" ++ ch ':' :: rest) ↔
      ∃ seg, parseSegment (rest.dropWhile isBlank) = .ok seg := by
  unfold Readable
  simp only [segment_line_iff, forall_eq', parseSegment_ok_iff]

/-- Only the key decides whether a line is a segment line. -/
theorem readable_of_key_ne {key : Str} (hkey : ch ':' ∉ key) (hne : key ≠ text "segment")
    (rest : Str) : Readable (key ++ ch ':' :: rest) := by
  intro rest' heq
  rw [text_segment_colon, List.append_assoc, List.singleton_append] at heq
  exact absurd (append_cons_inj hkey colon_not_mem_segment heq).1 hne

theorem readable_of_no_colon {line : Str} (h : ch ':' ∉ line) : Readable line := by
  intro rest heq
  have hcolon : ch ':' ∈ text "segment:" := by
    rw [text_segment_colon]
    exact List.mem_append_right _ (List.mem_singleton_self _)
  rw [heq] at h
  exact absurd (List.mem_append_left rest hcolon) h

theorem parseLine_ok_iff (out : Manifest) (line : Str) :
    (∃ m, parseLine out line = .ok m) ↔ Readable line := by
  by_cases hcolon : ch ':' ∈ line
  · obtain ⟨key, rest, rfl, hkey⟩ := exists_key hcolon
    rw [parseLine_key out hkey]
    by_cases hseg : key = text "segment"
    · subst hseg
      rw [readable_segment, if_neg segment_ne_version, if_neg segment_ne_build, if_pos rfl]
      cases parseSegment (rest.dropWhile isBlank) with
      | error e =>
        constructor
        · rintro ⟨m, hm⟩
          cases hm
        · rintro ⟨seg, hs⟩
          cases hs
      | ok seg => exact ⟨fun _ => ⟨seg, rfl⟩, fun _ => ⟨_, rfl⟩⟩
    · rw [if_neg hseg]
      refine ⟨fun _ => readable_of_key_ne hkey hseg rest, fun _ => ?_⟩
      split_ifs
      · exact ⟨_, rfl⟩
      · exact ⟨_, rfl⟩
      · exact ⟨_, rfl⟩
  · rw [parseLine_no_colon out hcolon]
    exact ⟨fun _ => readable_of_no_colon hcolon, fun _ => ⟨out, rfl⟩⟩

/-- `parse_text` returns exactly on the texts in which every segment line has a number below
    2^64 at the start of its third to sixth field; on the others it throws. -/
theorem parseText_returns_iff (s : Str) :
    (∃ r, parseText s = .ok r) ↔
      ∀ rest, text "segment:" ++ rest ∈ s.splitOn (ch '\n') →
        ∀ i, 2 ≤ i → i ≤ 5 → LeadingNumber (field (rest.dropWhile isBlank) i) := by
  have hloop : (∃ r, parseText s = .ok r) ↔
      ∃ m, (s.splitOn (ch '\n')).foldlM parseLine { kernelVersion := [], buildId := [] } =
        .ok m := by
    rw [parseText, parseLines_eq, List.drop_zero]
    constructor
    · rintro ⟨r, hr⟩
      obtain ⟨m, hm, -⟩ := bind_eq_ok_iff.mp hr
      exact ⟨m, hm⟩
    · rintro ⟨m, hm⟩
      rw [hm, ok_bind]
      exact ⟨_, rfl⟩
  rw [hloop, foldlM_ok_iff parseLine_ok_iff]
  constructor
  · intro h rest hmem
    exact h _ hmem rest rfl
  · rintro h line hmem rest rfl
    exact h rest hmem

/-- A segment line with its kind only. -/
theorem parseText_throws : ¬ ∀ s, ∃ r, parseText s = .ok r := by
  intro h
  obtain ⟨r, hr⟩ := h (text "segment: text")
  have hthrow : (parseText (text "segment: text")).toBool = false := by decide +kernel
  rw [hr] at hthrow
  cases hthrow

/-! ## Round trip -/

/-- A value that its line gives back: it fits in one line and nothing of it is stripped. -/
def Plain (v : Str) : Prop := ch '\n' ∉ v ∧ ∀ b ∈ v.head?, isBlank b = false

/-- The manifests whose text form says all there is. -/
structure Printable (m : Manifest) : Prop where
  capabilities : m.capabilities = []
  versionNonempty : m.kernelVersion ≠ []
  version : Plain m.kernelVersion
  build : Plain m.buildId
  names : ∀ s ∈ m.segments, ch ' ' ∉ s.name ∧ ch '\n' ∉ s.name

/-- The fields of a segment line. -/
def segmentFields (s : Segment) : List Str :=
  [kindText s.kind, s.name, StdString.toString s.vaddr.toNat, StdString.toString s.memsz.toNat,
    StdString.toString s.filesz.toNat, StdString.toString s.hash.toNat]

theorem space_eq : text " " = [ch ' '] :=
  toUTF8_ascii (l := [' ']) (by simp) (by simp)

theorem newline_eq : text "\n" = [ch '\n'] :=
  toUTF8_ascii (l := ['\n']) (by simp) (by simp)

/-- A segment line is its key and its fields with a space in front of each. -/
theorem segmentText_eq (s : Segment) :
    segmentText s = text "segment" ++ ch ':' :: ch ' ' ::
      [ch ' '].intercalate (segmentFields s) ++ [ch '\n'] := by
  have hkey : text "segment: " = text "segment" ++ [ch ':', ch ' '] := by
    rw [text_segment]
    exact toUTF8_ascii (l := ['s', 'e', 'g', 'm', 'e', 'n', 't', ':', ' ']) (by simp) (by simp)
  rw [segmentText, hkey, space_eq, newline_eq]
  simp [segmentFields, List.intercalate]

/-- The lines of the text form, without the newlines. -/
def textLines (m : Manifest) : List Str :=
  (text "version" ++ ch ':' :: ch ' ' :: m.kernelVersion) ::
    (text "build" ++ ch ':' :: ch ' ' :: ch ' ' :: ch ' ' :: m.buildId) ::
      m.segments.map fun s =>
        text "segment" ++ ch ':' :: ch ' ' :: [ch ' '].intercalate (segmentFields s)

theorem toText_eq {m : Manifest} (h : m.capabilities = []) :
    toText m = (textLines m).flatMap (· ++ [ch '\n']) := by
  have hversion : text "version: " = text "version" ++ [ch ':', ch ' '] := by
    rw [text_version]
    exact toUTF8_ascii (l := ['v', 'e', 'r', 's', 'i', 'o', 'n', ':', ' ']) (by simp) (by simp)
  have hbuild : text "build:   " = text "build" ++ [ch ':', ch ' ', ch ' ', ch ' '] := by
    rw [text_build]
    exact toUTF8_ascii (l := ['b', 'u', 'i', 'l', 'd', ':', ' ', ' ', ' ']) (by simp) (by simp)
  have hsegment : segmentText = fun s => text "segment" ++ ch ':' :: ch ' ' ::
      [ch ' '].intercalate (segmentFields s) ++ [ch '\n'] := funext segmentText_eq
  rw [toText, h, List.foldl_nil, List.foldl_append_eq_append, hversion, hbuild, newline_eq,
    hsegment]
  simp [textLines, List.flatMap_def, Function.comp_def]

theorem not_mem_toString {b : Byte} (hb : isDigit b = false) (n : Nat) :
    b ∉ StdString.toString n := by
  intro hmem
  rw [isDigit_of_mem_toString hmem] at hb
  cases hb

/-- No field of a segment holds a byte that is neither in its name, nor in a kind, nor a
    digit. -/
theorem not_mem_segmentFields {s : Segment} {b : Byte} (hname : b ∉ s.name)
    (hkind : b ∉ kindText s.kind) (hdigit : isDigit b = false) :
    ∀ l ∈ segmentFields s, b ∉ l := by
  simp only [segmentFields, List.forall_mem_cons, List.not_mem_nil, false_implies, implies_true,
    and_true]
  exact ⟨hkind, hname, not_mem_toString hdigit _, not_mem_toString hdigit _,
    not_mem_toString hdigit _, not_mem_toString hdigit _⟩

theorem text_text : text "text" = ['t', 'e', 'x', 't'].map ch :=
  toUTF8_ascii (by simp) (by simp)

theorem text_rodata : text "rodata" = ['r', 'o', 'd', 'a', 't', 'a'].map ch :=
  toUTF8_ascii (by simp) (by simp)

theorem text_data : text "data" = ['d', 'a', 't', 'a'].map ch :=
  toUTF8_ascii (by simp) (by simp)

theorem text_bss : text "bss" = ['b', 's', 's'].map ch :=
  toUTF8_ascii (by simp) (by simp)

theorem kindOf_kindText (k : Kind) : kindOf (kindText k) = k := by
  rw [kindOf, text_text, text_rodata, text_data, text_bss]
  cases k <;> simp only [kindText, text_text, text_rodata, text_data, text_bss] <;> decide

theorem space_not_mem_kindText (k : Kind) : ch ' ' ∉ kindText k := by
  cases k <;> simp only [kindText, text_text, text_rodata, text_data, text_bss] <;> decide

theorem newline_not_mem_kindText (k : Kind) : ch '\n' ∉ kindText k := by
  cases k <;> simp only [kindText, text_text, text_rodata, text_data, text_bss] <;> decide

/-- No kind starts with a blank. -/
theorem head_kindText (k : Kind) : (kindText k).head?.map isBlank = some false := by
  cases k <;> simp only [kindText, text_text, text_rodata, text_data, text_bss] <;> decide

theorem dropWhile_isBlank {v : Str} (h : ∀ b ∈ v.head?, isBlank b = false) :
    v.dropWhile isBlank = v := by
  cases v with
  | nil => rfl
  | cons b v => rw [List.dropWhile_cons, h b rfl]; rfl

/-- The fields of a segment line are read back. -/
theorem splitOn_segment {s : Segment} (hname : ch ' ' ∉ s.name) :
    ([ch ' '].intercalate (segmentFields s)).splitOn (ch ' ') = segmentFields s :=
  List.splitOn_intercalate (ch ' ')
    (not_mem_segmentFields hname (space_not_mem_kindText s.kind) (by decide))
    (List.cons_ne_nil _ _)

theorem parseSegment_print {s : Segment} (hname : ch ' ' ∉ s.name) :
    parseSegment ([ch ' '].intercalate (segmentFields s)) = .ok s := by
  rw [parseSegment_eq]
  simp only [field, splitOn_segment hname]
  simp only [segmentFields, List.getD_cons_succ, List.getD_cons_zero, stoull_toString,
    kindOf_kindText, ok_bind]
  rfl

theorem parseLine_segment (out : Manifest) {s : Segment} (hname : ch ' ' ∉ s.name) :
    parseLine out (text "segment" ++ ch ':' :: ch ' ' ::
        [ch ' '].intercalate (segmentFields s)) =
      .ok { out with segments := out.segments ++ [s] } := by
  have hval : (ch ' ' :: [ch ' '].intercalate (segmentFields s)).dropWhile isBlank =
      [ch ' '].intercalate (segmentFields s) := by
    rw [List.dropWhile_cons_of_pos (by decide)]
    refine dropWhile_isBlank fun b hb => ?_
    have hkind := head_kindText s.kind
    obtain ⟨k, rest, hk⟩ : ∃ k rest, kindText s.kind = k :: rest := by
      cases hk : kindText s.kind with
      | nil => rw [hk] at hkind; cases hkind
      | cons k rest => exact ⟨k, rest, rfl⟩
    have hhead : ([ch ' '].intercalate (segmentFields s)).head? = some k := by
      rw [segmentFields, hk]
      rfl
    rw [hhead] at hb
    obtain rfl : k = b := Option.some.inj hb
    rw [hk] at hkind
    exact Option.some.inj hkind
  rw [parseLine_key out colon_not_mem_segment, if_neg segment_ne_version,
    if_neg segment_ne_build, if_pos rfl, hval, parseSegment_print hname]
  rfl

/-- The segment lines are read in order. -/
theorem foldlM_segments {segments : List Segment} (hnames : ∀ s ∈ segments, ch ' ' ∉ s.name)
    (out : Manifest) :
    (segments.map fun s => text "segment" ++ ch ':' :: ch ' ' ::
        [ch ' '].intercalate (segmentFields s)).foldlM parseLine out =
      .ok { out with segments := out.segments ++ segments } := by
  induction segments generalizing out with
  | nil => rw [List.append_nil]; rfl
  | cons s segments ih =>
    rw [List.map_cons, List.foldlM_cons, parseLine_segment out (hnames s List.mem_cons_self),
      ok_bind, ih fun s' hs' => hnames s' (List.mem_cons_of_mem s hs'), List.append_assoc]
    rfl

theorem newline_not_mem_textLines {m : Manifest} (h : Printable m) :
    ∀ l ∈ textLines m, ch '\n' ∉ l := by
  have hversion : ch '\n' ∉ text "version" := by rw [text_version]; decide
  have hbuild : ch '\n' ∉ text "build" := by rw [text_build]; decide
  have hsegment : ch '\n' ∉ text "segment" := by rw [text_segment]; decide
  have hcolon : ch '\n' ≠ ch ':' := by decide
  have hspace : ch '\n' ≠ ch ' ' := by decide
  have hdigit : isDigit (ch '\n') = false := by decide
  intro l hl
  simp only [textLines, List.mem_cons, List.mem_map] at hl
  rcases hl with rfl | rfl | ⟨s, hs, rfl⟩
  · simp [hversion, hcolon, hspace, h.version.1]
  · simp [hbuild, hcolon, hspace, h.build.1]
  · have hfields := not_mem_segmentFields (h.names s hs).2 (newline_not_mem_kindText s.kind) hdigit
    have hvalue : ch '\n' ∉ [ch ' '].intercalate (segmentFields s) := by
      simp only [segmentFields, List.forall_mem_cons] at hfields
      simp [segmentFields, List.intercalate, hspace, hfields]
    simp [hsegment, hcolon, hspace, hvalue]

theorem parseLine_version (out : Manifest) {v : Str} (hv : Plain v) :
    parseLine out (text "version" ++ ch ':' :: ch ' ' :: v) =
      .ok { out with kernelVersion := v } := by
  have hkey : ch ':' ∉ text "version" := by rw [text_version]; decide
  rw [parseLine_key out hkey, if_pos rfl, List.dropWhile_cons_of_pos (by decide),
    dropWhile_isBlank hv.2]

theorem parseLine_build (out : Manifest) {v : Str} (hv : Plain v) :
    parseLine out (text "build" ++ ch ':' :: ch ' ' :: ch ' ' :: ch ' ' :: v) =
      .ok { out with buildId := v } := by
  have hval : (ch ' ' :: ch ' ' :: ch ' ' :: v).dropWhile isBlank = v := by
    rw [List.dropWhile_cons_of_pos (by decide), List.dropWhile_cons_of_pos (by decide),
      List.dropWhile_cons_of_pos (by decide), dropWhile_isBlank hv.2]
  have hkey : ch ':' ∉ text "build" := by rw [text_build]; decide
  rw [parseLine_key out hkey, if_neg build_ne_version, if_pos rfl, hval]

/-- The loop of `parse_text` fills in what `to_text` has printed. -/
theorem parseLines_toText {m : Manifest} (h : Printable m) :
    parseLines (toText m) 0 { kernelVersion := [], buildId := [] } = .ok m := by
  have hlines : (toText m).splitOn (ch '\n') = textLines m ++ [[]] := by
    rw [toText_eq h.capabilities]
    exact splitOn_ended (newline_not_mem_textLines h)
  have hnames : ∀ s ∈ m.segments, ch ' ' ∉ s.name := fun s hs => (h.names s hs).1
  rw [parseLines_eq, List.drop_zero, hlines, List.foldlM_append, textLines, List.foldlM_cons,
    parseLine_version _ h.version, ok_bind, List.foldlM_cons, parseLine_build _ h.build, ok_bind,
    foldlM_segments hnames, ok_bind, List.foldlM_cons, parseLine_nil, ok_bind, List.foldlM_nil]
  have hcap : ({ m with capabilities := [] } : Manifest) = m := by rw [← h.capabilities]
  exact congrArg Except.ok hcap

/-- A loop that has filled in a version makes `parse_text` answer true. -/
theorem parseText_of_lines {s : Str} {m : Manifest}
    (h : parseLines s 0 { kernelVersion := [], buildId := [] } = .ok m)
    (hne : m.kernelVersion ≠ []) : parseText s = .ok (true, m) := by
  rw [parseText, h, ok_bind, List.isEmpty_eq_false_iff.mpr hne]
  rfl

/-- `parse_text` reads back what `to_text` prints. -/
theorem parseText_toText (m : Manifest) (h : Printable m) :
    parseText (toText m) = .ok (true, m) :=
  parseText_of_lines (parseLines_toText h) h.versionNonempty

/-- A colon in the version, an empty build id, an empty name and the largest hash. -/
theorem parseText_toText_corners :
    let m : Manifest := {
      kernelVersion := text "0.1: a", buildId := []
      segments := [{ kind := .bss, name := [], hash := BitVec.ofNat 64 (2 ^ 64 - 1) }] }
    parseText (toText m) = .ok (true, m) := by
  refine parseText_toText _ ⟨rfl, by decide +kernel, ⟨by decide +kernel, by decide +kernel⟩,
    ⟨by decide, by decide +kernel⟩, fun s hs => ?_⟩
  obtain rfl := List.mem_singleton.mp hs
  exact ⟨by decide, by decide⟩

end NeuroVerse.Boot
