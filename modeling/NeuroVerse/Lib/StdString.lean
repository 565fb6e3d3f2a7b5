/-
  What parsers and printers written over `std::string` use of it: `find` of a character from a
  position on, `substr`, which throws when its start is past the end, `std::to_string` of an
  unsigned number and `std::stoull`.

  A string is a list of bytes; `find` and `substr` take a list of anything. A loop that looks for
  a separator, takes the characters before it and goes on behind it reads off the pieces of
  `List.splitOn` (`splitOn_of_find_none`, `splitOn_of_find_some`). `LeadingNumber` says which
  strings `stoull` reads a number from. Nothing here names a program.
-/
import Mathlib.Data.BitVec
import Mathlib.Data.List.TakeWhile

namespace NeuroVerse.Lib.StdString

/-- The two exceptions of the library that concern strings. -/
inductive Exception where
  | invalidArgument
  | outOfRange
deriving DecidableEq

/-- A character as a byte. -/
def ch (c : Char) : BitVec 8 := BitVec.ofNat 8 c.toNat

/-! ## Literals -/

theorem toList_loop (bs : ByteArray) (i : Nat) (r : List UInt8) :
    ByteArray.toList.loop bs i r = r.reverse ++ bs.data.toList.drop i := by
  fun_induction ByteArray.toList.loop bs i r with
  | case1 i r hi ih =>
    have hlt : i < bs.data.toList.length := hi
    have hget : bs.get! i = bs.data.toList[i] := getElem!_pos bs.data i hi
    rw [ih, List.reverse_cons, List.append_assoc, List.drop_eq_getElem_cons hlt, hget]
    rfl
  | case2 i r hi => rw [List.drop_eq_nil_of_le (Nat.le_of_not_lt hi), List.append_nil]

/-- A literal of ASCII characters has one byte for each of them. -/
theorem toUTF8_ascii {s : String} {l : List Char} (hs : s.toList = l)
    (h : ∀ c ∈ l, c.toNat < 128) : s.toUTF8.toList.map UInt8.toBitVec = l.map ch := by
  have hbytes : s.toUTF8.toList = l.flatMap String.utf8EncodeChar := by
    rw [ByteArray.toList, toList_loop, String.toUTF8_eq_toByteArray, ← String.utf8Encode_toList,
      hs, List.utf8Encode, List.toList_data_toByteArray]
    rfl
  rw [hbytes]
  clear hs hbytes
  induction l with
  | nil => rfl
  | cons c l ih =>
    obtain ⟨hc, hl⟩ := List.forall_mem_cons.mp h
    have hsize : c.utf8Size = 1 :=
      Char.utf8Size_eq_one_iff.mpr (UInt32.le_iff_toNat_le.mpr (Nat.le_of_lt_succ hc))
    rw [List.flatMap_cons, String.utf8EncodeChar_eq_singleton hsize, List.map_append, ih hl]
    rfl

/-! ## Results -/

section Results

universe u

variable {ε : Type*} {β γ : Type u}

theorem ok_bind (b : β) (f : β → Except ε γ) : (Except.ok b >>= f) = f b := rfl

theorem bind_eq_ok_iff {x : Except ε β} {f : β → Except ε γ} {c : γ} :
    (x >>= f) = .ok c ↔ ∃ b, x = .ok b ∧ f b = .ok c := by
  cases x with
  | error e =>
    constructor
    · intro h
      cases h
    · rintro ⟨b, hb, -⟩
      cases hb
  | ok b =>
    rw [ok_bind]
    constructor
    · intro h
      exact ⟨b, rfl, h⟩
    · rintro ⟨b', ⟨⟩, h⟩
      exact h

theorem bind_eq_error_iff {x : Except ε β} {f : β → Except ε γ} {e : ε} :
    (x >>= f) = .error e ↔ x = .error e ∨ ∃ b, x = .ok b ∧ f b = .error e := by
  cases x with
  | error e' =>
    constructor
    · rintro ⟨⟩
      exact Or.inl rfl
    · rintro (⟨⟨⟩⟩ | ⟨b, hb, -⟩)
      · rfl
      · cases hb
  | ok b =>
    rw [ok_bind]
    constructor
    · intro h
      exact Or.inr ⟨b, rfl, h⟩
    · rintro (h | ⟨b', ⟨⟩, h⟩)
      · cases h
      · exact h

/-- A loop over a list returns when each of its turns does, whatever the state it starts in. -/
theorem foldlM_ok_iff {f : γ → β → Except ε γ} {ok : β → Prop}
    (hf : ∀ c b, (∃ c', f c b = .ok c') ↔ ok b) (bs : List β) (c : γ) :
    (∃ c', bs.foldlM f c = .ok c') ↔ ∀ b ∈ bs, ok b := by
  induction bs generalizing c with
  | nil => exact ⟨fun _ _ h => absurd h List.not_mem_nil, fun _ => ⟨c, rfl⟩⟩
  | cons b bs ih =>
    rw [List.forall_mem_cons, List.foldlM_cons]
    constructor
    · rintro ⟨c', h⟩
      obtain ⟨c1, hb, hrest⟩ := bind_eq_ok_iff.mp h
      exact ⟨(hf c b).mp ⟨c1, hb⟩, (ih c1).mp ⟨c', hrest⟩⟩
    · rintro ⟨hb, hrest⟩
      obtain ⟨c1, hc1⟩ := (hf c b).mpr hb
      obtain ⟨c', hc'⟩ := (ih c1).mpr hrest
      exact ⟨c', bind_eq_ok_iff.mpr ⟨c1, hc1, hc'⟩⟩

/-- What every turn of a loop keeps holds at its end. -/
theorem foldlM_keeps {f : γ → β → Except ε γ} {I : γ → Prop} {bs : List β}
    (hf : ∀ b ∈ bs, ∀ c c', I c → f c b = .ok c' → I c') {c c' : γ} (hc : I c)
    (h : bs.foldlM f c = .ok c') : I c' := by
  induction bs generalizing c with
  | nil =>
    obtain rfl := Except.ok.inj h
    exact hc
  | cons b bs ih =>
    rw [List.foldlM_cons] at h
    obtain ⟨c1, hfirst, hrest⟩ := bind_eq_ok_iff.mp h
    exact ih (fun b' hb' => hf b' (List.mem_cons_of_mem b hb'))
      (hf b List.mem_cons_self c c1 hc hfirst) hrest

end Results

/-! ## Positions -/

section Find

variable {α : Type*} [DecidableEq α]

/-- The first position from `pos` on that holds `c`; `none` is `npos`. -/
def find (s : List α) (c : α) (pos : Nat) : Option Nat :=
  ((s.drop pos).idxOf? c).map (pos + ·)

/-- At most `len` characters from `pos` on, all there are when `len` is `none`. -/
def substr (s : List α) (pos : Nat) (len : Option Nat) : Except Exception (List α) :=
  if s.length < pos then throw .outOfRange
  else
    match len with
    | some len => pure ((s.drop pos).take len)
    | none => pure (s.drop pos)

/-- A list that holds `c` is what comes before the first of them, `c`, and what comes after. -/
theorem idxOf?_eq_some {s : List α} {c : α} {i : Nat} (h : s.idxOf? c = some i) :
    c ∉ s.take i ∧ s = s.take i ++ c :: s.drop (i + 1) := by
  induction s generalizing i with
  | nil => simp at h
  | cons x s ih =>
    rw [List.idxOf?_cons] at h
    split at h
    · rename_i hx
      obtain rfl : x = c := by simpa using hx
      obtain rfl : 0 = i := by simpa using h
      simp
    · rename_i hx
      obtain ⟨j, hj, rfl⟩ := Option.map_eq_some_iff.mp h
      obtain ⟨hbefore, hsplit⟩ := ih hj
      refine ⟨?_, ?_⟩
      · have hne : c ≠ x := fun heq => hx (by simp [heq])
        rw [List.take_succ_cons, List.mem_cons, not_or]
        exact ⟨hne, hbefore⟩
      · rw [List.take_succ_cons, List.drop_succ_cons, List.cons_append, ← hsplit]

variable {s : List α} {c : α} {pos sp : Nat}

theorem find_eq_none (h : find s c pos = none) : c ∉ s.drop pos := by
  rw [find, Option.map_eq_none_iff] at h
  exact List.idxOf?_eq_none_iff.mp h

theorem find_eq_some (h : find s c pos = some sp) :
    pos ≤ sp ∧ sp < s.length ∧ c ∉ (s.drop pos).take (sp - pos) ∧
      s.drop pos = (s.drop pos).take (sp - pos) ++ c :: s.drop (sp + 1) := by
  obtain ⟨i, hi, rfl⟩ := Option.map_eq_some_iff.mp h
  obtain ⟨hbefore, hsplit⟩ := idxOf?_eq_some hi
  rw [List.drop_drop, ← Nat.add_assoc] at hsplit
  rw [Nat.add_sub_cancel_left]
  refine ⟨Nat.le_add_right pos i, ?_, hbefore, hsplit⟩
  have hlen := congrArg List.length hsplit
  rw [List.length_append, List.length_cons, List.length_drop, List.length_take,
    List.length_drop] at hlen
  omega

theorem splitOn_of_find_none (h : find s c pos = none) :
    (s.drop pos).splitOn c = [s.drop pos] :=
  List.splitOn_eq_singleton (find_eq_none h)

theorem splitOn_of_find_some (h : find s c pos = some sp) :
    (s.drop pos).splitOn c = (s.drop pos).take (sp - pos) :: (s.drop (sp + 1)).splitOn c := by
  obtain ⟨-, -, hbefore, hsplit⟩ := find_eq_some h
  conv_lhs => rw [hsplit]
  exact List.splitOn_append_cons_self_of_not_mem hbefore _

/-- Lines that are each ended by `c` are the pieces, with an empty one behind the last `c`. -/
theorem splitOn_ended {ls : List (List α)} (h : ∀ l ∈ ls, c ∉ l) :
    (ls.flatMap (· ++ [c])).splitOn c = ls ++ [[]] := by
  induction ls with
  | nil => rfl
  | cons l ls ih =>
    rw [List.flatMap_cons, List.append_assoc, List.singleton_append,
      List.splitOn_append_cons_self_of_not_mem (h l List.mem_cons_self),
      ih fun l' hl' => h l' (List.mem_cons_of_mem l hl')]
    rfl

/-- A piece holds what the string holds, but no `c`. -/
theorem of_mem_splitOn {l : List α} (h : l ∈ s.splitOn c) : c ∉ l ∧ l ⊆ s := by
  induction s generalizing l with
  | nil =>
    rw [List.splitOn_nil, List.mem_singleton] at h
    rw [h]
    exact ⟨List.not_mem_nil, List.nil_subset _⟩
  | cons x s ih =>
    rw [List.splitOn_cons_eq_if_modifyHead] at h
    split at h
    · rcases List.mem_cons.mp h with rfl | h
      · exact ⟨List.not_mem_nil, List.nil_subset _⟩
      · exact ⟨(ih h).1, List.subset_cons_of_subset x (ih h).2⟩
    · next hx =>
      obtain ⟨first, rest, hsplit⟩ := List.exists_cons_of_ne_nil (List.splitOn_ne_nil c s)
      rw [hsplit, List.modifyHead_cons] at h
      rw [hsplit] at ih
      rcases List.mem_cons.mp h with rfl | h
      · obtain ⟨hfirst, hsub⟩ := ih List.mem_cons_self
        refine ⟨fun hmem => ?_, List.cons_subset_cons x hsub⟩
        rcases List.mem_cons.mp hmem with rfl | hmem
        · exact hx (BEq.refl _)
        · exact hfirst hmem
      · obtain ⟨hl, hsub⟩ := ih (List.mem_cons_of_mem first h)
        exact ⟨hl, List.subset_cons_of_subset x hsub⟩

/-- The first `c` of a string whose beginning holds none. -/
theorem find_append {a b : List α} (h : c ∉ a) : find (a ++ c :: b) c 0 = some a.length := by
  have hidx : (a ++ c :: b).idxOf? c = some a.length := by
    induction a with
    | nil => simp [List.idxOf?_cons]
    | cons x a ih =>
      rw [List.mem_cons, not_or] at h
      have hx : (x == c) = false := by simpa using Ne.symm h.1
      rw [List.cons_append, List.idxOf?_cons, hx, ih h.2]
      rfl
  rw [find, List.drop_zero, hidx, Option.map_some, Nat.zero_add]

/-- Two strings that agree up to their first `c` and behind it. -/
theorem append_cons_inj {a a' b b' : List α} (h : c ∉ a) (h' : c ∉ a')
    (heq : a ++ c :: b = a' ++ c :: b') : a = a' ∧ b = b' := by
  have hlen : a.length = a'.length := by
    have hfind := find_append (b := b) h
    rw [heq, find_append h'] at hfind
    exact (Option.some.inj hfind).symm
  obtain ⟨ha, hb⟩ := List.append_inj heq hlen
  exact ⟨ha, (List.cons.inj hb).2⟩

end Find

/-! ## Decimal numbers -/

def isDigit (b : BitVec 8) : Bool := ch '0' ≤ b && b ≤ ch '9'

/-- `b - '0'`. -/
def digitVal (b : BitVec 8) : Nat := b.toNat - (ch '0').toNat

/-- The number a string of digits stands for. -/
def readDecimal (ds : List (BitVec 8)) : Nat := ds.foldl (fun v d => v * 10 + digitVal d) 0

def digit (d : Nat) : BitVec 8 := BitVec.ofNat 8 (48 + d)

/-- `std::to_string` of an unsigned number. -/
def toString (n : Nat) : List (BitVec 8) :=
  if n < 10 then [digit n] else toString (n / 10) ++ [digit (n % 10)]

theorem isDigit_iff (b : BitVec 8) : isDigit b = true ↔ 48 ≤ b.toNat ∧ b.toNat ≤ 57 := by
  simp only [isDigit, Bool.and_eq_true, decide_eq_true_eq, BitVec.le_def]
  exact Iff.rfl

theorem toNat_digit {d : Nat} (h : d < 10) : (digit d).toNat = 48 + d := by
  rw [digit, BitVec.toNat_ofNat, Nat.mod_eq_of_lt (by omega)]

theorem isDigit_digit {d : Nat} (h : d < 10) : isDigit (digit d) = true := by
  rw [isDigit_iff, toNat_digit h]
  omega

theorem digitVal_digit {d : Nat} (h : d < 10) : digitVal (digit d) = d := by
  rw [digitVal, toNat_digit h]
  exact Nat.add_sub_cancel_left 48 d

theorem digitVal_lt {b : BitVec 8} (h : isDigit b = true) : digitVal b < 10 := by
  rw [isDigit_iff] at h
  have h0 : (ch '0').toNat = 48 := rfl
  rw [digitVal, h0]
  omega

theorem readDecimal_snoc (ds : List (BitVec 8)) (d : BitVec 8) :
    readDecimal (ds ++ [d]) = readDecimal ds * 10 + digitVal d := by
  rw [readDecimal, List.foldl_append]
  rfl

theorem toString_ne_nil (n : Nat) : toString n ≠ [] := by
  rw [toString]
  split <;> simp

theorem isDigit_of_mem_toString {n : Nat} {b : BitVec 8} (h : b ∈ toString n) :
    isDigit b = true := by
  fun_induction toString with
  | case1 n hn =>
    rw [List.mem_singleton.mp h]
    exact isDigit_digit hn
  | case2 n hn ih =>
    rcases List.mem_append.mp h with h | h
    · exact ih h
    · rw [List.mem_singleton.mp h]
      exact isDigit_digit (Nat.mod_lt n (by decide))

/-- Reading a number back. -/
theorem readDecimal_toString (n : Nat) : readDecimal (toString n) = n := by
  fun_induction toString with
  | case1 n hn =>
    have hread : readDecimal [digit n] = 0 * 10 + digitVal (digit n) := rfl
    rw [hread, digitVal_digit hn]
    omega
  | case2 n hn ih =>
    rw [readDecimal_snoc, ih, digitVal_digit (Nat.mod_lt n (by decide))]
    omega

/-! ## `stoull` -/

/-- `std::isspace` in the C locale. -/
def isSpace (b : BitVec 8) : Bool := b = ch ' ' ∨ 9 ≤ b.toNat ∧ b.toNat ≤ 13

/-- The sign in front of a number, and what follows it. -/
def splitSign : List (BitVec 8) → Bool × List (BitVec 8)
  | [] => (false, [])
  | b :: s => if b = ch '-' then (true, s) else if b = ch '+' then (false, s) else (false, b :: s)

/-- `std::stoull` in base 10: white space, a sign, and as many digits as there are. A negative
    number is negated in 64 bits. -/
def stoull (s : List (BitVec 8)) : Except Exception (BitVec 64) :=
  let signed := splitSign (s.dropWhile isSpace)
  let digits := signed.2.takeWhile isDigit
  if digits = [] then throw .invalidArgument
  else if 2 ^ 64 ≤ readDecimal digits then throw .outOfRange
  else
    let n := BitVec.ofNat 64 (readDecimal digits)
    pure (if signed.1 then -n else n)

theorem isSpace_eq_false_of_isDigit {b : BitVec 8} (h : isDigit b = true) :
    isSpace b = false := by
  rw [isDigit_iff] at h
  have hne : b ≠ ch ' ' := by
    intro heq
    rw [heq] at h
    exact absurd h.1 (by decide)
  simp only [isSpace, hne, false_or, decide_eq_false_iff_not, not_and, not_le]
  omega

/-- A digit is no sign. -/
theorem splitSign_digit {d : BitVec 8} (hd : isDigit d = true) (s : List (BitVec 8)) :
    splitSign (d :: s) = (false, d :: s) := by
  have hle := ((isDigit_iff d).mp hd).1
  have hminus : d ≠ ch '-' := fun heq => absurd (heq ▸ hle) (by decide)
  have hplus : d ≠ ch '+' := fun heq => absurd (heq ▸ hle) (by decide)
  rw [splitSign, if_neg hminus, if_neg hplus]

/-- A string of digits is read as it stands. -/
theorem stoull_digits {ds : List (BitVec 8)} (hne : ds ≠ []) (hds : ∀ d ∈ ds, isDigit d = true)
    (hlt : readDecimal ds < 2 ^ 64) : stoull ds = .ok (BitVec.ofNat 64 (readDecimal ds)) := by
  obtain ⟨d, ds, rfl⟩ := List.exists_cons_of_ne_nil hne
  have hd := hds d List.mem_cons_self
  have hspace : (d :: ds).dropWhile isSpace = d :: ds := by
    rw [List.dropWhile_cons, isSpace_eq_false_of_isDigit hd]
    rfl
  have hsign := splitSign_digit hd ds
  have hall : (d :: ds).takeWhile isDigit = d :: ds := List.takeWhile_eq_self_iff.mpr hds
  simp only [stoull, hspace, hsign, hall, if_neg hne, if_neg (Nat.not_le.mpr hlt)]
  rfl

/-- `std::to_string` and `std::stoull` agree on 64-bit numbers. -/
theorem stoull_toString (n : BitVec 64) : stoull (toString n.toNat) = .ok n := by
  rw [stoull_digits (toString_ne_nil _) (fun _ h => isDigit_of_mem_toString h)
    (by rw [readDecimal_toString]; exact n.isLt), readDecimal_toString, BitVec.ofNat_toNat,
    BitVec.setWidth_eq]

/-- A number below 2^64 stands at the beginning, after white space and a sign at most. -/
def LeadingNumber (s : List (BitVec 8)) : Prop :=
  ∃ blanks sign digits rest, s = blanks ++ sign ++ digits ++ rest ∧
    (∀ b ∈ blanks, isSpace b = true) ∧ sign ∈ [[], [ch '-'], [ch '+']] ∧
    digits ≠ [] ∧ (∀ d ∈ digits, isDigit d = true) ∧
    (∀ b ∈ rest.head?, isDigit b = false) ∧ readDecimal digits < 2 ^ 64

theorem splitSign_spec (s : List (BitVec 8)) :
    ∃ sign ∈ [[], [ch '-'], [ch '+']], s = sign ++ (splitSign s).2 := by
  cases s with
  | nil => exact ⟨[], by simp, rfl⟩
  | cons b s =>
    rw [splitSign]
    split
    · rename_i hb
      exact ⟨[ch '-'], by simp, by rw [hb]; rfl⟩
    · split
      · rename_i hb
        exact ⟨[ch '+'], by simp, by rw [hb]; rfl⟩
      · exact ⟨[], by simp, rfl⟩

theorem splitSign_append {sign s : List (BitVec 8)} (hsign : sign ∈ [[], [ch '-'], [ch '+']])
    (hs : ∀ b ∈ s.head?, isDigit b = true) : (splitSign (sign ++ s)).2 = s := by
  simp only [List.mem_cons, List.not_mem_nil, or_false] at hsign
  rcases hsign with rfl | rfl | rfl
  · cases s with
    | nil => rfl
    | cons b s => rw [List.nil_append, splitSign_digit (hs b rfl)]
  · rfl
  · rfl

/-- The white space in front of a number ends at its sign, or at its first digit. -/
theorem dropWhile_isSpace {blanks sign : List (BitVec 8)} {d : BitVec 8}
    (hblanks : ∀ b ∈ blanks, isSpace b = true) (hsign : sign ∈ [[], [ch '-'], [ch '+']])
    (hd : isDigit d = true) (s : List (BitVec 8)) :
    (blanks ++ sign ++ d :: s).dropWhile isSpace = sign ++ d :: s := by
  rw [List.append_assoc, List.dropWhile_append_of_pos hblanks]
  simp only [List.mem_cons, List.not_mem_nil, or_false] at hsign
  rcases hsign with rfl | rfl | rfl
  · rw [List.nil_append, List.dropWhile_cons, isSpace_eq_false_of_isDigit hd]
    rfl
  · rfl
  · rfl

theorem stoull_ok_iff_digits (s : List (BitVec 8)) :
    (∃ n, stoull s = .ok n) ↔
      (splitSign (s.dropWhile isSpace)).2.takeWhile isDigit ≠ [] ∧
        readDecimal ((splitSign (s.dropWhile isSpace)).2.takeWhile isDigit) < 2 ^ 64 := by
  unfold stoull
  dsimp only
  split
  · rename_i hnil
    constructor
    · rintro ⟨n, hn⟩
      cases hn
    · intro h
      exact absurd hnil h.1
  · rename_i hne
    split
    · rename_i hbig
      constructor
      · rintro ⟨n, hn⟩
        cases hn
      · intro h
        exact absurd hbig (Nat.not_le.mpr h.2)
    · rename_i hsmall
      exact ⟨fun _ => ⟨hne, Nat.not_le.mp hsmall⟩, fun _ => ⟨_, rfl⟩⟩

/-- `stoull` returns exactly on the strings with a leading number. -/
theorem stoull_ok_iff (s : List (BitVec 8)) : (∃ n, stoull s = .ok n) ↔ LeadingNumber s := by
  rw [stoull_ok_iff_digits]
  constructor
  · rintro ⟨hne, hlt⟩
    obtain ⟨sign, hsign, hsplit⟩ := splitSign_spec (s.dropWhile isSpace)
    refine ⟨s.takeWhile isSpace, sign, _, (splitSign (s.dropWhile isSpace)).2.dropWhile isDigit,
      ?_, fun b hb => List.mem_takeWhile_imp hb, hsign, hne,
      fun d hd => List.mem_takeWhile_imp hd, ?_, hlt⟩
    · rw [List.append_assoc, List.takeWhile_append_dropWhile, List.append_assoc, ← hsplit,
        List.takeWhile_append_dropWhile]
    · intro b hb
      have hnot := List.head?_dropWhile_not isDigit (splitSign (s.dropWhile isSpace)).2
      rw [Option.mem_def.mp hb] at hnot
      exact hnot
  · rintro ⟨blanks, sign, digits, rest, rfl, hblanks, hsign, hne, hdigits, hrest, hlt⟩
    obtain ⟨d, ds, rfl⟩ := List.exists_cons_of_ne_nil hne
    have hd : isDigit d = true := hdigits d List.mem_cons_self
    have htake : (d :: (ds ++ rest)).takeWhile isDigit = d :: ds := by
      rw [← List.cons_append, List.takeWhile_append_of_pos hdigits]
      cases rest with
      | nil => rw [List.takeWhile_nil, List.append_nil]
      | cons b rest =>
        rw [List.takeWhile_cons, hrest b rfl]
        exact List.append_nil _
    have hhead : ∀ b ∈ (d :: (ds ++ rest)).head?, isDigit b = true := by
      rintro b ⟨⟩
      exact hd
    rw [List.append_assoc, List.cons_append, dropWhile_isSpace hblanks hsign hd,
      splitSign_append hsign hhead, htake]
    exact ⟨hne, hlt⟩

end NeuroVerse.Lib.StdString
