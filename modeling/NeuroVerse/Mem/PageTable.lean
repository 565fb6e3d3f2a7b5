/-
  The page table (`mem/page_table.hpp`): a hash map from page-aligned virtual addresses to page
  table entries, with the frame of the physical address in a bit field of 52 bits.

  An address is the number of its page and an offset of 12 bits. `after_history` reads the table
  back from the calls made so far: a page is mapped to the frame and with the rights of the last
  `map` of it, unless it was unmapped since, and it is dirty or accessed when it was marked so
  since then.
-/
import NeuroVerse.Lib.Align
import NeuroVerse.Lib.Since
import Mathlib.Data.Finset.Image
import Mathlib.Data.List.AList

namespace NeuroVerse.Mem

open Lib

def kPageBits : Nat := 12

def kPageMask : BitVec 64 := (1 <<< kPageBits) - 1

def pageBase (v : BitVec 64) : BitVec 64 := v &&& ~~~kPageMask

def offsetInPage (v : BitVec 64) : BitVec 64 := v &&& kPageMask

/-- Read 1, Write 2, Exec 4, User 8, Global 16. -/
abbrev PagePerm := BitVec 8

structure PTE where
  phys : BitVec 52
  perm : PagePerm
  present : Bool
  dirty : Bool
  accessed : Bool
deriving DecidableEq

structure RadixPageTable where
  entries : AList fun _ : BitVec 64 => PTE := ∅
  /-- The keys are the addresses of pages, and every entry is present. -/
  ok : ∀ k pte, entries.lookup k = some pte → pageBase k = k ∧ pte.present = true := by
    intro k pte h; cases h

inductive PageCall where
  | map (vaddr paddr : BitVec 64) (perm : PagePerm)
  | unmap (vaddr : BitVec 64)
  | markAccessed (vaddr : BitVec 64)
  | markDirty (vaddr : BitVec 64)

/-! ## Pages and frames -/

/-- The number of the page or the frame that an address is in. -/
def frame (v : BitVec 64) : BitVec 52 := (v >>> kPageBits).setWidth 52

theorem toNat_kPageMask : kPageMask.toNat = 2 ^ kPageBits - 1 := rfl

theorem getLsbD_kPageMask (i : Nat) : kPageMask.getLsbD i = decide (i < kPageBits) := by
  rw [← BitVec.testBit_toNat, toNat_kPageMask, Nat.testBit_two_pow_sub_one]

theorem getLsbD_frame (v : BitVec 64) (i : Nat) :
    (frame v).getLsbD i = (decide (i < 52) && v.getLsbD (kPageBits + i)) := by
  rw [frame, BitVec.getLsbD_setWidth, BitVec.getLsbD_ushiftRight]

theorem pageBase_eq_iff (v w : BitVec 64) : pageBase v = pageBase w ↔ frame v = frame w := by
  rw [pageBase, pageBase, and_not_mask v _ toNat_kPageMask, and_not_mask w _ toNat_kPageMask]
  constructor
  · intro h
    apply BitVec.eq_of_getLsbD_eq
    intro i hi
    have hbit := congrArg (fun x => x.getLsbD (kPageBits + i)) h
    have hlt : kPageBits + i < 64 := by rw [kPageBits]; omega
    have hge : ¬ kPageBits + i < kPageBits := by omega
    rw [getLsbD_frame, getLsbD_frame]
    simpa [hi, hlt, hge] using hbit
  · intro h
    apply BitVec.eq_of_getLsbD_eq
    intro i hi
    have hbit := congrArg (fun x => x.getLsbD (i - kPageBits)) h
    have hlt : i - kPageBits < 52 := by rw [kPageBits]; omega
    by_cases hik : i < kPageBits
    · simp [hik]
    · rw [getLsbD_frame, getLsbD_frame] at hbit
      simpa [hi, hik, hlt] using hbit

theorem pageBase_pageBase (v : BitVec 64) : pageBase (pageBase v) = pageBase v := by
  rw [pageBase, pageBase, BitVec.and_assoc, BitVec.and_self]

theorem frame_append (f : BitVec 52) (o : BitVec 12) : frame (f ++ o) = f := by
  apply BitVec.eq_of_getLsbD_eq
  intro i hi
  have hge : ¬ kPageBits + i < 12 := by rw [kPageBits]; omega
  have hsub : kPageBits + i - 12 = i := by rw [kPageBits]; omega
  rw [getLsbD_frame, decide_eq_true hi, Bool.true_and, BitVec.getLsbD_append, if_neg hge, hsub]

/-- What `translate` computes: the frame, and the offset of the address. -/
theorem shift_or_offset (f : BitVec 52) (v : BitVec 64) :
    f.setWidth 64 <<< kPageBits ||| offsetInPage v = f ++ v.setWidth 12 := by
  apply BitVec.eq_of_getLsbD_eq
  intro i hi
  rw [BitVec.getLsbD_or, BitVec.getLsbD_shiftLeft, BitVec.getLsbD_setWidth, offsetInPage,
    BitVec.getLsbD_and, getLsbD_kPageMask, BitVec.getLsbD_append, BitVec.getLsbD_setWidth]
  by_cases hik : i < 12
  · simp [kPageBits, hik]
  · have hlt : i - 12 < 64 := by omega
    simp [kPageBits, hik, hi, hlt]

namespace RadixPageTable

/-! ## The calls -/

def lookup (t : RadixPageTable) (vaddr : BitVec 64) : Option PTE :=
  t.entries.lookup (pageBase vaddr)

/-- `entries_[page_base(vaddr)] = pte`. -/
def assign (t : RadixPageTable) (vaddr : BitVec 64) (pte : PTE) (hpte : pte.present = true) :
    RadixPageTable where
  entries := t.entries.insert (pageBase vaddr) pte
  ok k pte' h := by
    by_cases hk : k = pageBase vaddr
    · subst hk
      rw [AList.lookup_insert] at h
      obtain rfl := Option.some.inj h
      exact ⟨pageBase_pageBase vaddr, hpte⟩
    · rw [AList.lookup_insert_ne hk] at h
      exact t.ok k pte' h

def erase (t : RadixPageTable) (vaddr : BitVec 64) : RadixPageTable where
  entries := t.entries.erase (pageBase vaddr)
  ok k pte h := by
    by_cases hk : k = pageBase vaddr
    · subst hk
      rw [AList.lookup_erase] at h
      exact nomatch h
    · rw [AList.lookup_erase_ne hk] at h
      exact t.ok k pte h

def map (t : RadixPageTable) (vaddr paddr : BitVec 64) (perm : PagePerm) :
    Bool × RadixPageTable :=
  (true, t.assign vaddr
    { phys := frame paddr, perm := perm, present := true, dirty := false, accessed := false } rfl)

def unmap (t : RadixPageTable) (vaddr : BitVec 64) : Bool × RadixPageTable :=
  ((t.lookup vaddr).isSome, t.erase vaddr)

def translate (t : RadixPageTable) (vaddr : BitVec 64) : Option (BitVec 64) :=
  match t.lookup vaddr with
  | none => none
  | some pte =>
    if pte.present then some (pte.phys.setWidth 64 <<< kPageBits ||| offsetInPage vaddr) else none

def size (t : RadixPageTable) : Nat := t.entries.keys.length

/-- An assignment through the iterator that `find` gives. -/
def mark (t : RadixPageTable) (vaddr : BitVec 64) (f : PTE → PTE)
    (hf : ∀ pte, (f pte).present = pte.present) : Bool × RadixPageTable :=
  match h : t.lookup vaddr with
  | none => (false, t)
  | some pte => (true, t.assign vaddr (f pte) ((hf pte).trans (t.ok _ _ h).2))

def markAccessed (t : RadixPageTable) (vaddr : BitVec 64) : Bool × RadixPageTable :=
  t.mark vaddr (fun pte => { pte with accessed := true }) fun _ => rfl

def markDirty (t : RadixPageTable) (vaddr : BitVec 64) : Bool × RadixPageTable :=
  t.mark vaddr (fun pte => { pte with dirty := true }) fun _ => rfl

def call (t : RadixPageTable) : PageCall → Bool × RadixPageTable
  | .map vaddr paddr perm => t.map vaddr paddr perm
  | .unmap vaddr => t.unmap vaddr
  | .markAccessed vaddr => t.markAccessed vaddr
  | .markDirty vaddr => t.markDirty vaddr

def step (t : RadixPageTable) (c : PageCall) : RadixPageTable := (t.call c).2

variable {t : RadixPageTable} {calls : List PageCall}

theorem lookup_congr (t : RadixPageTable) {v w : BitVec 64} (h : frame w = frame v) :
    t.lookup w = t.lookup v :=
  congrArg t.entries.lookup ((pageBase_eq_iff w v).mpr h)

theorem lookup_assign (t : RadixPageTable) (v w : BitVec 64) {pte : PTE}
    (hpte : pte.present = true) :
    (t.assign w pte hpte).lookup v = if frame w = frame v then some pte else t.lookup v := by
  show (t.entries.insert (pageBase w) pte).lookup (pageBase v) = _
  split
  · next h => rw [(pageBase_eq_iff w v).mpr h, AList.lookup_insert]
  · next h =>
    exact AList.lookup_insert_ne fun heq => h ((pageBase_eq_iff w v).mp heq.symm)

theorem lookup_erase (t : RadixPageTable) (v w : BitVec 64) :
    (t.erase w).lookup v = if frame w = frame v then none else t.lookup v := by
  show (t.entries.erase (pageBase w)).lookup (pageBase v) = _
  split
  · next h => rw [(pageBase_eq_iff w v).mpr h, AList.lookup_erase]
  · next h => exact AList.lookup_erase_ne fun heq => h ((pageBase_eq_iff w v).mp heq.symm)

theorem lookup_mark (t : RadixPageTable) (v w : BitVec 64) (f : PTE → PTE)
    (hf : ∀ pte, (f pte).present = pte.present) :
    (t.mark w f hf).2.lookup v = if frame w = frame v then (t.lookup v).map f else t.lookup v := by
  unfold mark
  split
  · next hw =>
    split
    · next h => rw [← t.lookup_congr h, hw, Option.map_none]
    · rfl
  · next pte hw =>
    rw [lookup_assign]
    split
    · next h => rw [← t.lookup_congr h, hw, Option.map_some]
    · rfl

theorem mark_fst (t : RadixPageTable) (w : BitVec 64) (f : PTE → PTE)
    (hf : ∀ pte, (f pte).present = pte.present) :
    (t.mark w f hf).1 = (t.lookup w).isSome := by
  unfold mark
  split
  · next hw => exact (congrArg Option.isSome hw).symm
  · next hw => exact (congrArg Option.isSome hw).symm

theorem translate_eq (t : RadixPageTable) (v : BitVec 64) :
    t.translate v = (t.lookup v).map fun pte => pte.phys ++ v.setWidth 12 := by
  rw [translate]
  cases h : t.lookup v with
  | none => rfl
  | some pte =>
    dsimp only
    rw [if_pos (t.ok _ _ h).2, shift_or_offset]
    rfl

/-! ## The calls made so far -/

/-- The call maps the page to the frame. -/
def Maps (page f : BitVec 52) (perm : PagePerm) : PageCall → Prop
  | .map vaddr paddr perm' => frame vaddr = page ∧ frame paddr = f ∧ perm' = perm
  | _ => False

/-- The call neither maps the page nor unmaps it. -/
def Keeps (page : BitVec 52) : PageCall → Prop
  | .map vaddr _ _ => frame vaddr ≠ page
  | .unmap vaddr => frame vaddr ≠ page
  | _ => True

def Dirties (page : BitVec 52) : PageCall → Prop
  | .markDirty vaddr => frame vaddr = page
  | _ => False

def Accesses (page : BitVec 52) : PageCall → Prop
  | .markAccessed vaddr => frame vaddr = page
  | _ => False

/-- The call did this, and the page has been kept since. -/
def Stands (page : BitVec 52) (did : PageCall → Prop) (calls : List PageCall) : Prop :=
  Since (fun _ c => did c) (fun _ c => Keeps page c) calls

theorem stands_snoc {page : BitVec 52} {did : PageCall → Prop} {c : PageCall} :
    Stands page did (calls ++ [c]) ↔ did c ∨ Stands page did calls ∧ Keeps page c :=
  since_snoc

/-- The table shows what the calls say. -/
structure Shows (t : RadixPageTable) (calls : List PageCall) : Prop where
  mapped : ∀ v f perm, (∃ pte, t.lookup v = some pte ∧ pte.phys = f ∧ pte.perm = perm) ↔
    Stands (frame v) (Maps (frame v) f perm) calls
  dirty : ∀ v pte, t.lookup v = some pte →
    (pte.dirty = true ↔ Stands (frame v) (Dirties (frame v)) calls)
  accessed : ∀ v pte, t.lookup v = some pte →
    (pte.accessed = true ↔ Stands (frame v) (Accesses (frame v)) calls)

/-- The page is mapped. -/
def Mapped (page : BitVec 52) (calls : List PageCall) : Prop :=
  ∃ f perm, Stands page (Maps page f perm) calls

theorem Shows.map (h : Shows t calls) (w pa : BitVec 64) (perm : PagePerm) :
    Shows (t.map w pa perm).2 (calls ++ [.map w pa perm]) where
  mapped v f p := by
    rw [stands_snoc, ← h.mapped, RadixPageTable.map, lookup_assign]
    by_cases hw : frame w = frame v <;> simp [Maps, Keeps, hw]
  dirty v pte hpte := by
    rw [RadixPageTable.map, lookup_assign] at hpte
    rw [stands_snoc]
    split at hpte
    · next hw =>
      obtain rfl := Option.some.inj hpte
      simp [Dirties, Keeps, hw]
    · next hw => simp [Dirties, Keeps, hw, h.dirty v pte hpte]
  accessed v pte hpte := by
    rw [RadixPageTable.map, lookup_assign] at hpte
    rw [stands_snoc]
    split at hpte
    · next hw =>
      obtain rfl := Option.some.inj hpte
      simp [Accesses, Keeps, hw]
    · next hw => simp [Accesses, Keeps, hw, h.accessed v pte hpte]

theorem Shows.unmap (h : Shows t calls) (w : BitVec 64) :
    Shows (t.unmap w).2 (calls ++ [.unmap w]) where
  mapped v f p := by
    rw [stands_snoc, ← h.mapped, RadixPageTable.unmap, lookup_erase]
    by_cases hw : frame w = frame v <;> simp [Maps, Keeps, hw]
  dirty v pte hpte := by
    rw [RadixPageTable.unmap, lookup_erase] at hpte
    rw [stands_snoc]
    split at hpte
    · exact nomatch hpte
    · next hw => simp [Dirties, Keeps, hw, h.dirty v pte hpte]
  accessed v pte hpte := by
    rw [RadixPageTable.unmap, lookup_erase] at hpte
    rw [stands_snoc]
    split at hpte
    · exact nomatch hpte
    · next hw => simp [Accesses, Keeps, hw, h.accessed v pte hpte]

/-- A mark leaves the frame and the rights. -/
theorem exists_lookup_mark {w : BitVec 64} (g : PTE → PTE)
    {hg : ∀ pte, (g pte).present = pte.present} (hphys : ∀ pte, (g pte).phys = pte.phys)
    (hperm : ∀ pte, (g pte).perm = pte.perm) (v : BitVec 64) (f : BitVec 52) (p : PagePerm) :
    (∃ pte, (t.mark w g hg).2.lookup v = some pte ∧ pte.phys = f ∧ pte.perm = p) ↔
      ∃ pte, t.lookup v = some pte ∧ pte.phys = f ∧ pte.perm = p := by
  rw [lookup_mark]
  split
  · cases t.lookup v with
    | none => simp
    | some pte => simp [hphys, hperm]
  · rfl

theorem Shows.markDirty (h : Shows t calls) (w : BitVec 64) :
    Shows (t.markDirty w).2 (calls ++ [.markDirty w]) where
  mapped v f p := by
    rw [stands_snoc, ← h.mapped, RadixPageTable.markDirty,
      exists_lookup_mark (fun pte => { pte with dirty := true }) (fun _ => rfl) fun _ => rfl]
    simp [Maps, Keeps]
  dirty v pte hpte := by
    rw [RadixPageTable.markDirty, lookup_mark] at hpte
    rw [stands_snoc]
    split at hpte
    · next hw =>
      obtain ⟨pte, -, rfl⟩ := Option.map_eq_some_iff.mp hpte
      simp [Dirties, hw]
    · next hw => simp [Dirties, Keeps, hw, h.dirty v pte hpte]
  accessed v pte hpte := by
    rw [RadixPageTable.markDirty, lookup_mark] at hpte
    rw [stands_snoc]
    split at hpte
    · obtain ⟨old, hold, rfl⟩ := Option.map_eq_some_iff.mp hpte
      simp [Accesses, Keeps, h.accessed v old hold]
    · simp [Accesses, Keeps, h.accessed v pte hpte]

theorem Shows.markAccessed (h : Shows t calls) (w : BitVec 64) :
    Shows (t.markAccessed w).2 (calls ++ [.markAccessed w]) where
  mapped v f p := by
    rw [stands_snoc, ← h.mapped, RadixPageTable.markAccessed,
      exists_lookup_mark (fun pte => { pte with accessed := true }) (fun _ => rfl) fun _ => rfl]
    simp [Maps, Keeps]
  dirty v pte hpte := by
    rw [RadixPageTable.markAccessed, lookup_mark] at hpte
    rw [stands_snoc]
    split at hpte
    · obtain ⟨old, hold, rfl⟩ := Option.map_eq_some_iff.mp hpte
      simp [Dirties, Keeps, h.dirty v old hold]
    · simp [Dirties, Keeps, h.dirty v pte hpte]
  accessed v pte hpte := by
    rw [RadixPageTable.markAccessed, lookup_mark] at hpte
    rw [stands_snoc]
    split at hpte
    · next hw =>
      obtain ⟨pte, -, rfl⟩ := Option.map_eq_some_iff.mp hpte
      simp [Accesses, hw]
    · next hw => simp [Accesses, Keeps, hw, h.accessed v pte hpte]

theorem Shows.step (h : Shows t calls) (c : PageCall) : Shows (t.step c) (calls ++ [c]) := by
  cases c with
  | map w pa perm => exact h.map w pa perm
  | unmap w => exact h.unmap w
  | markAccessed w => exact h.markAccessed w
  | markDirty w => exact h.markDirty w

theorem shows_run (calls : List PageCall) : Shows (run step {} calls) calls := by
  induction calls using List.reverseRecOn with
  | nil => exact {
      mapped := fun v f p => iff_of_false (fun ⟨_, h, _⟩ => nomatch h) not_since_nil
      dirty := fun v pte h => nomatch h
      accessed := fun v pte h => nomatch h }
  | append_singleton calls c ih => rw [run_snoc]; exact ih.step c

theorem Shows.isSome_iff (h : Shows t calls) (v : BitVec 64) :
    (t.lookup v).isSome = true ↔ Mapped (frame v) calls := by
  rw [Option.isSome_iff_exists]
  constructor
  · intro hsome
    obtain ⟨pte, hpte⟩ := hsome
    exact ⟨pte.phys, pte.perm, (h.mapped v _ _).mp ⟨pte, hpte, rfl, rfl⟩⟩
  · intro hmapped
    obtain ⟨f, perm, hstands⟩ := hmapped
    obtain ⟨pte, hpte, -⟩ := (h.mapped v f perm).mpr hstands
    exact ⟨pte, hpte⟩

theorem Shows.translate_iff (h : Shows t calls) (v p : BitVec 64) :
    t.translate v = some p ↔
      ∃ f perm, Stands (frame v) (Maps (frame v) f perm) calls ∧ p = f ++ v.setWidth 12 := by
  rw [translate_eq, Option.map_eq_some_iff]
  constructor
  · intro hsome
    obtain ⟨pte, hpte, rfl⟩ := hsome
    exact ⟨pte.phys, pte.perm, (h.mapped v _ _).mp ⟨pte, hpte, rfl, rfl⟩, rfl⟩
  · intro hstands
    obtain ⟨f, perm, hstands, rfl⟩ := hstands
    obtain ⟨pte, hpte, rfl, -⟩ := (h.mapped v f perm).mpr hstands
    exact ⟨pte, hpte, rfl⟩

/-- The pages that have an entry. -/
def pages (t : RadixPageTable) : Finset (BitVec 52) := (t.entries.keys.map frame).toFinset

theorem aligned_of_mem (t : RadixPageTable) {k : BitVec 64} (hk : k ∈ t.entries.keys) :
    pageBase k = k := by
  obtain ⟨pte, hpte⟩ := Option.isSome_iff_exists.mp (AList.lookup_isSome.mpr hk)
  exact (t.ok k pte hpte).1

theorem card_pages (t : RadixPageTable) : t.pages.card = t.size := by
  have hinj : ∀ a ∈ t.entries.keys, ∀ b ∈ t.entries.keys, frame a = frame b → a = b := by
    intro a ha b hb hab
    rw [← t.aligned_of_mem ha, ← t.aligned_of_mem hb]
    exact (pageBase_eq_iff a b).mpr hab
  rw [pages, List.toFinset_card_of_nodup (t.entries.keys_nodup.map_on hinj), List.length_map, size]

theorem mem_pages (t : RadixPageTable) (v : BitVec 64) :
    frame v ∈ t.pages ↔ (t.lookup v).isSome = true := by
  rw [pages, List.mem_toFinset, List.mem_map, lookup, AList.lookup_isSome]
  constructor
  · intro h
    obtain ⟨k, hk, hframe⟩ := h
    rw [← (pageBase_eq_iff k v).mpr hframe, t.aligned_of_mem hk]
    exact hk
  · intro h
    exact ⟨pageBase v, h, (pageBase_eq_iff _ v).mp (pageBase_pageBase v)⟩

/-- In every run: an address is translated to the frame that the last `map` of its page gave, with
    its own offset, unless the page was unmapped since. A page is dirty, or accessed, when it was
    marked so after that. `unmap` and the marks answer whether the page is mapped, and `size` is
    the number of pages that are. -/
theorem after_history (calls : List PageCall) :
    let t := run step {} calls
    (∀ v p, t.translate v = some p ↔
        ∃ f perm, Stands (frame v) (Maps (frame v) f perm) calls ∧ p = f ++ v.setWidth 12) ∧
      (∀ v pte, t.lookup v = some pte →
        Stands (frame v) (Maps (frame v) pte.phys pte.perm) calls ∧
          (pte.dirty = true ↔ Stands (frame v) (Dirties (frame v)) calls) ∧
          (pte.accessed = true ↔ Stands (frame v) (Accesses (frame v)) calls)) ∧
      (∀ v, ((t.unmap v).1 = true ↔ Mapped (frame v) calls) ∧
        ((t.markDirty v).1 = true ↔ Mapped (frame v) calls) ∧
        ((t.markAccessed v).1 = true ↔ Mapped (frame v) calls)) ∧
      ∃ pages : Finset (BitVec 52), pages.card = t.size ∧
        ∀ page, page ∈ pages ↔ Mapped page calls := by
  intro t
  have h : Shows t calls := shows_run calls
  refine ⟨h.translate_iff, fun v pte hpte => ⟨?_, h.dirty v pte hpte, h.accessed v pte hpte⟩,
    fun v => ⟨h.isSome_iff v, ?_, ?_⟩, t.pages, t.card_pages, fun page => ?_⟩
  · exact (h.mapped v _ _).mp ⟨pte, hpte, rfl, rfl⟩
  · rw [markDirty, mark_fst]
    exact h.isSome_iff v
  · rw [markAccessed, mark_fst]
    exact h.isSome_iff v
  · rw [← frame_append page 0]
    exact (t.mem_pages _).trans (h.isSome_iff _)

end RadixPageTable

end NeuroVerse.Mem
