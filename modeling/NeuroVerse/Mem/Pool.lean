/-
  The fixed-size block allocator `Pool<T, N>`, over memory of bytes.

  Free blocks are linked through their own first eight bytes, so the pool's links, the client's
  bytes and the size of a block meet in one memory. The invariant (`Inv`) is that the links lead
  from the head through exactly the blocks that are not outstanding. It holds from the
  constructor on when a block holds a link; when it does not, the constructor's last link
  leaves the storage.
-/
import NeuroVerse.Lib.FreeList
import NeuroVerse.Lib.Run
import Mathlib.Data.List.Nodup

namespace NeuroVerse.Mem

open Lib

/-- `count` blocks of `size` bytes in the storage that `operator new` found. -/
structure Layout where
  storage : Address
  size : Nat
  count : Nat
  size_pos : 0 < size
  count_pos : 0 < count
  storage_ne : storage ≠ 0
  fits : storage.toNat + count * size ≤ 2 ^ 64

namespace Layout

/-- The address of the `i`-th block. -/
def block (L : Layout) (i : Nat) : Address := off L.storage (i * L.size)

def blocks (L : Layout) : List Address := (List.range L.count).map L.block

/-- The addresses of the storage. -/
def bytes (L : Layout) : Set Address := Span L.storage (L.count * L.size)

end Layout

/-! ## The allocator -/

/-- Memory, and the blocks in which the last call wrote its links, the latest first. -/
structure Heap where
  mem : Memory
  links : List Address

/-- Writes a link into the first eight bytes of a block. -/
def Heap.storeLink (h : Heap) (blk link : Address) : Heap :=
  { mem := setWord h.mem blk link, links := blk :: h.links }

structure Pool where
  head : Address
  inUse : BitVec 64
  highWater : BitVec 64

namespace Pool

/-- One turn of the constructor's loop: the `i`-th block becomes the head of the free list. -/
def thread (L : Layout) (s : Heap × Address) (i : Nat) : Heap × Address :=
  (s.1.storeLink (L.block i) s.2, L.block i)

/-- The constructor, over the bytes `m`. -/
def new (L : Layout) (m : Memory) : Heap × Pool :=
  let s := (List.range L.count).foldl (thread L) ({ mem := m, links := [] }, 0)
  (s.1, { head := s.2, inUse := 0, highWater := 0 })

/-- The null address when the pool is exhausted. -/
def allocate (m : Memory) (p : Pool) : Address × Pool :=
  if p.head = 0 then (0, p)
  else
    let inUse := p.inUse + 1
    (p.head,
      { head := word m p.head
        inUse := inUse
        highWater := if inUse > p.highWater then inUse else p.highWater })

def deallocate (h : Heap) (p : Pool) (blk : Address) : Heap × Pool :=
  if blk = 0 then (h, p)
  else (h.storeLink blk p.head, { p with head := blk, inUse := p.inUse - 1 })

end Pool

/-! ## A client's session -/

/-- The memory with the links written by the last step, the pool, and the blocks the client
    has been given and not yet given back. -/
structure PoolSession where
  heap : Heap
  pool : Pool
  outstanding : List Address

inductive PoolOp where
  | allocate
  | deallocate (p : Address)
  /-- The client sets byte `k` of its block `p`. -/
  | write (p : Address) (k : Nat) (b : Byte)

namespace PoolSession

def start (L : Layout) (m : Memory) : PoolSession :=
  { heap := (Pool.new L m).1, pool := (Pool.new L m).2, outstanding := [] }

/-- No link has been written yet in this step. -/
def quiet (s : PoolSession) : PoolSession := { s with heap := { s.heap with links := [] } }

/-- A client gives back and writes outstanding blocks only. -/
def step (L : Layout) (s : PoolSession) : PoolOp → PoolSession
  | .allocate =>
    let r := Pool.allocate s.heap.mem s.pool
    { s.quiet with
      pool := r.2
      outstanding := if r.1 = 0 then s.outstanding else r.1 :: s.outstanding }
  | .deallocate p =>
    if p ∈ s.outstanding then
      let r := Pool.deallocate s.quiet.heap s.pool p
      { heap := r.1, pool := r.2, outstanding := s.outstanding.erase p }
    else s.quiet
  | .write p k b =>
    if p ∈ s.outstanding ∧ k < L.size then
      { s.quiet with heap := { mem := Function.update s.heap.mem (off p k) b, links := [] } }
    else s.quiet

end PoolSession

open PoolSession

/-- What the pool promises of a state. -/
structure PoolSound (L : Layout) (s : PoolSession) : Prop where
  blocks : ∀ p ∈ s.outstanding, ∃ i, i < L.count ∧ p = L.block i
  disjoint : s.outstanding.Pairwise fun p q => Disjoint (Span p L.size) (Span q L.size)
  links_inside : ∀ a ∈ s.heap.links, Span a 8 ⊆ L.bytes
  links_apart : ∀ a ∈ s.heap.links, ∀ p ∈ s.outstanding, Disjoint (Span a 8) (Span p L.size)
  inUse_eq : s.pool.inUse.toNat = s.outstanding.length
  null_iff : (Pool.allocate s.heap.mem s.pool).1 = 0 ↔ s.outstanding.length = L.count

/-- A call of the pool leaves the bytes of the blocks that stay outstanding alone. -/
def KeepsBytes (L : Layout) (s : PoolSession) (o : PoolOp) : Prop :=
  (∀ p k b, o ≠ .write p k b) → ∀ p ∈ s.outstanding, p ∈ (step L s o).outstanding →
    ∀ x ∈ Span p L.size, (step L s o).heap.mem x = s.heap.mem x

/-- The promises along a run: in every state, at every step, and of the high-water mark. -/
structure PoolSoundRun (L : Layout) (m : Memory) (ops : List PoolOp) : Prop where
  sound : ∀ pre, pre <+: ops → PoolSound L (run (step L) (start L m) pre)
  keeps : StepsMeet (step L) (KeepsBytes L) (start L m) ops
  high_water : ∀ pre, pre <+: ops → IsGreatest
    {n | ∃ q, q <+: pre ∧ (run (step L) (start L m) q).pool.inUse.toNat = n}
    (run (step L) (start L m) pre).pool.highWater.toNat

/-! ## The blocks of a layout -/

namespace Layout

variable {L : Layout}

theorem mem_blocks {p : Address} : p ∈ L.blocks ↔ ∃ i, i < L.count ∧ p = L.block i := by
  unfold blocks
  rw [List.mem_map]
  constructor
  · intro h
    obtain ⟨i, hi, rfl⟩ := h
    exact ⟨i, List.mem_range.mp hi, rfl⟩
  · intro h
    obtain ⟨i, hi, rfl⟩ := h
    exact ⟨i, List.mem_range.mpr hi, rfl⟩

theorem storage_pos (L : Layout) : 0 < L.storage.toNat := by
  apply Nat.pos_of_ne_zero
  intro h
  exact L.storage_ne (BitVec.eq_of_toNat_eq h)

theorem block_bound {i : Nat} (hi : i < L.count) :
    i * L.size + L.size ≤ L.count * L.size := by
  rw [← Nat.succ_mul]
  exact Nat.mul_le_mul_right L.size hi

theorem block_ne_zero {i : Nat} (hi : i < L.count) : L.block i ≠ 0 := by
  have hfits := L.fits
  have hpos := L.storage_pos
  have hsize := L.size_pos
  have hbound := block_bound hi
  intro h
  have hval : (L.block i).toNat = L.storage.toNat + i * L.size := by
    unfold block off
    rw [BitVec.toNat_add, BitVec.toNat_ofNat, Nat.add_mod_mod, Nat.mod_eq_of_lt (by omega)]
  rw [h, show (0 : Address).toNat = 0 from rfl] at hval
  omega

theorem block_disjoint {i j : Nat} (hi : i < L.count) (hj : j < L.count) (hne : i ≠ j) :
    Disjoint (Span (L.block i) L.size) (Span (L.block j) L.size) := by
  have hfits := L.fits
  have hapart : ∀ {i j : Nat}, i < j → j < L.count →
      Disjoint (Span (L.block i) L.size) (Span (L.block j) L.size) := by
    intro i j hij hj
    have hle : i * L.size + L.size ≤ j * L.size := by
      rw [← Nat.succ_mul]
      exact Nat.mul_le_mul_right L.size hij
    exact span_disjoint_off L.storage (N := L.count * L.size) (by omega) hle (block_bound hj)
  rcases Nat.lt_or_gt_of_ne hne with h | h
  · exact hapart h hj
  · exact (hapart h hi).symm

theorem disjoint_of_ne {p q : Address} (hp : p ∈ L.blocks) (hq : q ∈ L.blocks) (hne : p ≠ q) :
    Disjoint (Span p L.size) (Span q L.size) := by
  obtain ⟨i, hi, rfl⟩ := mem_blocks.mp hp
  obtain ⟨j, hj, rfl⟩ := mem_blocks.mp hq
  exact block_disjoint hi hj fun h => hne (congrArg L.block h)

theorem block_subset {p : Address} (hp : p ∈ L.blocks) : Span p L.size ⊆ L.bytes := by
  obtain ⟨i, hi, rfl⟩ := mem_blocks.mp hp
  exact span_off_subset L.storage (block_bound hi)

theorem blocks_nodup (L : Layout) : L.blocks.Nodup := by
  refine List.Nodup.map_on ?_ List.nodup_range
  intro i hi j hj heq
  by_contra hne
  have hd := block_disjoint (List.mem_range.mp hi) (List.mem_range.mp hj) hne
  rw [heq] at hd
  have hmem := mem_span_self (L.block j) L.size_pos
  exact Set.disjoint_left.mp hd hmem hmem

theorem ne_zero_of_mem {p : Address} (hp : p ∈ L.blocks) : p ≠ 0 := by
  obtain ⟨i, hi, rfl⟩ := mem_blocks.mp hp
  exact block_ne_zero hi

theorem length_blocks (L : Layout) : L.blocks.length = L.count := by
  rw [blocks, List.length_map, List.length_range]

theorem count_lt (L : Layout) : L.count < 2 ^ 64 := by
  have hfits := L.fits
  have hpos := L.storage_pos
  have hle : L.count ≤ L.count * L.size := Nat.le_mul_of_pos_right _ L.size_pos
  omega

end Layout

/-! ## The constructor -/

/-- After `n` turns of the constructor's loop the first `n` blocks are threaded, the last first. -/
theorem thread_range {L : Layout} (hsize : 8 ≤ L.size) (m : Memory) {n : Nat}
    (hn : n ≤ L.count) :
    let s := (List.range n).foldl (Pool.thread L) ({ mem := m, links := [] }, 0)
    s.1.links = ((List.range n).map L.block).reverse ∧ Chain s.1.mem s.2 s.1.links := by
  induction n with
  | zero => exact ⟨rfl, rfl⟩
  | succ n ih =>
    obtain ⟨hlinks, hchain⟩ := ih (Nat.le_of_succ_le hn)
    rw [List.range_succ, List.foldl_append, List.map_append, List.reverse_append]
    refine ⟨congrArg (L.block n :: ·) hlinks, hchain.push (Layout.block_ne_zero hn) ?_⟩
    intro y hy
    rw [hlinks, List.mem_reverse, List.mem_map] at hy
    obtain ⟨i, hi, rfl⟩ := hy
    have hlt := List.mem_range.mp hi
    exact (Layout.block_disjoint hn (Nat.lt_trans hlt hn) (Nat.ne_of_gt hlt)).mono
      (span_mono _ hsize) (span_mono _ hsize)

/-- The constructor writes a link in every block, whatever the size of a block. -/
theorem links_new (L : Layout) (m : Memory) : (Pool.new L m).1.links = L.blocks.reverse := by
  have hfold : ∀ n, ((List.range n).foldl (Pool.thread L) ({ mem := m, links := [] }, 0)).1.links =
      ((List.range n).map L.block).reverse := by
    intro n
    induction n with
    | zero => rfl
    | succ n ih =>
      rw [List.range_succ, List.foldl_append, List.map_append, List.reverse_append, ← ih]
      rfl
  exact hfold L.count

/-! ## The invariant -/

/-- The links lead from the head through exactly the blocks that are not outstanding. -/
structure Threaded (L : Layout) (free : List Address) (s : PoolSession) : Prop where
  chain : Chain s.heap.mem s.pool.head free
  perm : (free ++ s.outstanding).Perm L.blocks
  links : ∀ a ∈ s.heap.links, a ∈ L.blocks ∧ a ∉ s.outstanding
  inUse_eq : s.pool.inUse.toNat = s.outstanding.length
  inUse_le : s.pool.inUse ≤ s.pool.highWater

namespace Threaded

variable {L : Layout} {free : List Address} {s : PoolSession}

theorem mem_of_free (h : Threaded L free s) {p : Address} (hp : p ∈ free) : p ∈ L.blocks :=
  h.perm.mem_iff.mp (List.mem_append_left _ hp)

theorem mem_of_outstanding (h : Threaded L free s) {p : Address} (hp : p ∈ s.outstanding) :
    p ∈ L.blocks :=
  h.perm.mem_iff.mp (List.mem_append_right _ hp)

theorem nodup (h : Threaded L free s) : (free ++ s.outstanding).Nodup :=
  h.perm.nodup_iff.mpr L.blocks_nodup

theorem not_free (h : Threaded L free s) {p : Address} (hp : p ∈ s.outstanding) : p ∉ free :=
  fun hfree => (List.nodup_append.mp h.nodup).2.2 p hfree p hp rfl

theorem nodup_outstanding (h : Threaded L free s) : s.outstanding.Nodup :=
  (List.nodup_append.mp h.nodup).2.1

/-- An outstanding block shares no byte with a free one. -/
theorem disjoint_free (h : Threaded L free s) {p q : Address} (hp : p ∈ s.outstanding)
    (hq : q ∈ free) : Disjoint (Span p L.size) (Span q L.size) :=
  Layout.disjoint_of_ne (h.mem_of_outstanding hp) (h.mem_of_free hq)
    fun heq => h.not_free hp (heq ▸ hq)

theorem length (h : Threaded L free s) : free.length + s.outstanding.length = L.count := by
  rw [← List.length_append, h.perm.length_eq, L.length_blocks]

theorem allocate_null (h : Threaded L free s) :
    (Pool.allocate s.heap.mem s.pool).1 = 0 ↔ free = [] := by
  rw [← h.chain.head_eq_zero]
  unfold Pool.allocate
  split
  · next hz => exact iff_of_true rfl hz
  · exact Iff.rfl

theorem sound (h : Threaded L free s) (hsize : 8 ≤ L.size) : PoolSound L s where
  blocks p hp := Layout.mem_blocks.mp (h.mem_of_outstanding hp)
  disjoint := by
    refine h.nodup_outstanding.imp_of_mem fun hp hq hne => ?_
    exact Layout.disjoint_of_ne (h.mem_of_outstanding hp) (h.mem_of_outstanding hq) hne
  links_inside a ha :=
    (span_mono a hsize).trans (Layout.block_subset (h.links a ha).1)
  links_apart a ha p hp := by
    have hne : a ≠ p := fun heq => (h.links a ha).2 (heq ▸ hp)
    exact (Layout.disjoint_of_ne (h.links a ha).1 (h.mem_of_outstanding hp) hne).mono_left
      (span_mono a hsize)
  inUse_eq := h.inUse_eq
  null_iff := by
    have hlen := h.length
    rw [h.allocate_null, ← List.length_eq_zero_iff]
    omega

end Threaded

theorem start_threaded {L : Layout} (hsize : 8 ≤ L.size) (m : Memory) :
    Threaded L L.blocks.reverse (start L m) := by
  obtain ⟨hlinks, hchain⟩ := thread_range hsize m (Nat.le_refl L.count)
  rw [hlinks] at hchain
  refine ⟨hchain, ?_, ?_, rfl, BitVec.le_refl _⟩
  · show (L.blocks.reverse ++ []).Perm L.blocks
    rw [List.append_nil]
    exact List.reverse_perm L.blocks
  · intro a ha
    have hmem : a ∈ L.blocks.reverse := links_new L m ▸ ha
    exact ⟨List.mem_reverse.mp hmem, List.not_mem_nil⟩

/-- Writing eight or fewer bytes of a block that is not free leaves the links alone. -/
theorem chain_of_apart {L : Layout} {free : List Address} {s : PoolSession}
    (h : Threaded L free s) (hsize : 8 ≤ L.size) {p : Address} (hp : p ∈ s.outstanding)
    {m : Memory} (hm : ∀ x, x ∉ Span p L.size → m x = s.heap.mem x) :
    Chain m s.pool.head free := by
  refine h.chain.congr fun x hx a ha => hm a fun hpa => ?_
  exact Set.disjoint_left.mp (h.disjoint_free hp hx) hpa (span_mono x hsize ha)

theorem quiet_threaded {L : Layout} {free : List Address} {s : PoolSession}
    (h : Threaded L free s) : Threaded L free s.quiet :=
  ⟨h.chain, h.perm, fun _ ha => absurd ha List.not_mem_nil, h.inUse_eq, h.inUse_le⟩

/-! ## What one step does -/

section Steps

variable {L : Layout} {free : List Address} {s : PoolSession}

theorem step_allocate_nil (h : Threaded L [] s) : step L s .allocate = s.quiet := by
  have hhead : s.pool.head = 0 := h.chain
  simp only [step, Pool.allocate, if_pos hhead]
  rfl

theorem step_allocate_cons {p : Address} (h : Threaded L (p :: free) s) :
    step L s .allocate =
      { heap := s.quiet.heap
        pool :=
          { head := word s.heap.mem p
            inUse := s.pool.inUse + 1
            highWater := if s.pool.inUse + 1 > s.pool.highWater then s.pool.inUse + 1
              else s.pool.highWater }
        outstanding := p :: s.outstanding } := by
  obtain ⟨hhead, hne, -⟩ := h.chain
  simp only [step, Pool.allocate, hhead, if_neg hne]

theorem step_deallocate (h : Threaded L free s) {p : Address} (hp : p ∈ s.outstanding) :
    step L s (.deallocate p) =
      { heap := { mem := setWord s.heap.mem p s.pool.head, links := [p] }
        pool := { s.pool with head := p, inUse := s.pool.inUse - 1 }
        outstanding := s.outstanding.erase p } := by
  have hne := Layout.ne_zero_of_mem (h.mem_of_outstanding hp)
  simp only [step, if_pos hp, Pool.deallocate, if_neg hne]
  rfl

theorem step_write {p : Address} {k : Nat} {b : Byte} (hp : p ∈ s.outstanding)
    (hk : k < L.size) :
    step L s (.write p k b) =
      { s.quiet with heap := { mem := Function.update s.heap.mem (off p k) b, links := [] } } := by
  simp only [step, if_pos (And.intro hp hk)]

/-- Counting one block more does not wrap: not all blocks are outstanding. -/
theorem toNat_inUse_succ {p : Address} (h : Threaded L (p :: free) s) :
    (s.pool.inUse + 1).toNat = s.outstanding.length + 1 := by
  have hlen := h.length
  have hlt := L.count_lt
  rw [List.length_cons] at hlen
  rw [BitVec.toNat_add, h.inUse_eq, show (1 : BitVec 64).toNat = 1 from rfl,
    Nat.mod_eq_of_lt (by omega)]

theorem toNat_inUse_pred (h : Threaded L free s) {p : Address} (hp : p ∈ s.outstanding) :
    (s.pool.inUse - 1).toNat = s.outstanding.length - 1 := by
  have hpos := List.length_pos_of_mem hp
  rw [BitVec.toNat_sub_of_le, h.inUse_eq]
  · rfl
  · rw [BitVec.le_def, h.inUse_eq]
    exact hpos

theorem allocate_threaded {p : Address} (h : Threaded L (p :: free) s) :
    Threaded L free (step L s .allocate) := by
  rw [step_allocate_cons h]
  refine ⟨h.chain.2.2, ?_, fun _ ha => absurd ha List.not_mem_nil, toNat_inUse_succ h, ?_⟩
  · exact List.perm_middle.trans h.perm
  · show s.pool.inUse + 1 ≤ if s.pool.inUse + 1 > s.pool.highWater then s.pool.inUse + 1
      else s.pool.highWater
    split
    · exact BitVec.le_refl _
    · next hle => exact BitVec.not_lt.mp hle

theorem deallocate_threaded (h : Threaded L free s) (hsize : 8 ≤ L.size) {p : Address}
    (hp : p ∈ s.outstanding) : Threaded L (p :: free) (step L s (.deallocate p)) := by
  have hblock := h.mem_of_outstanding hp
  rw [step_deallocate h hp]
  refine ⟨?_, ?_, ?_, ?_, ?_⟩
  · refine h.chain.push (Layout.ne_zero_of_mem hblock) fun y hy => ?_
    exact (h.disjoint_free hp hy).mono (span_mono p hsize) (span_mono y hsize)
  · have hmove : (p :: free ++ s.outstanding.erase p).Perm (free ++ s.outstanding) :=
      (List.perm_middle.symm).trans ((List.perm_cons_erase hp).symm.append_left free)
    exact hmove.trans h.perm
  · intro a ha
    rw [List.mem_singleton.mp ha]
    exact ⟨hblock, h.nodup_outstanding.not_mem_erase⟩
  · rw [List.length_erase_of_mem hp]
    exact toNat_inUse_pred h hp
  · have hle := h.inUse_le
    have hpred := toNat_inUse_pred h hp
    have heq := h.inUse_eq
    rw [BitVec.le_def] at hle ⊢
    show (s.pool.inUse - 1).toNat ≤ s.pool.highWater.toNat
    omega

theorem write_threaded (h : Threaded L free s) (hsize : 8 ≤ L.size) {p : Address} {k : Nat}
    {b : Byte} (hp : p ∈ s.outstanding) (hk : k < L.size) :
    Threaded L free (step L s (.write p k b)) := by
  rw [step_write hp hk]
  refine ⟨chain_of_apart h hsize hp fun x hx => ?_, h.perm,
    fun _ ha => absurd ha List.not_mem_nil, h.inUse_eq, h.inUse_le⟩
  have hne : x ≠ off p k := fun heq => hx (heq ▸ mem_span_off p hk)
  exact Function.update_of_ne hne b s.heap.mem

end Steps

/-- The pool's invariant: some list of free blocks is threaded. -/
def Inv (L : Layout) (s : PoolSession) : Prop := ∃ free, Threaded L free s

theorem step_inv {L : Layout} (hsize : 8 ≤ L.size) (s : PoolSession) (o : PoolOp)
    (h : Inv L s) : Inv L (step L s o) := by
  obtain ⟨free, h⟩ := h
  cases o with
  | allocate =>
    cases free with
    | nil => exact ⟨[], step_allocate_nil h ▸ quiet_threaded h⟩
    | cons p free => exact ⟨free, allocate_threaded h⟩
  | deallocate p =>
    by_cases hp : p ∈ s.outstanding
    · exact ⟨p :: free, deallocate_threaded h hsize hp⟩
    · simp only [step, if_neg hp]
      exact ⟨free, quiet_threaded h⟩
  | write p k b =>
    by_cases hp : p ∈ s.outstanding ∧ k < L.size
    · exact ⟨free, write_threaded h hsize hp.1 hp.2⟩
    · simp only [step, if_neg hp]
      exact ⟨free, quiet_threaded h⟩

theorem step_keeps {L : Layout} (hsize : 8 ≤ L.size) {s : PoolSession} (h : Inv L s)
    (o : PoolOp) : KeepsBytes L s o := by
  obtain ⟨free, h⟩ := h
  intro hwrite q hq hq' x hx
  cases o with
  | allocate => rfl
  | deallocate p =>
    by_cases hp : p ∈ s.outstanding
    · rw [step_deallocate h hp] at hq' ⊢
      have hne : p ≠ q := fun heq => h.nodup_outstanding.not_mem_erase (heq ▸ hq')
      have hd := Layout.disjoint_of_ne (h.mem_of_outstanding hp) (h.mem_of_outstanding hq) hne
      refine setWord_frame s.heap.mem s.pool.head fun hlink => ?_
      exact Set.disjoint_left.mp hd (span_mono p hsize hlink) hx
    · simp only [step, if_neg hp]
      rfl
  | write p k b => exact absurd rfl (hwrite p k b)

theorem step_highWater {L : Layout} {s : PoolSession} (h : Inv L s) (o : PoolOp) :
    (step L s o).pool.highWater.toNat =
      max s.pool.highWater.toNat (step L s o).pool.inUse.toNat := by
  obtain ⟨free, h⟩ := h
  have hle := BitVec.le_def.mp h.inUse_le
  have hquiet : s.quiet.pool.highWater.toNat =
      max s.pool.highWater.toNat s.quiet.pool.inUse.toNat := (Nat.max_eq_left hle).symm
  cases o with
  | allocate =>
    cases free with
    | nil => rw [step_allocate_nil h, hquiet]
    | cons p free =>
      rw [step_allocate_cons h]
      dsimp only
      split
      · next hlt => rw [Nat.max_eq_right (Nat.le_of_lt (BitVec.lt_def.mp hlt))]
      · next hlt => rw [Nat.max_eq_left (BitVec.le_def.mp (BitVec.not_lt.mp hlt))]
  | deallocate p =>
    by_cases hp : p ∈ s.outstanding
    · have hpred := toNat_inUse_pred h hp
      have heq := h.inUse_eq
      rw [step_deallocate h hp]
      exact (Nat.max_eq_left (by dsimp only; omega)).symm
    · simp only [step, if_neg hp]
      exact hquiet
  | write p k b =>
    simp only [step]
    split <;> exact hquiet

/-! ## Sound runs -/

theorem soundRun_of_size {L : Layout} (hsize : 8 ≤ L.size) (m : Memory) (ops : List PoolOp) :
    PoolSoundRun L m ops := by
  have hinv : ∀ pre, Inv L (run (step L) (start L m) pre) :=
    run_invariant ⟨_, start_threaded hsize m⟩ (step_inv hsize)
  refine ⟨?_, ?_, ?_⟩
  · intro pre _
    obtain ⟨free, h⟩ := hinv pre
    exact h.sound hsize
  · intro pre o _
    exact step_keeps hsize (hinv pre) o
  · intro pre _
    exact run_max ⟨_, start_threaded hsize m⟩ (step_inv hsize)
      (fun s => s.pool.inUse.toNat) (fun s => s.pool.highWater.toNat) rfl
      (fun s o hs => step_highWater hs o) pre

/-- The link in the last block reaches the byte after the storage when a block is smaller than
    a link. -/
theorem last_link_escapes {L : Layout} (hsize : L.size < 8) :
    ∃ a ∈ L.blocks, ¬ Span a 8 ⊆ L.bytes := by
  have hpos := L.count_pos
  have hfits := L.fits
  have hstorage := L.storage_pos
  refine ⟨L.block (L.count - 1), Layout.mem_blocks.mpr ⟨_, Nat.sub_one_lt_of_lt hpos, rfl⟩, ?_⟩
  intro hsub
  have hend : off (L.block (L.count - 1)) L.size = off L.storage (L.count * L.size) := by
    rw [Layout.block, off_off, ← Nat.succ_mul, Nat.succ_eq_add_one, Nat.sub_add_cancel hpos]
  have hmem := hsub (mem_span_off (L.block (L.count - 1)) hsize)
  rw [hend] at hmem
  exact off_not_mem_span L.storage (by omega) hmem

/-- The pool keeps its promises along a run exactly when a block holds a link. -/
theorem pool_sound_iff (L : Layout) (m : Memory) (ops : List PoolOp) :
    PoolSoundRun L m ops ↔ 8 ≤ L.size := by
  constructor
  · intro h
    by_contra hsize
    obtain ⟨a, ha, hescape⟩ := last_link_escapes (Nat.lt_of_not_le hsize)
    have hlinks := (h.sound [] (List.nil_prefix)).links_inside a
    rw [show (run (step L) (start L m) []).heap.links = L.blocks.reverse from links_new L m]
      at hlinks
    exact hescape (hlinks (List.mem_reverse.mpr ha))
  · intro hsize
    exact soundRun_of_size hsize m ops

/-- Two blocks of four bytes, as in a pool of 32-bit integers. -/
def smallBlocks : Layout where
  storage := 4096
  size := 4
  count := 2
  size_pos := by decide
  count_pos := by decide
  storage_ne := by decide
  fits := by decide

/-- The constructor of a pool of two 32-bit integers writes the bytes 4100 to 4107, of which the
    last four lie behind its storage. -/
theorem small_blocks_overrun : ¬ PoolSoundRun smallBlocks (fun _ => 0) [] := by
  intro h
  have hlinks := (h.sound [] List.nil_prefix).links_inside 4100
    (show (4100 : Address) ∈ [4100, 4096] by decide)
  have hmem : (4104 : Address) ∈ Span 4100 8 := by
    show (4104 - 4100 : Address).toNat < 8
    decide
  have hout : (4104 - 4096 : Address).toNat < 2 * 4 := hlinks hmem
  revert hout
  decide

end NeuroVerse.Mem
