/-
  Which files a `RamFS` drops.

  No two files have the same last access (`Clocked`), so that the files accessed at some time or
  later are a set that only the time determines. `reserve` leaves such a set: it drops the oldest
  file, and again the oldest one, as long as what is left does not fit with the new bytes
  (`reserve_reserved`).
-/
import NeuroVerse.Fs.RamFS
import Mathlib.Algebra.Order.BigOperators.Group.List
import Mathlib.Algebra.Order.Ring.Nat

namespace NeuroVerse.Fs

open NeuroVerse.Lib

namespace RamFS

/-! ## Files by path and by last access -/

/-- No two files have the same path or the same last access, and the next tick is a new one. -/
structure Clocked (s : RamFS) : Prop where
  paths : (s.nodes.map RamVNode.path).Nodup
  ticks : (s.nodes.map RamVNode.lastAccess).Nodup
  fresh : ∀ n ∈ s.nodes, n.lastAccess < s.tick

/-- The bytes of the files last accessed at `t` or later. -/
def later (s : RamFS) (t : Nat) : Nat :=
  ((s.nodes.filter fun n => t ≤ n.lastAccess).map RamVNode.sizeBytes).sum

theorem later_zero (s : RamFS) : s.later 0 = s.total := by
  rw [later, total, List.filter_eq_self.mpr (fun n _ => decide_eq_true (Nat.zero_le _))]

theorem later_mono (s : RamFS) {t t' : Nat} (h : t ≤ t') : s.later t' ≤ s.later t := by
  have hsub : (s.nodes.filter fun n => t' ≤ n.lastAccess).Sublist
      (s.nodes.filter fun n => t ≤ n.lastAccess) :=
    List.monotone_filter_right _ fun n hn =>
      decide_eq_true (Nat.le_trans h (of_decide_eq_true hn))
  exact (hsub.map RamVNode.sizeBytes).sum_le_sum (fun _ _ => Nat.zero_le _)

theorem oldest_eq_none {nodes : List RamVNode} : oldest nodes = none ↔ nodes = [] := by
  cases nodes with
  | nil => exact iff_of_true rfl rfl
  | cons n nodes => exact iff_of_false nofun nofun

theorem oldest_spec {nodes : List RamVNode} {o : RamVNode} (h : oldest nodes = some o) :
    o ∈ nodes ∧ ∀ m ∈ nodes, o.lastAccess ≤ m.lastAccess := by
  cases nodes with
  | nil => cases h
  | cons n nodes =>
    rw [← Option.some.inj h]
    clear h
    induction nodes generalizing n with
    | nil => exact ⟨List.mem_singleton_self n, fun m hm => by rw [List.mem_singleton.mp hm]; rfl⟩
    | cons m nodes ih =>
      rw [List.foldl_cons]
      by_cases hlt : m.lastAccess < n.lastAccess
      · rw [if_pos hlt]
        obtain ⟨hmem, hmin⟩ := ih m
        refine ⟨List.mem_cons_of_mem n hmem, List.forall_mem_cons.mpr ⟨?_, hmin⟩⟩
        exact Nat.le_trans (hmin m List.mem_cons_self) (Nat.le_of_lt hlt)
      · rw [if_neg hlt]
        obtain ⟨hmem, hmin⟩ := ih n
        have hn := hmin n List.mem_cons_self
        refine ⟨?_, List.forall_mem_cons.mpr ⟨hn, List.forall_mem_cons.mpr ⟨?_, ?_⟩⟩⟩
        · rcases List.mem_cons.mp hmem with heq | hmem
          · rw [heq]
            exact List.mem_cons_self
          · exact List.mem_cons_of_mem n (List.mem_cons_of_mem m hmem)
        · exact Nat.le_trans hn (Nat.le_of_not_lt hlt)
        · exact fun x hx => hmin x (List.mem_cons_of_mem n hx)

/-- The file accessed longest ago among those from `t` on. -/
theorem exists_later_eq (s : RamFS) {t : Nat} (h : 0 < s.later t) :
    ∃ n ∈ s.nodes, t ≤ n.lastAccess ∧ s.later n.lastAccess = s.later t := by
  have hne : oldest (s.nodes.filter fun n => t ≤ n.lastAccess) ≠ none := by
    intro hnone
    rw [later, oldest_eq_none.mp hnone] at h
    cases h
  obtain ⟨o, ho⟩ := Option.ne_none_iff_exists'.mp hne
  obtain ⟨hmem, hmin⟩ := oldest_spec ho
  obtain ⟨hnode, ht⟩ := List.mem_filter.mp hmem
  refine ⟨o, hnode, of_decide_eq_true ht, ?_⟩
  have hsame : (s.nodes.filter fun n => o.lastAccess ≤ n.lastAccess) =
      s.nodes.filter fun n => t ≤ n.lastAccess := by
    refine List.filter_congr fun n hn => ?_
    rw [decide_eq_decide]
    exact ⟨fun hle => Nat.le_trans (of_decide_eq_true ht) hle,
      fun hle => hmin n (List.mem_filter.mpr ⟨hn, decide_eq_true hle⟩)⟩
  rw [later, hsame, later]

theorem total_le_of_mem {s : RamFS} {n : RamVNode} (h : n ∈ s.nodes) : n.sizeBytes ≤ s.total :=
  List.single_le_sum (fun _ _ => Nat.zero_le _) _ (List.mem_map_of_mem h)

theorem sum_update {nodes : List RamVNode} (hnodup : (nodes.map RamVNode.path).Nodup)
    {o : RamVNode} (ho : o ∈ nodes) (f : RamVNode → RamVNode) :
    ((nodes.map fun n => if n.path = o.path then f n else n).map RamVNode.sizeBytes).sum +
        o.sizeBytes =
      (nodes.map RamVNode.sizeBytes).sum + (f o).sizeBytes := by
  induction nodes with
  | nil => cases ho
  | cons n nodes ih =>
    rw [List.map_cons, List.nodup_cons] at hnodup
    rcases List.mem_cons.mp ho with rfl | ho
    · have hrest : (nodes.map fun n => if n.path = o.path then f n else n) = nodes := by
        refine (List.map_congr_left fun m hm => if_neg fun hp => hnodup.1 ?_).trans nodes.map_id
        exact hp ▸ List.mem_map_of_mem hm
      rw [List.map_cons, if_pos rfl, hrest]
      simp only [List.map_cons, List.sum_cons]
      omega
    · have hne : n.path ≠ o.path := fun hp => hnodup.1 (hp ▸ List.mem_map_of_mem ho)
      rw [List.map_cons, if_neg hne]
      simp only [List.map_cons, List.sum_cons]
      have := ih hnodup.2 ho
      omega

theorem sum_erase {nodes : List RamVNode} (hnodup : (nodes.map RamVNode.path).Nodup)
    {o : RamVNode} (ho : o ∈ nodes) :
    ((nodes.filter fun n => n.path ≠ o.path).map RamVNode.sizeBytes).sum + o.sizeBytes =
      (nodes.map RamVNode.sizeBytes).sum := by
  induction nodes with
  | nil => cases ho
  | cons n nodes ih =>
    rw [List.map_cons, List.nodup_cons] at hnodup
    rcases List.mem_cons.mp ho with rfl | ho
    · have hrest : (nodes.filter fun n => n.path ≠ o.path) = nodes := by
        refine List.filter_eq_self.mpr fun m hm => decide_eq_true fun hp => hnodup.1 ?_
        exact hp ▸ List.mem_map_of_mem hm
      rw [List.filter_cons_of_neg (by simp), hrest, List.map_cons, List.sum_cons]
      omega
    · have hne : n.path ≠ o.path := fun hp => hnodup.1 (hp ▸ List.mem_map_of_mem ho)
      rw [List.filter_cons_of_pos (by simpa using hne), List.map_cons, List.sum_cons,
        List.map_cons, List.sum_cons]
      have := ih hnodup.2 ho
      omega

/-! ## Eviction -/

/-- The state without the files accessed before `t`. -/
def dropOlder (s : RamFS) (t : Nat) : RamFS :=
  { s with nodes := s.nodes.filter fun m => t ≤ m.lastAccess, bytesUsed := s.later t }

theorem evictOldest_eq {s : RamFS} (hs : s.Clocked) (hused : s.bytesUsed = s.total)
    (hne : s.nodes ≠ []) :
    ∃ o ∈ s.nodes, (∀ m ∈ s.nodes, o.lastAccess ≤ m.lastAccess) ∧
      s.evictOldest = s.dropOlder (o.lastAccess + 1) := by
  obtain ⟨o, ho⟩ := Option.ne_none_iff_exists'.mp fun hnone => hne (oldest_eq_none.mp hnone)
  obtain ⟨hmem, hmin⟩ := oldest_spec ho
  have hsame : (s.nodes.filter fun n => n.path ≠ o.path) =
      s.nodes.filter fun n => o.lastAccess + 1 ≤ n.lastAccess := by
    refine List.filter_congr fun n hn => ?_
    rw [decide_eq_decide]
    constructor
    · intro hp
      have : o.lastAccess ≠ n.lastAccess := fun ht =>
        hp (congrArg RamVNode.path (List.inj_on_of_nodup_map hs.ticks hn hmem ht.symm))
      have := hmin n hn
      omega
    · intro hlt hp
      rw [List.inj_on_of_nodup_map hs.paths hn hmem hp] at hlt
      omega
  have hsum := sum_erase hs.paths hmem
  rw [hsame] at hsum
  refine ⟨o, hmem, hmin, ?_⟩
  rw [evictOldest, ho]
  simp only [hsame, later, dropOlder]
  congr 1
  rw [hused, total]
  omega

/-- The bytes `u` and `n` new ones are within the capacity, as the loop compares them. -/
def Fits (s : RamFS) (n u : Nat) : Prop := s.capacity = 0 ∨ (u + n) % 2 ^ 64 ≤ s.capacity

instance (s : RamFS) (n u : Nat) : Decidable (s.Fits n u) := inferInstanceAs (Decidable (_ ∨ _))

/-- What `reserve` does: it drops the files accessed before some `t`, each of them because it did
    not fit with the later ones, until the rest fits or nothing is left. -/
structure Reserved (s : RamFS) (n : Nat) (r : Bool × RamFS) (t : Nat) : Prop where
  state : r.2 = s.dropOlder t
  evicted : ∀ m ∈ s.nodes, m.lastAccess < t → ¬ s.Fits n (s.later m.lastAccess)
  granted : r.1 = true → s.Fits n (s.later t)
  refused : r.1 = false → r.2.nodes = [] ∧ ¬ s.Fits n 0

/-- Nothing is dropped when everything fits at once. -/
theorem reserved_all {s : RamFS} {n : Nat} {ok : Bool} (hused : s.bytesUsed = s.total)
    (hgranted : ok = true → s.Fits n s.total)
    (hrefused : ok = false → s.nodes = [] ∧ ¬ s.Fits n 0) : Reserved s n (ok, s) 0 := by
  refine ⟨?_, fun m _ h => absurd h (Nat.not_lt_zero _), fun h => ?_, hrefused⟩
  · have hall : (s.nodes.filter fun m => 0 ≤ m.lastAccess) = s.nodes :=
      List.filter_eq_self.mpr fun m _ => decide_eq_true (Nat.zero_le _)
    rw [dropOlder, hall, later_zero, ← hused]
  · rw [later_zero]
    exact hgranted h

theorem Clocked.filter {s : RamFS} (hs : s.Clocked) (p : RamVNode → Bool) (used : Nat) :
    Clocked { s with nodes := s.nodes.filter p, bytesUsed := used } := by
  have hsub : (s.nodes.filter p).Sublist s.nodes := List.filter_sublist
  exact ⟨hs.paths.sublist (hsub.map _), hs.ticks.sublist (hsub.map _),
    fun n hn => hs.fresh n (hsub.subset hn)⟩

theorem filter_filter_later (nodes : List RamVNode) (t t' : Nat) :
    ((nodes.filter fun m => t ≤ m.lastAccess).filter fun m => t' ≤ m.lastAccess) =
      nodes.filter fun m => max t t' ≤ m.lastAccess := by
  rw [List.filter_filter]
  refine List.filter_congr fun m _ => ?_
  rw [← Bool.decide_and, decide_eq_decide]
  omega

theorem later_dropOlder (s : RamFS) (t t' : Nat) :
    (s.dropOlder t).later t' = s.later (max t t') := by
  rw [later, dropOlder, filter_filter_later, later]

/-- What is left of the work when the oldest file is dropped because not everything fits. -/
theorem Reserved.of_dropOlder {s : RamFS} {n : Nat} {o : RamVNode} {r : Bool × RamFS} {t : Nat}
    (hmin : ∀ m ∈ s.nodes, o.lastAccess ≤ m.lastAccess) (hfit : ¬ s.Fits n s.total)
    (h : Reserved (s.dropOlder (o.lastAccess + 1)) n r t) :
    Reserved s n r (max (o.lastAccess + 1) t) := by
  refine ⟨?_, fun m hm hlt => ?_, fun hr => ?_, h.refused⟩
  · rw [h.state, dropOlder, later_dropOlder]
    simp only [dropOlder, filter_filter_later]
  · by_cases hom : o.lastAccess < m.lastAccess
    · have hmem : m ∈ (s.dropOlder (o.lastAccess + 1)).nodes :=
        List.mem_filter.mpr ⟨hm, decide_eq_true hom⟩
      have hm' := h.evicted m hmem (by omega)
      rwa [later_dropOlder, Nat.max_eq_right hom] at hm'
    · have hall : s.later m.lastAccess = s.total := by
        rw [← later_zero, later, later]
        congr 2
        refine List.filter_congr fun x hx => ?_
        rw [decide_eq_decide]
        have := hmin x hx
        omega
      rwa [hall]
  · have hgranted := h.granted hr
    rwa [later_dropOlder] at hgranted

theorem reserveLoop_reserved {n : Nat} (k : Nat) {s : RamFS} (hs : s.Clocked)
    (hused : s.bytesUsed = s.total) (hk : s.nodes.length ≤ k) (hcap : s.capacity ≠ 0) :
    ∃ t, Reserved s n (reserveLoop n k s) t := by
  have hfits : ∀ u, s.Fits n u ↔ (u + n) % 2 ^ 64 ≤ s.capacity := fun u => or_iff_right hcap
  have hnone : s.nodes = [] → s.total = 0 := by
    intro hnil
    rw [total, hnil]
    rfl
  induction k generalizing s with
  | zero =>
    have hnil : s.nodes = [] := List.eq_nil_of_length_eq_zero (Nat.le_zero.mp hk)
    refine ⟨0, reserved_all hused (fun h => ?_) fun h => ⟨hnil, ?_⟩⟩
    · rw [hfits, ← hused]
      exact of_decide_eq_true h
    · rw [hfits, ← hnone hnil, ← hused]
      exact of_decide_eq_false h
  | succ k ih =>
    rw [reserveLoop]
    by_cases hfit : (s.bytesUsed + n) % 2 ^ 64 ≤ s.capacity
    · rw [if_pos hfit]
      exact ⟨0, reserved_all hused (fun _ => (hfits _).mpr (hused ▸ hfit)) nofun⟩
    · rw [if_neg hfit]
      by_cases hnil : s.nodes = []
      · rw [if_pos (List.isEmpty_iff.mpr hnil)]
        refine ⟨0, reserved_all hused nofun fun _ => ⟨hnil, ?_⟩⟩
        rw [hfits, ← hnone hnil, ← hused]
        exact hfit
      · rw [if_neg (fun h => hnil (List.isEmpty_iff.mp h))]
        -- the oldest file goes, and the remaining rounds work on the rest
        obtain ⟨o, hmem, hmin, hevict⟩ := evictOldest_eq hs hused hnil
        have hlen : (s.nodes.filter fun m => o.lastAccess + 1 ≤ m.lastAccess).length <
            s.nodes.length :=
          List.length_filter_lt_length_iff_exists.mpr ⟨o, hmem, by simp⟩
        obtain ⟨t, ht⟩ := ih (s := s.dropOlder (o.lastAccess + 1)) (hs.filter _ _) rfl
          (Nat.le_of_lt_succ (Nat.lt_of_lt_of_le hlen hk)) hcap (fun u => or_iff_right hcap)
          (fun h => by rw [total, h]; rfl)
        refine ⟨max (o.lastAccess + 1) t, .of_dropOlder hmin ?_ ?_⟩
        · rw [hfits, ← hused]
          exact hfit
        · rw [hevict]
          exact ht

theorem reserve_reserved {s : RamFS} (hs : s.Clocked) (hused : s.bytesUsed = s.total) (n : Nat) :
    ∃ t, Reserved s n (s.reserve n) t := by
  rw [reserve]
  by_cases hcap : s.capacity = 0
  · rw [if_pos hcap]
    exact ⟨0, reserved_all hused (fun _ => Or.inl hcap) nofun⟩
  · rw [if_neg hcap]
    exact reserveLoop_reserved _ hs hused (Nat.le_refl _) hcap

/-! ## Finding and touching -/

theorem find_some {s : RamFS} {path : Path} {n : RamVNode} (h : s.find path = some n) :
    n ∈ s.nodes ∧ n.path = path :=
  ⟨List.mem_of_find?_eq_some h,
    of_decide_eq_true (List.find?_some (p := fun m : RamVNode => decide (m.path = path)) h)⟩

theorem find_none {s : RamFS} {path : Path} (h : s.find path = none) :
    ∀ n ∈ s.nodes, n.path ≠ path :=
  fun n hn => of_decide_eq_false (Bool.eq_false_iff.mpr (List.find?_eq_none.mp h n hn))

theorem total_update {s : RamFS} (hs : s.Clocked) {path : Path} {n : RamVNode}
    (h : s.find path = some n) (f : RamVNode → RamVNode) :
    (s.update path f).total + n.sizeBytes = s.total + (f n).sizeBytes := by
  obtain ⟨hmem, rfl⟩ := find_some h
  exact sum_update hs.paths hmem f

theorem total_touch (s : RamFS) (path : Path) : (s.touch path).total = s.total := by
  have hsize : (RamVNode.sizeBytes ∘ fun n : RamVNode =>
      if n.path = path then n.touch s.tick else n) = RamVNode.sizeBytes := by
    funext n
    simp only [Function.comp_apply]
    split <;> rfl
  rw [total, touch, update, List.map_map, hsize, total]

theorem touch_clocked {s : RamFS} (hs : s.Clocked) (path : Path) : (s.touch path).Clocked := by
  have hpath : RamVNode.path ∘ (fun n : RamVNode => if n.path = path then n.touch s.tick else n) =
      RamVNode.path := by
    funext n
    simp only [Function.comp_apply]
    split <;> rfl
  refine ⟨?_, ?_, fun n hn => ?_⟩
  · rw [touch, update, List.map_map, hpath]
    exact hs.paths
  · rw [touch, update, List.map_map]
    refine List.Nodup.map_on (fun x hx y hy hxy => ?_) (List.Nodup.of_map _ hs.paths)
    have hxt := hs.fresh x hx
    have hyt := hs.fresh y hy
    simp only [Function.comp_apply] at hxy
    by_cases hxp : x.path = path <;> by_cases hyp : y.path = path
    · exact List.inj_on_of_nodup_map hs.paths hx hy (hxp.trans hyp.symm)
    · rw [if_pos hxp, if_neg hyp] at hxy
      exact absurd hyt (Nat.not_lt_of_le (Nat.le_of_eq hxy))
    · rw [if_neg hxp, if_pos hyp] at hxy
      exact absurd hxt (Nat.not_lt_of_le (Nat.le_of_eq hxy.symm))
    · rw [if_neg hxp, if_neg hyp] at hxy
      exact List.inj_on_of_nodup_map hs.ticks hx hy hxy
  · obtain ⟨m, hm, rfl⟩ := List.mem_map.mp hn
    have := hs.fresh m hm
    split
    · exact Nat.lt_succ_self _
    · exact Nat.lt_succ_of_lt this

/-- A change of the bytes of a file keeps the order of the accesses. -/
theorem update_clocked {s : RamFS} (hs : s.Clocked) (path : Path) {f : RamVNode → RamVNode}
    (hf : ∀ n ∈ s.nodes, n.path = path → (f n).path = path ∧ (f n).lastAccess = n.lastAccess)
    (used : Nat) : Clocked { s.update path f with bytesUsed := used } := by
  have hpath : s.nodes.map (RamVNode.path ∘ fun n => if n.path = path then f n else n) =
      s.nodes.map RamVNode.path := by
    refine List.map_congr_left fun n hn => ?_
    simp only [Function.comp_apply]
    split
    · next hp => rw [(hf n hn hp).1, hp]
    · rfl
  have htick : s.nodes.map (RamVNode.lastAccess ∘ fun n => if n.path = path then f n else n) =
      s.nodes.map RamVNode.lastAccess := by
    refine List.map_congr_left fun n hn => ?_
    simp only [Function.comp_apply]
    split
    · next hp => exact (hf n hn hp).2
    · rfl
  refine ⟨?_, ?_, fun n hn => ?_⟩
  · show ((s.nodes.map _).map RamVNode.path).Nodup
    rw [List.map_map, hpath]
    exact hs.paths
  · show ((s.nodes.map _).map RamVNode.lastAccess).Nodup
    rw [List.map_map, htick]
    exact hs.ticks
  · obtain ⟨m, hm, rfl⟩ := List.mem_map.mp hn
    split
    · next hp =>
      rw [(hf m hm hp).2]
      exact hs.fresh m hm
    · exact hs.fresh m hm

theorem create_clocked {s : RamFS} (hs : s.Clocked) {n : RamVNode} (hnew : s.find n.path = none)
    (ht : n.lastAccess = s.tick) (id : BitVec 64) :
    Clocked { s with nodes := n :: s.nodes, nextId := id, tick := s.tick + 1 } := by
  refine ⟨List.nodup_cons.mpr ⟨fun hmem => ?_, hs.paths⟩,
    List.nodup_cons.mpr ⟨fun hmem => ?_, hs.ticks⟩, List.forall_mem_cons.mpr ⟨?_, fun m hm => ?_⟩⟩
  · obtain ⟨m, hm, hp⟩ := List.mem_map.mp hmem
    exact find_none hnew m hm hp
  · obtain ⟨m, hm, hp⟩ := List.mem_map.mp hmem
    have := hs.fresh m hm
    omega
  · exact ht ▸ Nat.lt_succ_self _
  · exact Nat.lt_succ_of_lt (hs.fresh m hm)

theorem evictOldest_clocked {s : RamFS} (hs : s.Clocked) : s.evictOldest.Clocked := by
  rw [evictOldest]
  split
  · exact hs
  · exact hs.filter _ _

theorem reserveLoop_clocked (n k : Nat) {s : RamFS} (hs : s.Clocked) :
    (reserveLoop n k s).2.Clocked := by
  induction k generalizing s with
  | zero => exact hs
  | succ k ih =>
    rw [reserveLoop]
    split
    · exact hs
    · split
      · exact hs
      · exact ih (evictOldest_clocked hs)

theorem reserve_clocked {s : RamFS} (hs : s.Clocked) (n : Nat) : (s.reserve n).2.Clocked := by
  rw [reserve]
  split
  · exact hs
  · exact reserveLoop_clocked _ _ hs

end RamFS

end NeuroVerse.Fs
