/-
  Telemetry (`pulse/metric.hpp`, `pulse/metric.cpp`): counters, gauges, histograms, and the text
  exposition of a registry.

  Values are any linear order with an addition; the text of a value is a parameter of `scrape`, as
  the stream operator is. A registry is a finite map for each kind of metric, under the name the
  metric has. The text is made of `Line`s, one constructor for each form a line can have, so that
  a bucket line can be told from the rest.

  A bucket of a histogram counts the observations above the bound before it (`bucketCounts_eq`,
  `sum_buckets_le`), and `scrape` prints that count where the format asks for the number of
  observations at or below the bound (`exposition_cumulative_iff`).
-/
import Mathlib.Data.BitVec
import Mathlib.Data.List.AList
import Mathlib.Data.List.Induction
import Mathlib.Order.Lattice

namespace NeuroVerse.Pulse

variable {δ : Type*}

/-! ## Metrics -/

structure Counter (δ : Type*) where
  name : String
  help : String
  value : δ

def Counter.inc [Add δ] (c : Counter δ) (v : δ) : Counter δ := { c with value := c.value + v }

structure Gauge (δ : Type*) where
  name : String
  help : String
  value : δ

def Gauge.set (g : Gauge δ) (v : δ) : Gauge δ := { g with value := v }

def Gauge.inc [Add δ] (g : Gauge δ) (v : δ) : Gauge δ := { g with value := g.value + v }

def Gauge.dec [Add δ] [Neg δ] (g : Gauge δ) (v : δ) : Gauge δ := g.inc (-v)

structure Histogram (δ : Type*) where
  name : String
  help : String
  bounds : List δ
  bucketCounts : List Nat
  count : Nat
  sum : δ

namespace Histogram

def new [Zero δ] (name help : String) (bounds : List δ) : Histogram δ where
  name := name
  help := help
  bounds := bounds
  bucketCounts := List.replicate (bounds.length + 1) 0
  count := 0
  sum := 0

/-- The value goes into the first bucket whose bound it does not exceed, or else into the last. -/
def observe [LinearOrder δ] [Add δ] (h : Histogram δ) (v : δ) : Histogram δ :=
  { h with
    count := h.count + 1
    sum := h.sum + v
    bucketCounts :=
      match h.bounds.findIdx? (v ≤ ·) with
      | some i => h.bucketCounts.modify i (· + 1)
      | none => h.bucketCounts.modify (h.bucketCounts.length - 1) (· + 1) }

def observeAll [LinearOrder δ] [Add δ] (h : Histogram δ) (obs : List δ) : Histogram δ :=
  obs.foldl observe h

end Histogram

/-! ## The exposition -/

/-- A line of the exposition. -/
inductive Line (δ : Type*) where
  | help (name text : String)
  | type (name kind : String)
  | value (name : String) (v : δ)
  /-- `le` is the bound, `none` for `+Inf`. -/
  | bucket (name : String) (le : Option δ) (n : Nat)
  | count (name : String) (n : Nat)
  | sum (name : String) (v : δ)
deriving DecidableEq

def Line.text (print : δ → String) : Line δ → String
  | .help name text => "# HELP " ++ name ++ " " ++ text ++ "\n"
  | .type name kind => "# TYPE " ++ name ++ " " ++ kind ++ "\n"
  | .value name v => name ++ " " ++ print v ++ "\n"
  | .bucket name (some b) n =>
    name ++ "_bucket\x7ble=\"" ++ print b ++ "\"\x7d " ++ toString n ++ "\n"
  | .bucket name none n => name ++ "_bucket\x7ble=\"+Inf\"\x7d " ++ toString n ++ "\n"
  | .count name n => name ++ "_count " ++ toString n ++ "\n"
  | .sum name v => name ++ "_sum " ++ print v ++ "\n"

def Counter.lines (c : Counter δ) : List (Line δ) :=
  [.help c.name c.help, .type c.name "counter", .value c.name c.value]

def Gauge.lines (g : Gauge δ) : List (Line δ) :=
  [.help g.name g.help, .type g.name "gauge", .value g.name g.value]

def Histogram.lines (h : Histogram δ) : List (Line δ) :=
  [.help h.name h.help, .type h.name "histogram"] ++
    h.bounds.zipIdx.map (fun (b, i) => .bucket h.name (some b) (h.bucketCounts.getD i 0)) ++
      [.bucket h.name none (h.bucketCounts.getLastD 0), .count h.name h.count,
        .sum h.name h.sum]

/-- The metrics of one kind in the order of their names. -/
def sorted {μ : Type*} (metrics : AList fun _ : String => μ) : List μ :=
  (metrics.keys.mergeSort (· ≤ ·)).filterMap fun n => metrics.lookup n

structure Registry (δ : Type*) where
  counters : AList fun _ : String => Counter δ := ∅
  gauges : AList fun _ : String => Gauge δ := ∅
  histograms : AList fun _ : String => Histogram δ := ∅
  /-- A histogram is registered under its own name. -/
  named : ∀ n h, histograms.lookup n = some h → h.name = n := by intro n h hn; cases hn

namespace Registry

def counter [Zero δ] (r : Registry δ) (name help : String) : Counter δ × Registry δ :=
  match r.counters.lookup name with
  | some c => (c, r)
  | none =>
    let c := { name, help, value := 0 }
    (c, { r with counters := r.counters.insert name c })

def gauge [Zero δ] (r : Registry δ) (name help : String) : Gauge δ × Registry δ :=
  match r.gauges.lookup name with
  | some g => (g, r)
  | none =>
    let g := { name, help, value := 0 }
    (g, { r with gauges := r.gauges.insert name g })

/-- Puts a histogram in the place of the one of its name. -/
def setHistogram (r : Registry δ) (h : Histogram δ) : Registry δ :=
  { r with
    histograms := r.histograms.insert h.name h
    named := by
      intro n h' hn
      by_cases heq : n = h.name
      · subst heq
        rw [AList.lookup_insert] at hn
        exact congrArg Histogram.name (Option.some.inj hn).symm
      · rw [AList.lookup_insert_ne heq] at hn
        exact r.named n h' hn }

def histogram [Zero δ] (r : Registry δ) (name help : String) (bounds : List δ) :
    Histogram δ × Registry δ :=
  match r.histograms.lookup name with
  | some h => (h, r)
  | none => (.new name help bounds, r.setHistogram (.new name help bounds))

/-- `observe` through the reference that `histogram` has returned. -/
def observe [LinearOrder δ] [Add δ] (r : Registry δ) (name : String) (v : δ) : Registry δ :=
  match r.histograms.lookup name with
  | some h => r.setHistogram (h.observe v)
  | none => r

/-- Registers a histogram and records observations in it. -/
def record [LinearOrder δ] [Add δ] [Zero δ] (r : Registry δ) (name help : String)
    (bounds obs : List δ) : Registry δ :=
  obs.foldl (fun r v => r.observe name v) (r.histogram name help bounds).2

def lines (r : Registry δ) : List (Line δ) :=
  (sorted r.counters).flatMap Counter.lines ++ (sorted r.gauges).flatMap Gauge.lines ++
    (sorted r.histograms).flatMap Histogram.lines

def scrape (print : δ → String) (r : Registry δ) : String :=
  String.join (r.lines.map (Line.text print))

end Registry

/-! ## What the buckets count -/

namespace Histogram

section Counts

variable [LinearOrder δ] [Add δ]

theorem observeAll_snoc (h : Histogram δ) (obs : List δ) (v : δ) :
    h.observeAll (obs ++ [v]) = (h.observeAll obs).observe v := by
  rw [observeAll, List.foldl_append]
  rfl

@[simp] theorem name_observeAll (h : Histogram δ) (obs : List δ) :
    (h.observeAll obs).name = h.name := by
  induction obs generalizing h with
  | nil => rfl
  | cons v obs ih => exact ih (h.observe v)

@[simp] theorem bounds_observeAll (h : Histogram δ) (obs : List δ) :
    (h.observeAll obs).bounds = h.bounds := by
  induction obs generalizing h with
  | nil => rfl
  | cons v obs ih => exact ih (h.observe v)

@[simp] theorem count_observeAll (h : Histogram δ) (obs : List δ) :
    (h.observeAll obs).count = h.count + obs.length := by
  induction obs generalizing h with
  | nil => rfl
  | cons v obs ih =>
    refine (ih (h.observe v)).trans ?_
    show h.count + 1 + obs.length = h.count + (obs.length + 1)
    omega

/-- With one bucket more than bounds, the bucket of a value is the first bound that it does not
    exceed. -/
theorem bucketCounts_observe {h : Histogram δ}
    (hlen : h.bucketCounts.length = h.bounds.length + 1) (v : δ) :
    (h.observe v).bucketCounts =
      h.bucketCounts.modify (h.bounds.findIdx (v ≤ ·)) (· + 1) := by
  rw [observe]
  cases hf : h.bounds.findIdx? (v ≤ ·) with
  | none =>
    have hidx := List.findIdx?_eq_none_iff_findIdx_eq.mp hf
    simp only [hidx, hlen, Nat.add_sub_cancel]
  | some i =>
    have hidx := (List.findIdx?_eq_some_iff_findIdx_eq.mp hf).2
    simp only [hidx]

/-- Each bucket holds the number of values that went into it. -/
theorem bucketCounts_eq [Zero δ] (name help : String) (bounds obs : List δ) :
    ((new name help bounds).observeAll obs).bucketCounts =
      (List.range (bounds.length + 1)).map fun i =>
        obs.countP fun v => bounds.findIdx (v ≤ ·) = i := by
  induction obs using List.reverseRecOn with
  | nil =>
    refine List.ext_getElem ?_ fun i hi _ => ?_
    · simp [observeAll, new]
    · simp [observeAll, new]
  | append_singleton obs v ih =>
    have hlen : ((new name help bounds).observeAll obs).bucketCounts.length =
        ((new name help bounds).observeAll obs).bounds.length + 1 := by
      rw [ih, bounds_observeAll, List.length_map, List.length_range]
      rfl
    rw [observeAll_snoc, bucketCounts_observe hlen, bounds_observeAll, ih]
    refine List.ext_getElem (by simp) fun i hi _ => ?_
    rw [List.getElem_modify, List.getElem_map, List.getElem_map, List.getElem_range,
      List.countP_append, List.countP_singleton]
    have hbounds : (new name help bounds).bounds = bounds := rfl
    rw [hbounds]
    by_cases heq : bounds.findIdx (v ≤ ·) = i
    · simp [heq]
    · simp [heq]

end Counts

section Values

/-- Counting by value and adding up the counts below `n`. -/
theorem sum_countP_eq (f : δ → Nat) (obs : List δ) (n : Nat) :
    ((List.range n).map fun i => obs.countP fun v => f v = i).sum = obs.countP (f · < n) := by
  induction n with
  | zero => simp
  | succ n ih =>
    have hstep : obs.countP (f · < n + 1) = obs.countP (f · < n) + obs.countP (f · = n) := by
      clear ih
      induction obs with
      | nil => rfl
      | cons v obs ih =>
        simp only [List.countP_cons, ih, decide_eq_true_eq]
        split_ifs <;> omega
    rw [List.range_succ, List.map_append, List.sum_append, ih, List.map_singleton,
      List.sum_singleton, hstep]

variable [LinearOrder δ] [Add δ] [Zero δ]

theorem getD_bucketCounts (name help : String) (bounds obs : List δ) {i : Nat}
    (hi : i ≤ bounds.length) :
    ((new name help bounds).observeAll obs).bucketCounts.getD i 0 =
      obs.countP fun v => bounds.findIdx (v ≤ ·) = i := by
  have hlen : i < ((List.range (bounds.length + 1)).map fun i =>
      obs.countP fun v => bounds.findIdx (v ≤ ·) = i).length := by
    rw [List.length_map, List.length_range]
    omega
  rw [bucketCounts_eq, List.getD_eq_getElem?_getD, List.getElem?_eq_getElem hlen,
    Option.getD_some, List.getElem_map, List.getElem_range]

theorem getLastD_bucketCounts (name help : String) (bounds obs : List δ) :
    ((new name help bounds).observeAll obs).bucketCounts.getLastD 0 =
      obs.countP fun v => bounds.findIdx (v ≤ ·) = bounds.length := by
  rw [bucketCounts_eq, List.range_succ, List.map_append, List.map_singleton, List.getLastD_concat]

/-- Over increasing bounds the sum of the buckets up to a bound is the number of observations at
    or below it. -/
theorem sum_buckets_le (name help : String) {bounds : List δ} (hsorted : bounds.Pairwise (· < ·))
    (obs : List δ) {i : Nat} (hi : i < bounds.length) :
    (((new name help bounds).observeAll obs).bucketCounts.take (i + 1)).sum =
      obs.countP (· ≤ bounds[i]) := by
  have hiff : ∀ v, bounds.findIdx (v ≤ ·) < i + 1 ↔ v ≤ bounds[i] := by
    intro v
    constructor
    · intro hlt
      have hidx : bounds.findIdx (v ≤ ·) < bounds.length := by omega
      have hfound : v ≤ bounds[bounds.findIdx (v ≤ ·)] := by
        simpa using List.findIdx_getElem (w := hidx)
      rcases Nat.lt_or_eq_of_le (Nat.lt_succ_iff.mp hlt) with hbefore | heq
      · exact hfound.trans (List.pairwise_iff_getElem.mp hsorted _ _ hidx hi hbefore).le
      · simpa only [heq] using hfound
    · intro hv
      by_contra hge
      have hlt : i < bounds.findIdx (v ≤ ·) := by omega
      have hnot := List.not_of_lt_findIdx hlt
      simp [hv] at hnot
  have htake : (List.range (bounds.length + 1)).take (i + 1) = List.range (i + 1) := by
    rw [List.take_range, Nat.min_eq_left (by omega)]
  rw [bucketCounts_eq, ← List.map_take, htake,
    sum_countP_eq (fun v => bounds.findIdx (v ≤ ·)) obs (i + 1)]
  simp only [hiff]

end Values

/-! ## The lines of a histogram -/

theorem bucket_mem_lines (h : Histogram δ) (b : δ) (n : Nat) :
    .bucket h.name (some b) n ∈ h.lines ↔
      ∃ i, h.bounds[i]? = some b ∧ n = h.bucketCounts.getD i 0 := by
  simp only [lines, List.mem_append, List.mem_cons, List.mem_map, List.not_mem_nil, or_false,
    reduceCtorEq, false_or, Line.bucket.injEq, Option.some.injEq, true_and, false_and]
  constructor
  · rintro ⟨⟨b', i⟩, hmem, rfl, rfl⟩
    exact ⟨i, List.mem_zipIdx_iff_getElem?.mp hmem, rfl⟩
  · rintro ⟨i, hb, rfl⟩
    exact ⟨(b, i), List.mem_zipIdx_iff_getElem?.mpr hb, rfl, rfl⟩

theorem inf_mem_lines (h : Histogram δ) (n : Nat) :
    .bucket h.name none n ∈ h.lines ↔ n = h.bucketCounts.getLastD 0 := by
  simp [lines]

theorem count_mem_lines (h : Histogram δ) (n : Nat) :
    .count h.name n ∈ h.lines ↔ n = h.count := by
  simp [lines]

end Histogram

/-! ## The lines of a registry -/

theorem mem_sorted {μ : Type*} {metrics : AList fun _ : String => μ} {m : μ} :
    m ∈ sorted metrics ↔ ∃ n, metrics.lookup n = some m := by
  rw [sorted, List.mem_filterMap]
  constructor
  · rintro ⟨n, -, h⟩
    exact ⟨n, h⟩
  · rintro ⟨n, h⟩
    refine ⟨n, List.mem_mergeSort.mpr ?_, h⟩
    exact AList.lookup_isSome.mp (by rw [h]; rfl)

/-- A line that only a histogram of the name prints. -/
def Line.OfHistogram (name : String) : Line δ → Prop
  | .bucket n _ _ | .count n _ => n = name
  | _ => False

/-- A registry prints the buckets and the count of a histogram as the histogram alone does. -/
theorem mem_lines_iff {r : Registry δ} {name : String} {h : Histogram δ}
    (hr : r.histograms.lookup name = some h) {l : Line δ} (hl : l.OfHistogram name) :
    l ∈ r.lines ↔ l ∈ h.lines := by
  have hcounter : ∀ c : Counter δ, l ∉ c.lines := by
    rintro c hc
    simp only [Counter.lines, List.mem_cons, List.not_mem_nil, or_false] at hc
    rcases hc with rfl | rfl | rfl <;> exact hl
  have hgauge : ∀ g : Gauge δ, l ∉ g.lines := by
    rintro g hg
    simp only [Gauge.lines, List.mem_cons, List.not_mem_nil, or_false] at hg
    rcases hg with rfl | rfl | rfl <;> exact hl
  have hname : ∀ h' : Histogram δ, l ∈ h'.lines → h'.name = name := by
    intro h' hl'
    simp only [Histogram.lines, List.mem_append, List.mem_cons, List.mem_map, List.not_mem_nil,
      or_false] at hl'
    rcases hl' with ((rfl | rfl) | ⟨⟨b, i⟩, -, rfl⟩) | rfl | rfl | rfl
    · exact absurd hl id
    · exact absurd hl id
    · exact hl
    · exact hl
    · exact hl
    · exact absurd hl id
  simp only [Registry.lines, List.mem_append, List.mem_flatMap, mem_sorted, hcounter, hgauge,
    and_false, exists_false, false_or]
  constructor
  · rintro ⟨h', ⟨n, hn⟩, hl'⟩
    have heq : n = name := (r.named n h' hn).symm.trans (hname h' hl')
    rw [heq, hr] at hn
    rw [Option.some.inj hn]
    exact hl'
  · intro hl'
    exact ⟨h, ⟨name, hr⟩, hl'⟩

section Record

variable [LinearOrder δ] [Add δ] {r : Registry δ}

theorem lookup_observe {name : String} {h : Histogram δ}
    (hr : r.histograms.lookup name = some h) (v : δ) :
    (r.observe name v).histograms.lookup name = some (h.observe v) := by
  have hname : (h.observe v).name = name := r.named name h hr
  simp only [Registry.observe, hr, Registry.setHistogram, hname]
  exact AList.lookup_insert _

variable [Zero δ]

/-- Under a new name the registry holds a histogram of exactly these observations. -/
theorem lookup_record {name : String} (hr : r.histograms.lookup name = none) (help : String)
    (bounds obs : List δ) :
    (r.record name help bounds obs).histograms.lookup name =
      some ((Histogram.new name help bounds).observeAll obs) := by
  induction obs using List.reverseRecOn with
  | nil =>
    simp only [Registry.record, List.foldl_nil, Registry.histogram, hr]
    exact AList.lookup_insert _
  | append_singleton obs v ih =>
    have hrecord : r.record name help bounds (obs ++ [v]) =
        (r.record name help bounds obs).observe name v := by
      rw [Registry.record, List.foldl_append]
      rfl
    rw [hrecord, Histogram.observeAll_snoc]
    exact lookup_observe ih v

end Record

/-! ## Is the exposition cumulative? -/

section Cumulative

variable [LinearOrder δ]

/-- What the text format asks of the lines of a histogram: one bucket line for each bound, with
    the number of observations at or below it, no bucket with less than an earlier one, and all
    observations in the last. -/
structure Cumulative (name : String) (bounds obs : List δ) (lines : List (Line δ)) : Prop where
  le : ∀ b n, .bucket name (some b) n ∈ lines ↔ b ∈ bounds ∧ n = obs.countP (· ≤ b)
  mono : ∀ b n b' n', .bucket name (some b) n ∈ lines → .bucket name (some b') n' ∈ lines →
    b ≤ b' → n ≤ n'
  inf : ∀ n, .bucket name none n ∈ lines ↔ .count name n ∈ lines

theorem findIdx_eq_length_iff {bounds : List δ} {v : δ} :
    bounds.findIdx (v ≤ ·) = bounds.length ↔ ∀ b ∈ bounds, b < v := by
  simp only [List.findIdx_eq_length, decide_eq_false_iff_not, not_le]

variable [Add δ] [Zero δ]

section Lines

variable {r : Registry δ} {name help : String} {bounds obs : List δ}

/-- The bucket line of a bound holds the values whose first bound it is. -/
theorem bucket_line_iff
    (hr : r.histograms.lookup name = some ((Histogram.new name help bounds).observeAll obs))
    (b : δ) (n : Nat) :
    .bucket name (some b) n ∈ r.lines ↔
      ∃ i, bounds[i]? = some b ∧ n = obs.countP fun v => bounds.findIdx (v ≤ ·) = i := by
  have hline := Histogram.bucket_mem_lines ((Histogram.new name help bounds).observeAll obs) b n
  rw [r.named _ _ hr, Histogram.bounds_observeAll] at hline
  rw [mem_lines_iff (l := .bucket name (some b) n) hr rfl, hline]
  refine exists_congr fun i => and_congr_right fun hi => ?_
  have hlt : i < bounds.length := (List.getElem?_eq_some_iff.mp hi).1
  rw [Histogram.getD_bucketCounts name help bounds obs hlt.le]

/-- The last bucket line holds the values that exceed every bound. -/
theorem inf_line_iff
    (hr : r.histograms.lookup name = some ((Histogram.new name help bounds).observeAll obs))
    (n : Nat) :
    .bucket name none n ∈ r.lines ↔
      n = obs.countP fun v => bounds.findIdx (v ≤ ·) = bounds.length := by
  have hline := Histogram.inf_mem_lines ((Histogram.new name help bounds).observeAll obs) n
  rw [r.named _ _ hr, Histogram.getLastD_bucketCounts] at hline
  rw [mem_lines_iff (l := .bucket name none n) hr rfl, hline]

theorem count_line_iff
    (hr : r.histograms.lookup name = some ((Histogram.new name help bounds).observeAll obs))
    (n : Nat) : .count name n ∈ r.lines ↔ n = obs.length := by
  have hline := Histogram.count_mem_lines ((Histogram.new name help bounds).observeAll obs) n
  have hcount : ((Histogram.new name help bounds).observeAll obs).count = obs.length :=
    (Histogram.count_observeAll _ _).trans (Nat.zero_add _)
  rw [r.named _ _ hr, hcount] at hline
  rw [mem_lines_iff (l := .count name n) hr rfl, hline]

/-- With every observation above every bound the bucket lines of the bounds say 0. -/
theorem bucket_line_above
    (hr : r.histograms.lookup name = some ((Histogram.new name help bounds).observeAll obs))
    (h : ∀ v ∈ obs, ∀ b ∈ bounds, b < v) (b : δ) (n : Nat) :
    .bucket name (some b) n ∈ r.lines ↔ b ∈ bounds ∧ n = 0 := by
  have hzero : ∀ i < bounds.length, (obs.countP fun v => bounds.findIdx (v ≤ ·) = i) = 0 := by
    intro i hi
    refine List.countP_eq_zero.mpr fun v hv => ?_
    rw [findIdx_eq_length_iff.mpr (h v hv), decide_eq_true_eq]
    exact hi.ne'
  rw [bucket_line_iff hr]
  constructor
  · rintro ⟨i, hi, hn⟩
    rw [hzero i (List.getElem?_eq_some_iff.mp hi).1] at hn
    exact ⟨List.mem_iff_getElem?.mpr ⟨i, hi⟩, hn⟩
  · rintro ⟨hb, hn⟩
    obtain ⟨i, hi⟩ := List.mem_iff_getElem?.mp hb
    refine ⟨i, hi, ?_⟩
    rw [hn, hzero i (List.getElem?_eq_some_iff.mp hi).1]

end Lines

/-- `scrape` prints the lines the format asks for exactly when every observation lies above every
    bound: what it prints for a bound is one interval's count and not the sum up to there. -/
theorem exposition_cumulative_iff (r : Registry δ) (name help : String) (bounds obs : List δ)
    (hr : r.histograms.lookup name = some ((Histogram.new name help bounds).observeAll obs)) :
    Cumulative name bounds obs r.lines ↔ ∀ v ∈ obs, ∀ b ∈ bounds, b < v := by
  constructor
  · intro h v hv
    have hall := (inf_line_iff hr _).mp ((h.inf _).mpr ((count_line_iff hr _).mpr rfl))
    have hidx := List.countP_eq_length.mp hall.symm v hv
    exact findIdx_eq_length_iff.mp (of_decide_eq_true hidx)
  · intro h
    have hlast : (obs.countP fun v => bounds.findIdx (v ≤ ·) = bounds.length) = obs.length :=
      List.countP_eq_length.mpr fun v hv =>
        decide_eq_true (findIdx_eq_length_iff.mpr (h v hv))
    refine ⟨fun b n => ?_, fun b n b' n' hb hb' _ => ?_, fun n => ?_⟩
    · rw [bucket_line_above hr h]
      refine and_congr_right fun hb => ?_
      have hnone : obs.countP (· ≤ b) = 0 := by
        refine List.countP_eq_zero.mpr fun v hv => ?_
        rw [decide_eq_true_eq]
        exact not_le.mpr (h v hv b hb)
      rw [hnone]
    · rw [((bucket_line_above hr h b n).mp hb).2]
      exact Nat.zero_le n'
    · rw [inf_line_iff hr, count_line_iff hr, hlast]

/-- Two observations above both bounds. -/
theorem exposition_cumulative_above :
    Cumulative "lat" [1, 10] [20, 50]
      (({} : Registry Nat).record "lat" "latency ms" [1, 10] [20, 50]).lines :=
  (exposition_cumulative_iff _ "lat" "latency ms" [1, 10] [20, 50]
    (lookup_record rfl "latency ms" [1, 10] [20, 50])).mpr (by decide)

/-- One observation in each of three buckets: the line of the bound 10 says 1. -/
theorem exposition_not_cumulative :
    ¬ ∀ (r : Registry Nat) (name help : String) (bounds obs : List Nat),
      bounds.Pairwise (· < ·) →
      r.histograms.lookup name = some ((Histogram.new name help bounds).observeAll obs) →
      Cumulative name bounds obs r.lines := by
  intro h
  have hr : (({} : Registry Nat).record "lat" "latency ms" [1, 10] [0, 5, 50]).histograms.lookup
      "lat" = some ((Histogram.new "lat" "latency ms" [1, 10]).observeAll [0, 5, 50]) :=
    lookup_record rfl "latency ms" [1, 10] [0, 5, 50]
  have hcumulative := h _ "lat" "latency ms" [1, 10] [0, 5, 50] (by decide) hr
  have hline := (bucket_line_iff hr 10 1).mpr ⟨1, by decide, by decide⟩
  exact absurd ((hcumulative.le 10 1).mp hline).2 (by decide)

end Cumulative

end NeuroVerse.Pulse
