import LatencyLab.Metrics.LatencyRecorder

/-! The statistics of a `LatencyRecorder` with samples. `percentile` interpolates the
sorted samples, which is monotone, and truncates, which keeps the order; at 0 and 100
it stands on the first and the last sample. The sorted copy, and with it every result,
does not depend on the order in which the samples came. -/

namespace LatencyLab.LatencyRecorder

open Interpolation

variable {r r' : LatencyRecorder} {sorted : List UInt64} {p q : ℚ}

/-! ### The sorted copy -/

theorem sorted_perm (r : LatencyRecorder) : r.sorted.Perm r.samples_ := List.mergeSort_perm _ _

theorem sorted_pairwise (r : LatencyRecorder) : r.sorted.Pairwise (· ≤ ·) := by
  have htrans : ∀ a b c : UInt64,
      decide (a ≤ b) = true → decide (b ≤ c) = true → decide (a ≤ c) = true := by
    intro a b c hab hbc
    exact decide_eq_true (UInt64.le_trans (of_decide_eq_true hab) (of_decide_eq_true hbc))
  have htotal : ∀ a b : UInt64, (decide (a ≤ b) || decide (b ≤ a)) = true := by
    intro a b
    simpa using UInt64.le_total a b
  exact (List.pairwise_mergeSort htrans htotal r.samples_).imp of_decide_eq_true

/-- There is one sorted list of the same samples. -/
theorem sorted_congr (h : r'.samples_.Perm r.samples_) : r'.sorted = r.sorted := by
  have hperm : r'.sorted.Perm r.sorted := (r'.sorted_perm.trans h).trans r.sorted_perm.symm
  exact hperm.eq_of_pairwise (fun a b _ _ => UInt64.le_antisymm) r'.sorted_pairwise r.sorted_pairwise

theorem sorted_ne_nil (h : r.samples_ ≠ []) : r.sorted ≠ [] := fun hnil => h (hnil ▸ r.sorted_perm).nil_eq.symm

/-! ### The index -/

section Index

theorem index_nonneg (h0 : 0 ≤ p) : 0 ≤ index sorted p := by
  rw [index]
  positivity

theorem index_mono (hpq : p ≤ q) : index sorted p ≤ index sorted q := by
  rw [index, index]
  gcongr

theorem index_zero (sorted : List UInt64) : index sorted 0 = (0 : ℕ) := by simp [index]

theorem index_hundred (sorted : List UInt64) : index sorted 100 = (sorted.length - 1 : ℕ) := by
  rw [index, div_self (by norm_num), one_mul]

/-- The last index is the last one used. -/
theorem upper_le (h100 : p ≤ 100) : ⌈index sorted p⌉₊ ≤ sorted.length - 1 := by
  rw [Nat.ceil_le, ← index_hundred]
  exact index_mono h100

theorem upper_lt (hne : sorted ≠ []) (h100 : p ≤ 100) : ⌈index sorted p⌉₊ < sorted.length := by
  have hpos := List.length_pos_iff.mpr hne
  have hle : ⌈index sorted p⌉₊ ≤ sorted.length - 1 := upper_le h100
  omega

theorem lower_lt (hne : sorted ≠ []) (h100 : p ≤ 100) : ⌊index sorted p⌋₊ < sorted.length :=
  (Nat.floor_le_ceil _).trans_lt (upper_lt hne h100)

end Index

/-! ### The value -/

/-- The sorted samples as a sequence. -/
def level (sorted : List UInt64) (k : ℕ) : ℚ := ((sorted[k]?.getD 0).toNat : ℚ)

theorem level_of_getElem? {k : ℕ} {x : UInt64} (h : sorted[k]? = some x) : level sorted k = x.toNat := by
  rw [level, h, Option.getD_some]

theorem level_lt (sorted : List UInt64) (k : ℕ) : level sorted k < 2 ^ 64 := by
  rw [level]
  exact_mod_cast UInt64.toNat_lt _

theorem level_mono (hs : sorted.Pairwise (· ≤ ·)) :
    ∀ i j, i ≤ j → j ≤ sorted.length - 1 → level sorted i ≤ level sorted j := by
  intro i j hij hj
  rcases Nat.lt_or_eq_of_le hij with hlt | rfl
  · by_cases hlen : j < sorted.length
    · have hle := List.pairwise_iff_getElem.mp hs i j (by omega) hlen hlt
      rw [level_of_getElem? (List.getElem?_eq_getElem (show i < sorted.length by omega)),
        level_of_getElem? (List.getElem?_eq_getElem hlen)]
      exact_mod_cast UInt64.le_iff_toNat_le.mp hle
    · omega
  · exact le_rfl

theorem toNat_truncate {x : ℚ} (h0 : 0 ≤ x) (hlt : x < 2 ^ 64) : (truncate x).toNat = ⌊x⌋₊ := by
  rw [truncate, UInt64.toNat_ofNat_of_lt']
  rw [UInt64.size, Nat.floor_lt h0]
  exact_mod_cast hlt

theorem percentile_eq (hne : sorted ≠ []) (h100 : p ≤ 100) :
    percentile sorted p = some (truncate (interpolate (level sorted) (index sorted p))) := by
  have hlow := List.getElem?_eq_getElem (lower_lt hne h100)
  have hup := List.getElem?_eq_getElem (upper_lt hne h100)
  rw [percentile, if_neg (by simpa using hne)]
  dsimp only
  split_ifs with hjoint
  · rw [interpolate_joint hjoint, level_of_getElem? hlow, truncate, Nat.floor_natCast, UInt64.ofNat_toNat, hlow]
  · rw [hlow, hup, interpolate, level_of_getElem? hlow, level_of_getElem? hup]

/-- Interpolated samples are in the range of the type. -/
theorem interpolate_level (hs : sorted.Pairwise (· ≤ ·)) (h0 : 0 ≤ p) (h100 : p ≤ 100) :
    0 ≤ interpolate (level sorted) (index sorted p) ∧ interpolate (level sorted) (index sorted p) < 2 ^ 64 := by
  constructor
  · refine le_trans ?_ (le_interpolate (level_mono hs) (index_nonneg h0) (upper_le h100))
    exact Nat.cast_nonneg _
  · exact (interpolate_le (level_mono hs) (upper_le h100)).trans_lt (level_lt sorted _)

theorem percentile_mono (hs : sorted.Pairwise (· ≤ ·)) (hne : sorted ≠ []) (h0 : 0 ≤ p) (hpq : p ≤ q)
    (h100 : q ≤ 100) :
    ∃ x y, percentile sorted p = some x ∧ percentile sorted q = some y ∧ x ≤ y := by
  refine ⟨_, _, percentile_eq hne (hpq.trans h100), percentile_eq hne h100, ?_⟩
  obtain ⟨hnonneg, hlt⟩ := interpolate_level hs h0 (hpq.trans h100)
  obtain ⟨hnonneg', hlt'⟩ := interpolate_level hs (h0.trans hpq) h100
  rw [UInt64.le_iff_toNat_le, toNat_truncate hnonneg hlt, toNat_truncate hnonneg' hlt']
  exact Nat.floor_mono (interpolate_mono (level_mono hs) (index_nonneg h0) (index_mono hpq) (upper_le h100))

/-- At a whole index stands a sample. -/
theorem percentile_natCast (hne : sorted ≠ []) {k : ℕ} (hk : index sorted p = k) :
    percentile sorted p = sorted[k]? := by
  rw [percentile, if_neg (by simpa using hne)]
  dsimp only
  rw [hk, Nat.floor_natCast, Nat.ceil_natCast, if_pos rfl]

/-! ### The getters -/

section Getters

variable (h : r.samples_ ≠ [])

include h in
theorem min_eq : r.min = percentile r.sorted 0 := by
  rw [min, if_neg (by simpa using h), percentile_natCast (sorted_ne_nil h) (index_zero _), List.head?_eq_getElem?]

include h in
theorem max_eq : r.max = percentile r.sorted 100 := by
  rw [max, if_neg (by simpa using h), percentile_natCast (sorted_ne_nil h) (index_hundred _),
    List.getLast?_eq_getElem?]

include h in
theorem getPercentile_eq (p : ℚ) : r.getPercentile p = percentile r.sorted p := if_neg (by simpa using h)

end Getters

/-! ### The order of the samples -/

section Order

variable (h : r'.samples_.Perm r.samples_)

include h in
theorem isEmpty_congr : r'.samples_.isEmpty = r.samples_.isEmpty := h.isEmpty_eq

include h in
theorem getPercentile_congr (p : ℚ) : r'.getPercentile p = r.getPercentile p := by
  rw [getPercentile, getPercentile, isEmpty_congr h, sorted_congr h]

include h in
/-- The sum wraps, but it wraps to the same value in every order. -/
theorem mean_congr : r'.mean = r.mean := by
  have hsum : r'.samples_.foldl (· + ·) 0 = r.samples_.foldl (· + ·) 0 := h.foldl_eq 0
  rw [mean, mean, isEmpty_congr h, h.length_eq, hsum]

include h in
theorem printSummary_congr : r'.printSummary = r.printSummary := by
  rw [printSummary, printSummary, isEmpty_congr h, sorted_congr h, mean_congr h, h.length_eq]

end Order

/-- The results for samples in two orders. -/
structure SameResults (r' r : LatencyRecorder) : Prop where
  percentile : ∀ p, LatencyRecorder.percentile r'.sorted p = LatencyRecorder.percentile r.sorted p
  min : r'.min = r.min
  max : r'.max = r.max
  p50 : r'.p50 = r.p50
  p90 : r'.p90 = r.p90
  p99 : r'.p99 = r.p99
  p99_9 : r'.p99_9 = r.p99_9
  mean : r'.mean = r.mean
  printSummary : r'.printSummary = r.printSummary

theorem sameResults_of_perm (h : r'.samples_.Perm r.samples_) : SameResults r' r where
  percentile p := by rw [sorted_congr h]
  min := by rw [min, min, isEmpty_congr h, sorted_congr h]
  max := by rw [max, max, isEmpty_congr h, sorted_congr h]
  p50 := getPercentile_congr h _
  p90 := getPercentile_congr h _
  p99 := getPercentile_congr h _
  p99_9 := getPercentile_congr h _
  mean := mean_congr h
  printSummary := printSummary_congr h

/-! ### All statistics -/

/-- The statistics of the samples of `r`: `percentile` stays inside the list and is
monotone from the smallest to the largest sample, the getters and the summary agree,
and none of them depends on the order of the samples. -/
structure Statistics (r : LatencyRecorder) : Prop where
  perm : r.sorted.Perm r.samples_
  sorted : r.sorted.Pairwise (· ≤ ·)
  inBounds : ∀ p, 0 ≤ p → p ≤ 100 →
    ⌊index r.sorted p⌋₊ < r.sorted.length ∧ ⌈index r.sorted p⌉₊ < r.sorted.length
  mono : ∀ p q, 0 ≤ p → p ≤ q → q ≤ 100 →
    ∃ x y, percentile r.sorted p = some x ∧ percentile r.sorted q = some y ∧ x ≤ y
  zero : percentile r.sorted 0 = r.min
  hundred : percentile r.sorted 100 = r.max
  ordered : ∃ min p50 p90 p99 p99_9 max,
    (r.min = some min ∧ r.p50 = some p50 ∧ r.p90 = some p90 ∧ r.p99 = some p99 ∧ r.p99_9 = some p99_9 ∧
      r.max = some max) ∧
    r.printSummary =
      some (.statistics r.samples_.length min p50 p90 p99 p99_9 max (truncate r.mean)) ∧
    min ≤ p50 ∧ p50 ≤ p90 ∧ p90 ≤ p99 ∧ p99 ≤ p99_9 ∧ p99_9 ≤ max
  sameResults : ∀ r', r'.samples_.Perm r.samples_ → SameResults r' r

/-- The getters in their order, and the summary of their values. -/
theorem ordered_of_samples (h : r.samples_ ≠ []) : ∃ min p50 p90 p99 p99_9 max,
    (r.min = some min ∧ r.p50 = some p50 ∧ r.p90 = some p90 ∧ r.p99 = some p99 ∧ r.p99_9 = some p99_9 ∧
      r.max = some max) ∧
    r.printSummary =
      some (.statistics r.samples_.length min p50 p90 p99 p99_9 max (truncate r.mean)) ∧
    min ≤ p50 ∧ p50 ≤ p90 ∧ p90 ≤ p99 ∧ p99 ≤ p99_9 ∧ p99_9 ≤ max := by
  have hmono {p q : ℚ} {x y : UInt64} (h0 : 0 ≤ p) (hpq : p ≤ q) (h100 : q ≤ 100)
      (hx : percentile r.sorted p = some x) (hy : percentile r.sorted q = some y) : x ≤ y := by
    obtain ⟨x', y', hx', hy', hle⟩ := percentile_mono r.sorted_pairwise (sorted_ne_nil h) h0 hpq h100
    rwa [Option.some.inj (hx.symm.trans hx'), Option.some.inj (hy.symm.trans hy')]
  have hvalue {p : ℚ} (h100 : p ≤ 100) := percentile_eq (p := p) (sorted_ne_nil h) h100
  have h0 := hvalue (p := 0) (by norm_num)
  have h50 := hvalue (p := 50) (by norm_num)
  have h90 := hvalue (p := 90) (by norm_num)
  have h99 := hvalue (p := 99) (by norm_num)
  have h99_9 := hvalue (p := 999 / 10) (by norm_num)
  have h100 := hvalue (p := 100) le_rfl
  refine ⟨_, _, _, _, _, _, ⟨(min_eq h).trans h0, (getPercentile_eq h 50).trans h50,
    (getPercentile_eq h 90).trans h90, (getPercentile_eq h 99).trans h99,
    (getPercentile_eq h (999 / 10)).trans h99_9, (max_eq h).trans h100⟩, ?_,
    hmono (by norm_num) (by norm_num) (by norm_num) h0 h50,
    hmono (by norm_num) (by norm_num) (by norm_num) h50 h90,
    hmono (by norm_num) (by norm_num) (by norm_num) h90 h99,
    hmono (by norm_num) (by norm_num) (by norm_num) h99 h99_9,
    hmono (by norm_num) (by norm_num) (by norm_num) h99_9 h100⟩
  rw [printSummary, if_neg (by simpa using h), h0, h50, h90, h99, h99_9, h100]
  rfl

theorem statistics_of_samples (h : r.samples_ ≠ []) : r.Statistics where
  perm := r.sorted_perm
  sorted := r.sorted_pairwise
  inBounds _ _ h100 := ⟨lower_lt (sorted_ne_nil h) h100, upper_lt (sorted_ne_nil h) h100⟩
  mono _ _ h0 hpq h100 := percentile_mono r.sorted_pairwise (sorted_ne_nil h) h0 hpq h100
  zero := (min_eq h).symm
  hundred := (max_eq h).symm
  ordered := ordered_of_samples h
  sameResults _ := sameResults_of_perm

theorem statistics_twoSamples : (⟨[30, 10]⟩ : LatencyRecorder).Statistics := statistics_of_samples (by decide)

end LatencyLab.LatencyRecorder
