import LatencyLab.Metrics.Percentiles
import LatencyLab.Numeric.OrderStatistics

/-! What the statistics say about the samples themselves. A percentile lies between two
neighbours of the sorted copy, so it splits the samples in the proportion it is asked
for. And better samples have better statistics: where the samples of one recorder can
be paired with those of another so that none is greater than its partner, no statistic
is greater, the mean as long as the sum does not wrap. -/

namespace LatencyLab.LatencyRecorder

open Interpolation OrderStatistics

variable {r r' : LatencyRecorder} {sorted : List UInt64} {p : ℚ} {v : UInt64}

/-! ### Between two samples -/

theorem le_truncate {x : ℚ} {low : UInt64} (hlt : x < 2 ^ 64) (h : (low.toNat : ℚ) ≤ x) : low ≤ truncate x := by
  have h0 : 0 ≤ x := (Nat.cast_nonneg _).trans h
  rw [UInt64.le_iff_toNat_le, toNat_truncate h0 hlt]
  exact Nat.le_floor h

theorem truncate_le {x : ℚ} {high : UInt64} (h0 : 0 ≤ x) (h : x ≤ high.toNat) : truncate x ≤ high := by
  have hlt : x < 2 ^ 64 := h.trans_lt (by exact_mod_cast high.toNat_lt)
  rw [UInt64.le_iff_toNat_le, toNat_truncate h0 hlt]
  exact Nat.floor_le_of_le h

/-- The samples on either side of the position, and the value between them. -/
theorem percentile_between (hs : sorted.Pairwise (· ≤ ·)) (hne : sorted ≠ []) (h0 : 0 ≤ p) (h100 : p ≤ 100) :
    ∃ low high v, sorted[⌊index sorted p⌋₊]? = some low ∧ sorted[⌈index sorted p⌉₊]? = some high ∧
      percentile sorted p = some v ∧ low ≤ v ∧ v ≤ high := by
  have hlow := List.getElem?_eq_getElem (lower_lt hne h100)
  have hhigh := List.getElem?_eq_getElem (upper_lt hne h100)
  obtain ⟨hnonneg, hlt⟩ := interpolate_level hs h0 h100
  refine ⟨_, _, _, hlow, hhigh, percentile_eq hne h100, le_truncate hlt ?_, truncate_le hnonneg ?_⟩
  · rw [← level_of_getElem? hlow]
    exact le_interpolate (level_mono hs) (index_nonneg h0) (upper_le h100)
  · rw [← level_of_getElem? hhigh]
    exact interpolate_le (level_mono hs) (upper_le h100)

/-! ### Quantiles -/

/-- `v` splits the samples at `p` percent: more than that part of the distances between
neighbours lies up to `v`, and more than the rest from `v` on. -/
structure Quantile (samples : List UInt64) (p : ℚ) (v : UInt64) : Prop where
  below : p * (samples.length - 1 : ℕ) < 100 * rank samples v
  above : (100 - p) * (samples.length - 1 : ℕ) < 100 * corank samples v

theorem Quantile.perm {samples samples' : List UInt64} (h : samples.Perm samples') (hq : Quantile samples p v) :
    Quantile samples' p v where
  below := by
    rw [← h.length_eq, ← rank_congr h]
    exact hq.below
  above := by
    rw [← h.length_eq, ← corank_congr h]
    exact hq.above

theorem quantile_sorted (hs : sorted.Pairwise (· ≤ ·)) (hne : sorted ≠ []) (h0 : 0 ≤ p) (h100 : p ≤ 100) :
    ∃ v, percentile sorted p = some v ∧ Quantile sorted p v := by
  obtain ⟨low, high, v, hlow, hhigh, hv, hle, hge⟩ := percentile_between hs hne h0 h100
  have hindex : 100 * index sorted p = p * (sorted.length - 1 : ℕ) := by
    rw [index]
    ring
  have hpos := List.length_pos_iff.mpr hne
  refine ⟨v, hv, ?_, ?_⟩
  · have hrank : ⌊index sorted p⌋₊ + 1 ≤ rank sorted v := (lt_rank_iff hs hlow).mpr hle
    have hcast : ((⌊index sorted p⌋₊ + 1 : ℕ) : ℚ) ≤ rank sorted v := by exact_mod_cast hrank
    push_cast at hcast
    have hlt := Nat.lt_floor_add_one (index sorted p)
    linarith
  · have hcorank : sorted.length - 1 + 1 ≤ ⌈index sorted p⌉₊ + corank sorted v := by
      have h := (length_le_corank_iff hs hhigh).mpr hge
      omega
    have hcast : ((sorted.length - 1 : ℕ) : ℚ) + 1 ≤ ⌈index sorted p⌉₊ + corank sorted v := by
      exact_mod_cast hcorank
    have hnonneg : 0 ≤ index sorted p := index_nonneg h0
    have hlt := Nat.ceil_lt_add_one hnonneg
    linarith

theorem quantile_percentile (h : r.samples_ ≠ []) (h0 : 0 ≤ p) (h100 : p ≤ 100) :
    ∃ v, percentile r.sorted p = some v ∧ Quantile r.samples_ p v := by
  obtain ⟨v, hv, hq⟩ := quantile_sorted r.sorted_pairwise (sorted_ne_nil h) h0 h100
  exact ⟨v, hv, hq.perm r.sorted_perm⟩

/-- Every getter returns a value that splits the samples in its proportion. -/
structure Quantiles (r : LatencyRecorder) : Prop where
  percentile : ∀ p, 0 ≤ p → p ≤ 100 → ∃ v, LatencyRecorder.percentile r.sorted p = some v ∧ Quantile r.samples_ p v
  min : ∃ v, r.min = some v ∧ Quantile r.samples_ 0 v
  p50 : ∃ v, r.p50 = some v ∧ Quantile r.samples_ 50 v
  p90 : ∃ v, r.p90 = some v ∧ Quantile r.samples_ 90 v
  p99 : ∃ v, r.p99 = some v ∧ Quantile r.samples_ 99 v
  p99_9 : ∃ v, r.p99_9 = some v ∧ Quantile r.samples_ (999 / 10) v
  max : ∃ v, r.max = some v ∧ Quantile r.samples_ 100 v

theorem quantiles_of_samples (h : r.samples_ ≠ []) : r.Quantiles where
  percentile _ := quantile_percentile h
  min := by
    rw [min_eq h]
    exact quantile_percentile h le_rfl (by norm_num)
  p50 := by
    rw [p50, getPercentile_eq h]
    exact quantile_percentile h (by norm_num) (by norm_num)
  p90 := by
    rw [p90, getPercentile_eq h]
    exact quantile_percentile h (by norm_num) (by norm_num)
  p99 := by
    rw [p99, getPercentile_eq h]
    exact quantile_percentile h (by norm_num) (by norm_num)
  p99_9 := by
    rw [p99_9, getPercentile_eq h]
    exact quantile_percentile h (by norm_num) (by norm_num)
  max := by
    rw [max_eq h]
    exact quantile_percentile h (by norm_num) le_rfl

theorem quantiles_threeSamples : (⟨[30, 10, 20]⟩ : LatencyRecorder).Quantiles := quantiles_of_samples (by decide)

/-! ### Without samples

Every getter returns 0 then, which is also what `percentile` returns for no samples. -/

theorem percentile_of_empty (h : r.samples_ = []) (p : ℚ) : percentile r.sorted p = some 0 := by
  rw [sorted, h, List.mergeSort_nil]
  rfl

theorem min_eq_percentile (r : LatencyRecorder) : r.min = percentile r.sorted 0 := by
  by_cases h : r.samples_ = []
  · rw [percentile_of_empty h, min, h, List.isEmpty_nil, if_pos rfl]
  · exact min_eq h

theorem max_eq_percentile (r : LatencyRecorder) : r.max = percentile r.sorted 100 := by
  by_cases h : r.samples_ = []
  · rw [percentile_of_empty h, max, h, List.isEmpty_nil, if_pos rfl]
  · exact max_eq h

theorem getPercentile_eq_percentile (r : LatencyRecorder) (p : ℚ) : r.getPercentile p = percentile r.sorted p := by
  by_cases h : r.samples_ = []
  · rw [percentile_of_empty h, getPercentile, h, List.isEmpty_nil, if_pos rfl]
  · exact getPercentile_eq h p

/-! ### Better samples -/

/-- The samples of `r` can be paired with those of `r'` so that none is greater. -/
def Improves (r r' : LatencyRecorder) : Prop :=
  ∃ paired, paired.Perm r.samples_ ∧ List.Forall₂ (· ≤ ·) paired r'.samples_

namespace Improves

theorem length_eq (h : Improves r r') : r.samples_.length = r'.samples_.length := by
  obtain ⟨paired, hperm, hle⟩ := h
  rw [← hperm.length_eq, hle.length_eq]

theorem length_sorted (h : Improves r r') : r.sorted.length = r'.sorted.length := by
  rw [r.sorted_perm.length_eq, r'.sorted_perm.length_eq, h.length_eq]

theorem ne_nil (h : Improves r r') (hne : r.samples_ ≠ []) : r'.samples_ ≠ [] := by
  rwa [← List.length_pos_iff, ← h.length_eq, List.length_pos_iff]

theorem eq_nil (h : Improves r r') (hnil : r.samples_ = []) : r'.samples_ = [] := by
  rw [← List.length_eq_zero_iff, ← h.length_eq, hnil, List.length_nil]

theorem level_le (h : Improves r r') {k : ℕ} (hk : k < r.sorted.length) : level r.sorted k ≤ level r'.sorted k := by
  obtain ⟨paired, hperm, hle⟩ := id h
  have hx := List.getElem?_eq_getElem hk
  have hy := List.getElem?_eq_getElem (h.length_sorted ▸ hk : k < r'.sorted.length)
  have hxy := sorted_le hle (r.sorted_perm.trans hperm.symm) r'.sorted_perm r.sorted_pairwise r'.sorted_pairwise
    hx hy
  rw [level_of_getElem? hx, level_of_getElem? hy]
  exact_mod_cast UInt64.le_iff_toNat_le.mp hxy

theorem percentile_le_of_samples (h : Improves r r') (hne : r.samples_ ≠ []) (h0 : 0 ≤ p) (h100 : p ≤ 100) :
    ∃ v v', percentile r.sorted p = some v ∧ percentile r'.sorted p = some v' ∧ v ≤ v' := by
  have hindex : index r'.sorted p = index r.sorted p := by rw [index, index, h.length_sorted]
  have hvalue : interpolate (level r.sorted) (index r.sorted p) ≤
      interpolate (level r'.sorted) (index r'.sorted p) := by
    rw [hindex]
    exact interpolate_le_interpolate (index_nonneg h0) (h.level_le (lower_lt (sorted_ne_nil hne) h100))
      (h.level_le (upper_lt (sorted_ne_nil hne) h100))
  obtain ⟨hnonneg, hlt⟩ := interpolate_level r.sorted_pairwise h0 h100
  obtain ⟨hnonneg', hlt'⟩ := interpolate_level r'.sorted_pairwise h0 h100
  refine ⟨_, _, percentile_eq (sorted_ne_nil hne) h100, percentile_eq (sorted_ne_nil (h.ne_nil hne)) h100, ?_⟩
  rw [UInt64.le_iff_toNat_le, toNat_truncate hnonneg hlt, toNat_truncate hnonneg' hlt']
  exact Nat.floor_mono hvalue

theorem percentile_le (h : Improves r r') (h0 : 0 ≤ p) (h100 : p ≤ 100) :
    ∃ v v', percentile r.sorted p = some v ∧ percentile r'.sorted p = some v' ∧ v ≤ v' := by
  by_cases hne : r.samples_ = []
  · exact ⟨0, 0, percentile_of_empty hne p, percentile_of_empty (h.eq_nil hne) p, UInt64.le_refl 0⟩
  · exact h.percentile_le_of_samples hne h0 h100

end Improves

/-! The sum. -/

/-- The exact sum of the samples. -/
def total (samples : List UInt64) : ℕ := (samples.map UInt64.toNat).sum

theorem toNat_foldl_add (samples : List UInt64) (x : UInt64) :
    (samples.foldl (· + ·) x).toNat = (x.toNat + total samples) % 2 ^ 64 := by
  induction samples generalizing x with
  | nil => exact (Nat.mod_eq_of_lt x.toNat_lt).symm
  | cons y samples ih =>
    rw [List.foldl_cons, ih, UInt64.toNat_add, total, total, List.map_cons, List.sum_cons, Nat.mod_add_mod,
      Nat.add_assoc]

theorem mean_eq (h : total r.samples_ < 2 ^ 64) : r.mean = total r.samples_ / r.samples_.length := by
  rw [mean]
  split_ifs with hempty
  · rw [List.isEmpty_iff.mp hempty]
    norm_num [total]
  · rw [toNat_foldl_add, UInt64.toNat_zero, Nat.zero_add, Nat.mod_eq_of_lt h]

theorem Improves.total_le (h : Improves r r') : total r.samples_ ≤ total r'.samples_ := by
  obtain ⟨paired, hperm, hle⟩ := h
  have hsum : ∀ {l l' : List UInt64}, List.Forall₂ (· ≤ ·) l l' → total l ≤ total l' := by
    intro l l' hll
    induction hll with
    | nil => exact le_rfl
    | cons hab _ ih => exact Nat.add_le_add (UInt64.le_iff_toNat_le.mp hab) ih
  calc total r.samples_ = total paired := ((hperm.map UInt64.toNat).sum_eq).symm
    _ ≤ total r'.samples_ := hsum hle

/-- What improving every sample does to the statistics. -/
structure NoneGreater (r r' : LatencyRecorder) : Prop where
  percentile : ∀ p, 0 ≤ p → p ≤ 100 → ∃ v v', LatencyRecorder.percentile r.sorted p = some v ∧
    LatencyRecorder.percentile r'.sorted p = some v' ∧ v ≤ v'
  min : ∃ v v', r.min = some v ∧ r'.min = some v' ∧ v ≤ v'
  p50 : ∃ v v', r.p50 = some v ∧ r'.p50 = some v' ∧ v ≤ v'
  p90 : ∃ v v', r.p90 = some v ∧ r'.p90 = some v' ∧ v ≤ v'
  p99 : ∃ v v', r.p99 = some v ∧ r'.p99 = some v' ∧ v ≤ v'
  p99_9 : ∃ v v', r.p99_9 = some v ∧ r'.p99_9 = some v' ∧ v ≤ v'
  max : ∃ v v', r.max = some v ∧ r'.max = some v' ∧ v ≤ v'
  mean : total r'.samples_ < 2 ^ 64 → r.mean ≤ r'.mean

theorem noneGreater_of_improves (h : Improves r r') : NoneGreater r r' where
  percentile _ := h.percentile_le
  min := by
    rw [min_eq_percentile, min_eq_percentile]
    exact h.percentile_le le_rfl (by norm_num)
  p50 := by
    rw [p50, p50, getPercentile_eq_percentile, getPercentile_eq_percentile]
    exact h.percentile_le (by norm_num) (by norm_num)
  p90 := by
    rw [p90, p90, getPercentile_eq_percentile, getPercentile_eq_percentile]
    exact h.percentile_le (by norm_num) (by norm_num)
  p99 := by
    rw [p99, p99, getPercentile_eq_percentile, getPercentile_eq_percentile]
    exact h.percentile_le (by norm_num) (by norm_num)
  p99_9 := by
    rw [p99_9, p99_9, getPercentile_eq_percentile, getPercentile_eq_percentile]
    exact h.percentile_le (by norm_num) (by norm_num)
  max := by
    rw [max_eq_percentile, max_eq_percentile]
    exact h.percentile_le (by norm_num) le_rfl
  mean hsum := by
    rw [mean_eq (h.total_le.trans_lt hsum), mean_eq hsum, h.length_eq]
    have hle : (total r.samples_ : ℚ) ≤ total r'.samples_ := by exact_mod_cast h.total_le
    gcongr

/-- Three samples, paired out of order. -/
theorem noneGreater_threeSamples : NoneGreater ⟨[30, 10, 20]⟩ ⟨[15, 35, 20]⟩ :=
  noneGreater_of_improves ⟨[10, 30, 20], by decide, by simp⟩

end LatencyLab.LatencyRecorder
