import LatencyLab.Numeric.Interpolation
import Mathlib.Data.Rat.Floor

/-! `LatencyRecorder`: the samples, and statistics that each getter computes from a
sorted copy of its own. The `double` arithmetic of `percentile` and `mean` is read as
exact rational arithmetic. A result is `none` where an index would be outside the
sorted list. -/

namespace LatencyLab

structure LatencyRecorder where
  samples_ : List UInt64
  deriving DecidableEq

/-- What `print_summary` prints, the durations as they are before formatting. -/
inductive Printed
  | noSamples
  | statistics (samples : ℕ) (min p50 p90 p99 p99_9 max mean : UInt64)
  deriving DecidableEq

namespace LatencyRecorder

def empty : LatencyRecorder := ⟨[]⟩

def record (r : LatencyRecorder) (latencyNs : UInt64) : LatencyRecorder := ⟨r.samples_ ++ [latencyNs]⟩

def count (r : LatencyRecorder) : UInt64 := UInt64.ofNat r.samples_.length

/-- The copy after `std::sort`. -/
def sorted (r : LatencyRecorder) : List UInt64 := r.samples_.mergeSort

/-- `(p / 100.0) * (sorted.size() - 1)`. -/
def index (sorted : List UInt64) (p : ℚ) : ℚ := p / 100 * ((sorted.length - 1 : ℕ) : ℚ)

/-- `static_cast<std::uint64_t>` of a value that is not negative. -/
def truncate (x : ℚ) : UInt64 := UInt64.ofNat ⌊x⌋₊

def percentile (sorted : List UInt64) (p : ℚ) : Option UInt64 :=
  if sorted.isEmpty then some 0
  else
    let index := index sorted p
    let lower := ⌊index⌋₊
    let upper := ⌈index⌉₊
    if lower = upper then sorted[lower]?
    else
      let fraction := index - lower
      match sorted[lower]?, sorted[upper]? with
      | some low, some high => some (truncate (low.toNat * (1 - fraction) + high.toNat * fraction))
      | _, _ => none

def min (r : LatencyRecorder) : Option UInt64 := if r.samples_.isEmpty then some 0 else r.sorted.head?

def max (r : LatencyRecorder) : Option UInt64 := if r.samples_.isEmpty then some 0 else r.sorted.getLast?

/-- `std::accumulate` from `0ULL`, over the number of samples. -/
def mean (r : LatencyRecorder) : ℚ :=
  if r.samples_.isEmpty then 0
  else ((r.samples_.foldl (· + ·) 0).toNat : ℚ) / r.samples_.length

/-- What the percentile getters have in common: each sorts a copy of its own. -/
def getPercentile (r : LatencyRecorder) (p : ℚ) : Option UInt64 :=
  if r.samples_.isEmpty then some 0 else percentile r.sorted p

def p50 (r : LatencyRecorder) : Option UInt64 := r.getPercentile 50
def p90 (r : LatencyRecorder) : Option UInt64 := r.getPercentile 90
def p99 (r : LatencyRecorder) : Option UInt64 := r.getPercentile 99
def p99_9 (r : LatencyRecorder) : Option UInt64 := r.getPercentile (999 / 10)

def printSummary (r : LatencyRecorder) : Option Printed :=
  if r.samples_.isEmpty then some .noSamples
  else do
    let min ← percentile r.sorted 0
    let p50 ← percentile r.sorted 50
    let p90 ← percentile r.sorted 90
    let p99 ← percentile r.sorted 99
    let p99_9 ← percentile r.sorted (999 / 10)
    let max ← percentile r.sorted 100
    return .statistics r.samples_.length min p50 p90 p99 p99_9 max (truncate r.mean)

end LatencyRecorder

end LatencyLab
