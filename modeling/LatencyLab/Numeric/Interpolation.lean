import Mathlib.Algebra.Order.Floor.Semiring
import Mathlib.Tactic.Linarith
import Mathlib.Tactic.Ring

/-! Linear interpolation between the values of a sequence. At a position between two
naturals the value lies on the line through the values there; at a natural it is the
value itself. Interpolating a monotone sequence gives a monotone function. -/

namespace LatencyLab.Interpolation

variable {K : Type*} [CommRing K] [LinearOrder K] [IsStrictOrderedRing K] [FloorSemiring K]
variable {f : ℕ → K} {x y : K} {N : ℕ}

/-- The sequence `f` at a position between naturals. -/
def interpolate (f : ℕ → K) (x : K) : K := f ⌊x⌋₊ * (1 - (x - ⌊x⌋₊)) + f ⌈x⌉₊ * (x - ⌊x⌋₊)

omit [IsStrictOrderedRing K] in
/-- From the lower value towards the upper one. -/
theorem interpolate_eq (f : ℕ → K) (x : K) :
    interpolate f x = f ⌊x⌋₊ + (f ⌈x⌉₊ - f ⌊x⌋₊) * (x - ⌊x⌋₊) := by
  rw [interpolate]
  ring

omit [IsStrictOrderedRing K] in
/-- At a joint of two segments. -/
theorem interpolate_joint (h : ⌊x⌋₊ = ⌈x⌉₊) : interpolate f x = f ⌊x⌋₊ := by
  rw [interpolate_eq, ← h, sub_self, zero_mul, add_zero]

theorem interpolate_natCast (f : ℕ → K) (n : ℕ) : interpolate f n = f n := by
  rw [interpolate_joint (by rw [Nat.floor_natCast, Nat.ceil_natCast]), Nat.floor_natCast]

section Bounds

variable (hf : ∀ i j, i ≤ j → j ≤ N → f i ≤ f j) (hx : 0 ≤ x)

include hx in
theorem fraction_nonneg : 0 ≤ x - ⌊x⌋₊ := sub_nonneg.mpr (Nat.floor_le hx)

theorem fraction_le_one : x - ⌊x⌋₊ ≤ 1 := by
  have hlt := Nat.lt_floor_add_one x
  linarith

include hf in
theorem rise_nonneg (hN : ⌈x⌉₊ ≤ N) : 0 ≤ f ⌈x⌉₊ - f ⌊x⌋₊ :=
  sub_nonneg.mpr (hf _ _ (Nat.floor_le_ceil x) hN)

include hf hx in
theorem le_interpolate (hN : ⌈x⌉₊ ≤ N) : f ⌊x⌋₊ ≤ interpolate f x := by
  rw [interpolate_eq]
  exact le_add_of_nonneg_right (mul_nonneg (rise_nonneg hf hN) (fraction_nonneg hx))

include hf in
theorem interpolate_le (hN : ⌈x⌉₊ ≤ N) : interpolate f x ≤ f ⌈x⌉₊ := by
  have hmul := mul_le_mul_of_nonneg_left (fraction_le_one (x := x)) (rise_nonneg hf hN)
  rw [interpolate_eq]
  linarith

include hx in
/-- Between two greater values lies a greater one. -/
theorem interpolate_le_interpolate {g : ℕ → K} (hfloor : f ⌊x⌋₊ ≤ g ⌊x⌋₊) (hceil : f ⌈x⌉₊ ≤ g ⌈x⌉₊) :
    interpolate f x ≤ interpolate g x := by
  have hleft : 0 ≤ 1 - (x - ⌊x⌋₊) := sub_nonneg.mpr fraction_le_one
  exact add_le_add (mul_le_mul_of_nonneg_right hfloor hleft)
    (mul_le_mul_of_nonneg_right hceil (fraction_nonneg hx))

omit [IsStrictOrderedRing K] in
/-- Two positions on one segment. -/
theorem ceil_eq_of_floor_eq (hxy : x ≤ y) (hfloor : ⌊x⌋₊ = ⌊y⌋₊) (hlt : (⌊x⌋₊ : K) < x) : ⌈x⌉₊ = ⌈y⌉₊ := by
  have hup : ∀ z : K, ⌊x⌋₊ = ⌊z⌋₊ → (⌊x⌋₊ : K) < z → ⌈z⌉₊ = ⌊x⌋₊ + 1 := by
    intro z hz hltz
    refine le_antisymm ?_ (Nat.lt_ceil.mpr hltz)
    rw [hz]
    exact Nat.ceil_le_floor_add_one z
  rw [hup x rfl hlt, hup y hfloor (hlt.trans_le hxy)]

include hf hx in
/-- Interpolation is monotone: on one segment its slope is not negative, and between
two segments lie values of the sequence. -/
theorem interpolate_mono (hxy : x ≤ y) (hN : ⌈y⌉₊ ≤ N) : interpolate f x ≤ interpolate f y := by
  have hxN : ⌈x⌉₊ ≤ N := (Nat.ceil_mono hxy).trans hN
  rcases Nat.lt_or_eq_of_le (Nat.floor_mono hxy) with hlt | heq
  · calc interpolate f x ≤ f ⌈x⌉₊ := interpolate_le hf hxN
      _ ≤ f ⌊y⌋₊ := hf _ _ ((Nat.ceil_le_floor_add_one x).trans hlt) ((Nat.floor_le_ceil y).trans hN)
      _ ≤ interpolate f y := le_interpolate hf (hx.trans hxy) hN
  · rcases (Nat.floor_le hx).lt_or_eq with hinside | hjoint
    · have hceil := ceil_eq_of_floor_eq hxy heq hinside
      rw [interpolate_eq, interpolate_eq, ← heq, ← hceil]
      have hmul := mul_le_mul_of_nonneg_left (sub_le_sub_right hxy (⌊x⌋₊ : K)) (rise_nonneg hf hxN)
      linarith
    · have hvalue : interpolate f x = f ⌊x⌋₊ := by
        rw [← hjoint, interpolate_natCast, Nat.floor_natCast]
      rw [hvalue, heq]
      exact le_interpolate hf (hx.trans hxy) hN

end Bounds

end LatencyLab.Interpolation
