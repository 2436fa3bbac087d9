import Mathlib.Data.Nat.ModEq
import Mathlib.Data.ZMod.Basic
import Mathlib.Dynamics.PeriodicPts.Lemmas
import Mathlib.Logic.Function.Iterate
import Mathlib.Tactic.Ring

/-! Linear congruential sequences `x ↦ a x + c` modulo a power of two, with `a` one
above a multiple of four and `c` odd. After `2 ^ k` steps the sequence has moved by an
odd multiple of `2 ^ k`, so bit `k` has changed its value, whatever it started from.
The sequence itself is taken over the naturals; a register that wraps at a modulus
follows it up to that modulus. -/

namespace LatencyLab.Congruential

/-! ### Steps -/

/-- One step of the sequence. -/
def advance (a c x : ℕ) : ℕ := a * x + c

theorem advance_advance (a c b d x : ℕ) : advance a c (advance b d x) = advance (a * b) (a * d + c) x := by
  unfold advance
  ring

theorem advance_modEq (a c : ℕ) {m x y : ℕ} (h : x ≡ y [MOD m]) : advance a c x ≡ advance a c y [MOD m] :=
  (h.mul_left a).add_right c

/-- A register with value `v` that takes its steps modulo `m`. -/
theorem iterate_modEq {α : Type*} {v : α → ℕ} {f : α → α} {a c m : ℕ}
    (hf : ∀ s, v (f s) ≡ advance a c (v s) [MOD m]) (n : ℕ) (s : α) :
    v (f^[n] s) ≡ (advance a c)^[n] (v s) [MOD m] := by
  induction n with
  | zero => rfl
  | succ n ih =>
    rw [Function.iterate_succ_apply', Function.iterate_succ_apply']
    exact (hf _).trans (advance_modEq a c ih)

section PowersOfTwo

variable {a c : ℕ} (ha : a % 4 = 1) (hc : c % 2 = 1)

include ha hc in
/-- Doubling the number of steps squares the multiplier and doubles the offset, up to
an odd factor. -/
theorem iterate_two_pow (k : ℕ) :
    ∃ b d, (advance a c)^[2 ^ k] = advance (2 ^ (k + 2) * b + 1) (2 ^ k * (2 * d + 1)) := by
  induction k with
  | zero =>
    refine ⟨a / 4, c / 2, ?_⟩
    have hmul : 2 ^ (0 + 2) * (a / 4) + 1 = a := by omega
    have hadd : 2 ^ 0 * (2 * (c / 2) + 1) = c := by omega
    rw [hmul, hadd, pow_zero, Function.iterate_one]
  | succ k ih =>
    obtain ⟨b, d, h⟩ := ih
    refine ⟨b + 2 ^ (k + 1) * b ^ 2, d + 2 ^ k * b * (2 * d + 1), ?_⟩
    funext x
    rw [pow_succ, mul_two, Function.iterate_add_apply, h, advance_advance]
    congr 1 <;> ring

include ha hc in
theorem iterate_two_pow_modEq (k x : ℕ) : (advance a c)^[2 ^ k] x ≡ 2 ^ k + x [MOD 2 ^ (k + 1)] := by
  obtain ⟨b, d, h⟩ := iterate_two_pow ha hc k
  have hsum : (advance a c)^[2 ^ k] x = 2 ^ k + x + 2 ^ (k + 1) * (2 * b * x + d) := by
    rw [h, advance]
    ring
  rw [hsum]
  exact Nat.add_mul_mod_self_left _ _ _

end PowersOfTwo

/-! ### Bits -/

/-- A bit below the modulus is the same in congruent numbers. -/
theorem testBit_congr {x y k n : ℕ} (h : x ≡ y [MOD 2 ^ n]) (hk : k < n) : x.testBit k = y.testBit k := by
  have hmod : ∀ z : ℕ, (z % 2 ^ n).testBit k = z.testBit k := by
    intro z
    rw [Nat.testBit_mod_two_pow, decide_eq_true hk, Bool.true_and]
  rw [← hmod x, ← hmod y, h]

/-- After `2 ^ k` steps bit `k` has changed. -/
theorem testBit_iterate_two_pow {a c : ℕ} (ha : a % 4 = 1) (hc : c % 2 = 1) (k x : ℕ) :
    ((advance a c)^[2 ^ k] x).testBit k = !x.testBit k := by
  rw [testBit_congr (iterate_two_pow_modEq ha hc k x) (Nat.lt_succ_self k), Nat.testBit_two_pow_add_eq]

/-! ### Cycles -/

section Cycles

variable {a c : ℕ} (ha : a % 4 = 1) (hc : c % 2 = 1)

theorem iterate_cast (a c m n x : ℕ) :
    (fun z : ZMod m => a * z + c)^[n] x = (((advance a c)^[n] x : ℕ) : ZMod m) := by
  induction n with
  | zero => rfl
  | succ n ih =>
    rw [Function.iterate_succ_apply', Function.iterate_succ_apply', ih, advance]
    push_cast
    rfl

include ha hc in
/-- Modulo `2 ^ n` the sequence runs through all residues before it repeats. -/
theorem minimalPeriod_residue (n x : ℕ) :
    Function.minimalPeriod (fun z : ZMod (2 ^ n) => a * z + c) x = 2 ^ n := by
  cases n with
  | zero =>
    have : Subsingleton (ZMod (2 ^ 0)) := inferInstanceAs (Subsingleton (Fin 1))
    exact Function.minimalPeriod_eq_one_of_subsingleton
  | succ k =>
    apply Function.minimalPeriod_eq_prime_pow
    · intro h
      rw [Function.IsPeriodicPt, Function.IsFixedPt, iterate_cast, ZMod.natCast_eq_natCast_iff] at h
      -- after `2 ^ k` steps bit `k` has changed
      have hbit := testBit_congr h (Nat.lt_succ_self k)
      rw [testBit_iterate_two_pow ha hc] at hbit
      exact Bool.not_ne_self _ hbit
    · rw [Function.IsPeriodicPt, Function.IsFixedPt, iterate_cast, ZMod.natCast_eq_natCast_iff]
      have h := (iterate_two_pow_modEq ha hc (k + 1) x).of_dvd (pow_dvd_pow 2 (Nat.le_succ (k + 1)))
      exact h.trans (Nat.add_mod_left _ _)

include ha hc in
/-- Two positions hold congruent values exactly when they are congruent themselves. -/
theorem iterate_modEq_iff (n i j x : ℕ) :
    (advance a c)^[i] x ≡ (advance a c)^[j] x [MOD 2 ^ n] ↔ i ≡ j [MOD 2 ^ n] := by
  have hperiod := minimalPeriod_residue ha hc n x
  have hmod : ∀ k, k % 2 ^ n < Function.minimalPeriod (fun z : ZMod (2 ^ n) => a * z + c) x := by
    intro k
    rw [hperiod]
    exact Nat.mod_lt _ (Nat.two_pow_pos n)
  rw [← ZMod.natCast_eq_natCast_iff, ← iterate_cast, ← iterate_cast,
    ← Function.iterate_mod_minimalPeriod_eq, hperiod, ← Function.iterate_mod_minimalPeriod_eq (n := j), hperiod,
    Function.iterate_eq_iterate_iff_of_lt_minimalPeriod (hmod i) (hmod j)]
  rfl

/-! A register of `n` bits. -/

section Register

variable {α : Type*} {v : α → ℕ} {f : α → α} {n k : ℕ}
  (hf : ∀ s, v (f s) ≡ advance a c (v s) [MOD 2 ^ n]) (hlt : ∀ s, v s < 2 ^ n) (hinj : Function.Injective v)

include ha hc hf in
/-- The low `k` bits of a register repeat after `2 ^ k` steps, and not before. -/
theorem register_modEq_iff (hk : k ≤ n) (s : α) (i j : ℕ) :
    v (f^[i] s) ≡ v (f^[j] s) [MOD 2 ^ k] ↔ i ≡ j [MOD 2 ^ k] := by
  have hlow : ∀ i, v (f^[i] s) ≡ (advance a c)^[i] (v s) [MOD 2 ^ k] := fun i =>
    (iterate_modEq hf i s).of_dvd (pow_dvd_pow 2 hk)
  rw [← iterate_modEq_iff ha hc k i j (v s)]
  exact ⟨fun h => ((hlow i).symm.trans h).trans (hlow j), fun h => ((hlow i).trans h).trans (hlow j).symm⟩

include ha hc hf hlt hinj

theorem register_eq_iff (s : α) (i j : ℕ) : f^[i] s = f^[j] s ↔ i ≡ j [MOD 2 ^ n] := by
  rw [← register_modEq_iff ha hc hf le_rfl s]
  constructor
  · intro h
    rw [h]
  · intro h
    exact hinj (h.eq_of_lt_of_lt (hlt _) (hlt _))

/-- A register runs through all its values. -/
theorem exists_iterate_eq (s t : α) : ∃ i < 2 ^ n, f^[i] s = t := by
  have hmem : v t ∈ (Finset.range (2 ^ n)).image fun i => v (f^[i] s) := by
    have hsub : (Finset.range (2 ^ n)).image (fun i => v (f^[i] s)) ⊆ Finset.range (2 ^ n) := by
      intro x hx
      obtain ⟨i, -, rfl⟩ := Finset.mem_image.mp hx
      exact Finset.mem_range.mpr (hlt _)
    have hcard : ((Finset.range (2 ^ n)).image fun i => v (f^[i] s)).card = (Finset.range (2 ^ n)).card := by
      apply Finset.card_image_of_injOn
      intro i hi j hj h
      have hmod := (register_eq_iff ha hc hf hlt hinj s i j).mp (hinj h)
      exact hmod.eq_of_lt_of_lt (Finset.mem_range.mp hi) (Finset.mem_range.mp hj)
    rw [Finset.eq_of_subset_of_card_le hsub hcard.ge]
    exact Finset.mem_range.mpr (hlt t)
  obtain ⟨i, hi, heq⟩ := Finset.mem_image.mp hmem
  exact ⟨i, Finset.mem_range.mp hi, hinj heq⟩

/-- In strides of `2 ^ k` steps it runs through the values that agree with the first on
the low `k` bits, each once in `2 ^ m` strides. -/
theorem existsUnique_stride {m : ℕ} (hn : n = k + m) (s t : α) :
    (∃! i, i < 2 ^ m ∧ f^[2 ^ k * i] s = t) ↔ v t ≡ v s [MOD 2 ^ k] := by
  have hk : k ≤ n := by omega
  have hpow : 2 ^ n = 2 ^ k * 2 ^ m := by rw [hn, pow_add]
  constructor
  · rintro ⟨i, ⟨-, rfl⟩, -⟩
    have h := (register_modEq_iff ha hc hf hk s (2 ^ k * i) 0).mpr (Nat.mul_mod_right _ _)
    exact h
  · intro h
    obtain ⟨i, hi, rfl⟩ := exists_iterate_eq ha hc hf hlt hinj s t
    obtain ⟨j, rfl⟩ := (Nat.modEq_zero_iff_dvd.mp ((register_modEq_iff ha hc hf hk s i 0).mp h))
    have hj : j < 2 ^ m := by
      rw [hpow] at hi
      exact Nat.lt_of_mul_lt_mul_left hi
    refine ⟨j, ⟨hj, rfl⟩, ?_⟩
    rintro i ⟨hi', heq⟩
    have hmod := (register_eq_iff ha hc hf hlt hinj s _ _).mp heq
    rw [hpow] at hmod
    exact (Nat.ModEq.mul_left_cancel' (Nat.two_pow_pos k).ne' hmod).eq_of_lt_of_lt hi' hj

end Register

end Cycles

/-! ### Sequences that change after every `n` positions -/

section Alternating

variable {ι : Type*} {s : ℕ → Bool} {n : ℕ}

theorem count_add_count_not (l : List ι) (s : ι → Bool) (b : Bool) :
    (l.map s).count b + (l.map fun i => !s i).count b = l.length := by
  induction l with
  | nil => rfl
  | cons i l ih =>
    rw [List.map_cons, List.map_cons, List.count_cons, List.count_cons, List.length_cons]
    cases s i <;> cases b <;> simp <;> omega

variable (h : ∀ i, s (i + n) = !s i)

include h in
theorem repeats (i : ℕ) : s (i + 2 * n) = s i := by
  rw [two_mul, ← add_assoc, h, h, Bool.not_not]

include h in
/-- In a window of two such stretches each value stands `n` times. -/
theorem count_window (i : ℕ) (b : Bool) : ((List.range (2 * n)).map fun j => s (i + j)).count b = n := by
  have hlater : ((fun j => s (i + j)) ∘ fun j => n + j) = fun j => !s (i + j) := by
    funext j
    rw [← h, Function.comp_apply, add_assoc, add_comm j n]
  rw [two_mul, List.range_add, List.map_append, List.map_map, List.count_append, hlater,
    count_add_count_not, List.length_range]

end Alternating

/-- A window of a sequence. -/
theorem window {α : Type*} (s : ℕ → α) {i w N : ℕ} (hi : i + w ≤ N) :
    (((List.range N).map s).drop i).take w = (List.range w).map fun j => s (i + j) := by
  apply List.ext_getElem
  · simp only [List.length_take, List.length_drop, List.length_map, List.length_range]
    omega
  · intro j hj hj'
    simp

end LatencyLab.Congruential
