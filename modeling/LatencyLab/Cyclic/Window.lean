import Mathlib.Data.List.Basic
import Mathlib.Data.Nat.ModEq
import Mathlib.Tactic.Linarith

/-! Counters seen through their residues modulo `c`, and a cyclic array of `c`
cells that stores a window of an unbounded sequence. Positions of the sequence
are natural numbers; position `i` lives in cell `i % c`. A window of fewer than
`c` positions never meets the cell of the position after it. -/

namespace LatencyLab.Cyclic

/-! ### Residues -/

/-- Two positions less than one lap apart with one residue are equal. -/
theorem eq_of_mod_eq {c i j : ℕ} (hij : i ≤ j) (hlt : j < i + c) (h : i % c = j % c) : i = j := by
  have hmod : (j - i) % c = 0 := Nat.sub_mod_eq_zero_of_mod_eq h.symm
  have hzero : j - i = 0 := by
    rw [← Nat.mod_eq_of_lt (show j - i < c by omega)]
    exact hmod
  omega

/-- Positions at distance `c` share a residue, so a different residue bounds the distance. -/
theorem lt_of_mod_ne {c i j : ℕ} (hij : j ≤ i + c) (h : j % c ≠ i % c) : j < i + c := by
  rcases Nat.lt_or_eq_of_le hij with hlt | heq
  · exact hlt
  · exact absurd (by rw [heq, Nat.add_mod_right]) h

/-- The residue of the next position, as a counter with a wrap computes it. -/
theorem succ_mod {c n : ℕ} (hc : 0 < c) : (n + 1) % c = if n % c + 1 = c then 0 else n % c + 1 := by
  have hlt := Nat.mod_lt n hc
  rw [← Nat.mod_add_mod]
  split_ifs with h
  · rw [h, Nat.mod_self]
  · exact Nat.mod_eq_of_lt (by omega)

/-- The values a counter modulo `c` has shown after `n` increments, oldest first. -/
def laps (c n : ℕ) : List ℕ := (List.range (n + 1)).map (· % c)

theorem getElem?_laps {c n k x : ℕ} (h : (laps c n)[k]? = some x) : k ≤ n ∧ x = k % c := by
  simp only [laps, List.getElem?_map, Option.map_eq_some_iff, List.getElem?_eq_some_iff] at h
  obtain ⟨i, ⟨hk, rfl⟩, rfl⟩ := h
  simp only [List.length_range] at hk
  simp only [List.getElem_range]
  exact ⟨by omega, trivial⟩

theorem laps_succ (c n : ℕ) : laps c (n + 1) = laps c n ++ [(n + 1) % c] := by
  rw [laps, List.range_succ, List.map_append]
  rfl

@[simp] theorem length_laps (c n : ℕ) : (laps c n).length = n + 1 := by
  rw [laps, List.length_map, List.length_range]

theorem laps_zero (c : ℕ) : laps c 0 = [0] := by simp [laps]

@[simp] theorem getLast?_laps (c n : ℕ) : (laps c n).getLast? = some (n % c) := by
  simp [laps, List.range_succ]

/-! ### Windows -/

section Window

variable {T : Type*} {c lo : ℕ} {cells : List T} {seq : List T}

/-- The cells hold the positions of `seq` from `lo` on. -/
def Stores (c : ℕ) (cells : List T) (seq : List T) (lo : ℕ) : Prop :=
  ∀ i, lo ≤ i → i < seq.length → cells[i % c]? = seq[i]?

theorem Stores.empty (c : ℕ) (cells : List T) : Stores c cells [] 0 := by
  intro i _ hi
  simp at hi

/-- Dropping positions from the front of the window. -/
theorem Stores.mono (h : Stores c cells seq lo) {lo' : ℕ} (hle : lo ≤ lo') : Stores c cells seq lo' :=
  fun i hi => h i (hle.trans hi)

/-- The cell after the window belongs to no position of the window. -/
theorem mod_ne_of_window {i : ℕ} (hlo : lo ≤ i) (hi : i < seq.length) (hlt : seq.length < lo + c) :
    i % c ≠ seq.length % c := by
  intro heq
  have := eq_of_mod_eq hi.le (by omega) heq
  omega

/-- Writing the cell after the window leaves the window alone. -/
theorem Stores.set (h : Stores c cells seq lo) (hlt : seq.length < lo + c) (v : T) :
    Stores c (cells.set (seq.length % c) v) seq lo := by
  intro i hlo hi
  rw [List.getElem?_set_ne (mod_ne_of_window hlo hi hlt).symm]
  exact h i hlo hi

/-- A value in the cell after the window extends the window. -/
theorem Stores.snoc (h : Stores c cells seq lo) {v : T} (hv : cells[seq.length % c]? = some v) :
    Stores c cells (seq ++ [v]) lo := by
  intro i hlo hi
  rw [List.length_append, List.length_singleton] at hi
  by_cases heq : i = seq.length
  · rw [heq, List.getElem?_concat_length]
    exact hv
  · rw [List.getElem?_append_left (by omega)]
    exact h i hlo (by omega)

end Window

end LatencyLab.Cyclic
