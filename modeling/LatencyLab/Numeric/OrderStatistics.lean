import Mathlib.Data.List.Forall2
import Mathlib.Data.List.Perm.Basic

/-! Sorted lists and how many of their values lie on either side of a bound. The value
at index `k` is at most `y` exactly when more than `k` values are; so what is known
about the counts of an unsorted list is known about its sorted copy. -/

namespace LatencyLab.OrderStatistics

variable {α : Type*} {l l' : List α} {k : ℕ} {x y : α}

/-- In a list whose values with `P` all stand at its front, one of them stands at index
`k` exactly when there are more than `k`. -/
theorem lt_countP_iff {P : α → Bool} (hfront : l.Pairwise fun a b => P b → P a) (hk : l[k]? = some x) :
    k < l.countP P ↔ P x := by
  obtain ⟨hlt, rfl⟩ := List.getElem?_eq_some_iff.mp hk
  have hsplit : l = l.take k ++ l[k] :: l.drop (k + 1) := by
    rw [List.getElem_cons_drop hlt, List.take_append_drop]
  have hlength : (l.take k).length = k := by
    rw [List.length_take]
    omega
  rw [hsplit, List.pairwise_append, List.pairwise_cons] at hfront
  obtain ⟨-, ⟨hafter, -⟩, hbefore⟩ := hfront
  have hcount : l.countP P = (l.take k).countP P + (l[k] :: l.drop (k + 1)).countP P := by
    rw [← List.countP_append, ← hsplit]
  by_cases hP : P l[k]
  · have hall : (l.take k).countP P = (l.take k).length :=
      List.countP_eq_length.mpr fun a ha => hbefore a ha l[k] List.mem_cons_self hP
    rw [List.countP_cons_of_pos hP] at hcount
    exact iff_of_true (by omega) hP
  · have hnone : (l.drop (k + 1)).countP P = 0 := List.countP_eq_zero.mpr fun b hb hPb => hP (hafter b hb hPb)
    have hle : (l.take k).countP P ≤ (l.take k).length := List.countP_le_length
    rw [List.countP_cons_of_neg hP] at hcount
    exact iff_of_false (by omega) hP

variable [LE α] [DecidableLE α]

/-- The number of values up to `y`. -/
def rank (l : List α) (y : α) : ℕ := l.countP (· ≤ y)

/-- The number of values from `y` on. -/
def corank (l : List α) (y : α) : ℕ := l.countP (y ≤ ·)

theorem rank_congr (h : l.Perm l') (y : α) : rank l y = rank l' y := h.countP_eq _

theorem corank_congr (h : l.Perm l') (y : α) : corank l y = corank l' y := h.countP_eq _

variable [Std.IsLinearPreorder α]

/-! ### Sorted lists -/

theorem lt_rank_iff (hs : l.Pairwise (· ≤ ·)) (hk : l[k]? = some x) : k < rank l y ↔ x ≤ y := by
  have hfront : l.Pairwise fun a b => decide (b ≤ y) → decide (a ≤ y) :=
    hs.imp fun hab hb => decide_eq_true (Std.le_trans hab (of_decide_eq_true hb))
  rw [rank, lt_countP_iff hfront hk, decide_eq_true_iff]

theorem length_le_corank_iff (hs : l.Pairwise (· ≤ ·)) (hk : l[k]? = some x) :
    l.length ≤ k + corank l y ↔ y ≤ x := by
  have hfront : l.Pairwise fun a b => (!decide (y ≤ b)) → !decide (y ≤ a) := by
    refine hs.imp fun {a b} hab hb => ?_
    rw [Bool.not_eq_true', decide_eq_false_iff_not] at hb ⊢
    exact fun ha => hb (Std.le_trans ha hab)
  have hlength : l.length = corank l y + l.countP fun a => !decide (y ≤ a) := by
    rw [corank, List.length_eq_countP_add_countP (fun a => decide (y ≤ a))]
    simp
  have hlt := lt_countP_iff hfront hk
  rw [Bool.not_eq_true', decide_eq_false_iff_not] at hlt
  rw [← not_iff_not, ← hlt]
  omega

/-! ### Pointwise smaller lists -/

theorem rank_le_rank (h : List.Forall₂ (· ≤ ·) l l') (y : α) : rank l' y ≤ rank l y := by
  induction h with
  | nil => exact Nat.le_refl 0
  | @cons a b l l' hab _ ih =>
    rw [rank, rank, List.countP_cons, List.countP_cons]
    by_cases hb : b ≤ y
    · rw [if_pos (decide_eq_true hb), if_pos (decide_eq_true (Std.le_trans hab hb))]
      exact Nat.succ_le_succ ih
    · rw [if_neg (by simpa using hb)]
      exact Nat.le_trans ih (Nat.le_add_right _ _)

/-- Sorting keeps a list below another. -/
theorem sorted_le {s s' : List α} (h : List.Forall₂ (· ≤ ·) l l') (hl : s.Perm l) (hl' : s'.Perm l')
    (hs : s.Pairwise (· ≤ ·)) (hs' : s'.Pairwise (· ≤ ·)) (hx : s[k]? = some x) (hy : s'[k]? = some y) :
    x ≤ y := by
  rw [← lt_rank_iff hs hx, rank_congr hl]
  calc k < rank s' y := (lt_rank_iff hs' hy).mpr (Std.le_refl y)
    _ = rank l' y := rank_congr hl' y
    _ ≤ rank l y := rank_le_rank h y

end LatencyLab.OrderStatistics
