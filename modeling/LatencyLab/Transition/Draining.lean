import LatencyLab.Transition.Exec
import Mathlib.Algebra.BigOperators.Group.List.Basic
import Mathlib.Algebra.Order.Ring.Nat

/-! Something that is taken away in portions. A state holds an amount; an event takes
a portion of it, a portion that covers what is left takes the thing away, and there is
an event that takes it away at once. Portions then add up: a list of them does what one
event of their sum does, and what the removal does once the sum covers everything. -/

namespace LatencyLab.Transition

variable {S M : Type*}

/-- `holds s x`: the state `s` holds the amount `x`. `portion m`: the event `m` takes
`amount m`. `removal m`: the event `m` takes everything. -/
structure Draining (step : S → M → Option S) (holds : S → ℕ → Prop) (portion removal : M → Prop)
    (amount : M → ℕ) : Prop where
  divisible : ∀ s x a, holds s x → a < x → ∃ m, portion m ∧ amount m = a
  congr : ∀ s x m m', holds s x → portion m → portion m' → amount m = amount m' → step s m = step s m'
  part : ∀ s x m, holds s x → portion m → amount m < x →
    ∃ s', step s m = some s' ∧ holds s' (x - amount m)
  part_part : ∀ s s' x m m' m'', holds s x → portion m → portion m' → portion m'' → amount m'' < x →
    amount m + amount m' = amount m'' → step s m = some s' → step s' m' = step s m''
  part_removal : ∀ s s' x m d, holds s x → portion m → removal d → amount m < x →
    step s m = some s' → step s' d = step s d
  full : ∀ s x m d, holds s x → portion m → removal d → x ≤ amount m → step s m = step s d
  removed : ∀ s x d, holds s x → removal d →
    ∃ s', step s d = some s' ∧ ∀ m, portion m → step s' m = some s'

namespace Draining

variable {step : S → M → Option S} {holds : S → ℕ → Prop} {portion removal : M → Prop} {amount : M → ℕ}
variable {s : S} {x : ℕ} {ms : List M}

/-- Portions that leave something are one portion. -/
theorem exec_part (h : Draining step holds portion removal amount) (hs : holds s x)
    (hms : ∀ m ∈ ms, portion m) (hne : ms ≠ []) (hsum : (ms.map amount).sum < x) {m : M} (hm : portion m)
    (hamount : amount m = (ms.map amount).sum) : exec step s ms = step s m := by
  induction ms generalizing s x m with
  | nil => exact absurd rfl hne
  | cons m₁ ms ih =>
    rw [List.forall_mem_cons] at hms
    rw [List.map_cons, List.sum_cons] at hsum hamount
    obtain ⟨s₁, he, hs₁⟩ := h.part s x m₁ hs hms.1 (by omega)
    rw [exec_cons, he, Option.bind_some]
    rcases eq_or_ne ms [] with rfl | hrest
    · rw [exec_nil, ← he]
      exact h.congr s x m₁ m hs hms.1 hm hamount.symm
    · obtain ⟨m₂, hm₂, hamount₂⟩ := h.divisible s₁ _ (ms.map amount).sum hs₁ (by omega)
      rw [ih hs₁ hms.2 hrest (by omega) hm₂ hamount₂]
      exact h.part_part s s₁ x m₁ m₂ m hs hms.1 hm₂ hm (by omega) (by omega) he

/-- Portions that cover what is held remove it, and the rest of them is ignored. -/
theorem exec_full (h : Draining step holds portion removal amount) (hs : holds s x)
    (hms : ∀ m ∈ ms, portion m) (hne : ms ≠ []) (hsum : x ≤ (ms.map amount).sum) {d : M} (hd : removal d) :
    exec step s ms = step s d := by
  induction ms generalizing s x with
  | nil => exact absurd rfl hne
  | cons m₁ ms ih =>
    rw [List.forall_mem_cons] at hms
    rw [List.map_cons, List.sum_cons] at hsum
    rw [exec_cons]
    rcases Nat.lt_or_ge (amount m₁) x with hlt | hge
    · obtain ⟨s₁, he, hs₁⟩ := h.part s x m₁ hs hms.1 hlt
      have hrest : ms ≠ [] := by
        rintro rfl
        simp at hsum
        omega
      rw [he, Option.bind_some, ih hs₁ hms.2 hrest (by omega)]
      exact h.part_removal s s₁ x m₁ d hs hms.1 hd hlt he
    · obtain ⟨s', he, hignored⟩ := h.removed s x d hs hd
      rw [h.full s x m₁ d hs hms.1 hd hge, he, Option.bind_some]
      exact exec_ignored fun m hm => hignored m (hms.2 m hm)

end Draining

end LatencyLab.Transition
