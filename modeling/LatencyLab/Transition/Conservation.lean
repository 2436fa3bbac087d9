import Mathlib.Algebra.Group.Basic
import Mathlib.Tactic.Abel

/-! Conservation along a fold. What the steps bring in and take out adds up along the
events; where each step keeps the balance of what is held, what came in on the way is what
is held in the end and what went out. -/

namespace LatencyLab.Transition

variable {S E M : Type*} [AddCommMonoid M] {step : S → E → S}

/-- The sum over the events of what each contributes in the state that it meets. -/
def sumAlong (step : S → E → S) (f : S → E → M) (s : S) : List E → M
  | [] => 0
  | e :: es => f s e + sumAlong step f (step s e) es

theorem sumAlong_add (f g : S → E → M) (s : S) (es : List E) :
    sumAlong step (fun s e => f s e + g s e) s es = sumAlong step f s es + sumAlong step g s es := by
  induction es generalizing s with
  | nil => exact (add_zero 0).symm
  | cons e es ih =>
    simp only [sumAlong, ih]
    abel

theorem conserved_of_step {Inv : S → Prop} {inflow outflow : S → E → M} {held : S → M}
    (hinv : ∀ s e, Inv s → Inv (step s e))
    (hstep : ∀ s e, Inv s → inflow s e + held s = held (step s e) + outflow s e) {s : S} (h : Inv s)
    (es : List E) :
    sumAlong step inflow s es + held s = held (es.foldl step s) + sumAlong step outflow s es := by
  induction es generalizing s with
  | nil => exact add_comm _ _
  | cons e es ih =>
    have hrest := ih (hinv s e h)
    calc sumAlong step inflow s (e :: es) + held s
        = sumAlong step inflow (step s e) es + (inflow s e + held s) := by
          rw [sumAlong]
          abel
      _ = (sumAlong step inflow (step s e) es + held (step s e)) + outflow s e := by
          rw [hstep s e h, add_assoc]
      _ = held ((e :: es).foldl step s) + sumAlong step outflow s (e :: es) := by
          rw [hrest, List.foldl_cons, sumAlong]
          abel

end LatencyLab.Transition
