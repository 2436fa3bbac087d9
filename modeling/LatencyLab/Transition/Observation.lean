import Mathlib.Data.List.Basic

/-! Machines seen through what they show. Two states cannot be told apart if the machine
shows the same after the same events from either. So it is with two states that one state
of another machine simulates, one that shows what they show. -/

namespace LatencyLab.Transition

variable {S T E F V : Type*} {step : S → E → S} {view : S → V} {s s' : S}

/-- Whatever happens, the two states show the same. -/
def Indistinguishable (step : S → E → S) (view : S → V) (s s' : S) : Prop :=
  ∀ es : List E, view (es.foldl step s) = view (es.foldl step s')

/-- What a simulating machine shows after the images of the events. -/
theorem view_of_simulation {step' : T → F → T} {view' : T → V} {image : E → F} {R : S → T → Prop}
    (hstep : ∀ s t e, R s t → R (step s e) (step' t (image e))) (hview : ∀ s t, R s t → view s = view' t) {t : T}
    (h : R s t) (es : List E) : view (es.foldl step s) = view' ((es.map image).foldl step' t) := by
  induction es generalizing s t with
  | nil => exact hview s t h
  | cons e es ih => exact ih (hstep s t e h)

/-- Two states that one state simulates. -/
theorem indistinguishable_of_simulation {step' : T → F → T} {view' : T → V} {image : E → F} {R : S → T → Prop}
    (hstep : ∀ s t e, R s t → R (step s e) (step' t (image e))) (hview : ∀ s t, R s t → view s = view' t) {t : T}
    (h : R s t) (h' : R s' t) : Indistinguishable step view s s' := by
  intro es
  rw [view_of_simulation hstep hview h, view_of_simulation hstep hview h']

end LatencyLab.Transition
