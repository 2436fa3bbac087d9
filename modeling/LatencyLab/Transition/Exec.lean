import Mathlib.Data.List.Infix

/-! Runs of step functions. A step function `S → E → Option S` gives the state
after an event, `none` where the event cannot happen in the state. A run is a
list of events; quantifying over all lists that execute quantifies over all
interleavings. The rules: what every step preserves holds after every run, also
where it speaks of the events so far; a step-by-step simulation by another step
function, or refinement of a total function, carries over to runs. -/

namespace LatencyLab.Transition

variable {S E : Type*}

/-- Execute events in order. -/
def exec (step : S → E → Option S) (s : S) : List E → Option S
  | [] => some s
  | e :: es => (step s e).bind fun s' => exec step s' es

section Exec

variable {step : S → E → Option S} {s s' : S}

@[simp] theorem exec_nil : exec step s [] = some s := rfl

theorem exec_cons (e : E) (es : List E) :
    exec step s (e :: es) = (step s e).bind fun s' => exec step s' es := rfl

theorem exec_singleton (e : E) : exec step s [e] = step s e := Option.bind_fun_some (step s e)

theorem exec_append (es es' : List E) :
    exec step s (es ++ es') = (exec step s es).bind fun s' => exec step s' es' := by
  induction es generalizing s with
  | nil => rfl
  | cons e es ih => simp only [List.cons_append, exec_cons, Option.bind_assoc, ih]

theorem exec_snoc (es : List E) (e : E) :
    exec step s (es ++ [e]) = (exec step s es).bind fun s' => step s' e := by
  rw [exec_append]
  congr 1
  funext s'
  simp [exec_cons]

/-- A run and one more step. -/
theorem exec_concat {es : List E} (h : exec step s es = some s') {e : E} {t : S} (hs : step s' e = some t) :
    exec step s (es ++ [e]) = some t := by
  rw [exec_snoc, h]
  exact hs

/-- The last step of a run. -/
theorem exists_last_step {es : List E} {e : E} {t : S} (h : exec step s (es ++ [e]) = some t) :
    ∃ s', exec step s es = some s' ∧ step s' e = some t := by
  rw [exec_snoc] at h
  exact Option.bind_eq_some_iff.mp h

/-- Where no event is refused a run is a fold. -/
theorem exec_some (f : S → E → S) (s : S) (es : List E) :
    exec (fun s e => some (f s e)) s es = some (es.foldl f s) := by
  induction es generalizing s with
  | nil => rfl
  | cons e es ih => exact ih (f s e)

/-- A run is a fold over results. -/
theorem foldl_bind (o : Option S) (es : List E) :
    es.foldl (fun o e => o.bind fun s => step s e) o = o.bind fun s => exec step s es := by
  induction es generalizing o with
  | nil => exact (Option.bind_fun_some o).symm
  | cons e es ih =>
    rw [List.foldl_cons, ih, Option.bind_assoc]
    rfl

/-- Events that a state ignores. -/
theorem exec_ignored {es : List E} (h : ∀ e ∈ es, step s e = some s) : exec step s es = some s := by
  induction es with
  | nil => rfl
  | cons e es ih =>
    rw [List.forall_mem_cons] at h
    rw [exec_cons, h.1]
    exact ih h.2

/-- The invariant rule. -/
theorem exec_invariant {Inv : S → Prop} (hstep : ∀ s e s', Inv s → step s e = some s' → Inv s')
    (h : Inv s) {es : List E} (hrun : exec step s es = some s') : Inv s' := by
  induction es generalizing s with
  | nil => cases hrun; exact h
  | cons e es ih =>
    obtain ⟨t, ht, hrest⟩ := Option.bind_eq_some_iff.mp hrun
    exact ih (hstep s e t h ht) hrest

/-- The invariant rule for a property of the state and the events that led to it. -/
theorem exec_history {P : List E → S → Prop}
    (hstep : ∀ es s e s', P es s → step s e = some s' → P (es ++ [e]) s') {past : List E} (h : P past s)
    {es : List E} (hrun : exec step s es = some s') : P (past ++ es) s' := by
  induction es generalizing s past with
  | nil =>
    cases hrun
    rw [List.append_nil]
    exact h
  | cons e es ih =>
    obtain ⟨t, ht, hrest⟩ := Option.bind_eq_some_iff.mp hrun
    have hrun' := ih (hstep past s e t h ht) hrest
    rw [List.append_assoc] at hrun'
    exact hrun'

/-- What is observed of a run and one more event. -/
theorem filterMap_snoc {O : Type*} (obs : E → Option O) (es : List E) (e : E) :
    (es ++ [e]).filterMap obs = es.filterMap obs ++ (obs e).toList := by
  rw [List.filterMap_append, List.filterMap_cons]
  cases obs e with
  | none => rfl
  | some o => rfl

/-- The rule for a machine that carries more along and never holds the other up: it has
all of its runs. -/
theorem exec_lift {A : Type*} {step' : A → E → Option A} {proj : A → S}
    (hstep : ∀ a e s', step (proj a) e = some s' → ∃ a', step' a e = some a' ∧ proj a' = s') {a : A} {es : List E}
    (hrun : exec step (proj a) es = some s') : ∃ a', exec step' a es = some a' ∧ proj a' = s' := by
  induction es generalizing a with
  | nil => exact ⟨a, rfl, Option.some.inj hrun⟩
  | cons e es ih =>
    obtain ⟨t, ht, hrest⟩ := Option.bind_eq_some_iff.mp hrun
    obtain ⟨b, hb, rfl⟩ := hstep a e t ht
    obtain ⟨a', ha', hproj⟩ := ih hrest
    refine ⟨a', ?_, hproj⟩
    rw [exec_cons, hb]
    exact ha'

/-- The simulation rule: steps that are matched by abstract runs with the same
observations make up a run that is. -/
theorem exec_simulates {A F O : Type*} {step' : A → F → Option A} {R : S → A → Prop} {obs : E → Option O}
    {obs' : F → Option O}
    (hstep : ∀ s a e s', R s a → step s e = some s' →
      ∃ fs a', exec step' a fs = some a' ∧ fs.filterMap obs' = (obs e).toList ∧ R s' a')
    {a : A} (h : R s a) {es : List E} (hrun : exec step s es = some s') :
    ∃ fs a', exec step' a fs = some a' ∧ fs.filterMap obs' = es.filterMap obs ∧ R s' a' := by
  induction es generalizing s a with
  | nil =>
    cases hrun
    exact ⟨[], a, rfl, rfl, h⟩
  | cons e es ih =>
    obtain ⟨t, ht, hrest⟩ := Option.bind_eq_some_iff.mp hrun
    obtain ⟨fs, b, hfs, hobs, hr⟩ := hstep s a e t h ht
    obtain ⟨fs', a', hfs', hobs', hr'⟩ := ih hr hrest
    refine ⟨fs ++ fs', a', ?_, ?_, hr'⟩
    · rw [exec_append, hfs]
      exact hfs'
    · rw [List.filterMap_append, hobs, hobs', List.filterMap_cons]
      cases obs e with
      | none => rfl
      | some o => rfl

/-- The refinement rule for a list of events: a total function whose application to
each of them is matched by a step tells where the run ends, and that it executes. -/
theorem exec_refines_on {A : Type*} {f : A → E → A} {R : S → A → Prop} {es : List E}
    (hstep : ∀ s a, ∀ e ∈ es, R s a → ∃ s', step s e = some s' ∧ R s' (f a e)) {a : A} (h : R s a) :
    ∃ s', exec step s es = some s' ∧ R s' (es.foldl f a) := by
  induction es generalizing s a with
  | nil => exact ⟨s, rfl, h⟩
  | cons e es ih =>
    obtain ⟨t, ht, hr⟩ := hstep s a e List.mem_cons_self h
    obtain ⟨s', hs', hr'⟩ := ih (fun s a e' he' => hstep s a e' (List.mem_cons_of_mem e he')) hr
    refine ⟨s', ?_, hr'⟩
    rw [exec_cons, ht]
    exact hs'

/-- The refinement rule. -/
theorem exec_refines {A : Type*} {f : A → E → A} {R : S → A → Prop}
    (hstep : ∀ s a e, R s a → ∃ s', step s e = some s' ∧ R s' (f a e)) {a : A} (h : R s a)
    (es : List E) : ∃ s', exec step s es = some s' ∧ R s' (es.foldl f a) :=
  exec_refines_on (fun s a e _ => hstep s a e) h

end Exec

/-! ### Properties along a run

The state after each event of a run is a function of a prefix of the run, so a
property of all states passed through is a property of all prefixes. -/

section Along

variable {P : List E → Prop} {C : List E → E → Prop} {es : List E}

theorem along (h0 : P []) (hstep : ∀ pre e, pre ++ [e] <+: es → P pre → P (pre ++ [e]))
    (pre : List E) (hpre : pre <+: es) : P pre := by
  induction pre using List.reverseRecOn with
  | nil => exact h0
  | append_singleton pre e ih => exact hstep pre e hpre (ih ((List.prefix_append pre [e]).trans hpre))

/-- Where a step preserves `P` exactly under `C`, the property holds along the
run exactly when every step meets `C`. -/
theorem along_iff (h0 : P [])
    (hstep : ∀ pre e, pre ++ [e] <+: es → P pre → (P (pre ++ [e]) ↔ C pre e)) :
    (∀ pre, pre <+: es → P pre) ↔ ∀ pre e, pre ++ [e] <+: es → C pre e := by
  constructor
  · intro h pre e hpre
    exact (hstep pre e hpre (h pre ((List.prefix_append pre [e]).trans hpre))).mp (h _ hpre)
  · intro h
    exact along h0 fun pre e hpre hp => (hstep pre e hpre hp).mpr (h pre e hpre)

end Along

end LatencyLab.Transition
