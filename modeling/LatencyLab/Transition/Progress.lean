import LatencyLab.Transition.Exec
import Mathlib.Algebra.Order.Ring.Nat
import Mathlib.Order.WellFounded
import Mathlib.Order.Monotone.Basic

/-! Runs that get somewhere. Where all events but the idle ones spend effort, the length
of a run is bounded by the effort at its start and by its idle events. Where some agent
can always lower a rank that no event raises, and stays that agent until the rank falls,
a run that goes on forever leaves an agent without a step: a fair scheduler ends every
run. Either way a state from which something is left to do has a run that does it. -/

namespace LatencyLab.Transition

variable {S E ι : Type*}

/-- A measure that some good event lowers until everything is done. -/
theorem exists_exec_of_lt {step : S → E → Option S} {Inv Done : S → Prop} {good : E → Prop} (measure : S → ℕ)
    (hnext : ∀ s, Inv s → ¬Done s → ∃ e s', good e ∧ step s e = some s' ∧ Inv s' ∧ measure s' < measure s)
    {s : S} (hs : Inv s) : ∃ es s', exec step s es = some s' ∧ Inv s' ∧ Done s' ∧ ∀ e ∈ es, good e := by
  induction hm : measure s using Nat.strong_induction_on generalizing s with
  | _ m ih =>
    by_cases hd : Done s
    · exact ⟨[], s, rfl, hs, hd, by simp⟩
    obtain ⟨e, t, he, ht, hinv, hlt⟩ := hnext s hs hd
    obtain ⟨es, s', hrun, hinv', hd', hes⟩ := ih (measure t) (hm ▸ hlt) hinv rfl
    refine ⟨e :: es, s', ?_, hinv', hd', List.forall_mem_cons.mpr ⟨he, hes⟩⟩
    rw [exec_cons, ht]
    exact hrun

/-! ### Effort -/

/-- Events spend effort; an idle one gives back `refund` at the most. -/
structure Spends (step : S → E → Option S) (Inv : S → Prop) (idle : E → Bool) (effort : S → ℕ)
    (refund : ℕ) : Prop where
  keeps : ∀ s e s', Inv s → step s e = some s' → Inv s'
  spends : ∀ s e s', Inv s → step s e = some s' → idle e = false → effort s' < effort s
  refunds : ∀ s e s', Inv s → step s e = some s' → idle e = true → effort s' ≤ effort s + refund

namespace Spends

variable {step : S → E → Option S} {Inv : S → Prop} {idle : E → Bool} {effort : S → ℕ} {refund : ℕ}
variable {s s' : S}

theorem length_le (h : Spends step Inv idle effort refund) (hs : Inv s) {es : List E}
    (hrun : exec step s es = some s') :
    es.length + effort s' ≤ effort s + (refund + 1) * es.countP idle := by
  induction es generalizing s with
  | nil =>
    cases hrun
    simp
  | cons e es ih =>
    obtain ⟨t, ht, hrest⟩ := Option.bind_eq_some_iff.mp hrun
    have hle := ih (h.keeps s e t hs ht) hrest
    cases he : idle e with
    | true =>
      have hback := h.refunds s e t hs ht he
      rw [List.countP_cons_of_pos he, List.length_cons, Nat.mul_succ]
      omega
    | false =>
      have hspent := h.spends s e t hs ht he
      rw [List.countP_cons_of_neg (by rw [he]; exact Bool.false_ne_true), List.length_cons]
      omega

/-- While an event that spends is possible the run goes on, and so it comes to an end. -/
theorem exists_exec (h : Spends step Inv idle effort refund) {Done : S → Prop}
    (hnext : ∀ s, Inv s → ¬Done s → ∃ e, idle e = false ∧ (step s e).isSome) (hs : Inv s) :
    ∃ es s', exec step s es = some s' ∧ Inv s' ∧ Done s' ∧ ∀ e ∈ es, idle e = false := by
  refine exists_exec_of_lt effort (fun s hs hd => ?_) hs
  obtain ⟨e, he, hsome⟩ := hnext s hs hd
  obtain ⟨t, ht⟩ := Option.isSome_iff_exists.mp hsome
  exact ⟨e, t, he, ht, h.keeps s e t hs ht, h.spends s e t hs ht he⟩

end Spends

/-! ### Fairness -/

/-- A run that goes on forever. -/
structure Forever (step : S → E → Option S) where
  state : ℕ → S
  event : ℕ → E
  next : ∀ n, step (state n) (event n) = some (state (n + 1))

theorem Forever.inv {step : S → E → Option S} (run : Forever step) {Inv : S → Prop}
    (hstep : ∀ s e s', Inv s → step s e = some s' → Inv s') (h : Inv (run.state 0)) (n : ℕ) :
    Inv (run.state n) := by
  induction n with
  | zero => exact h
  | succ n ih => exact hstep _ _ _ ih (run.next n)

/-- Every state has a helper. An event lowers the rank, or it leaves rank and helper as
they are and is not the helper's. -/
structure Helps (step : S → E → Option S) (Inv : S → Prop) (agent : E → Option ι) (helper : S → ι)
    (rank : S → ℕ) : Prop where
  keeps : ∀ s e s', Inv s → step s e = some s' → Inv s'
  lowers : ∀ s e s', Inv s → step s e = some s' →
    rank s' < rank s ∨ rank s' = rank s ∧ helper s' = helper s ∧ agent e ≠ some (helper s)

namespace Helps

variable {step : S → E → Option S} {Inv : S → Prop} {agent : E → Option ι} {helper : S → ι} {rank : S → ℕ}
variable {s : S}

/-- The rank of a run that goes on forever settles. -/
theorem exists_settled (h : Helps step Inv agent helper rank) (run : Forever step) (hs : Inv (run.state 0)) :
    ∃ N, ∀ n, N ≤ n → rank (run.state n) = rank (run.state N) := by
  have hinv := run.inv h.keeps hs
  have hle : Antitone fun n => rank (run.state n) := by
    refine antitone_nat_of_succ_le fun n => ?_
    rcases h.lowers _ _ _ (hinv n) (run.next n) with hlt | ⟨heq, -⟩
    · exact Nat.le_of_lt hlt
    · exact heq.le
  obtain ⟨_, ⟨N, rfl⟩, hmin⟩ := wellFounded_lt.has_min (Set.range fun n => rank (run.state n)) ⟨_, 0, rfl⟩
  exact ⟨N, fun n hn => Nat.le_antisymm (hle hn) (Nat.le_of_not_lt (hmin _ ⟨n, rfl⟩))⟩

/-- A run that goes on forever starves an agent that could help, and lowers the rank no more. -/
theorem starves (h : Helps step Inv agent helper rank) (run : Forever step) (hs : Inv (run.state 0)) :
    ∃ i N, ∀ n, N ≤ n → helper (run.state n) = i ∧ agent (run.event n) ≠ some i ∧
      rank (run.state (n + 1)) = rank (run.state n) := by
  obtain ⟨N, hN⟩ := h.exists_settled run hs
  have hsettled : ∀ n, N ≤ n → rank (run.state (n + 1)) = rank (run.state n) :=
    fun n hn => (hN (n + 1) (Nat.le_succ_of_le hn)).trans (hN n hn).symm
  have hstill : ∀ n, N ≤ n → helper (run.state (n + 1)) = helper (run.state n) ∧
      agent (run.event n) ≠ some (helper (run.state n)) := by
    intro n hn
    rcases h.lowers _ _ _ (run.inv h.keeps hs n) (run.next n) with hlt | ⟨-, hsame⟩
    · rw [hsettled n hn] at hlt
      exact absurd hlt (lt_irrefl _)
    · exact hsame
  have hhelper : ∀ n, N ≤ n → helper (run.state n) = helper (run.state N) := by
    intro n hn
    induction n, hn using Nat.le_induction with
    | base => rfl
    | succ n hn ih => exact (hstill n hn).1.trans ih
  refine ⟨helper (run.state N), N, fun n hn => ⟨hhelper n hn, ?_, hsettled n hn⟩⟩
  rw [← hhelper n hn]
  exact (hstill n hn).2

/-- Where the helper can take a step, some run of helpers' steps gets to the end. -/
theorem exists_exec (h : Helps step Inv agent helper rank) {Done : S → Prop}
    (hnext : ∀ s, Inv s → ¬Done s → ∃ e, agent e = some (helper s) ∧ (step s e).isSome) (hs : Inv s) :
    ∃ es s', exec step s es = some s' ∧ Inv s' ∧ Done s' ∧ ∀ e ∈ es, agent e ≠ none := by
  refine exists_exec_of_lt rank (fun s hs hd => ?_) hs
  obtain ⟨e, he, hsome⟩ := hnext s hs hd
  obtain ⟨t, ht⟩ := Option.isSome_iff_exists.mp hsome
  have hlt : rank t < rank s := by
    rcases h.lowers s e t hs ht with hlt | ⟨-, -, hne⟩
    · exact hlt
    · exact absurd he hne
  exact ⟨e, t, by simp [he], ht, h.keeps s e t hs ht, hlt⟩

end Helps

end LatencyLab.Transition
