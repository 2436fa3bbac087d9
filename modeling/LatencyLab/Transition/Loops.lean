import Mathlib.Algebra.Order.Ring.Nat

/-! Loops with a bound on their rounds. A loop has no result where its bound does not
suffice or its body has none, so that a result says that it ends and that nothing in it
fails. `Yields` is total correctness for such programs: from some bound on there is a
result, the same for all bounds. One bound serves loops inside loops, since a body may
depend on it as well. -/

namespace LatencyLab.Transition

variable {ι S T : Type*}

section ForLoop

variable {cond : ι → Bool} {next : ι → ι} {body : ι → S → Option S} {i : ι} {s : S}

/-- `for (; cond(i); i = next(i)) body(i)`, for at most `fuel` rounds. -/
def forLoop (cond : ι → Bool) (next : ι → ι) (body : ι → S → Option S) : ℕ → ι → S → Option S
  | 0, i, s => if cond i then none else some s
  | fuel + 1, i, s => if cond i then (body i s).bind (forLoop cond next body fuel (next i)) else some s

theorem forLoop_of_not (h : cond i = false) (fuel : ℕ) : forLoop cond next body fuel i s = some s := by
  cases fuel <;> rw [forLoop, h] <;> rfl

theorem forLoop_succ (h : cond i = true) (fuel : ℕ) :
    forLoop cond next body (fuel + 1) i s = (body i s).bind (forLoop cond next body fuel (next i)) := by
  rw [forLoop, if_pos h]

end ForLoop

/-- From `N` rounds on `f` has one result, which satisfies `P`. -/
def Yields (N : ℕ) (f : ℕ → Option S) (P : S → Prop) : Prop := ∃ s, P s ∧ ∀ fuel, N ≤ fuel → f fuel = some s

namespace Yields

variable {N : ℕ} {f : ℕ → Option S} {P P' : S → Prop}

theorem const {s : S} (h : P s) : Yields N (fun _ => some s) P := ⟨s, h, fun _ _ => rfl⟩

theorem imp (h : Yields N f P) (hP : ∀ s, P s → P' s) : Yields N f P' := by
  obtain ⟨s, hs, hf⟩ := h
  exact ⟨s, hP s hs, hf⟩

theorem bind {g : ℕ → S → Option T} {Q : T → Prop} (h : Yields N f P)
    (hg : ∀ s, P s → Yields N (fun fuel => g fuel s) Q) : Yields N (fun fuel => (f fuel).bind (g fuel)) Q := by
  obtain ⟨s, hs, hf⟩ := h
  obtain ⟨t, ht, hg⟩ := hg s hs
  refine ⟨t, ht, fun fuel hfuel => ?_⟩
  show (f fuel).bind (g fuel) = some t
  rw [hf fuel hfuel, Option.bind_some]
  exact hg fuel hfuel

end Yields

/-! ### The loop rule -/

section Rule

variable {cond : ι → Bool} {next : ι → ι} {body : ℕ → ι → S → Option S} {Inv : ι → S → Prop} {rounds : ι → ℕ}
variable {N : ℕ} (hround : ∀ i s, cond i = true → Inv i s →
  rounds (next i) < rounds i ∧ Yields N (fun fuel => body fuel i s) (Inv (next i)))

include hround in
/-- The rounds of the loop and the bound that its body sees, apart. -/
theorem exists_forLoop_eq (k : ℕ) (i : ι) (s : S) (hk : rounds i ≤ k) (hinv : Inv i s) :
    ∃ s', (∃ j, cond j = false ∧ Inv j s') ∧
      ∀ fuel m, N ≤ fuel → k ≤ m → forLoop cond next (body fuel) m i s = some s' := by
  induction k generalizing i s with
  | zero =>
    cases hcond : cond i with
    | true =>
      have hlt := (hround i s hcond hinv).1
      omega
    | false => exact ⟨s, ⟨i, hcond, hinv⟩, fun _ m _ _ => forLoop_of_not hcond m⟩
  | succ k ih =>
    cases hcond : cond i with
    | true =>
      obtain ⟨hlt, s', hinv', hbody⟩ := hround i s hcond hinv
      obtain ⟨t, ht, hrest⟩ := ih (next i) s' (by omega) hinv'
      refine ⟨t, ht, fun fuel m hfuel hm => ?_⟩
      obtain ⟨m, rfl⟩ := Nat.exists_eq_add_of_le' (Nat.one_le_of_lt hm)
      have hone : body fuel i s = some s' := hbody fuel hfuel
      rw [forLoop_succ hcond, hone, Option.bind_some]
      exact hrest fuel m hfuel (Nat.le_of_succ_le_succ hm)
    | false => exact ⟨s, ⟨i, hcond, hinv⟩, fun _ m _ _ => forLoop_of_not hcond m⟩

include hround in
/-- Every round keeps the invariant and leaves fewer rounds to go. -/
theorem Yields.loop {i : ι} {s : S} (hN : rounds i ≤ N) (h : Inv i s) :
    Yields N (fun fuel => forLoop cond next (body fuel) fuel i s) fun s' => ∃ j, cond j = false ∧ Inv j s' := by
  obtain ⟨s', hs', hrun⟩ := exists_forLoop_eq hround (rounds i) i s le_rfl h
  exact ⟨s', hs', fun fuel hfuel => hrun fuel fuel hfuel (Nat.le_trans hN hfuel)⟩

end Rule

/-! ### Counting up in a machine word -/

section UpTo

/-- `for (; i < stop; i += inc) body(i)`. -/
def upTo (stop inc : UInt64) (body : UInt64 → S → Option S) : ℕ → UInt64 → S → Option S :=
  forLoop (fun i => decide (i < stop)) (fun i => i + inc) body

variable {N : ℕ} {stop inc : UInt64} {body : ℕ → UInt64 → S → Option S} (Inv : ℕ → S → Prop)

/-- The rule for a counter that does not wrap. The invariant speaks of the positions up
to `stop`, where the last round ends. -/
theorem Yields.countUp (hinc : 0 < inc.toNat) (hwrap : stop.toNat + inc.toNat ≤ 2 ^ 64) (hN : stop.toNat ≤ N)
    (hround : ∀ i s, i < stop → Inv i.toNat s →
      Yields N (fun fuel => body fuel i s) (Inv (min (i.toNat + inc.toNat) stop.toNat)))
    {i : UInt64} {s : S} (hi : i ≤ stop) (h : Inv i.toNat s) :
    Yields N (fun fuel => upTo stop inc (body fuel) fuel i s) (Inv stop.toNat) := by
  have hround' : ∀ i s, decide (i < stop) = true → Inv (min i.toNat stop.toNat) s →
      stop.toNat - (i + inc).toNat < stop.toNat - i.toNat ∧
        Yields N (fun fuel => body fuel i s) (Inv (min (i + inc).toNat stop.toNat)) := by
    intro i s hcond hinv
    have hlt := UInt64.lt_iff_toNat_lt.mp (of_decide_eq_true hcond)
    rw [Nat.min_eq_left (Nat.le_of_lt hlt)] at hinv
    have hnext : (i + inc).toNat = i.toNat + inc.toNat := by
      rw [UInt64.toNat_add, Nat.mod_eq_of_lt (by omega)]
    rw [hnext]
    exact ⟨by omega, hround i s (of_decide_eq_true hcond) hinv⟩
  have hstart : Inv (min i.toNat stop.toNat) s := by rwa [Nat.min_eq_left (UInt64.le_iff_toNat_le.mp hi)]
  have hloop := @Yields.loop UInt64 S _ _ body (fun i s => Inv (min i.toNat stop.toNat) s)
    (fun i => stop.toNat - i.toNat) N hround' i s (by omega) hstart
  refine hloop.imp fun s' hs' => ?_
  obtain ⟨j, hj, hinv⟩ := hs'
  have hle := UInt64.le_iff_toNat_le.mp (UInt64.not_lt.mp (of_decide_eq_false hj))
  rwa [Nat.min_eq_right hle] at hinv

/-- The rule for steps of one, which never wrap. -/
theorem Yields.countByOne (hN : stop.toNat ≤ N)
    (hround : ∀ i s, i < stop → Inv i.toNat s → Yields N (fun fuel => body fuel i s) (Inv (i.toNat + 1)))
    {i : UInt64} {s : S} (hi : i ≤ stop) (h : Inv i.toNat s) :
    Yields N (fun fuel => upTo stop 1 (body fuel) fuel i s) (Inv stop.toNat) := by
  have hpos : 0 < (1 : UInt64).toNat := Nat.one_pos
  refine Yields.countUp Inv hpos (Nat.succ_le_of_lt stop.toNat_lt) hN (fun i s hlt hinv => ?_) hi h
  have hone : min (i.toNat + (1 : UInt64).toNat) stop.toNat = i.toNat + 1 :=
    Nat.min_eq_left (UInt64.lt_iff_toNat_lt.mp hlt)
  rw [hone]
  exact hround i s hlt hinv

end UpTo

end LatencyLab.Transition
