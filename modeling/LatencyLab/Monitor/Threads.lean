import Mathlib.Algebra.BigOperators.Group.Finset.Piecewise
import Mathlib.Algebra.BigOperators.Group.Finset.Basic
import Mathlib.Algebra.Order.BigOperators.Group.Finset
import Mathlib.Data.Fintype.Basic

/-! Threads and condition variables. A program is a map from threads to program
counters; a condition variable is the set of threads whose program counter is asleep
on it. `notifyOne` wakes one of them, whichever, and nobody only if nobody sleeps.
`tally` counts the threads at some kind of program counter, `total` weighs them all,
and every step of one thread changes either by what that thread contributes. -/

namespace LatencyLab.Monitor

variable {ι P : Type*} [Fintype ι] [DecidableEq ι]

/-- What the program counters weigh together. -/
def total (w : P → ℕ) (threads : ι → P) : ℕ := ∑ i, w (threads i)

/-- One thread moves. -/
theorem total_update (w : P → ℕ) (threads : ι → P) (i : ι) (pc : P) :
    total w (Function.update threads i pc) + w (threads i) = total w threads + w pc := by
  have hupdate : (fun j => w (Function.update threads i pc j)) =
      Function.update (fun j => w (threads j)) i (w pc) := by
    funext j
    by_cases hj : j = i
    · subst hj
      simp
    · simp [hj]
  have hold := Finset.add_sum_erase Finset.univ (fun j => w (threads j)) (Finset.mem_univ i)
  simp only [total, hupdate]
  rw [Finset.sum_update_of_mem (Finset.mem_univ i), Finset.sdiff_singleton_eq_erase]
  omega

/-- The number of threads whose program counter satisfies `p`. -/
def tally (p : P → Bool) (threads : ι → P) : ℕ := ∑ i, (p (threads i)).toNat

omit [DecidableEq ι] in
theorem tally_eq_zero {p : P → Bool} {threads : ι → P} : tally p threads = 0 ↔ ∀ i, p (threads i) = false := by
  rw [tally, Finset.sum_eq_zero_iff]
  simp

omit [DecidableEq ι] in
theorem tally_pos {p : P → Bool} {threads : ι → P} : 0 < tally p threads ↔ ∃ i, p (threads i) = true := by
  rw [Nat.pos_iff_ne_zero, Ne, tally_eq_zero]
  simp

theorem tally_update (p : P → Bool) (threads : ι → P) (i : ι) (pc : P) :
    tally p (Function.update threads i pc) + (p (threads i)).toNat = tally p threads + (p pc).toNat :=
  total_update (fun pc => (p pc).toNat) threads i pc

/-- `notify_one`, where `chosen` is the thread that wakes. -/
def notifyOne (asleep : P → Bool) (wake : P → P) (threads : ι → P) : Option ι → Option (ι → P)
  | some j => if asleep (threads j) then some (Function.update threads j (wake (threads j))) else none
  | none => if ∃ j, asleep (threads j) = true then none else some threads

/-- `notify_all`. -/
def notifyAll (asleep : P → Bool) (wake : P → P) (threads : ι → P) : ι → P := fun i =>
  if asleep (threads i) then wake (threads i) else threads i

section Notify

variable {asleep : P → Bool} {wake : P → P} {threads threads' : ι → P} {chosen : Option ι}

theorem of_notifyOne (h : notifyOne asleep wake threads chosen = some threads') :
    (∃ j, asleep (threads j) = true ∧ threads' = Function.update threads j (wake (threads j))) ∨
      (∀ j, asleep (threads j) = false) ∧ threads' = threads := by
  cases chosen with
  | some j =>
    simp only [notifyOne] at h
    split_ifs at h with hj
    exact .inl ⟨j, hj, (Option.some.inj h).symm⟩
  | none =>
    simp only [notifyOne] at h
    split_ifs at h with hj
    refine .inr ⟨fun j => ?_, (Option.some.inj h).symm⟩
    rw [← Bool.not_eq_true]
    exact fun hc => hj ⟨j, hc⟩

/-- A thread that does not sleep does not notice. -/
theorem notifyOne_of_awake (h : notifyOne asleep wake threads chosen = some threads') {i : ι}
    (hi : asleep (threads i) = false) : threads' i = threads i := by
  rcases of_notifyOne h with ⟨j, hj, rfl⟩ | ⟨-, rfl⟩
  · have hne : i ≠ j := by
      rintro rfl
      rw [hi] at hj
      cases hj
    rw [Function.update_of_ne hne]
  · rfl

/-- Nothing happens to other threads than sleepers. -/
theorem notifyOne_apply (h : notifyOne asleep wake threads chosen = some threads') (i : ι) :
    threads' i = threads i ∨ threads' i = wake (threads i) := by
  rcases of_notifyOne h with ⟨j, -, rfl⟩ | ⟨-, rfl⟩
  · by_cases hj : i = j
    · subst hj
      rw [Function.update_self]
      exact .inr rfl
    · rw [Function.update_of_ne hj]
      exact .inl rfl
  · exact .inl rfl

omit [Fintype ι] [DecidableEq ι] in
theorem notifyAll_apply (asleep : P → Bool) (wake : P → P) (threads : ι → P) (i : ι) :
    notifyAll asleep wake threads i = threads i ∨ notifyAll asleep wake threads i = wake (threads i) := by
  unfold notifyAll
  split_ifs
  · exact .inr rfl
  · exact .inl rfl

omit [Fintype ι] [DecidableEq ι] in
/-- Nobody sleeps after `notify_all`. -/
theorem asleep_notifyAll (hwake : ∀ pc, asleep (wake pc) = false) (threads : ι → P) (i : ι) :
    asleep (notifyAll asleep wake threads i) = false := by
  unfold notifyAll
  split_ifs with hi
  · exact hwake _
  · exact Bool.not_eq_true _ ▸ hi

/-- What `notify_one` does to a kind of program counter that no sleeper and no newly
woken thread has: nothing. -/
theorem tally_notifyOne (h : notifyOne asleep wake threads chosen = some threads') {p : P → Bool}
    (hp : ∀ pc, asleep pc = true → p pc = false ∧ p (wake pc) = false) : tally p threads' = tally p threads := by
  rcases of_notifyOne h with ⟨j, hj, rfl⟩ | ⟨-, rfl⟩
  · have hmove := tally_update p threads j (wake (threads j))
    obtain ⟨hold, hnew⟩ := hp _ hj
    rw [hold, hnew] at hmove
    exact hmove
  · rfl

/-- A `notify_one` wakes one thread at the most. -/
theorem total_notifyOne_le (h : notifyOne asleep wake threads chosen = some threads') {w : P → ℕ}
    (hwake : ∀ pc, w (wake pc) ≤ w pc + 1) : total w threads' ≤ total w threads + 1 := by
  rcases of_notifyOne h with ⟨j, -, rfl⟩ | ⟨-, rfl⟩
  · have hmove := total_update w threads j (wake (threads j))
    have hle := hwake (threads j)
    omega
  · exact Nat.le_succ _

omit [DecidableEq ι] in
theorem total_notifyAll_le (asleep : P → Bool) (threads : ι → P) {w : P → ℕ}
    (hwake : ∀ pc, w (wake pc) ≤ w pc + 1) :
    total w (notifyAll asleep wake threads) ≤ total w threads + Fintype.card ι := by
  have hle : ∀ i ∈ Finset.univ, w (notifyAll asleep wake threads i) ≤ w (threads i) + 1 := by
    intro i _
    unfold notifyAll
    split_ifs
    · exact hwake _
    · exact Nat.le_succ _
  have hsum := Finset.sum_le_sum hle
  rw [Finset.sum_add_distrib, ← Finset.card_eq_sum_ones, Finset.card_univ] at hsum
  exact hsum

end Notify

/-! ### No lost wake-up

A condition variable guards a supply, of which a woken thread takes one. As long as
somebody sleeps there is a woken thread for every unit: sleepers come where there is
no supply, every new unit wakes one, and a unit that a newcomer takes leaves a woken
thread without one, not a unit without a thread. -/

/-- Nobody sleeps, or there is a woken thread for every unit of the supply. -/
def Balanced (asleep woken : P → Bool) (threads : ι → P) (supply : ℕ) : Prop :=
  tally asleep threads = 0 ∨ supply ≤ tally woken threads

namespace Balanced

variable {asleep woken : P → Bool} {wake : P → P} {threads threads' : ι → P} {supply supply' : ℕ}

omit [DecidableEq ι] in
theorem of_empty (asleep woken : P → Bool) (threads : ι → P) : Balanced asleep woken threads 0 :=
  .inr (Nat.zero_le _)

/-- A thread that does not go to sleep takes no more than it leaves to the others. -/
theorem move (h : Balanced asleep woken threads supply) {i : ι} {pc : P}
    (hasleep : (asleep pc).toNat ≤ (asleep (threads i)).toNat)
    (hsupply : supply' + (woken (threads i)).toNat ≤ supply + (woken pc).toNat) :
    Balanced asleep woken (Function.update threads i pc) supply' := by
  have hsleepers := tally_update asleep threads i pc
  have hwoken := tally_update woken threads i pc
  unfold Balanced at h ⊢
  omega

/-- A new unit, and a `notify_one`. -/
theorem notify (h : Balanced asleep woken threads supply) {chosen : Option ι}
    (hn : notifyOne asleep wake threads chosen = some threads')
    (hwake : ∀ pc, asleep pc = true → woken pc = false ∧ woken (wake pc) = true) :
    Balanced asleep woken threads' (supply + 1) := by
  rcases of_notifyOne hn with ⟨j, hj, rfl⟩ | ⟨hnobody, rfl⟩
  · obtain ⟨hold, hnew⟩ := hwake _ hj
    have hwoken := tally_update woken threads j (wake (threads j))
    have hsome : 0 < tally asleep threads := tally_pos.mpr ⟨j, hj⟩
    rw [hold, hnew] at hwoken
    simp only [Bool.toNat_false, Bool.toNat_true] at hwoken
    unfold Balanced at h ⊢
    omega
  · exact .inl (tally_eq_zero.mpr hnobody)

/-- A `notify_one` of another condition variable. -/
theorem notifyOther (h : Balanced asleep woken threads supply) {other : P → Bool} {chosen : Option ι}
    (hn : notifyOne other wake threads chosen = some threads')
    (hother : ∀ pc, other pc = true →
      (asleep pc = false ∧ asleep (wake pc) = false) ∧ woken pc = false ∧ woken (wake pc) = false) :
    Balanced asleep woken threads' supply := by
  have hsleepers := tally_notifyOne hn fun pc hpc => (hother pc hpc).1
  have hwoken := tally_notifyOne hn fun pc hpc => (hother pc hpc).2
  unfold Balanced at h ⊢
  rwa [hsleepers, hwoken]

omit [DecidableEq ι] in
/-- Where there is supply and nobody is woken, nobody sleeps. -/
theorem nobody_asleep (h : Balanced asleep woken threads supply) (hsupply : 0 < supply)
    (hwoken : ∀ i, woken (threads i) = false) (i : ι) : asleep (threads i) = false := by
  rcases h with hzero | hle
  · exact tally_eq_zero.mp hzero i
  · rw [tally_eq_zero.mpr hwoken] at hle
    omega

end Balanced

end LatencyLab.Monitor
