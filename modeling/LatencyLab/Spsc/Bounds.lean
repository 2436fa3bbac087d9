import LatencyLab.Spsc.Sequential

/-! Which elements of `buffer_` the calls on a ring touch. Both indices stay below
`capacity_`, which is the length of `buffer_`. The constructor does not check its
addition: the largest capacity wraps `capacity_` to zero, and a ring without
elements does not look full, since its wrap test compares for equality only. -/

namespace LatencyLab

open Cyclic Transition

def RingCall.isPush {T : Type*} : RingCall T → Bool
  | .push _ => true
  | .pop _ | .empty => false

namespace SpscRingBuffer

variable {T : Type*} {r : SpscRingBuffer T} {q : BoundedList T}

/-- The index with which a call accesses `buffer_`, if it does. -/
def access (r : SpscRingBuffer T) : RingCall T → Option ℕ
  | .push _ => if r.increment (load r.head_) = load r.tail_ then none else some (load r.head_)
  | .pop _ => if load r.tail_ = load r.head_ then none else some (load r.tail_)
  | .empty => none

/-- A call has no outcome exactly where its access is outside `buffer_`. -/
theorem serve_eq_none_iff (results : List (RingResult T)) (call : RingCall T) :
    serve (r, results) call = none ↔ ∃ i, r.access call = some i ∧ r.buffer_.length ≤ i := by
  cases call with
  | push item =>
    simp only [serve, push, access]
    split_ifs with hfull hslot
    · simp
    · simpa using hslot
    · simpa using Nat.le_of_not_lt hslot
  | pop item =>
    simp only [serve, pop, access]
    split_ifs with hdrained
    · simp
    · simp
  | empty => simp [serve, access]

/-- Every access that the calls make is inside `buffer_`. -/
def InBounds (r : SpscRingBuffer T) (calls : List (RingCall T)) : Prop :=
  ∀ pre call, pre ++ [call] <+: calls → ∀ s, exec serve (r, []) pre = some s →
    ∀ i, s.1.access call = some i → i < s.1.buffer_.length

theorem Represents.access_lt (h : r.Represents q) {call : RingCall T} {i : ℕ} (hi : r.access call = some i) :
    i < r.buffer_.length := by
  obtain ⟨c, hinv, -, rfl, -⟩ := h
  cases call with
  | push item =>
    simp only [access] at hi
    split_ifs at hi
    rw [← Option.some.inj hi, hinv.inv.load_head]
    exact hinv.inv.slot_lt _
  | pop item =>
    simp only [access] at hi
    split_ifs at hi
    rw [← Option.some.inj hi, hinv.inv.load_tail]
    exact hinv.inv.slot_lt _
  | empty => cases hi

theorem inBounds_of_lt [Inhabited T] {capacity : ℕ} (hcap : capacity + 1 < sizeMod)
    (calls : List (RingCall T)) : (make capacity : SpscRingBuffer T).InBounds calls := by
  intro pre call _ s hrun i hi
  obtain ⟨s', hrun', hrep, -⟩ := agrees_of_calls hcap pre
  rw [hrun'] at hrun
  cases hrun
  exact hrep.access_lt hi

/-! ### The capacity that wraps -/

section Wrapped

variable [Inhabited T]

theorem make_wrapped : (make (sizeMod - 1) : SpscRingBuffer T) = ⟨0, [], [0], [0]⟩ := by
  have hzero : (sizeMod - 1 + 1) % sizeMod = 0 := by decide
  simp [make, hzero]

/-- Nothing is stored, and the next head is not the tail. -/
theorem access_wrapped (call : RingCall T) :
    (make (sizeMod - 1) : SpscRingBuffer T).access call = if call.isPush then some 0 else none := by
  rw [make_wrapped]
  cases call <;> rfl

/-- A call that does not push leaves the ring as it is. -/
theorem serve_wrapped {call : RingCall T} (h : call.isPush = false) (results : List (RingResult T)) :
    ∃ results', serve (make (sizeMod - 1), results) call = some (make (sizeMod - 1), results') := by
  rw [make_wrapped]
  cases call with
  | push item => cases h
  | pop item => exact ⟨_, rfl⟩
  | empty => exact ⟨_, rfl⟩

theorem exec_wrapped {calls : List (RingCall T)} (h : ∀ call ∈ calls, call.isPush = false)
    (results : List (RingResult T)) :
    ∃ results', exec serve (make (sizeMod - 1), results) calls = some (make (sizeMod - 1), results') := by
  induction calls generalizing results with
  | nil => exact ⟨results, rfl⟩
  | cons call calls ih =>
    rw [List.forall_mem_cons] at h
    obtain ⟨results', hserve⟩ := serve_wrapped h.1 results
    obtain ⟨results'', hrun⟩ := ih h.2 results'
    refine ⟨results'', ?_⟩
    rw [exec_cons, hserve]
    exact hrun

/-- The first push writes element zero of no elements. -/
theorem inBounds_wrapped (calls : List (RingCall T)) :
    (make (sizeMod - 1) : SpscRingBuffer T).InBounds calls ↔ ∀ call ∈ calls, call.isPush = false := by
  constructor
  · intro h
    -- up to the first push the ring is as it was made
    refine along (P := fun pre => ∀ call ∈ pre, call.isPush = false) (by simp)
      (fun pre call hpre hpops => ?_) calls List.prefix_rfl
    obtain ⟨results, hrun⟩ := exec_wrapped hpops []
    rw [List.forall_mem_append, List.forall_mem_singleton]
    refine ⟨hpops, Bool.eq_false_iff.mpr fun hpush => ?_⟩
    have haccess : (make (sizeMod - 1) : SpscRingBuffer T).access call = some 0 := by
      rw [access_wrapped, hpush, if_pos rfl]
    have hlt := h pre call hpre _ hrun 0 haccess
    rw [make_wrapped] at hlt
    exact Nat.not_lt_zero 0 hlt
  · intro h pre call hpre s hrun i hi
    have hmem : ∀ c ∈ pre ++ [call], c.isPush = false := fun c hc => h c (hpre.subset hc)
    rw [List.forall_mem_append, List.forall_mem_singleton] at hmem
    obtain ⟨results, hrun'⟩ := exec_wrapped hmem.1 []
    rw [hrun'] at hrun
    cases hrun
    rw [access_wrapped, hmem.2] at hi
    cases hi

end Wrapped

/-- For a capacity that `std::size_t` can hold the calls stay inside `buffer_` unless
`capacity + 1` wraps around and there is a push among them. -/
theorem inBounds_iff [Inhabited T] {capacity : ℕ} (hsize : capacity < sizeMod) (calls : List (RingCall T)) :
    (make capacity : SpscRingBuffer T).InBounds calls ↔
      capacity ≠ sizeMod - 1 ∨ ∀ call ∈ calls, call.isPush = false := by
  by_cases hwrap : capacity = sizeMod - 1
  · rw [hwrap, inBounds_wrapped]
    simp
  · exact iff_of_true (inBounds_of_lt (by omega) calls) (.inl hwrap)

theorem inBounds_aroundCalls : (make 1 : SpscRingBuffer UInt64).InBounds aroundCalls ↔
    1 ≠ sizeMod - 1 ∨ ∀ call ∈ aroundCalls, call.isPush = false := inBounds_iff (by decide) aroundCalls

/-- One push on the ring whose capacity is the largest `std::size_t`. -/
theorem not_inBounds_wrapped :
    ¬ ∀ capacity < sizeMod, ∀ calls : List (RingCall UInt64),
      (make capacity : SpscRingBuffer UInt64).InBounds calls := by
  intro h
  have hcalls := (inBounds_wrapped _).mp (h (sizeMod - 1) (by decide) [.push 7])
  exact Bool.noConfusion (hcalls _ List.mem_cons_self)

end SpscRingBuffer

end LatencyLab
