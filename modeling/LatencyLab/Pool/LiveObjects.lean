import LatencyLab.Pool.Lifetimes

/-! What the callers of an `ObjectPool` can rely on. While no constructor throws, live
objects never share a slot, the three records agree, and the destructor destroys
exactly the live objects. A constructor that throws breaks this for good, and nothing
else does. -/

namespace LatencyLab

open Transition

namespace ObjectPool

variable {T : Type*} {p : ObjectPool T} {indices : List ℕ}

/-- Where every slot in use holds an object, the loop destroys those objects in order. -/
theorem destroyEach_eq (h : ∀ i ∈ indices, p.inUse_[i]? = some true → ∃ v, p.storage_[i]? = some (some v)) :
    p.destroyEach indices = some ((indices.filter fun i => p.inUse_[i]? = some true).map p.slab.ptr) := by
  induction indices with
  | nil => rfl
  | cons i rest ih =>
    rw [List.forall_mem_cons] at h
    rw [destroyEach, ih h.2]
    by_cases hi : p.inUse_[i]? = some true
    · obtain ⟨v, hv⟩ := h.1 hi
      rw [if_pos hi, hv, List.filter_cons_of_pos (by simpa using hi)]
      rfl
    · rw [if_neg hi, List.filter_cons_of_neg (by simpa using hi)]

/-- A slot in use without an object is undefined behaviour of the destructor. -/
theorem destroyEach_eq_none {i : ℕ} (hmem : i ∈ indices) (hi : p.inUse_[i]? = some true)
    (hempty : ∀ v, p.storage_[i]? ≠ some (some v)) : p.destroyEach indices = none := by
  induction indices with
  | nil => cases hmem
  | cons j rest ih =>
    rw [destroyEach]
    rcases List.mem_cons.mp hmem with rfl | hrest
    · rw [if_pos hi]
      split
      · rename_i v hv
        exact absurd hv (hempty v)
      · rfl
    · rw [ih hrest]
      split_ifs
      · split
        · rfl
        · rfl
      · rfl

end ObjectPool

namespace PoolUse

variable {T : Type*} {slab : Slab} {capacity : ℕ} {calls : List (PoolCall T)} {s s' : PoolUse T}

/-! ### The destructor -/

theorem Inv.destroy_perm (h : s.Inv capacity) (hleaked : s.leaked = []) :
    ∃ destroyed, s.pool.destroy = some destroyed ∧ destroyed.Perm (s.live.map LiveObject.ptr) := by
  have hobject : ∀ i : ℕ, s.pool.inUse_[i]? = some true → ∃ v, s.pool.storage_[i]? = some (some v) := by
    intro i hi
    rw [h.inUse, hleaked] at hi
    rcases hi with hi | hi
    · obtain ⟨x, hx, hxi⟩ := List.mem_map.mp hi
      exact ⟨x.value, (h.objects i _).mpr ⟨x, hx, hxi, rfl⟩⟩
    · cases hi
  refine ⟨_, ObjectPool.destroyEach_eq fun i _ => hobject i, ?_⟩
  rw [h.map_ptr]
  refine List.Perm.map _ ((List.perm_ext_iff_of_nodup (List.nodup_range.filter _) h.slots_nodup).mpr fun i => ?_)
  rw [List.mem_filter, List.mem_range, decide_eq_true_iff, h.inUse, hleaked]
  constructor
  · rintro ⟨-, hi | hi⟩
    · exact hi
    · cases hi
  · intro hi
    have hlt := h.lt_of_mem (List.mem_append_right _ (List.mem_append_left _ hi))
    exact ⟨h.bits ▸ hlt, .inl hi⟩

/-- Over a leaked slot the destructor is undefined. -/
theorem Inv.destroy_eq_none (h : s.Inv capacity) (hleaked : s.leaked ≠ []) : s.pool.destroy = none := by
  obtain ⟨i, hi⟩ := List.exists_mem_of_ne_nil _ hleaked
  have hmem := List.mem_append_right s.pool.freeList_ (List.mem_append_right s.slots hi)
  refine ObjectPool.destroyEach_eq_none (List.mem_range.mpr (h.bits ▸ h.lt_of_mem hmem))
    ((h.inUse i).mpr (.inr hi)) fun v hv => ?_
  obtain ⟨x, hx, hxi, -⟩ := (h.objects i v).mp hv
  have hslot : i ∈ s.slots := hxi ▸ List.mem_map_of_mem hx
  exact (List.nodup_append.mp (List.nodup_append.mp h.nodup).2.1).2.2 i hslot i hi rfl

/-! ### Without exceptions -/

/-- The pool keeps its live objects apart, and its records tell how many there are. -/
structure Unaliased (capacity : ℕ) (s : PoolUse T) : Prop where
  full : s.live.length = capacity → ∀ v, s.pool.allocate v = some (none, s.pool)
  room : s.live.length ≠ capacity → ∀ v, ∃ i p, s.pool.allocate v = some (some (s.pool.slab.ptr i), p) ∧
    i < capacity ∧ ∀ x ∈ s.live, x.slot ≠ i ∧ x.ptr ≠ s.pool.slab.ptr i
  apart : s.slots.Nodup ∧ (s.live.map LiveObject.ptr).Nodup
  intact : ∀ x ∈ s.live, s.pool.deref x.ptr = some x.value
  nullIgnored : s.pool.deallocate none = some s.pool
  givenBack : ∀ x ∈ s.live, s.pool.slab.index x.ptr = x.slot ∧
    ∃ p, s.pool.deallocate (some x.ptr) = some p ∧ p.freeList_ = s.pool.freeList_ ++ [x.slot]
  available : s.pool.available + s.live.length = capacity
  inUse : s.pool.inUse = s.live.length
  counters : s.pool.allocations_ - s.pool.deallocations_ = UInt64.ofNat s.live.length
  destroyed : ∃ destroyed, s.pool.destroy = some destroyed ∧ destroyed.Perm (s.live.map LiveObject.ptr)

theorem Inv.unaliased (h : s.Inv capacity) (hleaked : s.leaked = []) : s.Unaliased capacity := by
  have hcount := h.count
  rw [hleaked, List.length_nil, Nat.add_zero] at hcount
  have hptrs : (s.live.map LiveObject.ptr).Nodup := by
    rw [h.map_ptr]
    exact h.slots_nodup.map (Function.LeftInverse.injective s.pool.slab.index_ptr)
  refine ⟨fun hfull v => ?_, fun hroom v => ?_, ⟨h.slots_nodup, hptrs⟩, fun x hx => (h.of_live hx).2.1, rfl,
    fun x hx => ?_, hcount, ?_, ?_, h.destroy_perm hleaked⟩
  · exact ObjectPool.allocate_exhausted (by omega) v
  · have hav : s.pool.available ≠ 0 := by omega
    obtain ⟨i, hi⟩ := exists_free hav
    obtain ⟨hfree, hlt, hslots, -⟩ := h.free_concat hi
    have hslot : i < s.pool.capacity := by rw [ObjectPool.capacity, h.storage]; exact hlt
    refine ⟨i, _, ObjectPool.allocate_concat hfree (h.bits ▸ hlt) hslot v, hlt, fun x hx => ?_⟩
    have hne : x.slot ≠ i := fun he => hslots (he ▸ List.mem_map_of_mem hx)
    refine ⟨hne, fun he => hne ?_⟩
    rw [← (h.of_live hx).1, he, Slab.index_ptr]
  · obtain ⟨hindex, hderef, -⟩ := h.of_live hx
    refine ⟨hindex, _, ObjectPool.deallocate_live hderef (h.index_lt_bits hx), ?_⟩
    rw [hindex]
  · rw [ObjectPool.inUse, ObjectPool.capacity, h.storage]
    omega
  · rw [h.counters, hleaked, List.length_nil, Nat.add_zero]

/-- Nothing leaks in a run without exceptions. -/
theorem leaked_along_iff (slab : Slab) (capacity : ℕ) (calls : List (PoolCall T)) :
    (∀ pre, pre <+: calls → ∀ s, After slab capacity pre s → s.leaked = []) ↔
      ∀ pre call, pre ++ [call] <+: calls → ∀ s, After slab capacity pre s → ¬ s.Throws call := by
  refine along_iff ?_ ?_
  · intro s hs
    cases hs
    rfl
  · intro pre call _ hp
    constructor
    · intro hnext s hs hthrows
      obtain ⟨i, hi⟩ := exists_free hthrows.2
      obtain ⟨s', hstep, -, hleaked, -⟩ := (inv_of_run hs).allocate_threw hi
      rw [← hthrows.1] at hstep
      rw [hnext s' (exec_concat hs hstep)] at hleaked
      simp at hleaked
    · intro hno s' hs'
      obtain ⟨s, hs, hstep⟩ := exists_last_step hs'
      rw [((inv_of_run hs).step hstep).2.kept (hno s hs)]
      exact hp s hs

/-- **No aliasing.** After any calls that construct without exceptions and give back
only live objects or `nullptr`. -/
theorem unaliased_of_run (hcalls : PoolCall.allocate none ∉ calls) (hrun : After slab capacity calls s) :
    s.Unaliased capacity := by
  have hnever : ∀ pre call, pre ++ [call] <+: calls → ∀ s, After slab capacity pre s → ¬ s.Throws call := by
    intro pre call hpre s _ hthrows
    exact hcalls (hpre.subset (by rw [← hthrows.1]; simp))
  have hleaked := (leaked_along_iff slab capacity calls).mpr hnever calls List.prefix_rfl s hrun
  exact (inv_of_run hrun).unaliased hleaked

/-- Two slots; the first object is given back and its slot used again. -/
def reuseCalls : List (PoolCall UInt64) :=
  [.allocate (some 5), .allocate (some 6), .deallocate (some ⟨0⟩), .allocate (some 7), .allocate (some 8),
    .deallocate none]

theorem unaliased_reuseCalls :
    ∃ s : PoolUse UInt64, After ⟨0, 8, by decide⟩ 2 reuseCalls s ∧
      s.live = [⟨1, ⟨8⟩, 6⟩, ⟨0, ⟨0⟩, 7⟩] ∧ s.Unaliased 2 := by
  have hends : (exec step (make ⟨0, 8, by decide⟩ 2) reuseCalls).map PoolUse.live =
      some [⟨1, ⟨8⟩, 6⟩, ⟨0, ⟨0⟩, 7⟩] := by decide
  obtain ⟨s, hrun, hlive⟩ := Option.map_eq_some_iff.mp hends
  exact ⟨s, hrun, hlive, unaliased_of_run (by decide) hrun⟩

/-! ### With exceptions -/

/-- What a call owes the pool when a constructor may throw. -/
structure ConstructionSafe (capacity : ℕ) (s : PoolUse T) (call : PoolCall T) (s' : PoolUse T) : Prop where
  untouched : call = .allocate none →
    s'.pool.freeList_ = s.pool.freeList_ ∧ s'.pool.inUse_ = s.pool.inUse_ ∧
      s'.pool.allocations_ = s.pool.allocations_ ∧ s'.pool.deallocations_ = s.pool.deallocations_
  accounted : s'.pool.available + s'.live.length = capacity
  destructible : s'.pool.destroy ≠ none

/-- **Failed constructions, exactly.** Every call of a run does what it owes the pool if
and only if no constructor throws, that is, an `allocate` whose constructor would throw
finds the pool exhausted. -/
theorem constructionSafe_along_iff (slab : Slab) (capacity : ℕ) (calls : List (PoolCall T)) :
    (∀ pre call, pre ++ [call] <+: calls → ∀ s s', After slab capacity pre s → s.step call = some s' →
        ConstructionSafe capacity s call s') ↔
      ∀ pre call, pre ++ [call] <+: calls → ∀ s, After slab capacity pre s → call = .allocate none →
        s.pool.available = 0 := by
  constructor
  · rintro hsafe pre call hpre s hs rfl
    by_contra hav
    obtain ⟨i, hi⟩ := exists_free hav
    obtain ⟨s', hstep, hinv, hleaked, -⟩ := (inv_of_run hs).allocate_threw hi
    -- the destructor would run on a slot without an object
    exact (hsafe pre _ hpre s s' hs hstep).destructible (hinv.destroy_eq_none (by simp [hleaked]))
  · intro hno
    have hnever : ∀ pre call, pre ++ [call] <+: calls → ∀ s, After slab capacity pre s →
        ¬ s.Throws call :=
      fun pre call hpre s hs hthrows => hthrows.2 (hno pre call hpre s hs hthrows.1)
    intro pre call hpre s s' hs hstep
    have hafter : After slab capacity (pre ++ [call]) s' := exec_concat hs hstep
    have hleaked := (leaked_along_iff slab capacity calls).mpr hnever _ hpre s' hafter
    have hunaliased := (inv_of_run hafter).unaliased hleaked
    refine ⟨fun hcall => ?_, hunaliased.available, ?_⟩
    · have hav := available_eq_zero_iff.mp (hno pre call hpre s hs hcall)
      rw [hcall, Inv.allocate_exhausted hav] at hstep
      cases hstep
      exact ⟨rfl, rfl, rfl, rfl⟩
    · obtain ⟨destroyed, hdestroy, -⟩ := hunaliased.destroyed
      rw [hdestroy]
      exact Option.some_ne_none _

/-- One slot, and a constructor that throws: the slot is gone, and the destructor runs
on it without an object. -/
theorem throwing_counterexample :
    ∃ s : PoolUse UInt64, After ⟨0, 8, by decide⟩ 1 [.allocate none] s ∧ s.live = [] ∧
      s.pool.available = 0 ∧ s.pool.allocations_ = 1 ∧ s.pool.inUse_ = [true] ∧ s.pool.destroy = none ∧
      ¬ ConstructionSafe 1 (make ⟨0, 8, by decide⟩ 1) (.allocate none) s := by
  refine ⟨_, rfl, rfl, rfl, rfl, rfl, rfl, fun h => ?_⟩
  exact h.destructible rfl

end PoolUse

end LatencyLab
