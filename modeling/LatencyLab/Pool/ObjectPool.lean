import Mathlib.Data.UInt
import Mathlib.Data.List.Nodup
import Mathlib.Data.List.Range
import Mathlib.Tactic.Abel

/-! `ObjectPool<T>`: a slab of slots with a free list, an in-use bit for each
slot and two counters. Objects are known to the caller by address only;
`deallocate` recovers the slot by byte arithmetic and never checks the in-use
bit. An operation is `none` where the source has undefined behaviour. -/

namespace LatencyLab

/-- A non-null `T*`, as a byte address. -/
structure Ptr where
  addr : ℕ
  deriving DecidableEq

/-- Where the slab lies: `storage_.data()` and `sizeof(Storage)`. -/
structure Slab where
  data : ℕ
  stride : ℕ
  stride_pos : 0 < stride
  deriving DecidableEq

namespace Slab

/-- `&storage_[index]`. -/
def ptr (s : Slab) (index : ℕ) : Ptr := ⟨s.data + index * s.stride⟩

/-- `static_cast<std::size_t>(current - base) / sizeof(Storage)`. -/
def index (s : Slab) (q : Ptr) : ℕ := (q.addr - s.data) / s.stride

@[simp] theorem index_ptr (s : Slab) (i : ℕ) : s.index (s.ptr i) = i := by
  simp [index, ptr, Nat.mul_div_cancel _ s.stride_pos]

end Slab

/-- A slot of `storage_` holds an object between construction and destruction. -/
structure ObjectPool (T : Type*) where
  slab : Slab
  storage_ : List (Option T)
  freeList_ : List ℕ
  inUse_ : List Bool
  allocations_ : UInt64
  deallocations_ : UInt64
  deriving DecidableEq

namespace ObjectPool

variable {T : Type*}

/-- The `push_back(index - 1)` loop of the constructor, `index` counting down. -/
def fillFreeList (freeList : List ℕ) : ℕ → List ℕ
  | 0 => freeList
  | index + 1 => fillFreeList (freeList ++ [index]) index

def make (slab : Slab) (capacity : ℕ) : ObjectPool T where
  slab := slab
  storage_ := List.replicate capacity none
  freeList_ := fillFreeList [] capacity
  inUse_ := List.replicate capacity false
  allocations_ := 0
  deallocations_ := 0

def capacity (p : ObjectPool T) : ℕ := p.storage_.length
def available (p : ObjectPool T) : ℕ := p.freeList_.length

/-- Reading through a pointer, defined where an object lives. -/
def deref (p : ObjectPool T) (q : Ptr) : Option T :=
  if q = p.slab.ptr (p.slab.index q) then (p.storage_[p.slab.index q]?).join else none

/-- Writing through a pointer. -/
def write (p : ObjectPool T) (q : Ptr) (v : T) : Option (ObjectPool T) :=
  (p.deref q).map fun _ => { p with storage_ := p.storage_.set (p.slab.index q) (some v) }

/-- The inner `none` is `nullptr`. -/
def allocate (p : ObjectPool T) (v : T) : Option (Option Ptr × ObjectPool T) :=
  match p.freeList_.getLast? with
  | none => some (none, p)
  | some index =>
    if index < p.inUse_.length ∧ index < p.storage_.length then
      some (some (p.slab.ptr index), { p with
        freeList_ := p.freeList_.dropLast
        inUse_ := p.inUse_.set index true
        allocations_ := p.allocations_ + 1
        storage_ := p.storage_.set index (some v) })
    else none

def deallocate (p : ObjectPool T) : Option Ptr → Option (ObjectPool T)
  | none => some p
  | some object =>
    let index := p.slab.index object
    -- `object->~T()` needs an object, `in_use_[index] = false` an index in range
    if (p.deref object).isSome ∧ index < p.inUse_.length then
      some { p with
        storage_ := p.storage_.set index none
        inUse_ := p.inUse_.set index false
        freeList_ := p.freeList_ ++ [index]
        deallocations_ := p.deallocations_ + 1 }
    else none

/-! ### The pool invariant -/

/-- Free list, in-use bits, constructed objects and counters tell one story. -/
structure Valid (p : ObjectPool T) : Prop where
  bits_length : p.inUse_.length = p.capacity
  free_nodup : p.freeList_.Nodup
  mem_free : ∀ i : ℕ, i ∈ p.freeList_ ↔ p.inUse_[i]? = some false
  constructed : ∀ i : ℕ, p.inUse_[i]? = some true ↔ ∃ v, p.storage_[i]? = some (some v)
  accounting : p.allocations_ - p.deallocations_ = UInt64.ofNat (p.capacity - p.available)

theorem fillFreeList_eq (freeList : List ℕ) (n : ℕ) :
    fillFreeList freeList n = freeList ++ (List.range n).reverse := by
  induction n generalizing freeList with
  | zero => simp [fillFreeList]
  | succ n ih => simp [fillFreeList, ih, List.range_succ]

theorem valid_make (slab : Slab) (n : ℕ) : (make slab n : ObjectPool T).Valid where
  bits_length := by simp [make, capacity]
  free_nodup := by
    rw [make, fillFreeList_eq, List.nil_append, List.nodup_reverse]
    exact List.nodup_range
  mem_free i := by simp [make, fillFreeList_eq, List.getElem?_replicate]
  constructed i := by simp [make, List.getElem?_replicate]
  accounting := by simp [make, fillFreeList_eq, capacity, available]

section Valid

variable {p : ObjectPool T} {q : Ptr} {v : T}

/-- An object read through a pointer sits in the slot of that pointer. -/
theorem deref_eq_some : p.deref q = some v ↔
    q = p.slab.ptr (p.slab.index q) ∧ p.storage_[p.slab.index q]? = some (some v) := by
  unfold deref
  split_ifs with h
  · simp [← h, Option.join_eq_some_iff]
  · simp [h]

/-- Setting one slot changes what is read through that slot's pointer only. -/
theorem deref_set {p' : ObjectPool T} {i : ℕ} {x : Option T}
    (h : p'.slab = p.slab ∧ p'.storage_ = p.storage_.set i x) (hi : i < p.capacity) (q : Ptr) :
    p'.deref q = if q = p.slab.ptr i then x else p.deref q := by
  unfold deref
  rw [h.1, h.2]
  by_cases hq : q = p.slab.ptr i
  · subst hq
    simp [List.getElem?_set_self hi]
  · simp only [hq, if_false]
    split_ifs with h
    · have hne : i ≠ p.slab.index q := fun e => hq (e ▸ h)
      rw [List.getElem?_set_ne hne]
    · rfl

theorem Valid.lt_of_free (h : p.Valid) {i : ℕ} (hi : i ∈ p.freeList_) : i < p.capacity := by
  rw [h.mem_free] at hi
  rw [← h.bits_length]
  exact (List.getElem?_eq_some_iff.mp hi).1

theorem Valid.available_le (h : p.Valid) : p.available ≤ p.capacity := by
  have hsub : p.freeList_ ⊆ List.range p.capacity := fun i hi => List.mem_range.mpr (h.lt_of_free hi)
  simpa [available] using (List.subperm_of_subset h.free_nodup hsub).length_le

/-- A slot in use leaves at least one slot out of the free list. -/
theorem Valid.available_lt (h : p.Valid) {i : ℕ} (hi : p.inUse_[i]? = some true) :
    p.available < p.capacity := by
  have hnot : i ∉ p.freeList_ := by simp [h.mem_free, hi]
  have hn : (i :: p.freeList_).Nodup := List.nodup_cons.mpr ⟨hnot, h.free_nodup⟩
  have hlt : i < p.capacity := by
    rw [← h.bits_length]
    exact (List.getElem?_eq_some_iff.mp hi).1
  have hsub : (i :: p.freeList_) ⊆ List.range p.capacity := by
    intro j hj
    rcases List.mem_cons.mp hj with rfl | hj
    · exact List.mem_range.mpr hlt
    · exact List.mem_range.mpr (h.lt_of_free hj)
  have hle := (List.subperm_of_subset hn hsub).length_le
  simp only [List.length_cons, List.length_range] at hle
  exact hle

theorem Valid.inUse_of_deref (h : p.Valid) (hq : p.deref q = some v) :
    p.inUse_[p.slab.index q]? = some true :=
  (h.constructed _).mpr ⟨v, (deref_eq_some.mp hq).2⟩

theorem Valid.lt_of_inUse (h : p.Valid) {i : ℕ} (hi : p.inUse_[i]? = some true) : i < p.capacity := by
  rw [← h.bits_length]
  exact (List.getElem?_eq_some_iff.mp hi).1

end Valid

/-! ### The operations -/

section Operations

variable {p : ObjectPool T}

/-- An exhausted pool gives `nullptr` and stays as it is. -/
theorem allocate_exhausted (h : p.available = 0) (v : T) : p.allocate v = some (none, p) := by
  have : p.freeList_ = [] := List.length_eq_zero_iff.mp h
  simp [allocate, this]

/-- `allocate` on a pool with a free slot `i`, the last of the free list. -/
structure Allocated (p : ObjectPool T) (v : T) (i : ℕ) (p' : ObjectPool T) : Prop where
  slab : p'.slab = p.slab
  valid : p'.Valid
  capacity : p'.capacity = p.capacity
  was_free : i ∈ p.freeList_
  available : p'.available + 1 = p.available
  allocations : p'.allocations_ = p.allocations_ + 1
  deallocations : p'.deallocations_ = p.deallocations_
  inUse : ∀ j : ℕ, p'.inUse_[j]? = if j = i then some true else p.inUse_[j]?
  deref : ∀ q, p'.deref q = if q = p.slab.ptr i then some v else p.deref q

theorem allocate_concat {init : List ℕ} {i : ℕ} (hl : p.freeList_ = init ++ [i])
    (hbit : i < p.inUse_.length) (hlt : i < p.capacity) (v : T) :
    p.allocate v = some (some (p.slab.ptr i), { p with
      freeList_ := init
      inUse_ := p.inUse_.set i true
      allocations_ := p.allocations_ + 1
      storage_ := p.storage_.set i (some v) }) := by
  simp only [allocate, hl, List.getLast?_concat, List.dropLast_concat]
  exact if_pos ⟨hbit, hlt⟩

theorem allocate_spec (h : p.Valid) (hfree : p.available ≠ 0) (v : T) :
    ∃ i p', p.allocate v = some (some (p.slab.ptr i), p') ∧ Allocated p v i p' := by
  obtain ⟨init, i, hl⟩ : ∃ init i, p.freeList_ = init ++ [i] := by
    rcases List.eq_nil_or_concat p.freeList_ with h0 | h1
    · exact absurd (by simp [available, h0]) hfree
    · simpa using h1
  have hi : i ∈ p.freeList_ := by simp [hl]
  have hlt := h.lt_of_free hi
  have hlt' : i < p.inUse_.length := h.bits_length ▸ hlt
  have hnodup := h.free_nodup
  rw [hl, List.nodup_append] at hnodup
  have hnot : i ∉ init := fun hm => hnodup.2.2 i hm i (by simp) rfl
  refine ⟨i, _, allocate_concat hl hlt' hlt v, ?_⟩
  have hbit : ∀ j : ℕ, (p.inUse_.set i true)[j]? = if j = i then some true else p.inUse_[j]? := by
    intro j
    by_cases hj : j = i
    · rw [hj, List.getElem?_set_self hlt', if_pos rfl]
    · rw [List.getElem?_set_ne (Ne.symm hj), if_neg hj]
  refine ⟨rfl, ⟨?_, ?_, ?_, ?_, ?_⟩, by simp [capacity], hi, by simp [available, hl], rfl, rfl, hbit,
    fun q => deref_set (by exact ⟨rfl, rfl⟩) hlt q⟩
  · simp [capacity, h.bits_length]
  · simpa [hl] using hnodup.1
  · intro j
    rw [hbit]
    have hmem := h.mem_free j
    rw [hl] at hmem
    by_cases hj : j = i
    · simp [hj, hnot]
    · simpa [hl, hj] using hmem
  · intro j
    rw [hbit]
    by_cases hj : j = i
    · rw [hj, List.getElem?_set_self hlt]
      simp
    · rw [if_neg hj, List.getElem?_set_ne (Ne.symm hj)]
      exact h.constructed j
  · have hle := h.available_le
    have hacc := h.accounting
    simp only [available, hl, List.length_append, List.length_singleton] at hle hacc
    simp only [capacity, available, List.length_set]
    rw [show p.storage_.length - init.length = p.storage_.length - (init.length + 1) + 1 by
      simp only [capacity] at hle; omega, UInt64.ofNat_add]
    simp only [capacity] at hacc
    rw [← hacc, UInt64.ofNat_one]
    abel

/-- `deallocate` of a live object. -/
structure Deallocated (p : ObjectPool T) (q : Ptr) (p' : ObjectPool T) : Prop where
  slab : p'.slab = p.slab
  valid : p'.Valid
  capacity : p'.capacity = p.capacity
  was_inUse : p.inUse_[p.slab.index q]? = some true
  available : p'.available = p.available + 1
  allocations : p'.allocations_ = p.allocations_
  deallocations : p'.deallocations_ = p.deallocations_ + 1
  inUse : ∀ j : ℕ, p'.inUse_[j]? = if j = p.slab.index q then some false else p.inUse_[j]?
  deref : ∀ q', p'.deref q' = if q' = q then none else p.deref q'

theorem deallocate_live {q : Ptr} {v : T} (hq : p.deref q = some v)
    (hbit : p.slab.index q < p.inUse_.length) :
    p.deallocate (some q) = some { p with
      storage_ := p.storage_.set (p.slab.index q) none
      inUse_ := p.inUse_.set (p.slab.index q) false
      freeList_ := p.freeList_ ++ [p.slab.index q]
      deallocations_ := p.deallocations_ + 1 } := by
  simp only [deallocate, hq, Option.isSome_some, hbit, and_self, if_true]

theorem deallocate_spec (h : p.Valid) {q : Ptr} {v : T} (hq : p.deref q = some v) :
    ∃ p', p.deallocate (some q) = some p' ∧ Deallocated p q p' := by
  have huse := h.inUse_of_deref hq
  have hlt := h.lt_of_inUse huse
  have hlt' : p.slab.index q < p.inUse_.length := h.bits_length ▸ hlt
  have hnot : p.slab.index q ∉ p.freeList_ := by simp [h.mem_free, huse]
  have hptr := (deref_eq_some.mp hq).1
  refine ⟨_, deallocate_live hq hlt', ?_⟩
  have hbit : ∀ j : ℕ, (p.inUse_.set (p.slab.index q) false)[j]? =
      if j = p.slab.index q then some false else p.inUse_[j]? := by
    intro j
    by_cases hj : j = p.slab.index q
    · rw [hj, List.getElem?_set_self hlt', if_pos rfl]
    · rw [List.getElem?_set_ne (Ne.symm hj), if_neg hj]
  refine ⟨rfl, ⟨?_, ?_, ?_, ?_, ?_⟩, by simp [capacity], huse, by simp [available], rfl, rfl, hbit, ?_⟩
  · simp [capacity, h.bits_length]
  · exact List.nodup_append.mpr ⟨h.free_nodup, by simp, fun a ha b hb e =>
      hnot (by rw [List.mem_singleton] at hb; rwa [← hb, ← e])⟩
  · intro j
    rw [hbit, List.mem_append, List.mem_singleton, h.mem_free]
    by_cases hj : j = p.slab.index q <;> simp [hj]
  · intro j
    rw [hbit]
    by_cases hj : j = p.slab.index q
    · rw [hj, List.getElem?_set_self hlt]
      simp
    · rw [if_neg hj, List.getElem?_set_ne (Ne.symm hj)]
      exact h.constructed j
  · have hav := h.available_lt huse
    have hacc := h.accounting
    simp only [capacity, available] at hav hacc
    simp only [capacity, available, List.length_set, List.length_append, List.length_singleton]
    rw [show p.storage_.length - p.freeList_.length =
      p.storage_.length - (p.freeList_.length + 1) + 1 by omega, UInt64.ofNat_add, UInt64.ofNat_one] at hacc
    rw [← add_sub_cancel_right (UInt64.ofNat _) 1, ← hacc]
    abel
  · intro q'
    exact (deref_set (by exact ⟨rfl, rfl⟩) hlt q').trans (by rw [← hptr])

/-- Assignment through a pointer to a live object. -/
structure Written (p : ObjectPool T) (q : Ptr) (v : T) (p' : ObjectPool T) : Prop where
  slab : p'.slab = p.slab
  valid : p'.Valid
  capacity : p'.capacity = p.capacity
  freeList : p'.freeList_ = p.freeList_
  inUse : p'.inUse_ = p.inUse_
  allocations : p'.allocations_ = p.allocations_
  deallocations : p'.deallocations_ = p.deallocations_
  deref : ∀ q', p'.deref q' = if q' = q then some v else p.deref q'

theorem write_live {q : Ptr} {v₀ : T} (hq : p.deref q = some v₀) (v : T) :
    p.write q v = some { p with storage_ := p.storage_.set (p.slab.index q) (some v) } := by
  simp only [write, hq, Option.map_some]

theorem write_spec (h : p.Valid) {q : Ptr} {v₀ : T} (hq : p.deref q = some v₀) (v : T) :
    ∃ p', p.write q v = some p' ∧ Written p q v p' := by
  have hlt := h.lt_of_inUse (h.inUse_of_deref hq)
  obtain ⟨hptr, hst⟩ := deref_eq_some.mp hq
  refine ⟨_, write_live hq v, ?_⟩
  refine ⟨rfl, ⟨?_, h.free_nodup, h.mem_free, ?_, ?_⟩, by simp [capacity], rfl, rfl, rfl, rfl, ?_⟩
  · simp [capacity, h.bits_length]
  · intro j
    by_cases hj : j = p.slab.index q
    · rw [hj, List.getElem?_set_self hlt, h.constructed, hst]
      simp
    · rw [List.getElem?_set_ne (Ne.symm hj)]
      exact h.constructed j
  · simpa [capacity, available] using h.accounting
  · intro q'
    exact (deref_set (by exact ⟨rfl, rfl⟩) hlt q').trans (by rw [← hptr])

/-- What a caller that makes at most one call does to the bits and the counters:
a slot handed out was free, a slot taken back was in use. -/
inductive Turnover (p p' : ObjectPool T) : Prop
  | idle (bits : p'.inUse_ = p.inUse_) (allocations : p'.allocations_ = p.allocations_)
      (deallocations : p'.deallocations_ = p.deallocations_)
  | handOut (i : ℕ) (free : p.inUse_[i]? = some false)
      (bits : ∀ j : ℕ, p'.inUse_[j]? = if j = i then some true else p.inUse_[j]?)
      (allocations : p'.allocations_ = p.allocations_ + 1)
      (deallocations : p'.deallocations_ = p.deallocations_)
  | takeBack (i : ℕ) (inUse : p.inUse_[i]? = some true)
      (bits : ∀ j : ℕ, p'.inUse_[j]? = if j = i then some false else p.inUse_[j]?)
      (allocations : p'.allocations_ = p.allocations_)
      (deallocations : p'.deallocations_ = p.deallocations_ + 1)

theorem Turnover.refl (p : ObjectPool T) : Turnover p p := .idle rfl rfl rfl

theorem Allocated.turnover {v : T} {i : ℕ} {p' : ObjectPool T} (ha : Allocated p v i p') (h : p.Valid) :
    Turnover p p' :=
  .handOut i ((h.mem_free i).mp ha.was_free) ha.inUse ha.allocations ha.deallocations

theorem Deallocated.turnover {q : Ptr} {p' : ObjectPool T} (hd : Deallocated p q p') : Turnover p p' :=
  .takeBack _ hd.was_inUse hd.inUse hd.allocations hd.deallocations

theorem Written.turnover {q : Ptr} {v : T} {p' : ObjectPool T} (hw : Written p q v p') : Turnover p p' :=
  .idle hw.inUse hw.allocations hw.deallocations

/-- Writing to an object before taking its slot back is still one call. -/
theorem Written.turnover_deallocated {q q' : Ptr} {v : T} {p' p'' : ObjectPool T} (hw : Written p q v p')
    (hd : Deallocated p' q' p'') : Turnover p p'' := by
  refine .takeBack (p'.slab.index q') ?_ (fun j => ?_) ?_ ?_
  · rw [← hw.inUse, hd.was_inUse]
  · rw [hd.inUse, hw.inUse]
  · rw [hd.allocations, hw.allocations]
  · rw [hd.deallocations, hw.deallocations]

end Operations

end ObjectPool

end LatencyLab
