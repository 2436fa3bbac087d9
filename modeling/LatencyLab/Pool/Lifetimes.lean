import LatencyLab.Pool.ObjectPool
import LatencyLab.Transition.Exec

/-! An `ObjectPool` with its callers: the objects they hold, and constructors that may
throw. `allocate` takes the slot, marks it and counts it, and constructs the object
last, so an exception from the constructor leaves the slot taken with no object in it.
Every slot is then on the free list, under a live object, or leaked. -/

namespace LatencyLab

open Transition

namespace ObjectPool

variable {T : Type*}

/-- `allocate` where the constructor makes an object or, with `none`, throws; an
`error` is the exception with the pool as it leaves it. -/
def allocateWith (p : ObjectPool T) (construct : Option T) :
    Option (Except (ObjectPool T) (Option Ptr × ObjectPool T)) :=
  match p.freeList_.getLast? with
  | none => some (.ok (none, p))
  | some index =>
    if index < p.inUse_.length ∧ index < p.storage_.length then
      let p := { p with
        freeList_ := p.freeList_.dropLast
        inUse_ := p.inUse_.set index true
        allocations_ := p.allocations_ + 1 }
      match construct with
      | some v => some (.ok (some (p.slab.ptr index), { p with storage_ := p.storage_.set index (some v) }))
      | none => some (.error p)
    else none

def inUse (p : ObjectPool T) : ℕ := p.capacity - p.available

/-- The destructor's loop over some indices: the objects destroyed, `none` where a
destructor runs on a slot without an object. -/
def destroyEach (p : ObjectPool T) : List ℕ → Option (List Ptr)
  | [] => some []
  | index :: rest =>
    if p.inUse_[index]? = some true then
      match p.storage_[index]? with
      | some (some _) => (p.destroyEach rest).map (p.slab.ptr index :: ·)
      | _ => none
    else p.destroyEach rest

/-- `~ObjectPool`. -/
def destroy (p : ObjectPool T) : Option (List Ptr) := p.destroyEach (List.range p.inUse_.length)

/-- A constructor that does not throw. -/
theorem allocateWith_some (p : ObjectPool T) (v : T) : p.allocateWith (some v) = (p.allocate v).map .ok := by
  unfold allocateWith allocate
  cases p.freeList_.getLast? with
  | none => rfl
  | some index =>
    simp only
    split_ifs
    · rfl
    · rfl

end ObjectPool

/-! ### Callers -/

/-- An object as its holder knows it, with the slot `allocate` chose for it. -/
structure LiveObject (T : Type*) where
  slot : ℕ
  ptr : Ptr
  value : T
  deriving DecidableEq

/-- A call; `allocate` with the object that the constructor makes, if it does not throw. -/
inductive PoolCall (T : Type*)
  | allocate (construct : Option T)
  | deallocate (object : Option Ptr)
  deriving DecidableEq

/-- A pool with its live objects, and the slots whose construction failed. -/
structure PoolUse (T : Type*) where
  pool : ObjectPool T
  live : List (LiveObject T)
  leaked : List ℕ
  deriving DecidableEq

namespace PoolUse

variable {T : Type*}

def make (slab : Slab) (capacity : ℕ) : PoolUse T := ⟨ObjectPool.make slab capacity, [], []⟩

/-- One call; callers give back `nullptr` or an object they hold, and nothing else. -/
def step (s : PoolUse T) : PoolCall T → Option (PoolUse T)
  | .allocate construct =>
    (s.pool.allocateWith construct).map fun
      | .ok (object, pool) => { s with
          pool
          live := s.live ++ ((s.pool.freeList_.getLast?).bind fun slot =>
            object.bind fun q => construct.map fun v => ⟨slot, q, v⟩).toList }
      | .error pool => { s with pool, leaked := s.leaked ++ s.pool.freeList_.getLast?.toList }
  | .deallocate none => (s.pool.deallocate none).map fun pool => { s with pool }
  | .deallocate (some q) =>
    if s.live.any fun x => x.ptr = q then
      (s.pool.deallocate (some q)).map fun pool =>
        { s with pool, live := s.live.eraseP fun x => x.ptr = q }
    else none

/-- `s` is the state after some calls. -/
abbrev After (slab : Slab) (capacity : ℕ) (calls : List (PoolCall T)) (s : PoolUse T) : Prop :=
  exec step (make slab capacity) calls = some s

/-! ### Every slot has one place -/

/-- The slots of the live objects. -/
def slots (s : PoolUse T) : List ℕ := s.live.map LiveObject.slot

structure Inv (capacity : ℕ) (s : PoolUse T) : Prop where
  storage : s.pool.storage_.length = capacity
  bits : s.pool.inUse_.length = capacity
  partition : (s.pool.freeList_ ++ (s.slots ++ s.leaked)).Perm (List.range capacity)
  inUse : ∀ i : ℕ, s.pool.inUse_[i]? = some true ↔ i ∈ s.slots ∨ i ∈ s.leaked
  objects : ∀ (i : ℕ) v, s.pool.storage_[i]? = some (some v) ↔ ∃ x ∈ s.live, x.slot = i ∧ x.value = v
  ptrs : ∀ x ∈ s.live, x.ptr = s.pool.slab.ptr x.slot
  counters : s.pool.allocations_ - s.pool.deallocations_ = UInt64.ofNat (s.live.length + s.leaked.length)

theorem inv_make (slab : Slab) (capacity : ℕ) : (make slab capacity : PoolUse T).Inv capacity where
  storage := by simp [make, ObjectPool.make]
  bits := by simp [make, ObjectPool.make]
  partition := by
    simp only [make, ObjectPool.make, ObjectPool.fillFreeList_eq, slots, List.map_nil, List.nil_append,
      List.append_nil]
    exact List.reverse_perm _
  inUse i := by simp [make, ObjectPool.make, slots, List.getElem?_replicate]
  objects i v := by simp [make, ObjectPool.make, List.getElem?_replicate]
  ptrs x hx := by cases hx
  counters := by simp [make, ObjectPool.make]

variable {capacity : ℕ} {s s' : PoolUse T}

namespace Inv

theorem nodup (h : s.Inv capacity) : (s.pool.freeList_ ++ (s.slots ++ s.leaked)).Nodup :=
  h.partition.nodup_iff.mpr List.nodup_range

theorem slots_nodup (h : s.Inv capacity) : s.slots.Nodup :=
  (List.nodup_append.mp (List.nodup_append.mp h.nodup).2.1).1

theorem lt_of_mem (h : s.Inv capacity) {i : ℕ} (hi : i ∈ s.pool.freeList_ ++ (s.slots ++ s.leaked)) :
    i < capacity :=
  List.mem_range.mp (h.partition.mem_iff.mp hi)

/-- A free slot is under no object. -/
theorem not_mem_of_free (h : s.Inv capacity) {i : ℕ} (hi : i ∈ s.pool.freeList_) :
    i ∉ s.slots ++ s.leaked :=
  fun hmem => (List.nodup_append.mp h.nodup).2.2 i hi i hmem rfl

theorem count (h : s.Inv capacity) : s.pool.available + s.live.length + s.leaked.length = capacity := by
  have hlen := h.partition.length_eq
  rw [List.length_append, List.length_append, List.length_range, slots, List.length_map] at hlen
  rw [ObjectPool.available]
  omega

theorem map_ptr (h : s.Inv capacity) : s.live.map LiveObject.ptr = s.slots.map s.pool.slab.ptr := by
  rw [slots, List.map_map]
  exact List.map_congr_left h.ptrs

/-! #### Calls -/

theorem allocate_exhausted (hnone : s.pool.freeList_.getLast? = none) (construct : Option T) :
    s.step (.allocate construct) = some s := by
  simp [step, ObjectPool.allocateWith, hnone]

/-- The free list with its last slot. -/
theorem free_concat (h : s.Inv capacity) {i : ℕ} (hi : s.pool.freeList_.getLast? = some i) :
    s.pool.freeList_ = s.pool.freeList_.dropLast ++ [i] ∧ i < capacity ∧ i ∉ s.slots ∧ i ∉ s.leaked := by
  have hmem := List.mem_of_getLast? hi
  have hnot := h.not_mem_of_free hmem
  rw [List.mem_append, not_or] at hnot
  exact ⟨(List.dropLast_append_getLast? i hi).symm, h.lt_of_mem (List.mem_append_left _ hmem), hnot⟩

/-- The bits after slot `i` is marked. -/
theorem getElem?_mark (h : s.Inv capacity) {i : ℕ} (hi : i < capacity) (b : Bool) (j : ℕ) :
    (s.pool.inUse_.set i b)[j]? = if j = i then some b else s.pool.inUse_[j]? := by
  rw [List.getElem?_set, h.bits]
  simp only [if_pos hi, eq_comm]

/-- The cells after slot `i` is filled or emptied. -/
theorem getElem?_store (h : s.Inv capacity) {i : ℕ} (hi : i < capacity) (x : Option T) (j : ℕ) :
    (s.pool.storage_.set i x)[j]? = if j = i then some x else s.pool.storage_[j]? := by
  rw [List.getElem?_set, h.storage]
  simp only [if_pos hi, eq_comm]

/-- Slot `i` taken: the bits, the places of the slots and the counters, whether or not
an object comes into it. -/
theorem taken (h : s.Inv capacity) {i : ℕ} (hi : s.pool.freeList_.getLast? = some i) :
    (∀ j : ℕ, (s.pool.inUse_.set i true)[j]? = some true ↔ j = i ∨ j ∈ s.slots ∨ j ∈ s.leaked) ∧
      (s.pool.freeList_.dropLast ++ i :: (s.slots ++ s.leaked)).Perm (List.range capacity) ∧
      s.pool.allocations_ + 1 - s.pool.deallocations_ = UInt64.ofNat (s.live.length + s.leaked.length + 1) := by
  obtain ⟨hfree, hlt, -, -⟩ := h.free_concat hi
  refine ⟨fun j => ?_, ?_, ?_⟩
  · rw [h.getElem?_mark hlt]
    by_cases hj : j = i
    · simp [hj]
    · rw [if_neg hj, h.inUse]
      simp [hj]
  · have hpart := h.partition
    rwa [hfree, List.append_assoc, List.singleton_append] at hpart
  · rw [UInt64.ofNat_add, ← h.counters, UInt64.ofNat_one]
    abel

/-- A successful construction. -/
theorem allocate_made (h : s.Inv capacity) {i : ℕ} (hi : s.pool.freeList_.getLast? = some i) (v : T) :
    ∃ s', s.step (.allocate (some v)) = some s' ∧ s'.Inv capacity ∧ s'.leaked = s.leaked ∧
      s'.live = s.live ++ [⟨i, s.pool.slab.ptr i, v⟩] := by
  obtain ⟨-, hlt, hslots, -⟩ := h.free_concat hi
  obtain ⟨hbits, hpart, hcounters⟩ := h.taken hi
  have hrange : i < s.pool.inUse_.length ∧ i < s.pool.storage_.length := ⟨h.bits ▸ hlt, h.storage ▸ hlt⟩
  refine ⟨{ s with
    pool := { s.pool with
      freeList_ := s.pool.freeList_.dropLast
      inUse_ := s.pool.inUse_.set i true
      allocations_ := s.pool.allocations_ + 1
      storage_ := s.pool.storage_.set i (some v) }
    live := s.live ++ [⟨i, s.pool.slab.ptr i, v⟩] }, ?_, ?_, rfl, rfl⟩
  · simp [step, ObjectPool.allocateWith, hi, hrange]
  · refine ⟨?_, ?_, ?_, fun j => ?_, fun j w => ?_, fun x hx => ?_, ?_⟩
    · rw [List.length_set, h.storage]
    · rw [List.length_set, h.bits]
    · refine List.Perm.trans ?_ hpart
      simp only [slots, List.map_append, List.map_singleton, List.append_assoc, List.singleton_append]
      exact List.Perm.append_left _ List.perm_middle
    · rw [hbits j, slots, slots, List.map_append, List.map_singleton, List.mem_append, List.mem_singleton]
      tauto
    · simp only [h.getElem?_store hlt, List.mem_append, List.mem_singleton, or_and_right, exists_or,
        exists_eq_left]
      by_cases hj : j = i
      · have hno : ¬ ∃ x ∈ s.live, x.slot = i ∧ x.value = w :=
          fun ⟨x, hx, hxi, _⟩ => hslots (hxi ▸ List.mem_map_of_mem hx)
        simp [hj, hno]
      · simp [hj, h.objects, Ne.symm hj]
    · rcases List.mem_append.mp hx with hx | hx
      · exact h.ptrs x hx
      · rw [List.mem_singleton.mp hx]
    · rw [List.length_append, List.length_singleton, Nat.add_right_comm]
      exact hcounters

/-- A construction that throws leaks its slot. -/
theorem allocate_threw (h : s.Inv capacity) {i : ℕ} (hi : s.pool.freeList_.getLast? = some i) :
    ∃ s', s.step (.allocate none) = some s' ∧ s'.Inv capacity ∧ s'.leaked = s.leaked ++ [i] ∧
      s'.live = s.live := by
  obtain ⟨-, hlt, -, -⟩ := h.free_concat hi
  obtain ⟨hbits, hpart, hcounters⟩ := h.taken hi
  have hrange : i < s.pool.inUse_.length ∧ i < s.pool.storage_.length := ⟨h.bits ▸ hlt, h.storage ▸ hlt⟩
  refine ⟨{ s with
    pool := { s.pool with
      freeList_ := s.pool.freeList_.dropLast
      inUse_ := s.pool.inUse_.set i true
      allocations_ := s.pool.allocations_ + 1 }
    leaked := s.leaked ++ [i] }, ?_, ?_, rfl, rfl⟩
  · simp [step, ObjectPool.allocateWith, hi, hrange]
  · refine ⟨h.storage, ?_, ?_, fun j => ?_, h.objects, h.ptrs, ?_⟩
    · rw [List.length_set, h.bits]
    · refine List.Perm.trans (List.Perm.append_left _ ?_) hpart
      rw [← List.append_assoc]
      exact List.perm_append_singleton _ _
    · rw [hbits j, List.mem_append, List.mem_singleton]
      tauto
    · rw [List.length_append, List.length_singleton, ← Nat.add_assoc]
      exact hcounters

/-- A live object is read through its pointer, which leads back to its slot. -/
theorem of_live (h : s.Inv capacity) {x : LiveObject T} (hx : x ∈ s.live) :
    s.pool.slab.index x.ptr = x.slot ∧ s.pool.deref x.ptr = some x.value ∧ x.slot < capacity := by
  have hindex : s.pool.slab.index x.ptr = x.slot := by rw [h.ptrs x hx, Slab.index_ptr]
  have hmem : x.slot ∈ s.slots := List.mem_map_of_mem hx
  refine ⟨hindex, ?_, h.lt_of_mem (List.mem_append_right _ (List.mem_append_left _ hmem))⟩
  rw [ObjectPool.deref_eq_some, hindex]
  exact ⟨h.ptrs x hx, (h.objects _ _).mpr ⟨x, hx, rfl, rfl⟩⟩

theorem index_lt_bits (h : s.Inv capacity) {x : LiveObject T} (hx : x ∈ s.live) :
    s.pool.slab.index x.ptr < s.pool.inUse_.length := by
  obtain ⟨hindex, -, hlt⟩ := h.of_live hx
  rw [hindex, h.bits]
  exact hlt

/-- The object behind a pointer that a caller holds, and the objects around it. -/
theorem live_split {q : Ptr} (hq : ∃ x ∈ s.live, x.ptr = q) :
    ∃ before x after, s.live = before ++ x :: after ∧ x.ptr = q ∧
      s.live.eraseP (fun x => x.ptr = q) = before ++ after := by
  obtain ⟨x, hx, hxq⟩ := hq
  obtain ⟨y, before, after, -, hy, hlive, herase⟩ :=
    List.exists_of_eraseP (p := fun x : LiveObject T => x.ptr = q) hx (decide_eq_true hxq)
  exact ⟨before, y, after, hlive, of_decide_eq_true hy, herase⟩

/-- A live object is given back: its slot, recovered from the pointer, is free again. -/
theorem deallocate_live (h : s.Inv capacity) {before after : List (LiveObject T)} {x : LiveObject T}
    (hlive : s.live = before ++ x :: after)
    (herase : s.live.eraseP (fun y => y.ptr = x.ptr) = before ++ after) :
    ∃ s', s.step (.deallocate (some x.ptr)) = some s' ∧ s'.Inv capacity ∧ s'.leaked = s.leaked ∧
      s'.live = before ++ after ∧ s.pool.slab.index x.ptr = x.slot ∧
      s'.pool.freeList_ = s.pool.freeList_ ++ [x.slot] := by
  have hx : x ∈ s.live := by rw [hlive]; simp
  obtain ⟨hindex, hderef, hlt⟩ := h.of_live hx
  have hany : s.live.any (fun y => y.ptr = x.ptr) = true := List.any_eq_true.mpr ⟨x, hx, by simp⟩
  -- the other objects are in other slots
  have hothers : x.slot ∉ (before ++ after).map LiveObject.slot ∧ x.slot ∉ s.leaked := by
    have hnodup := (List.nodup_append.mp h.nodup).2.1
    rw [slots, hlive, List.map_append, List.map_cons, List.append_assoc, List.cons_append,
      List.nodup_middle, List.nodup_cons] at hnodup
    have hnot := hnodup.1
    simp only [List.mem_append, not_or] at hnot
    rw [List.map_append, List.mem_append, not_or]
    exact ⟨⟨hnot.1, hnot.2.1⟩, hnot.2.2⟩
  have hslots : ∀ j, j ∈ s.slots ↔ j = x.slot ∨ j ∈ (before ++ after).map LiveObject.slot := by
    intro j
    simp only [slots, hlive, List.map_append, List.map_cons, List.mem_append, List.mem_cons]
    tauto
  refine ⟨{ s with
    pool := { s.pool with
      storage_ := s.pool.storage_.set x.slot none
      inUse_ := s.pool.inUse_.set x.slot false
      freeList_ := s.pool.freeList_ ++ [x.slot]
      deallocations_ := s.pool.deallocations_ + 1 }
    live := before ++ after }, ?_, ?_, rfl, rfl, hindex, rfl⟩
  · rw [step, if_pos hany, herase, ObjectPool.deallocate_live hderef (h.index_lt_bits hx), hindex, Option.map_some]
  · refine ⟨?_, ?_, ?_, fun j => ?_, fun j w => ?_, fun y hy => ?_, ?_⟩
    · rw [List.length_set, h.storage]
    · rw [List.length_set, h.bits]
    · refine List.Perm.trans ?_ h.partition
      simp only [slots, hlive, List.map_append, List.map_cons, List.append_assoc, List.cons_append,
        List.nil_append]
      exact List.Perm.append_left _ List.perm_middle.symm
    · simp only [h.getElem?_mark hlt, slots]
      by_cases hj : j = x.slot
      · rw [if_pos hj, hj]
        exact iff_of_false (by simp) (not_or.mpr hothers)
      · rw [if_neg hj, h.inUse, hslots]
        simp [hj]
    · simp only [h.getElem?_store hlt]
      by_cases hj : j = x.slot
      · have hno : ¬ ∃ y ∈ before ++ after, y.slot = x.slot ∧ y.value = w :=
          fun ⟨y, hy, hys, _⟩ => hothers.1 (hys ▸ List.mem_map_of_mem hy)
        simpa [hj] using hno
      · rw [if_neg hj, h.objects, hlive]
        simp only [List.mem_append, List.mem_cons]
        constructor
        · rintro ⟨y, hy | rfl | hy, hyj, hyw⟩
          · exact ⟨y, .inl hy, hyj, hyw⟩
          · exact absurd hyj.symm hj
          · exact ⟨y, .inr hy, hyj, hyw⟩
        · rintro ⟨y, hy | hy, hyj, hyw⟩
          · exact ⟨y, .inl hy, hyj, hyw⟩
          · exact ⟨y, .inr (.inr hy), hyj, hyw⟩
    · refine h.ptrs y ?_
      rw [hlive]
      simp only [List.mem_append, List.mem_cons] at hy ⊢
      tauto
    · have hlen : s.live.length + s.leaked.length = (before ++ after).length + s.leaked.length + 1 := by
        rw [hlive]
        simp only [List.length_append, List.length_cons]
        omega
      have hcount := h.counters
      rw [hlen, UInt64.ofNat_add, UInt64.ofNat_one] at hcount
      change s.pool.allocations_ - (s.pool.deallocations_ + 1) = _
      rw [← sub_sub, hcount, add_sub_cancel_right]

end Inv

theorem available_eq_zero_iff : s.pool.available = 0 ↔ s.pool.freeList_.getLast? = none := by
  rw [ObjectPool.available, List.length_eq_zero_iff, List.getLast?_eq_none_iff]

theorem exists_free (hav : s.pool.available ≠ 0) : ∃ i, s.pool.freeList_.getLast? = some i :=
  Option.ne_none_iff_exists'.mp fun hnone => hav (available_eq_zero_iff.mpr hnone)

/-- The constructor of this call throws; an exhausted pool never gets to it. -/
def Throws (s : PoolUse T) (call : PoolCall T) : Prop := call = .allocate none ∧ s.pool.available ≠ 0

/-- What a call can do to the leaks. -/
structure Leaks (s : PoolUse T) (call : PoolCall T) (s' : PoolUse T) : Prop where
  thrown : s.Throws call → s'.leaked.length = s.leaked.length + 1
  kept : ¬ s.Throws call → s'.leaked = s.leaked

theorem Inv.step (h : s.Inv capacity) {call : PoolCall T} (hs : s.step call = some s') :
    s'.Inv capacity ∧ s.Leaks call s' := by
  cases call with
  | allocate construct =>
    cases hfree : s.pool.freeList_.getLast? with
    | none =>
      have hav := available_eq_zero_iff.mpr hfree
      rw [Inv.allocate_exhausted hfree] at hs
      cases hs
      exact ⟨h, fun ht => absurd hav ht.2, fun _ => rfl⟩
    | some i =>
      have hav : s.pool.available ≠ 0 := fun h0 => by rw [available_eq_zero_iff.mp h0] at hfree; cases hfree
      cases construct with
      | some v =>
        obtain ⟨t, ht, hinv, hleaked, -⟩ := h.allocate_made hfree v
        cases ht.symm.trans hs
        exact ⟨hinv, fun hthrows => (by cases hthrows.1), fun _ => hleaked⟩
      | none =>
        obtain ⟨t, ht, hinv, hleaked, -⟩ := h.allocate_threw hfree
        cases ht.symm.trans hs
        exact ⟨hinv, fun _ => (by rw [hleaked, List.length_append, List.length_singleton]),
          fun hno => absurd ⟨rfl, hav⟩ hno⟩
  | deallocate object =>
    cases object with
    | none =>
      cases hs
      exact ⟨h, fun hthrows => (by cases hthrows.1), fun _ => rfl⟩
    | some q =>
      have hheld : ∃ x ∈ s.live, x.ptr = q := by
        by_contra hno
        have hany : ¬ (s.live.any fun x => x.ptr = q) = true := by simpa using hno
        rw [PoolUse.step, if_neg hany] at hs
        cases hs
      obtain ⟨before, x, after, hlive, rfl, herase⟩ := live_split hheld
      obtain ⟨t, ht, hinv, hleaked, -⟩ := h.deallocate_live hlive herase
      cases ht.symm.trans hs
      exact ⟨hinv, fun hthrows => (by cases hthrows.1), fun _ => hleaked⟩

variable {slab : Slab} {calls : List (PoolCall T)}

theorem inv_of_run (h : After slab capacity calls s) : s.Inv capacity :=
  exec_invariant (fun _ _ _ hi hs => (hi.step hs).1) (inv_make slab capacity) h

end PoolUse

end LatencyLab
