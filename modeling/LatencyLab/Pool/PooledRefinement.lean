import LatencyLab.Book.SideLists
import LatencyLab.Book.Refinement
import LatencyLab.Pool.PooledOrderBook

/-! `PooledOrderBook` refines the reference book with a bound on the number of
live orders. `Pointers` ties `order_map_` and the pool to the live orders; the
sides are tied by `Lists` as in `OrderBook`. No message meets an undefined pool
operation. The aggregates are kept apart: Modify keeps them true only under a
condition on the level it changes. -/

namespace LatencyLab

open Std Keyed ReferenceBook ObjectPool

/-- Every live order is the object behind its pointer, and the pointers are the
slots in use. `n` is the capacity. -/
structure Pointers (m : IdMap Ptr) (p : ObjectPool Order) (r : ReferenceBook) (n : ℕ) : Prop where
  valid : p.Valid
  capacity : p.capacity = n
  absent : ∀ id, m[id]? = none ↔ r.lookup id = none
  deref : ∀ id q, m[id]? = some q → p.deref q = r.lookup id
  owned : ∀ i : ℕ, p.inUse_[i]? = some true → ∃ id : UInt64, m[id]? = some (p.slab.ptr i)
  room : r.rows.length + p.available = n

namespace ReferenceBook

theorem length_edit {r : ReferenceBook} {id : UInt64} {o : Order} (ho : r.lookup id = some o)
    (g : UInt32 → Option UInt32) :
    (r.edit id g).rows.length + 1 = r.rows.length + (g o.quantity).toList.length := by
  have h := length_alter (f := Order.requantify g) r.distinct ho
  cases hg : g o.quantity <;> simpa [Order.requantify, hg, edit] using h

end ReferenceBook

namespace Pointers

variable {m : IdMap Ptr} {p p' : ObjectPool Order} {r : ReferenceBook} {n : ℕ} {id : UInt64} {q : Ptr}
  {o : Order}

theorem make (data n : ℕ) : Pointers ∅ (ObjectPool.make (orderSlab data) n) KeyedList.empty n where
  valid := valid_make _ n
  capacity := by simp [ObjectPool.make, ObjectPool.capacity]
  absent := by simp
  deref := by simp
  owned i hi := by simp [ObjectPool.make, List.getElem?_replicate] at hi
  room := by simp [ObjectPool.make, available, fillFreeList_eq]

theorem of_lookup (h : Pointers m p r n) (ho : r.lookup id = some o) :
    ∃ q, m[id]? = some q ∧ p.deref q = some o := by
  obtain ⟨q, hq⟩ : ∃ q, m[id]? = some q := by
    apply Option.ne_none_iff_exists'.mp
    rw [Ne, h.absent, ho]
    simp
  exact ⟨q, hq, (h.deref id q hq).trans ho⟩

theorem lookup_of (h : Pointers m p r n) (hq : m[id]? = some q) :
    ∃ o, r.lookup id = some o ∧ p.deref q = some o := by
  cases ho : r.lookup id with
  | none => simp [(h.absent id).mpr ho] at hq
  | some o => exact ⟨o, rfl, (h.deref id q hq).trans ho⟩

/-- Different ids have different pointers: the object behind the pointer says whose it is. -/
theorem injective (h : Pointers m p r n) {id' : UInt64} (hq : m[id]? = some q)
    (hq' : m[id']? = some q) : id = id' := by
  obtain ⟨o, ho, hd⟩ := h.lookup_of hq
  have ho' : r.lookup id' = some o := by rw [← h.deref id' q hq', hd]
  rw [← orderId_of_lookup ho, ← orderId_of_lookup ho']

theorem room_iff (h : Pointers m p r n) : p.available = 0 ↔ r.rows.length = n := by
  have := h.room
  omega

theorem allocated (h : Pointers m p r n) {msg : MarketMessage} (hn : r.lookup msg.orderId = none)
    {i : ℕ} (ha : Allocated p (Order.ofMessage msg) i p') :
    Pointers (m.insert msg.orderId (p.slab.ptr i)) p' (r.add msg) n where
  valid := ha.valid
  capacity := ha.capacity.trans h.capacity
  absent id := by
    rw [IdMap.getElem?_insert, lookup_add hn]
    split_ifs
    · simp
    · exact h.absent id
  deref id q := by
    rw [IdMap.getElem?_insert, lookup_add hn, ha.deref]
    split_ifs with hid hq hq
    · simp
    · rintro ⟨rfl⟩
      exact absurd rfl hq
    · -- a slot handed out is not in use, so no stored pointer refers to it
      intro hm
      obtain ⟨o, -, hd⟩ := h.lookup_of hm
      have huse := h.valid.inUse_of_deref hd
      rw [hq, Slab.index_ptr, (h.valid.mem_free i).mp ha.was_free] at huse
      simp at huse
    · exact h.deref id q
  owned j := by
    rw [ha.inUse, ha.slab]
    split_ifs with hj
    · intro _
      exact ⟨msg.orderId, by rw [IdMap.getElem?_insert, if_pos rfl, hj]⟩
    · intro huse
      obtain ⟨id, hid⟩ := h.owned j huse
      have hne : id ≠ msg.orderId := by
        rintro rfl
        rw [(h.absent _).mpr hn] at hid
        simp at hid
      exact ⟨id, by rw [IdMap.getElem?_insert, if_neg hne, hid]⟩
  room := by
    have hroom := h.room
    have hav := ha.available
    rw [rows_add hn, List.length_append, List.length_singleton]
    omega

theorem written (h : Pointers m p r n) (hq : m[id]? = some q) (ho : r.lookup id = some o)
    {x : UInt32} (hw : Written p q { o with quantity := x } p') :
    Pointers m p' (r.edit id fun _ => some x) n where
  valid := hw.valid
  capacity := hw.capacity.trans h.capacity
  absent id' := by
    rw [h.absent, lookup_edit]
    split_ifs with hid
    · simp [hid, ho, Order.requantify]
    · rfl
  deref id' q' hq' := by
    rw [hw.deref, lookup_edit]
    by_cases hid : id' = id
    · subst hid
      cases hq.symm.trans hq'
      simp [ho, Order.requantify]
    · have hne : q' ≠ q := fun e => hid (h.injective (e ▸ hq') hq)
      rw [if_neg hne, if_neg hid]
      exact h.deref id' q' hq'
  owned j := by
    rw [hw.inUse, hw.slab]
    exact h.owned j
  room := by
    have hroom := h.room
    have hlen := length_edit ho fun _ => some x
    simp only [Option.toList_some, List.length_singleton] at hlen
    rw [available, hw.freeList]
    rw [available] at hroom
    omega

theorem deallocated (h : Pointers m p r n) (hq : m[id]? = some q) (ho : r.lookup id = some o)
    (hd : Deallocated p q p') : Pointers (m.erase id) p' (r.edit id fun _ => none) n where
  valid := hd.valid
  capacity := hd.capacity.trans h.capacity
  absent id' := by
    rw [IdMap.getElem?_erase, lookup_edit]
    split_ifs with hid
    · simp [Order.requantify, ho]
    · exact h.absent id'
  deref id' q' := by
    rw [IdMap.getElem?_erase, hd.deref, lookup_edit]
    by_cases hid : id' = id
    · simp [hid]
    · rw [if_neg hid, if_neg hid]
      intro hq'
      have hne : q' ≠ q := fun e => hid (h.injective (e ▸ hq') hq)
      rw [if_neg hne]
      exact h.deref id' q' hq'
  owned j := by
    rw [hd.inUse, hd.slab]
    split_ifs with hj
    · simp
    · intro huse
      obtain ⟨id', hid'⟩ := h.owned j huse
      have hne : id' ≠ id := by
        rintro rfl
        cases hq.symm.trans hid'
        simp at hj
      exact ⟨id', by rw [IdMap.getElem?_erase, if_neg hne, hid']⟩
  room := by
    have hroom := h.room
    have hav := hd.available
    have hlen := length_edit ho fun _ => none
    simp only [Option.toList_none, List.length_nil] at hlen
    omega

end Pointers

/-- The pooled book against the reference book, aggregates apart. -/
structure Holds (b : PooledOrderBook) (r : ReferenceBook) (n : ℕ) : Prop where
  pointers : Pointers b.orderMap_ b.orderPool_ r n
  bids : Lists b.bids_ r true
  asks : Lists b.asks_ r false

/-- Every stored aggregate is the sum over its level, in 32 bits. -/
structure Aggregates (b : PooledOrderBook) (r : ReferenceBook) : Prop where
  bids : Totals b.bids_ r true
  asks : Totals b.asks_ r false

namespace PooledOrderBook

/-- The level stored under a price on one side. -/
def levelAt (b : PooledOrderBook) (buy : Bool) (price : Int64) : Option PriceLevel :=
  if buy then b.bids_[price]? else b.asks_[price]?

/-- The live order of an id. -/
def orderOf (b : PooledOrderBook) (id : UInt64) : Option Order :=
  b.orderMap_[id]?.bind b.orderPool_.deref

/-- A Modify that takes the sum of a level below zero, were it computed without
wrapping: the order holds more than the aggregate and the new quantity. -/
def ClampedModify (b : PooledOrderBook) (msg : MarketMessage) : Prop :=
  msg.type = .modify ∧ ∃ o l, b.orderOf msg.orderId = some o ∧
    b.levelAt o.isBuy o.price = some l ∧
      l.totalQuantity.toNat + msg.quantity.toNat < o.quantity.toNat

end PooledOrderBook

/-- A handler's step: `b` stood for `r`, `b'` stands for `r'`. -/
structure Carries (b : PooledOrderBook) (n : ℕ) (r' : ReferenceBook) (b' : PooledOrderBook) : Prop where
  holds : Holds b' r' n
  turnover : Turnover b.orderPool_ b'.orderPool_
  exhaustions : b'.poolExhaustions_ = b.poolExhaustions_

/-! ### The aggregate of Modify -/

theorem toInt_toInt64 (q : UInt32) : (toInt64 q).toInt = q.toNat := by
  have h := q.toNat_lt
  have hq : q.toUInt64.toBitVec.toNat = q.toNat := UInt32.toNat_toUInt64 q
  show q.toUInt64.toBitVec.toInt = _
  rw [BitVec.toInt_eq_toNat_of_lt] <;> omega

/-- A non-negative `std::int64_t` is its own 64-bit word. -/
theorem toNat_toUInt64_of_toInt {x : Int64} {k : ℕ} (h : x.toInt = k) : x.toUInt64.toNat = k := by
  have hx : x.toBitVec.toInt = k := h
  have hlt := x.toBitVec.isLt
  show x.toBitVec.toNat = k
  rw [BitVec.toInt_eq_toNat_cond] at hx
  split_ifs at hx <;> omega

/-- The clamp at zero is the only difference from sums and differences in 32 bits. -/
theorem retotalInt64_iff (total new old : UInt32) :
    retotalInt64 total new old = total - old + new ↔ old.toNat ≤ total.toNat + new.toNat := by
  have ht := total.toNat_lt
  have hn := new.toNat_lt
  have ho := old.toNat_lt
  have hupdated : (toInt64 total + (toInt64 new - toInt64 old)).toInt =
      (total.toNat : ℤ) + (new.toNat - old.toNat) := by
    rw [Int64.toInt_add, Int64.toInt_sub, toInt_toInt64, toInt_toInt64, toInt_toInt64,
      Int.bmod_eq_of_le_mul_two (x := (new.toNat : ℤ) - old.toNat), Int.bmod_eq_of_le_mul_two] <;> omega
  have hwrap : (total - old + new).toNat = (total.toNat + new.toNat + (2 ^ 32 - old.toNat)) % 2 ^ 32 := by
    rw [UInt32.toNat_add, UInt32.toNat_sub]
    omega
  unfold retotalInt64
  rw [← UInt32.toNat_inj, hwrap]
  simp only [Int64.lt_iff_toInt_lt, hupdated, Int64.toInt_zero]
  by_cases h : old.toNat ≤ total.toNat + new.toNat
  · obtain ⟨k, hk⟩ : ∃ k, total.toNat + new.toNat = old.toNat + k := ⟨_, (Nat.add_sub_cancel' h).symm⟩
    have hk' := toNat_toUInt64_of_toInt (k := k) (hupdated.trans (by omega))
    split_ifs
    · rw [UInt64.toNat_toUInt32, hk']
      omega
    · simp
      omega
  · -- a negative update is stored as zero, the 32-bit word is not zero
    rw [if_neg (by omega)]
    simp
    omega

/-! ### The handlers -/

section Handlers

variable {b b' : PooledOrderBook} {r : ReferenceBook} {n : ℕ} {msg : MarketMessage} {id : UInt64} {q : Ptr}
  {o : Order} {g : UInt32 → Option UInt32}

theorem orderOf_eq (h : Pointers b.orderMap_ b.orderPool_ r n) (id : UInt64) :
    b.orderOf id = r.lookup id := by
  unfold PooledOrderBook.orderOf
  cases hq : b.orderMap_[id]? with
  | none => exact ((h.absent id).mp hq).symm
  | some q => exact h.deref id q hq

theorem Holds.edit_bids (h : Holds b r n) (ho : r.lookup id = some o) (hs : o.isBuy = true)
    (hasks : b'.asks_ = b.asks_) (hp : Pointers b'.orderMap_ b'.orderPool_ (r.edit id g) n)
    (hl : Lists b'.bids_ (r.edit id g) o.isBuy) : Holds b' (r.edit id g) n := by
  have hr : ∀ p, (r.edit id g).level false p = r.level false p :=
    fun p => level_edit_other ho g (by simp [hs])
  exact ⟨hp, hs ▸ hl, hasks ▸ h.asks.congr hr⟩

theorem Holds.edit_asks (h : Holds b r n) (ho : r.lookup id = some o) (hs : o.isBuy = false)
    (hbids : b'.bids_ = b.bids_) (hp : Pointers b'.orderMap_ b'.orderPool_ (r.edit id g) n)
    (hl : Lists b'.asks_ (r.edit id g) o.isBuy) : Holds b' (r.edit id g) n := by
  have hr : ∀ p, (r.edit id g).level true p = r.level true p :=
    fun p => level_edit_other ho g (by simp [hs])
  exact ⟨hp, hbids ▸ h.bids.congr hr, hs ▸ hl⟩

/-- An edit of a Buy order puts only the aggregates of the bids at stake. -/
theorem Aggregates.edit_bids_iff (h : Aggregates b r) (ho : r.lookup id = some o) (hs : o.isBuy = true)
    (hasks : b'.asks_ = b.asks_) :
    Aggregates b' (r.edit id g) ↔ Totals b'.bids_ (r.edit id g) o.isBuy := by
  have hr : ∀ p, (r.edit id g).level false p = r.level false p :=
    fun p => level_edit_other ho g (by simp [hs])
  rw [hs]
  exact ⟨fun h' => h'.bids, fun hb => ⟨hb, hasks ▸ h.asks.congr hr⟩⟩

theorem Aggregates.edit_asks_iff (h : Aggregates b r) (ho : r.lookup id = some o) (hs : o.isBuy = false)
    (hbids : b'.bids_ = b.bids_) :
    Aggregates b' (r.edit id g) ↔ Totals b'.asks_ (r.edit id g) o.isBuy := by
  have hr : ∀ p, (r.edit id g).level true p = r.level true p :=
    fun p => level_edit_other ho g (by simp [hs])
  rw [hs]
  exact ⟨fun h' => h'.asks, fun ha => ⟨hbids ▸ h.bids.congr hr, ha⟩⟩

theorem release_spec (h : Pointers b.orderMap_ b.orderPool_ r n) (hq : b.orderMap_[id]? = some q)
    (ho : r.lookup id = some o) :
    ∃ pool, b.release id q = some { b with orderMap_ := b.orderMap_.erase id, orderPool_ := pool } ∧
      Deallocated b.orderPool_ q pool ∧
      Pointers (b.orderMap_.erase id) pool (r.edit id fun _ => none) n := by
  have hd : b.orderPool_.deref q = some o := (h.deref id q hq).trans ho
  obtain ⟨pool, he, hpool⟩ := deallocate_spec h.valid hd
  refine ⟨pool, ?_, hpool, h.deallocated hq ho hpool⟩
  simp only [PooledOrderBook.release, he, Option.map_some]

theorem settle_spec (h : Pointers b.orderMap_ b.orderPool_ r n) (hq : b.orderMap_[id]? = some q)
    (ho : r.lookup id = some o) (left : UInt32) :
    ∃ m pool, b.settle id q { o with quantity := left } =
        some { b with orderMap_ := m, orderPool_ := pool } ∧
      Turnover b.orderPool_ pool ∧
      Pointers m pool (r.edit id fun _ => if left = 0 then none else some left) n := by
  have hd : b.orderPool_.deref q = some o := (h.deref id q hq).trans ho
  obtain ⟨pool, he, hw⟩ := write_spec h.valid hd { o with quantity := left }
  have hp := h.written hq ho hw
  by_cases h0 : left = 0
  · have ho' : (r.edit id fun _ => some left).lookup id = some { o with quantity := left } := by
      rw [lookup_edit, if_pos rfl, ho]
      rfl
    obtain ⟨pool', he', hdealloc, hp'⟩ := release_spec (b := { b with orderPool_ := pool }) hp hq ho'
    rw [edit_edit] at hp'
    refine ⟨_, pool', ?_, hw.turnover_deallocated hdealloc, by simpa only [h0, if_true] using hp'⟩
    simp only [PooledOrderBook.settle, he, Option.bind_some]
    exact (if_pos h0).trans he'
  · refine ⟨b.orderMap_, pool, ?_, hw.turnover, by simpa only [h0, if_false] using hp⟩
    simp only [PooledOrderBook.settle, he, Option.bind_some]
    exact if_neg h0

/-- An Add without room counts an exhaustion and does nothing else. -/
theorem Holds.handleAdd_dropped (h : Holds b r n) (hn : r.lookup msg.orderId = none)
    (hfull : r.rows.length = n) :
    b.handleAdd msg = some { b with poolExhaustions_ := b.poolExhaustions_ + 1 } := by
  have hav := h.pointers.room_iff.mpr hfull
  simp only [PooledOrderBook.handleAdd, (h.pointers.absent _).mpr hn, allocate_exhausted hav]

theorem Holds.handleAdd (h : Holds b r n) (msg : MarketMessage)
    (hroom : r.lookup msg.orderId = none → r.rows.length ≠ n) :
    ∃ b', b.handleAdd msg = some b' ∧ Carries b n (r.add msg) b' ∧
      (Aggregates b r → Aggregates b' (r.add msg)) := by
  cases ho : r.lookup msg.orderId with
  | some o =>
    obtain ⟨q, hq, -⟩ := h.pointers.of_lookup ho
    rw [add_of_live ho]
    exact ⟨b, by simp only [PooledOrderBook.handleAdd, hq], ⟨h, .refl _, rfl⟩, id⟩
  | none =>
    have hav : b.orderPool_.available ≠ 0 := fun hc => hroom ho (h.pointers.room_iff.mp hc)
    obtain ⟨i, pool, he, ha⟩ := allocate_spec h.pointers.valid hav (Order.ofMessage msg)
    have hp := h.pointers.allocated ho ha
    have hturn := ha.turnover h.pointers.valid
    simp only [PooledOrderBook.handleAdd, (h.pointers.absent _).mpr ho, he]
    by_cases hs : msg.side = .buy
    · have hb : (Order.ofMessage msg).isBuy = true := Order.isBuy_eq_true.mpr hs
      have hr := level_add_other_side ho false (by simp [hb])
      have hl := (hb ▸ h.bids).addToLevel ho
      rw [if_pos hs]
      refine ⟨_, rfl, ⟨⟨hp, hb ▸ hl, h.asks.congr hr⟩, hturn, rfl⟩, fun hagg => ⟨?_, hagg.asks.congr hr⟩⟩
      exact hb ▸ Totals.addToLevel (hb ▸ h.bids) (hb ▸ hagg.bids) ho
    · have hb : (Order.ofMessage msg).isBuy = false := Order.isBuy_eq_false.mpr hs
      have hr := level_add_other_side ho true (by simp [hb])
      have hl := (hb ▸ h.asks).addToLevel ho
      rw [if_neg hs]
      refine ⟨_, rfl, ⟨⟨hp, h.bids.congr hr, hb ▸ hl⟩, hturn, rfl⟩, fun hagg => ⟨hagg.bids.congr hr, ?_⟩⟩
      exact hb ▸ Totals.addToLevel (hb ▸ h.asks) (hb ▸ hagg.asks) ho

/-- Modify keeps the aggregates true exactly when nothing is clamped. -/
theorem Holds.handleModify (h : Holds b r n) (hm : msg.type = .modify) :
    ∃ b', b.handleModify msg = some b' ∧ Carries b n (r.modify msg) b' ∧
      (Aggregates b r → (Aggregates b' (r.modify msg) ↔ ¬b.ClampedModify msg)) := by
  cases ho : r.lookup msg.orderId with
  | none =>
    rw [ReferenceBook.modify, edit_of_unknown ho]
    refine ⟨b, ?_, ⟨h, .refl _, rfl⟩, fun hagg => iff_of_true hagg ?_⟩
    · simp only [PooledOrderBook.handleModify, (h.pointers.absent _).mpr ho]
    · rintro ⟨-, o, l, ho', -⟩
      rw [orderOf_eq h.pointers, ho] at ho'
      cases ho'
  | some o =>
    obtain ⟨q, hq, hd⟩ := h.pointers.of_lookup ho
    obtain ⟨pool, he, hw⟩ := write_spec h.pointers.valid hd { o with quantity := msg.quantity }
    have hp := h.pointers.written hq ho hw
    have hclamp : ∀ l, b.levelAt o.isBuy o.price = some l →
        (retotalInt64 l.totalQuantity msg.quantity o.quantity =
          l.totalQuantity - o.quantity + msg.quantity ↔ ¬b.ClampedModify msg) := by
      intro l hl
      simp [retotalInt64_iff, PooledOrderBook.ClampedModify, orderOf_eq h.pointers, ho, hl, hm]
    simp only [PooledOrderBook.handleModify, hq, hd, Option.bind_some]
    by_cases hs : o.side = .buy
    · have hb := Order.isBuy_eq_true.mpr hs
      obtain ⟨l, bids, hl, heq, hlists, htot⟩ := (hb ▸ h.bids).modifyLevel ho retotalInt64
      rw [if_pos hs, heq]
      simp only [he, Option.map_some]
      refine ⟨_, rfl, ⟨h.edit_bids ho hb rfl hp hlists, hw.turnover, rfl⟩, fun hagg => ?_⟩
      refine (hagg.edit_bids_iff ho hb (by rfl)).trans ((htot (hb ▸ hagg.bids)).trans (hclamp l ?_))
      rw [PooledOrderBook.levelAt, hb]
      exact hl
    · have hb := Order.isBuy_eq_false.mpr hs
      obtain ⟨l, asks, hl, heq, hlists, htot⟩ := (hb ▸ h.asks).modifyLevel ho retotalInt64
      rw [if_neg hs, heq]
      simp only [he, Option.map_some]
      refine ⟨_, rfl, ⟨h.edit_asks ho hb rfl hp hlists, hw.turnover, rfl⟩, fun hagg => ?_⟩
      refine (hagg.edit_asks_iff ho hb (by rfl)).trans ((htot (hb ▸ hagg.asks)).trans (hclamp l ?_))
      rw [PooledOrderBook.levelAt, hb]
      exact hl

theorem Holds.handleCancel (h : Holds b r n) (msg : MarketMessage) :
    ∃ b', b.handleCancel msg = some b' ∧ Carries b n (r.cancel msg) b' ∧
      (Aggregates b r → Aggregates b' (r.cancel msg)) := by
  cases ho : r.lookup msg.orderId with
  | none =>
    rw [ReferenceBook.cancel, edit_of_unknown ho]
    refine ⟨b, ?_, ⟨h, .refl _, rfl⟩, id⟩
    simp only [PooledOrderBook.handleCancel, (h.pointers.absent _).mpr ho]
  | some o =>
    obtain ⟨q, hq, hd⟩ := h.pointers.of_lookup ho
    simp only [PooledOrderBook.handleCancel, hq, hd, Option.bind_some]
    by_cases hs : o.side = .buy
    · have hb := Order.isBuy_eq_true.mpr hs
      obtain ⟨hlists, htot⟩ := (hb ▸ h.bids).cancelLevel ho
      obtain ⟨pool, he, hdealloc, hp⟩ :=
        release_spec (b := { b with bids_ := cancelLevel msg o b.bids_ }) h.pointers hq ho
      rw [if_pos hs, he]
      refine ⟨_, rfl, ⟨h.edit_bids ho hb rfl hp hlists, hdealloc.turnover, rfl⟩, fun hagg => ?_⟩
      exact (hagg.edit_bids_iff ho hb (by rfl)).mpr (htot (hb ▸ hagg.bids))
    · have hb := Order.isBuy_eq_false.mpr hs
      obtain ⟨hlists, htot⟩ := (hb ▸ h.asks).cancelLevel ho
      obtain ⟨pool, he, hdealloc, hp⟩ :=
        release_spec (b := { b with asks_ := cancelLevel msg o b.asks_ }) h.pointers hq ho
      rw [if_neg hs, he]
      refine ⟨_, rfl, ⟨h.edit_asks ho hb rfl hp hlists, hdealloc.turnover, rfl⟩, fun hagg => ?_⟩
      exact (hagg.edit_asks_iff ho hb (by rfl)).mpr (htot (hb ▸ hagg.asks))

theorem Holds.handleTrade (h : Holds b r n) (msg : MarketMessage) :
    ∃ b', b.handleTrade msg = some b' ∧ Carries b n (r.trade msg) b' ∧
      (Aggregates b r → Aggregates b' (r.trade msg)) := by
  cases ho : r.lookup msg.orderId with
  | none =>
    rw [ReferenceBook.trade, edit_of_unknown ho]
    refine ⟨b, ?_, ⟨h, .refl _, rfl⟩, id⟩
    simp only [PooledOrderBook.handleTrade, (h.pointers.absent _).mpr ho]
  | some o =>
    obtain ⟨q, hq, hd⟩ := h.pointers.of_lookup ho
    have hr : r.trade msg =
        r.edit msg.orderId fun _ => if leftAfter msg o = 0 then none else some (leftAfter msg o) :=
      edit_congr ho (fill_eq msg o)
    simp only [PooledOrderBook.handleTrade, hq, hd, Option.bind_some]
    by_cases hs : o.side = .buy
    · have hb := Order.isBuy_eq_true.mpr hs
      obtain ⟨bids, heq, hlists, htot⟩ := (hb ▸ h.bids).tradeLevel ho
      obtain ⟨m, pool, he, hturn, hp⟩ :=
        settle_spec (b := { b with bids_ := bids }) h.pointers hq ho (leftAfter msg o)
      rw [hr] at hlists htot ⊢
      rw [if_pos hs, heq]
      refine ⟨_, he, ⟨h.edit_bids ho hb rfl hp hlists, hturn, rfl⟩, fun hagg => ?_⟩
      exact (hagg.edit_bids_iff ho hb (by rfl)).mpr (htot (hb ▸ hagg.bids))
    · have hb := Order.isBuy_eq_false.mpr hs
      obtain ⟨asks, heq, hlists, htot⟩ := (hb ▸ h.asks).tradeLevel ho
      obtain ⟨m, pool, he, hturn, hp⟩ :=
        settle_spec (b := { b with asks_ := asks }) h.pointers hq ho (leftAfter msg o)
      rw [hr] at hlists htot ⊢
      rw [if_neg hs, heq]
      refine ⟨_, he, ⟨h.edit_asks ho hb rfl hp hlists, hturn, rfl⟩, fun hagg => ?_⟩
      exact (hagg.edit_asks_iff ho hb (by rfl)).mpr (htot (hb ▸ hagg.asks))

end Handlers

/-! ### Messages and feeds -/

namespace ReferenceBook

/-- A fresh Add when `n` orders are live. -/
def Drops (r : ReferenceBook) (n : ℕ) (msg : MarketMessage) : Prop :=
  msg.type = .add ∧ r.lookup msg.orderId = none ∧ r.rows.length = n

instance (r : ReferenceBook) (n : ℕ) (msg : MarketMessage) : Decidable (r.Drops n msg) :=
  inferInstanceAs (Decidable (_ ∧ _ ∧ _))

/-- One message for a book of at most `n` orders. -/
def applyUpTo (n : ℕ) (r : ReferenceBook) (msg : MarketMessage) : ReferenceBook :=
  if r.Drops n msg then r else r.apply msg

def runUpTo (n : ℕ) (r : ReferenceBook) (msgs : List MarketMessage) : ReferenceBook :=
  msgs.foldl (applyUpTo n) r

end ReferenceBook

/-- What one message does to a pooled book that stands for `r`. -/
structure Reacts (b : PooledOrderBook) (r : ReferenceBook) (n : ℕ) (msg : MarketMessage)
    (b' : PooledOrderBook) : Prop where
  holds : Holds b' (r.applyUpTo n msg) n
  turnover : Turnover b.orderPool_ b'.orderPool_
  exhaustions : b'.poolExhaustions_ = b.poolExhaustions_ + if r.Drops n msg then 1 else 0
  aggregates : Aggregates b r → (Aggregates b' (r.applyUpTo n msg) ↔ ¬b.ClampedModify msg)

section Feed

variable {b b' : PooledOrderBook} {r : ReferenceBook} {n : ℕ}

/-- A handler that keeps the aggregates true, for a message that is not dropped. -/
theorem Carries.reacts {msg : MarketMessage} (hc : Carries b n (r.apply msg) b') (hd : ¬r.Drops n msg)
    (hagg : Aggregates b r → (Aggregates b' (r.apply msg) ↔ ¬b.ClampedModify msg)) :
    Reacts b r n msg b' where
  holds := by
    rw [applyUpTo, if_neg hd]
    exact hc.holds
  turnover := hc.turnover
  exhaustions := by rw [hc.exhaustions, if_neg hd, add_zero]
  aggregates := by
    rw [applyUpTo, if_neg hd]
    exact hagg

/-- No message is undefined. -/
theorem Holds.onMessage (h : Holds b r n) (msg : MarketMessage) :
    ∃ b', b.onMessage msg = some b' ∧ Reacts b r n msg b' := by
  have hnoClamp : msg.type ≠ .modify → ¬b.ClampedModify msg := fun hne hc => hne hc.1
  have hnoDrop : msg.type ≠ .add → ¬r.Drops n msg := fun hne hd => hne hd.1
  unfold PooledOrderBook.onMessage
  split_ifs with hadd hmodify hcancel htrade
  · have hne : msg.type ≠ .modify := by rw [hadd]; decide
    by_cases hd : r.Drops n msg
    · refine ⟨_, h.handleAdd_dropped hd.2.1 hd.2.2, ?_, .refl _, by rw [if_pos hd], ?_⟩
      · rw [applyUpTo, if_pos hd]
        exact ⟨h.pointers, h.bids, h.asks⟩
      · rw [applyUpTo, if_pos hd]
        exact fun hagg => iff_of_true ⟨hagg.bids, hagg.asks⟩ (hnoClamp hne)
    · obtain ⟨b', he, hc, hagg⟩ := h.handleAdd msg fun hn hfull => hd ⟨hadd, hn, hfull⟩
      have ha : r.apply msg = r.add msg := if_pos hadd
      rw [← ha] at hc hagg
      exact ⟨b', he, hc.reacts hd fun hb => iff_of_true (hagg hb) (hnoClamp hne)⟩
  · obtain ⟨b', he, hc, hagg⟩ := h.handleModify hmodify
    have ha : r.apply msg = r.modify msg := by rw [ReferenceBook.apply, if_neg hadd, if_pos hmodify]
    rw [← ha] at hc hagg
    exact ⟨b', he, hc.reacts (hnoDrop hadd) hagg⟩
  · obtain ⟨b', he, hc, hagg⟩ := h.handleCancel msg
    have ha : r.apply msg = r.cancel msg := by
      rw [ReferenceBook.apply, if_neg hadd, if_neg hmodify, if_pos hcancel]
    rw [← ha] at hc hagg
    exact ⟨b', he, hc.reacts (hnoDrop hadd) fun hb => iff_of_true (hagg hb) (hnoClamp hmodify)⟩
  · obtain ⟨b', he, hc, hagg⟩ := h.handleTrade msg
    have ha : r.apply msg = r.trade msg := by
      rw [ReferenceBook.apply, if_neg hadd, if_neg hmodify, if_neg hcancel, if_pos htrade]
    rw [← ha] at hc hagg
    exact ⟨b', he, hc.reacts (hnoDrop hadd) fun hb => iff_of_true (hagg hb) (hnoClamp hmodify)⟩
  · have ha : r.apply msg = r := by
      rw [ReferenceBook.apply, if_neg hadd, if_neg hmodify, if_neg hcancel, if_neg htrade]
    refine ⟨b, rfl, Carries.reacts ?_ (hnoDrop hadd) ?_⟩
    · rw [ha]
      exact ⟨h, .refl _, rfl⟩
    · rw [ha]
      exact fun hb => iff_of_true hb (hnoClamp hmodify)

theorem Holds.of_onMessage (h : Holds b r n) {msg : MarketMessage} (he : b.onMessage msg = some b') :
    Reacts b r n msg b' := by
  obtain ⟨b₁, he₁, hr⟩ := h.onMessage msg
  cases he.symm.trans he₁
  exact hr

/-- No feed is undefined. -/
theorem Holds.run (h : Holds b r n) (msgs : List MarketMessage) :
    ∃ b', b.run msgs = some b' ∧ Holds b' (r.runUpTo n msgs) n := by
  have hstep : ∀ b r msg, Holds b r n →
      ∃ b', PooledOrderBook.onMessage b msg = some b' ∧ Holds b' (r.applyUpTo n msg) n := by
    intro b r msg h
    obtain ⟨b', he, hr⟩ := h.onMessage msg
    exact ⟨b', he, hr.holds⟩
  exact Transition.exec_refines hstep h msgs

theorem Holds.make (data : ℕ) (maxOrders : UInt64) :
    Holds (PooledOrderBook.make data maxOrders) KeyedList.empty maxOrders.toNat where
  pointers := Pointers.make data maxOrders.toNat
  bids := Lists.empty true
  asks := Lists.empty false

theorem Aggregates.make (data : ℕ) (maxOrders : UInt64) :
    Aggregates (PooledOrderBook.make data maxOrders) KeyedList.empty :=
  ⟨Totals.empty true, Totals.empty false⟩

end Feed

end LatencyLab
