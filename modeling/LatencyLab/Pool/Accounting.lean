import LatencyLab.Book.PublicView
import LatencyLab.Pool.PooledRefinement

/-! Pool and book accounting of `PooledOrderBook`. `deallocate` never checks the
in-use bit, so the pool is sound only because every path of the book releases a
slot once and together with its map entry. -/

namespace LatencyLab

open Std Keyed ReferenceBook ObjectPool

namespace PooledOrderBook

/-- `order_map_`, the in-use bits, the free list and the counters of a book of
capacity `n` tell one story. -/
structure Accounted (b : PooledOrderBook) (n : UInt64) : Prop where
  slot : ∀ (id : UInt64) q, b.orderMap_[id]? = some q → ∃ i < n.toNat,
    q = b.orderPool_.slab.ptr i ∧ b.orderPool_.inUse_[i]? = some true ∧
      ∃ o, b.orderPool_.storage_[i]? = some (some o) ∧ o.orderId = id
  distinct : ∀ (id id' : UInt64) q q', b.orderMap_[id]? = some q → b.orderMap_[id']? = some q' →
    b.orderPool_.slab.index q = b.orderPool_.slab.index q' → id = id'
  free_nodup : b.orderPool_.freeList_.Nodup
  free_remaining : ∀ i, i ∈ b.orderPool_.freeList_ ↔
    i < n.toNat ∧ ∀ id : UInt64, b.orderMap_[id]? ≠ some (b.orderPool_.slab.ptr i)
  free_unflagged : ∀ i, i ∈ b.orderPool_.freeList_ ↔
    i < n.toNat ∧ b.orderPool_.inUse_[i]? = some false
  totalOrders_counters : b.totalOrders = b.poolAllocations - b.poolDeallocations
  totalOrders_available : b.totalOrders = n - b.poolAvailable

/-- One message takes back only a slot in use and hands out only a free one, and
turns a fresh Add down exactly when the book is full. -/
structure StepAccounted (b : PooledOrderBook) (n : UInt64) (msg : MarketMessage) (b' : PooledOrderBook) :
    Prop where
  turnover : Turnover b.orderPool_ b'.orderPool_
  rejected_iff : msg.type = .add → msg.orderId ∉ b.orderMap_ →
    (msg.orderId ∉ b'.orderMap_ ↔ b.totalOrders = n)
  rejected : msg.type = .add → msg.orderId ∉ b.orderMap_ → b.totalOrders = n →
    b' = { b with poolExhaustions_ := b.poolExhaustions_ + 1 }

end PooledOrderBook

section

variable {b b' : PooledOrderBook} {r : ReferenceBook} {n : UInt64}

theorem Pointers.size_eq {m : IdMap Ptr} {p : ObjectPool Order} {n : ℕ} (h : Pointers m p r n) :
    m.size = r.rows.length := size_eq_rows m r h.absent

theorem Pointers.mem_iff {m : IdMap Ptr} {p : ObjectPool Order} {n : ℕ} (h : Pointers m p r n)
    (id : UInt64) : id ∉ m ↔ r.lookup id = none := by
  rw [ExtTreeMap.mem_iff_isSome_getElem?, ← Option.ne_none_iff_isSome, Ne, not_not, h.absent]

theorem Holds.length_le (h : Holds b r n.toNat) : r.rows.length ≤ n.toNat :=
  Nat.le.intro h.pointers.room

/-- The number of live orders fits the counter that reports it. -/
theorem Holds.totalOrders_eq_iff (h : Holds b r n.toNat) :
    b.totalOrders = n ↔ r.rows.length = n.toNat := by
  have hlt : r.rows.length < UInt64.size := h.length_le.trans_lt n.toNat_lt_size
  rw [PooledOrderBook.totalOrders, h.pointers.size_eq, ← UInt64.toNat_inj,
    UInt64.toNat_ofNat_of_lt' hlt]

theorem Holds.accounted (h : Holds b r n.toNat) : b.Accounted n where
  slot id q hq := by
    obtain ⟨o, ho, hd⟩ := h.pointers.lookup_of hq
    have huse := h.pointers.valid.inUse_of_deref hd
    obtain ⟨hptr, hst⟩ := deref_eq_some.mp hd
    have hlt := h.pointers.valid.lt_of_inUse huse
    rw [h.pointers.capacity] at hlt
    exact ⟨_, hlt, hptr, huse, o, hst, orderId_of_lookup ho⟩
  distinct id id' q q' hq hq' hindex := by
    obtain ⟨o, -, hd⟩ := h.pointers.lookup_of hq
    obtain ⟨o', -, hd'⟩ := h.pointers.lookup_of hq'
    have hptr := (deref_eq_some.mp hd).1
    rw [hindex, ← (deref_eq_some.mp hd').1] at hptr
    exact h.pointers.injective hq (hptr ▸ hq')
  free_nodup := h.pointers.valid.free_nodup
  free_remaining i := by
    have hv := h.pointers.valid
    constructor
    · intro hi
      refine ⟨h.pointers.capacity ▸ hv.lt_of_free hi, fun id hid => ?_⟩
      obtain ⟨o, -, hd⟩ := h.pointers.lookup_of hid
      have huse := hv.inUse_of_deref hd
      rw [Slab.index_ptr, (hv.mem_free i).mp hi] at huse
      simp at huse
    · rintro ⟨hlt, hno⟩
      rw [hv.mem_free]
      rw [← h.pointers.capacity, ← hv.bits_length] at hlt
      cases hbit : b.orderPool_.inUse_[i] with
      | false => exact List.getElem?_eq_some_iff.mpr ⟨hlt, hbit⟩
      | true =>
        obtain ⟨id, hid⟩ := h.pointers.owned i (List.getElem?_eq_some_iff.mpr ⟨hlt, hbit⟩)
        exact absurd hid (hno id)
  free_unflagged i := by
    have hv := h.pointers.valid
    rw [← hv.mem_free]
    exact ⟨fun hi => ⟨h.pointers.capacity ▸ hv.lt_of_free hi, hi⟩, fun hi => hi.2⟩
  totalOrders_counters := by
    have hroom := h.pointers.room
    rw [PooledOrderBook.poolAllocations, PooledOrderBook.poolDeallocations, h.pointers.valid.accounting,
      PooledOrderBook.totalOrders, h.pointers.size_eq, h.pointers.capacity]
    congr 1
    omega
  totalOrders_available := by
    have hroom := h.pointers.room
    have hn : n = UInt64.ofNat n.toNat := UInt64.ofNat_toNat.symm
    rw [PooledOrderBook.totalOrders, PooledOrderBook.poolAvailable, h.pointers.size_eq, hn, ← hroom,
      UInt64.ofNat_add, add_sub_cancel_right]

theorem Holds.stepAccounted (h : Holds b r n.toNat) {msg : MarketMessage}
    (he : b.onMessage msg = some b') : b.StepAccounted n msg b' := by
  have hr := h.of_onMessage he
  refine ⟨hr.turnover, fun hadd hfresh => ?_, fun hadd hfresh hfull => ?_⟩
  · rw [h.pointers.mem_iff] at hfresh
    rw [hr.holds.pointers.mem_iff, h.totalOrders_eq_iff, applyUpTo]
    split_ifs with hd
    · exact iff_of_true hfresh hd.2.2
    · have hnew : (r.apply msg).lookup msg.orderId = some (Order.ofMessage msg) := by
        rw [r.apply_of_add hadd, lookup_add hfresh, if_pos rfl]
      refine iff_of_false (by simp [hnew]) fun hfull => hd ⟨hadd, hfresh, hfull⟩
  · rw [h.pointers.mem_iff] at hfresh
    rw [h.totalOrders_eq_iff] at hfull
    rw [PooledOrderBook.onMessage, if_pos hadd, h.handleAdd_dropped hfresh hfull] at he
    exact (Option.some.inj he).symm

end

/-- In every reachable state the accounts agree, and every message keeps to them. -/
theorem pooled_accounting (data : ℕ) (n : UInt64) (msgs : List MarketMessage) :
    ∃ b, (PooledOrderBook.make data n).run msgs = some b ∧ b.Accounted n ∧
      ∀ msg, ∃ b', b.onMessage msg = some b' ∧ b.StepAccounted n msg b' := by
  obtain ⟨b, hrun, h⟩ := (Holds.make data n).run msgs
  refine ⟨b, hrun, h.accounted, fun msg => ?_⟩
  obtain ⟨b', he, -⟩ := h.onMessage msg
  exact ⟨b', he, h.stepAccounted he⟩

end LatencyLab
