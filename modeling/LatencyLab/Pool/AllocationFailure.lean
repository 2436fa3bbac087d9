import LatencyLab.Book.AllocationFailure
import LatencyLab.Pool.Aggregates

/-! `handle_add` of the pooled book when memory runs out. A pool without a free slot
is noticed before anything is written; an exception from a container comes after the
order has taken its slot, which then stays taken. -/

namespace LatencyLab

open Std ReferenceBook ObjectPool

namespace PooledOrderBook

/-- `handle_add` where the insertion `failing` throws. -/
def handleAddFailing (failing : Option Insertion) (b : PooledOrderBook) (msg : MarketMessage) :
    Option (Except PooledOrderBook PooledOrderBook) :=
  match b.orderMap_[msg.orderId]? with
  | some _ => some (.ok b)
  | none =>
    match b.orderPool_.allocate (Order.ofMessage msg) with
    | none => none
    | some (none, pool) =>
      some (.ok { b with orderPool_ := pool, poolExhaustions_ := b.poolExhaustions_ + 1 })
    | some (some order, pool) =>
      let b := { b with orderPool_ := pool }
      if failing = some .orderMap then some (.error b)
      else
        let b := { b with orderMap_ := b.orderMap_.insert msg.orderId order }
        if msg.side = .buy then
          match addToLevelFailing failing msg b.bids_ with
          | .ok bids => some (.ok { b with bids_ := bids })
          | .error bids => some (.error { b with bids_ := bids })
        else
          match addToLevelFailing failing msg b.asks_ with
          | .ok asks => some (.ok { b with asks_ := asks })
          | .error asks => some (.error { b with asks_ := asks })

/-- The insertions `handle_add` makes, in order. -/
def insertions (b : PooledOrderBook) (msg : MarketMessage) : List Insertion :=
  match b.orderMap_[msg.orderId]? with
  | some _ => []
  | none =>
    if b.orderPool_.available = 0 then []
    else .orderMap :: if msg.side = .buy then levelInsertions msg b.bids_ else levelInsertions msg b.asks_

/-- The book behind an exception from the insertion `failing`: the order keeps the slot
it was given, and the rest is as for `OrderBook`. -/
structure Interrupted (b : PooledOrderBook) (failing : Insertion) (msg : MarketMessage)
    (b' : PooledOrderBook) : Prop where
  bids : b'.bids_ = b.bids_
  asks : b'.asks_ = b.asks_
  exhaustions : b'.poolExhaustions_ = b.poolExhaustions_
  slotKept : ∃ i, Allocated b.orderPool_ (Order.ofMessage msg) i b'.orderPool_ ∧
    b'.orderMap_ =
      if failing = .orderMap then b.orderMap_ else b.orderMap_.insert msg.orderId (b.orderPool_.slab.ptr i)
  touched : b' ≠ b

variable {b : PooledOrderBook} {failing : Insertion} {msg : MarketMessage}

theorem mem_insertions : failing ∈ b.insertions msg ↔ b.orderMap_[msg.orderId]? = none ∧
    b.orderPool_.available ≠ 0 ∧ (failing = .orderMap ∨
      failing ∈ if msg.side = .buy then levelInsertions msg b.bids_ else levelInsertions msg b.asks_) := by
  cases h : b.orderMap_[msg.orderId]? with
  | some order => simp [insertions, h]
  | none =>
    by_cases hav : b.orderPool_.available = 0
    · simp [insertions, h, hav]
    · simp [insertions, h, hav]

/-- A pool that has handed out a slot is another pool. -/
theorem ne_of_allocated {b' : PooledOrderBook} {i : ℕ}
    (ha : Allocated b.orderPool_ (Order.ofMessage msg) i b'.orderPool_) : b' ≠ b := by
  rintro rfl
  have hav := ha.available
  omega

/-- An insertion that throws leaves the writes before it. -/
theorem handleAddFailing_of_mem (hvalid : b.orderPool_.Valid) (h : failing ∈ b.insertions msg) :
    ∃ b', handleAddFailing (some failing) b msg = some (.error b') ∧ b.Interrupted failing msg b' := by
  obtain ⟨hfresh, hav, hmem⟩ := mem_insertions.mp h
  obtain ⟨i, pool, he, ha⟩ := allocate_spec hvalid hav (Order.ofMessage msg)
  by_cases hmap : failing = .orderMap
  · refine ⟨{ b with orderPool_ := pool }, ?_, rfl, rfl, rfl, ⟨i, ha, by rw [if_pos hmap]⟩,
      ne_of_allocated ha⟩
    simp only [handleAddFailing, hfresh, he, hmap, if_true]
  · have hlevel := hmem.resolve_left hmap
    have hmap' : some failing ≠ some .orderMap := fun heq => hmap (Option.some.inj heq)
    refine ⟨{ b with
      orderPool_ := pool
      orderMap_ := b.orderMap_.insert msg.orderId (b.orderPool_.slab.ptr i) }, ?_, rfl, rfl, rfl,
      ⟨i, ha, by rw [if_neg hmap]⟩, ne_of_allocated ha⟩
    simp only [handleAddFailing, hfresh, he, if_neg hmap']
    split_ifs at hlevel ⊢
    · rw [addToLevelFailing_of_mem hlevel]
    · rw [addToLevelFailing_of_mem hlevel]

/-- Without a failing insertion this is `handle_add`. -/
theorem handleAddFailing_of_not_mem (hvalid : b.orderPool_.Valid) {failing : Option Insertion}
    (h : ∀ i ∈ b.insertions msg, failing ≠ some i) :
    handleAddFailing failing b msg = (b.handleAdd msg).map .ok := by
  cases hlive : b.orderMap_[msg.orderId]? with
  | some order => simp only [handleAddFailing, handleAdd, hlive, Option.map_some]
  | none =>
    by_cases hav : b.orderPool_.available = 0
    · simp only [handleAddFailing, handleAdd, hlive, allocate_exhausted hav, Option.map_some]
    · obtain ⟨i, pool, he, -⟩ := allocate_spec hvalid hav (Order.ofMessage msg)
      simp only [insertions, hlive, if_neg hav, List.forall_mem_cons] at h
      obtain ⟨hmap, hlevel⟩ := h
      simp only [handleAddFailing, handleAdd, hlive, he, if_neg hmap]
      split_ifs at hlevel ⊢
      · rw [addToLevelFailing_of_not_mem hlevel]
        rfl
      · rw [addToLevelFailing_of_not_mem hlevel]
        rfl

end PooledOrderBook

/-- **Earlier writes stay.** An exception from any insertion of `handle_add`, in any
state that a feed leads to, leaves the levels as they were. Whatever was written
before it stays: the registration in `order_map_`, and the slot of the pooled book. -/
theorem add_interrupted (history : List MarketMessage) (msg : MarketMessage) :
    (∀ failing ∈ (bookAfter history).insertions msg,
      ∃ b', OrderBook.handleAddFailing (some failing) (bookAfter history) msg = .error b' ∧
        (bookAfter history).Interrupted failing msg b') ∧
    ∀ data n b, PooledAfter data n history b → ∀ failing ∈ b.insertions msg,
      ∃ b', PooledOrderBook.handleAddFailing (some failing) b msg = some (.error b') ∧
        b.Interrupted failing msg b' := by
  constructor
  · intro failing h
    exact OrderBook.handleAddFailing_of_mem h
  · intro data n b hb failing h
    obtain ⟨b₁, hb₁, hholds⟩ := (Holds.make data n).run history
    cases hb.symm.trans hb₁
    exact PooledOrderBook.handleAddFailing_of_mem hholds.pointers.valid h

def firstAdd : MarketMessage := orderMessage .add 1 .buy 100 10

theorem add_interrupted_firstAdd :
    (∃ b', OrderBook.handleAddFailing (some .sideMap) (bookAfter []) firstAdd = .error b' ∧
      (bookAfter []).Interrupted .sideMap firstAdd b') ∧
    ∃ b', PooledOrderBook.handleAddFailing (some .orderMap) (PooledOrderBook.make 0 1) firstAdd =
        some (.error b') ∧
      (PooledOrderBook.make 0 1).Interrupted .orderMap firstAdd b' :=
  ⟨(add_interrupted [] firstAdd).1 .sideMap (by decide),
    (add_interrupted [] firstAdd).2 0 1 _ rfl .orderMap (by decide)⟩

/-- The first Add fails at its level: the baseline book has an order that no level
lists. It fails at its registration: the pooled book has lost its only slot. -/
theorem firstAdd_counterexample :
    (∃ b', OrderBook.handleAddFailing (some .orderIds) (bookAfter []) firstAdd = .error b' ∧
      b' ≠ bookAfter [] ∧ b'.orderMap_[(1 : UInt64)]? = some ⟨1, 100, 10, .buy⟩ ∧
      b'.levelAt true 100 = none) ∧
    ∃ b b', PooledAfter 0 1 [] b ∧
      PooledOrderBook.handleAddFailing (some .orderMap) b firstAdd = some (.error b') ∧ b' ≠ b ∧
      b.poolAvailable = 1 ∧ b'.poolAvailable = 0 ∧ b'.orderMap_[(1 : UInt64)]? = none := by
  refine ⟨⟨_, rfl, ?_, ?_, ?_⟩, ⟨PooledOrderBook.make 0 1, _, rfl, rfl, ?_, ?_, ?_, ?_⟩⟩ <;> decide

end LatencyLab
