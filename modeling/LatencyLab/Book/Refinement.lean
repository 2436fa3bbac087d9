import LatencyLab.Book.OrderBook
import LatencyLab.Book.SideLists

/-! `OrderBook` refines the reference book. `Represents` ties the three
containers to one list of live orders; every handler carries it along, so it
holds after every feed. -/

namespace LatencyLab

open Std Keyed ReferenceBook

structure Represents (b : OrderBook) (r : ReferenceBook) : Prop where
  orders : ∀ id, b.orderMap_[id]? = r.lookup id
  bids : Lists b.bids_ r true
  asks : Lists b.asks_ r false
  bidTotals : Totals b.bids_ r true
  askTotals : Totals b.asks_ r false

theorem Order.isBuy_eq_true {o : Order} : o.isBuy = true ↔ o.side = .buy := by simp [Order.isBuy]

theorem Order.isBuy_eq_false {o : Order} : o.isBuy = false ↔ o.side ≠ .buy := by simp [Order.isBuy]

theorem IdMap.getElem?_insert {V : Type*} (m : IdMap V) (id : UInt64) (v : V) (id' : UInt64) :
    (m.insert id v)[id']? = if id' = id then some v else m[id']? := by
  simp [ExtTreeMap.getElem?_insert, eq_comm (a := id')]

theorem IdMap.getElem?_erase {V : Type*} (m : IdMap V) (id id' : UInt64) :
    (m.erase id)[id']? = if id' = id then none else m[id']? := by
  simp [ExtTreeMap.getElem?_erase, eq_comm (a := id')]

/-- Two's complement sums and differences of the casts are those of the words. -/
theorem retotalInt32_eq (total new old : UInt32) : retotalInt32 total new old = total - old + new := by
  simp only [retotalInt32, ← UInt32.toInt32_sub, ← UInt32.toInt32_add, UInt32.toUInt32_toInt32]
  abel

namespace Represents

variable {b : OrderBook} {r : ReferenceBook} {msg : MarketMessage}

theorem empty : Represents OrderBook.empty KeyedList.empty where
  orders := by simp [OrderBook.empty]
  bids := Lists.empty true
  asks := Lists.empty false
  bidTotals := Totals.empty true
  askTotals := Totals.empty false

section Edit

variable {o : Order} {g : UInt32 → Option UInt32} {orderMap : IdMap Order}

/-- An edit of a Buy order touches the bids only. -/
theorem edit_bids (h : Represents b r) (ho : r.lookup msg.orderId = some o) (hs : o.isBuy = true)
    (hom : ∀ id, orderMap[id]? = (r.edit msg.orderId g).lookup id) {bids : SideMap greater}
    (hl : Lists bids (r.edit msg.orderId g) o.isBuy) (ht : Totals bids (r.edit msg.orderId g) o.isBuy) :
    Represents { b with bids_ := bids, orderMap_ := orderMap } (r.edit msg.orderId g) := by
  have hr : ∀ p, (r.edit msg.orderId g).level false p = r.level false p :=
    fun p => level_edit_other ho g (by simp [hs])
  rw [hs] at hl ht
  exact ⟨hom, hl, h.asks.congr hr, ht, h.askTotals.congr hr⟩

theorem edit_asks (h : Represents b r) (ho : r.lookup msg.orderId = some o) (hs : o.isBuy = false)
    (hom : ∀ id, orderMap[id]? = (r.edit msg.orderId g).lookup id) {asks : SideMap less}
    (hl : Lists asks (r.edit msg.orderId g) o.isBuy) (ht : Totals asks (r.edit msg.orderId g) o.isBuy) :
    Represents { b with asks_ := asks, orderMap_ := orderMap } (r.edit msg.orderId g) := by
  have hr : ∀ p, (r.edit msg.orderId g).level true p = r.level true p :=
    fun p => level_edit_other ho g (by simp [hs])
  rw [hs] at hl ht
  exact ⟨hom, h.bids.congr hr, hl, h.bidTotals.congr hr, ht⟩

theorem orders_insert (h : Represents b r) (ho : r.lookup msg.orderId = some o) {q : UInt32}
    (hg : g o.quantity = some q) (id : UInt64) :
    (b.orderMap_.insert msg.orderId { o with quantity := q })[id]? =
      (r.edit msg.orderId g).lookup id := by
  rw [IdMap.getElem?_insert, lookup_edit, ho, h.orders]
  simp [Order.requantify, hg]

theorem orders_erase (h : Represents b r) (ho : r.lookup msg.orderId = some o)
    (hg : g o.quantity = none) (id : UInt64) :
    (b.orderMap_.erase msg.orderId)[id]? = (r.edit msg.orderId g).lookup id := by
  rw [IdMap.getElem?_erase, lookup_edit, ho, h.orders]
  simp [Order.requantify, hg]

theorem orders_settle (h : Represents b r) (ho : r.lookup msg.orderId = some o) (id : UInt64) :
    (OrderBook.settle b.orderMap_ msg.orderId { o with quantity := leftAfter msg o })[id]? =
      (r.edit msg.orderId (fill msg.quantity)).lookup id := by
  by_cases h0 : leftAfter msg o = 0
  · rw [OrderBook.settle, if_pos h0]
    exact h.orders_erase ho (by rw [fill_eq, if_pos h0]) id
  · rw [OrderBook.settle, if_neg h0]
    exact h.orders_insert ho (by rw [fill_eq, if_neg h0]) id

end Edit

/-! ### The handlers -/

theorem handleAdd (h : Represents b r) : Represents (b.handleAdd msg) (r.add msg) := by
  cases ho : r.lookup msg.orderId with
  | some o =>
    rw [add_of_live ho]
    simpa [OrderBook.handleAdd, h.orders, ho] using h
  | none =>
    have hom : ∀ id, (b.orderMap_.insert msg.orderId (Order.ofMessage msg))[id]? = (r.add msg).lookup id := by
      intro id
      rw [IdMap.getElem?_insert, h.orders, lookup_add ho]
    simp only [OrderBook.handleAdd, h.orders, ho]
    by_cases hs : msg.side = .buy
    · have hb : (Order.ofMessage msg).isBuy = true := Order.isBuy_eq_true.mpr hs
      have hr := level_add_other_side ho false (by simp [hb])
      have hl := (hb ▸ h.bids).addToLevel ho
      have ht := Totals.addToLevel (hb ▸ h.bids) (hb ▸ h.bidTotals) ho
      rw [if_pos hs]
      exact ⟨hom, hb ▸ hl, h.asks.congr hr, hb ▸ ht, h.askTotals.congr hr⟩
    · have hb : (Order.ofMessage msg).isBuy = false := Order.isBuy_eq_false.mpr hs
      have hr := level_add_other_side ho true (by simp [hb])
      have hl := (hb ▸ h.asks).addToLevel ho
      have ht := Totals.addToLevel (hb ▸ h.asks) (hb ▸ h.askTotals) ho
      rw [if_neg hs]
      exact ⟨hom, h.bids.congr hr, hb ▸ hl, h.bidTotals.congr hr, hb ▸ ht⟩

theorem handleModify (h : Represents b r) : Represents (b.handleModify msg) (r.modify msg) := by
  cases ho : r.lookup msg.orderId with
  | none =>
    rw [ReferenceBook.modify, edit_of_unknown ho]
    simpa [OrderBook.handleModify, h.orders, ho] using h
  | some o =>
    have hom := h.orders_insert (g := fun _ => some msg.quantity) ho rfl
    simp only [OrderBook.handleModify, h.orders, ho]
    by_cases hs : o.side = .buy
    · have hb := Order.isBuy_eq_true.mpr hs
      obtain ⟨l, bids, -, he, hl, ht⟩ := (hb ▸ h.bids).modifyLevel ho retotalInt32
      rw [if_pos hs, he]
      exact h.edit_bids ho hb hom hl ((ht (hb ▸ h.bidTotals)).mpr (retotalInt32_eq _ _ _))
    · have hb := Order.isBuy_eq_false.mpr hs
      obtain ⟨l, asks, -, he, hl, ht⟩ := (hb ▸ h.asks).modifyLevel ho retotalInt32
      rw [if_neg hs, he]
      exact h.edit_asks ho hb hom hl ((ht (hb ▸ h.askTotals)).mpr (retotalInt32_eq _ _ _))

theorem handleCancel (h : Represents b r) : Represents (b.handleCancel msg) (r.cancel msg) := by
  cases ho : r.lookup msg.orderId with
  | none =>
    rw [ReferenceBook.cancel, edit_of_unknown ho]
    simpa [OrderBook.handleCancel, h.orders, ho] using h
  | some o =>
    have hom := h.orders_erase (g := fun _ => none) ho rfl
    simp only [OrderBook.handleCancel, h.orders, ho]
    by_cases hs : o.side = .buy
    · have hb := Order.isBuy_eq_true.mpr hs
      obtain ⟨hl, ht⟩ := (hb ▸ h.bids).cancelLevel ho
      rw [if_pos hs]
      exact h.edit_bids ho hb hom hl (ht (hb ▸ h.bidTotals))
    · have hb := Order.isBuy_eq_false.mpr hs
      obtain ⟨hl, ht⟩ := (hb ▸ h.asks).cancelLevel ho
      rw [if_neg hs]
      exact h.edit_asks ho hb hom hl (ht (hb ▸ h.askTotals))

theorem handleTrade (h : Represents b r) : Represents (b.handleTrade msg) (r.trade msg) := by
  cases ho : r.lookup msg.orderId with
  | none =>
    rw [ReferenceBook.trade, edit_of_unknown ho]
    simpa [OrderBook.handleTrade, h.orders, ho] using h
  | some o =>
    have hom := h.orders_settle ho
    simp only [OrderBook.handleTrade, h.orders, ho]
    by_cases hs : o.side = .buy
    · have hb := Order.isBuy_eq_true.mpr hs
      obtain ⟨bids, he, hl, ht⟩ := (hb ▸ h.bids).tradeLevel ho
      rw [if_pos hs, he]
      exact h.edit_bids ho hb hom hl (ht (hb ▸ h.bidTotals))
    · have hb := Order.isBuy_eq_false.mpr hs
      obtain ⟨asks, he, hl, ht⟩ := (hb ▸ h.asks).tradeLevel ho
      rw [if_neg hs, he]
      exact h.edit_asks ho hb hom hl (ht (hb ▸ h.askTotals))

/-- One message. -/
theorem onMessage (h : Represents b r) (msg : MarketMessage) :
    Represents (b.onMessage msg) (r.apply msg) := by
  unfold OrderBook.onMessage ReferenceBook.apply
  split_ifs
  · exact h.handleAdd
  · exact h.handleModify
  · exact h.handleCancel
  · exact h.handleTrade
  · exact h

/-- One feed. -/
theorem run (h : Represents b r) (msgs : List MarketMessage) :
    Represents (b.run msgs) (r.run msgs) := by
  induction msgs generalizing b r with
  | nil => exact h
  | cons msg msgs ih => exact ih (h.onMessage msg)

/-- The reference book determines the order book. -/
theorem unique {b' : OrderBook} (h : Represents b r) (h' : Represents b' r) : b = b' := by
  have hbids := h.bids.unique h'.bids h.bidTotals h'.bidTotals
  have hasks := h.asks.unique h'.asks h.askTotals h'.askTotals
  have horders : b.orderMap_ = b'.orderMap_ := by
    apply ExtTreeMap.ext_getElem?
    intro id
    rw [h.orders, h'.orders]
  rw [OrderBook.mk.injEq]
  exact ⟨hbids, hasks, horders⟩

end Represents

end LatencyLab
