import LatencyLab.Book.Levels
import LatencyLab.Pool.ObjectPool
import LatencyLab.Transition.Exec

/-! `PooledOrderBook`: the handlers of `OrderBook` over orders that live in a
pool. `order_map_` holds pointers, so every access to an order is an access to
the pool, and a handler is `none` where the pool operation it runs is undefined. -/

namespace LatencyLab

open Std Transition

structure PooledOrderBook where
  bids_ : SideMap greater
  asks_ : SideMap less
  orderMap_ : IdMap Ptr
  orderPool_ : ObjectPool Order
  poolExhaustions_ : UInt64
  deriving DecidableEq

/-- `static_cast<std::int64_t>` of a `std::uint32_t`. -/
def toInt64 (q : UInt32) : Int64 := q.toUInt64.toInt64

/-- The aggregate of `PooledOrderBook::handle_modify`. -/
def retotalInt64 (total new old : UInt32) : UInt32 :=
  let qtyDelta := toInt64 new - toInt64 old
  let updatedQuantity := toInt64 total + qtyDelta
  if 0 < updatedQuantity then updatedQuantity.toUInt64.toUInt32 else 0

/-- `sizeof` of the storage of an `Order`: two 64-bit words, the quantity, the
side and three bytes of padding. -/
def orderSlab (data : ℕ) : Slab := ⟨data, 24, by decide⟩

namespace PooledOrderBook

/-- A book whose pool allocated its slab at address `data`. -/
def make (data : ℕ) (maxOrders : UInt64) : PooledOrderBook where
  bids_ := ∅
  asks_ := ∅
  orderMap_ := ∅
  orderPool_ := ObjectPool.make (orderSlab data) maxOrders.toNat
  poolExhaustions_ := 0

def handleAdd (b : PooledOrderBook) (msg : MarketMessage) : Option PooledOrderBook :=
  match b.orderMap_[msg.orderId]? with
  | some _ => some b
  | none =>
    match b.orderPool_.allocate (Order.ofMessage msg) with
    | none => none
    | some (none, pool) =>
      some { b with orderPool_ := pool, poolExhaustions_ := b.poolExhaustions_ + 1 }
    | some (some order, pool) =>
      let b := { b with orderPool_ := pool, orderMap_ := b.orderMap_.insert msg.orderId order }
      if msg.side = .buy then some { b with bids_ := addToLevel msg b.bids_ }
      else some { b with asks_ := addToLevel msg b.asks_ }

def handleModify (b : PooledOrderBook) (msg : MarketMessage) : Option PooledOrderBook :=
  match b.orderMap_[msg.orderId]? with
  | none => some b
  | some ptr =>
    (b.orderPool_.deref ptr).bind fun order =>
      if order.side = .buy then
        match modifyLevel retotalInt64 msg order b.bids_ with
        | none => some b
        | some (bids, order) =>
          (b.orderPool_.write ptr order).map fun pool => { b with bids_ := bids, orderPool_ := pool }
      else
        match modifyLevel retotalInt64 msg order b.asks_ with
        | none => some b
        | some (asks, order) =>
          (b.orderPool_.write ptr order).map fun pool => { b with asks_ := asks, orderPool_ := pool }

/-- `order_map_.erase(order_it); order_pool_.deallocate(order);` -/
def release (b : PooledOrderBook) (id : UInt64) (ptr : Ptr) : Option PooledOrderBook :=
  let b := { b with orderMap_ := b.orderMap_.erase id }
  (b.orderPool_.deallocate (some ptr)).map fun pool => { b with orderPool_ := pool }

def handleCancel (b : PooledOrderBook) (msg : MarketMessage) : Option PooledOrderBook :=
  match b.orderMap_[msg.orderId]? with
  | none => some b
  | some ptr =>
    (b.orderPool_.deref ptr).bind fun order =>
      let b := if order.side = .buy then { b with bids_ := cancelLevel msg order b.bids_ }
        else { b with asks_ := cancelLevel msg order b.asks_ }
      b.release msg.orderId ptr

/-- What `trade_level` does to the order: it is written back, and released when
nothing of it is left. -/
def settle (b : PooledOrderBook) (id : UInt64) (ptr : Ptr) (order : Order) : Option PooledOrderBook :=
  (b.orderPool_.write ptr order).bind fun pool =>
    let b := { b with orderPool_ := pool }
    if order.quantity = 0 then b.release id ptr else some b

def handleTrade (b : PooledOrderBook) (msg : MarketMessage) : Option PooledOrderBook :=
  match b.orderMap_[msg.orderId]? with
  | none => some b
  | some ptr =>
    (b.orderPool_.deref ptr).bind fun order =>
      if order.side = .buy then
        match tradeLevel msg order b.bids_ with
        | none => some b
        | some (bids, order) => { b with bids_ := bids }.settle msg.orderId ptr order
      else
        match tradeLevel msg order b.asks_ with
        | none => some b
        | some (asks, order) => { b with asks_ := asks }.settle msg.orderId ptr order

def onMessage (b : PooledOrderBook) (msg : MarketMessage) : Option PooledOrderBook :=
  if msg.type = .add then b.handleAdd msg
  else if msg.type = .modify then b.handleModify msg
  else if msg.type = .cancel then b.handleCancel msg
  else if msg.type = .trade then b.handleTrade msg
  else some b

theorem onMessage_of_cancel (b : PooledOrderBook) {msg : MarketMessage} (h : msg.type = .cancel) :
    b.onMessage msg = b.handleCancel msg := by
  simp [onMessage, h, MessageType.add, MessageType.modify, MessageType.cancel]

theorem onMessage_of_trade (b : PooledOrderBook) {msg : MarketMessage} (h : msg.type = .trade) :
    b.onMessage msg = b.handleTrade msg := by
  simp [onMessage, h, MessageType.add, MessageType.modify, MessageType.cancel, MessageType.trade]

/-- The book after a feed. -/
def run (b : PooledOrderBook) (msgs : List MarketMessage) : Option PooledOrderBook :=
  exec onMessage b msgs

def bestBid (b : PooledOrderBook) : Option PriceLevel := b.bids_.front
def bestAsk (b : PooledOrderBook) : Option PriceLevel := b.asks_.front
def totalOrders (b : PooledOrderBook) : UInt64 := UInt64.ofNat b.orderMap_.size
def buySideLevels (b : PooledOrderBook) : UInt32 := UInt32.ofNat b.bids_.size
def sellSideLevels (b : PooledOrderBook) : UInt32 := UInt32.ofNat b.asks_.size
def poolAllocations (b : PooledOrderBook) : UInt64 := b.orderPool_.allocations_
def poolDeallocations (b : PooledOrderBook) : UInt64 := b.orderPool_.deallocations_
def poolExhaustions (b : PooledOrderBook) : UInt64 := b.poolExhaustions_
def poolAvailable (b : PooledOrderBook) : UInt64 := UInt64.ofNat b.orderPool_.available

end PooledOrderBook

end LatencyLab
