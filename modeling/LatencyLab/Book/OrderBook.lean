import LatencyLab.Book.Levels

/-! `OrderBook`: two side maps and the map of live orders. Every handler looks
the order up first and ignores the message when that fails; `handle_modify`,
`handle_cancel` and `handle_trade` take price and side from the stored order,
never from the message. -/

namespace LatencyLab

open Std

structure OrderBook where
  bids_ : SideMap greater
  asks_ : SideMap less
  orderMap_ : IdMap Order
  deriving DecidableEq

/-- The aggregate of `OrderBook::handle_modify`: both casts and both sums are
`std::int32_t`, read as two's complement. -/
def retotalInt32 (total new old : UInt32) : UInt32 :=
  let qtyDelta := new.toInt32 - old.toInt32
  (total.toInt32 + qtyDelta).toUInt32

namespace OrderBook

def empty : OrderBook := ⟨∅, ∅, ∅⟩

def handleAdd (b : OrderBook) (msg : MarketMessage) : OrderBook :=
  match b.orderMap_[msg.orderId]? with
  | some _ => b
  | none =>
    let b := { b with orderMap_ := b.orderMap_.insert msg.orderId (Order.ofMessage msg) }
    if msg.side = .buy then { b with bids_ := addToLevel msg b.bids_ }
    else { b with asks_ := addToLevel msg b.asks_ }

def handleModify (b : OrderBook) (msg : MarketMessage) : OrderBook :=
  match b.orderMap_[msg.orderId]? with
  | none => b
  | some order =>
    if order.side = .buy then
      match modifyLevel retotalInt32 msg order b.bids_ with
      | none => b
      | some (bids, order) => { b with bids_ := bids, orderMap_ := b.orderMap_.insert msg.orderId order }
    else
      match modifyLevel retotalInt32 msg order b.asks_ with
      | none => b
      | some (asks, order) => { b with asks_ := asks, orderMap_ := b.orderMap_.insert msg.orderId order }

def handleCancel (b : OrderBook) (msg : MarketMessage) : OrderBook :=
  match b.orderMap_[msg.orderId]? with
  | none => b
  | some order =>
    let b := if order.side = .buy then { b with bids_ := cancelLevel msg order b.bids_ }
      else { b with asks_ := cancelLevel msg order b.asks_ }
    { b with orderMap_ := b.orderMap_.erase msg.orderId }

/-- What `trade_level` does to `order_map_`: a filled order is erased. -/
def settle (orderMap : IdMap Order) (id : UInt64) (order : Order) : IdMap Order :=
  if order.quantity = 0 then orderMap.erase id else orderMap.insert id order

def handleTrade (b : OrderBook) (msg : MarketMessage) : OrderBook :=
  match b.orderMap_[msg.orderId]? with
  | none => b
  | some order =>
    if order.side = .buy then
      match tradeLevel msg order b.bids_ with
      | none => b
      | some (bids, order) => { b with bids_ := bids, orderMap_ := settle b.orderMap_ msg.orderId order }
    else
      match tradeLevel msg order b.asks_ with
      | none => b
      | some (asks, order) => { b with asks_ := asks, orderMap_ := settle b.orderMap_ msg.orderId order }

/-- A type byte without a name falls through the `switch`. -/
def onMessage (b : OrderBook) (msg : MarketMessage) : OrderBook :=
  if msg.type = .add then b.handleAdd msg
  else if msg.type = .modify then b.handleModify msg
  else if msg.type = .cancel then b.handleCancel msg
  else if msg.type = .trade then b.handleTrade msg
  else b

/-- The book after a feed. -/
def run (b : OrderBook) (msgs : List MarketMessage) : OrderBook := msgs.foldl onMessage b

def bestBid (b : OrderBook) : Option PriceLevel := b.bids_.front
def bestAsk (b : OrderBook) : Option PriceLevel := b.asks_.front
def totalOrders (b : OrderBook) : UInt64 := UInt64.ofNat b.orderMap_.size
def buySideLevels (b : OrderBook) : UInt32 := UInt32.ofNat b.bids_.size
def sellSideLevels (b : OrderBook) : UInt32 := UInt32.ofNat b.asks_.size

end OrderBook

end LatencyLab
