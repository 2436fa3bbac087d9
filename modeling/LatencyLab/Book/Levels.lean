import LatencyLab.Market.Message
import Std.Data.ExtTreeMap

/-! Price levels and the updates the book handlers make to one side map. The
handlers of both books run the same lambda over `bids_` or `asks_`; the lambdas
are given here over a side map of either order. Only `modify_level` differs
between the books, in how it computes the new aggregate, so that computation is
a parameter. -/

namespace LatencyLab

open Std

structure Order where
  orderId : UInt64
  price : Int64
  quantity : UInt32
  side : Side
  deriving DecidableEq

/-- The designated initializer of `handle_add`. -/
def Order.ofMessage (msg : MarketMessage) : Order where
  orderId := msg.orderId
  price := msg.price
  quantity := msg.quantity
  side := msg.side

structure PriceLevel where
  price : Int64
  orderIds : List UInt64
  totalQuantity : UInt32
  deriving DecidableEq

/-- `std::greater<std::int64_t>` as an iteration order. -/
def greater (a b : Int64) : Ordering := compare b a

/-- `std::less<std::int64_t>` as an iteration order. -/
def less (a b : Int64) : Ordering := compare a b

instance : TransCmp greater := inferInstanceAs (TransCmp fun a b : Int64 => compare b a)
instance : LawfulEqCmp greater := inferInstanceAs (LawfulEqCmp fun a b : Int64 => compare b a)
instance : TransCmp less := inferInstanceAs (TransCmp fun a b : Int64 => compare a b)
instance : LawfulEqCmp less := inferInstanceAs (LawfulEqCmp fun a b : Int64 => compare a b)

/-- `std::map<std::int64_t, PriceLevel, cmp>`. -/
abbrev SideMap (cmp : Int64 → Int64 → Ordering) := ExtTreeMap Int64 PriceLevel cmp

/-- `std::unordered_map<std::uint64_t, V>`; no handler iterates over it. -/
abbrev IdMap (V : Type*) := ExtTreeMap UInt64 V compare

variable {cmp : Int64 → Int64 → Ordering} [TransCmp cmp] [LawfulEqCmp cmp]

namespace SideMap

/-- The level at `begin()`. -/
def front (m : SideMap cmp) : Option PriceLevel := m.toList.head?.map Prod.snd

/-- Store or erase the level at one price. -/
def put (m : SideMap cmp) (price : Int64) : Option PriceLevel → SideMap cmp
  | none => m.erase price
  | some level => m.insert price level

theorem getElem?_put (m : SideMap cmp) (price : Int64) (level : Option PriceLevel) (p : Int64) :
    (m.put price level)[p]? = if p = price then level else m[p]? := by
  cases level <;> simp [put, ExtTreeMap.getElem?_insert, ExtTreeMap.getElem?_erase, eq_comm (a := p)]

end SideMap

/-! ### The level lambdas -/

/-- `add_to_level`. -/
def addToLevel (msg : MarketMessage) (sideMap : SideMap cmp) : SideMap cmp :=
  match sideMap[msg.price]? with
  | some level =>
    sideMap.insert msg.price { level with
      orderIds := level.orderIds ++ [msg.orderId]
      totalQuantity := level.totalQuantity + msg.quantity }
  | none =>
    sideMap.insert msg.price
      { price := msg.price, orderIds := [msg.orderId], totalQuantity := msg.quantity }

/-- `modify_level`, with the aggregate computed by `retotal total new old`. The
result is the side map and the order as the lambda leaves them, `none` when the
level is missing and the lambda does nothing. -/
def modifyLevel (retotal : UInt32 → UInt32 → UInt32 → UInt32) (msg : MarketMessage) (order : Order)
    (sideMap : SideMap cmp) : Option (SideMap cmp × Order) :=
  match sideMap[order.price]? with
  | none => none
  | some level =>
    some (sideMap.insert order.price { level with
        totalQuantity := retotal level.totalQuantity msg.quantity order.quantity },
      { order with quantity := msg.quantity })

/-- The common tail of `cancel_level` and `trade_level`: `std::find` and `erase`
of the id, then erasure of a level left empty. -/
def dropId (price : Int64) (id : UInt64) (level : PriceLevel) (sideMap : SideMap cmp) : SideMap cmp :=
  let level := { level with orderIds := level.orderIds.erase id }
  if level.orderIds.isEmpty then sideMap.erase price else sideMap.insert price level

/-- `cancel_level`, up to the erasure from `order_map_`. -/
def cancelLevel (msg : MarketMessage) (order : Order) (sideMap : SideMap cmp) : SideMap cmp :=
  match sideMap[order.price]? with
  | none => sideMap
  | some level =>
    dropId order.price msg.orderId
      { level with totalQuantity := level.totalQuantity - order.quantity } sideMap

/-- `trade_level`: the side map and the order after the fill, `none` when the
level is missing. The caller drops the order when its quantity is zero. -/
def tradeLevel (msg : MarketMessage) (order : Order) (sideMap : SideMap cmp) :
    Option (SideMap cmp × Order) :=
  match sideMap[order.price]? with
  | none => none
  | some level =>
    let tradeQty := min msg.quantity order.quantity
    let level := { level with totalQuantity := level.totalQuantity - tradeQty }
    let order := { order with quantity := order.quantity - tradeQty }
    some (if order.quantity = 0 then dropId order.price msg.orderId level sideMap
      else sideMap.insert order.price level, order)

end LatencyLab
