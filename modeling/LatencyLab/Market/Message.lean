import Mathlib.Data.UInt

/-! The feed record. A `MarketMessage` is one cache line of plain data; its
`side` and `type` are bytes of which only some have a name, and any byte can
arrive. -/

namespace LatencyLab

/-- `enum class Side : std::uint8_t`. -/
structure Side where
  byte : UInt8
  deriving DecidableEq

def Side.buy : Side := ⟨0⟩
def Side.sell : Side := ⟨1⟩

/-- `enum class MessageType : std::uint8_t`. -/
structure MessageType where
  byte : UInt8
  deriving DecidableEq

namespace MessageType

def add : MessageType := ⟨0⟩
def modify : MessageType := ⟨1⟩
def cancel : MessageType := ⟨2⟩
def trade : MessageType := ⟨3⟩

end MessageType

structure MarketMessage where
  sequenceNumber : UInt64
  exchangeTimestampNs : UInt64
  orderId : UInt64
  price : Int64
  quantity : UInt32
  side : Side
  type : MessageType
  symbol : Vector UInt8 8
  padding : Vector UInt8 18
  deriving DecidableEq

/-- `MarketMessage msg{}`: every field zero. -/
def MarketMessage.zero : MarketMessage where
  sequenceNumber := 0
  exchangeTimestampNs := 0
  orderId := 0
  price := 0
  quantity := 0
  side := .buy
  type := .add
  symbol := Vector.replicate 8 0
  padding := Vector.replicate 18 0

/-- A message about one order. -/
def orderMessage (type : MessageType) (orderId : UInt64) (side : Side) (price : Int64)
    (quantity : UInt32) : MarketMessage :=
  { MarketMessage.zero with type, orderId, side, price, quantity }

/-- An order comes and is modified. -/
def addThenModify : List MarketMessage := [orderMessage .add 1 .buy 100 10, orderMessage .modify 1 .buy 100 20]

end LatencyLab
