import LatencyLab.Market.Message

/-! `MarketDataGenerator`: a stream of messages from a linear congruential sequence.
Every message draws four numbers, for price, quantity, side and type; its order id
cycles with the position in the call, its sequence number runs on across calls.
The clock is read once for each message. -/

namespace LatencyLab

structure MarketDataGenerator where
  numMessages_ : UInt64
  seed_ : UInt64
  symbol_ : Vector UInt8 8
  messages_ : List MarketMessage
  nextOrderId_ : UInt64
  sequenceNumber_ : UInt64
  deriving DecidableEq

namespace MarketDataGenerator

/-- The constructor. `symbol` are the characters before the terminating zero. -/
def make (numMessages : UInt64) (symbol : List UInt8) : MarketDataGenerator where
  numMessages_ := numMessages
  seed_ := 12345
  -- `memset` with blanks, then `memcpy` of what fits
  symbol_ := Vector.ofFn fun i => symbol.getD i 32
  messages_ := []
  nextOrderId_ := 1000
  sequenceNumber_ := 1

def nextRandom (g : MarketDataGenerator) : UInt64 × MarketDataGenerator :=
  let seed := 1664525 * g.seed_ + 1013904223
  (seed, { g with seed_ := seed })

def randomBounded (g : MarketDataGenerator) (upperBound : UInt64) : UInt64 × MarketDataGenerator :=
  let (random, g) := g.nextRandom
  ((random >>> 16) % upperBound, g)

/-- The type drawn for a message. -/
def drawType (typeRand : UInt32) : MessageType :=
  if typeRand < 70 then .add
  else if typeRand < 85 then .modify
  else if typeRand < 95 then .cancel
  else .trade

/-- The body of the loop of `generate`. -/
def generateOne (g : MarketDataGenerator) (i : UInt64) (now : UInt64) : MarketDataGenerator :=
  let sequenceNumber := g.sequenceNumber_
  let orderId := g.nextOrderId_ + i % 10000
  let symbol := g.symbol_
  let (price, g) := g.randomBounded 19000
  let (quantity, g) := g.randomBounded 10000
  let (side, g) := g.randomBounded 2
  let (type, g) := g.randomBounded 100
  let msg := { MarketMessage.zero with
    sequenceNumber := sequenceNumber
    exchangeTimestampNs := now
    orderId := orderId
    symbol := symbol
    price := 10000 + price.toInt64
    quantity := 100 + quantity.toUInt32
    side := if side = 0 then .buy else .sell
    type := drawType type.toUInt32 }
  { g with sequenceNumber_ := sequenceNumber + 1, messages_ := g.messages_ ++ [msg] }

/-- One call of `generate`, the clock showing `clock i` to message `i`. -/
def generate (g : MarketDataGenerator) (clock : ℕ → UInt64) : MarketDataGenerator :=
  (List.range g.numMessages_.toNat).foldl (fun g i => g.generateOne (UInt64.ofNat i) (clock i)) g

/-- Successive calls of `generate`, each with its clock. -/
def generateAll (g : MarketDataGenerator) (clocks : List (ℕ → UInt64)) : MarketDataGenerator :=
  clocks.foldl generate g

end MarketDataGenerator

end LatencyLab
