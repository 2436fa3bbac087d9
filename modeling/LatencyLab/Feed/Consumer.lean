import LatencyLab.Market.Wire

/-! What the two network feeds share: the message a producer stamps and sends, and
what a consumer does with a message it has received. -/

namespace LatencyLab

/-- What the consumer thread keeps. `appliedMessages` records the arguments of
`on_message`. -/
structure FeedConsumer (B : Type*) where
  message : List UInt8
  book : B
  networkToBookLatency : List UInt64
  bookProcessingLatency : List UInt64
  consumed : UInt64
  appliedMessages : List MarketMessage
  deriving DecidableEq

/-- The clock reads around one `on_message`. -/
structure ConsumeClock where
  beforeBookNs : UInt64
  bookStart : UInt64
  bookEnd : UInt64
  deriving DecidableEq

namespace FeedConsumer

variable {B : Type*}

def make (book : B) : FeedConsumer B where
  message := MarketMessage.zero.image
  book := book
  networkToBookLatency := []
  bookProcessingLatency := []
  consumed := 0
  appliedMessages := []

/-- The body of the receive loop once the message is complete. -/
def consume (onMessage : B → MarketMessage → B) (f : FeedConsumer B) (clock : ConsumeClock) :
    FeedConsumer B :=
  let message := MarketMessage.ofImage f.message
  { f with
    networkToBookLatency :=
      f.networkToBookLatency ++ [clock.beforeBookNs - message.exchangeTimestampNs]
    book := onMessage f.book message
    bookProcessingLatency := f.bookProcessingLatency ++ [clock.bookEnd - clock.bookStart]
    consumed := f.consumed + 1
    appliedMessages := f.appliedMessages ++ [message] }

end FeedConsumer

/-- The copy of a message that a producer sends. -/
def MarketMessage.stamp (m : MarketMessage) (now : UInt64) : MarketMessage :=
  { m with exchangeTimestampNs := now }

/-! ### Send timestamps -/

/-- The first messages, each with the reading of the clock that belongs to it for its
timestamp, as many as there are readings. -/
def sentAt (messages : List MarketMessage) (readings : List UInt64) : List MarketMessage :=
  messages.zipWith (fun m now => { m with exchangeTimestampNs := now }) readings

theorem sentAt_nil (messages : List MarketMessage) : sentAt messages [] = [] := List.zipWith_nil_right

theorem sentAt_append {past rest : List MarketMessage} {readings later : List UInt64}
    (h : past.length = readings.length) :
    sentAt (past ++ rest) (readings ++ later) = sentAt past readings ++ sentAt rest later :=
  List.zipWith_append h

/-- A producer that stamps the next of its messages. -/
theorem sentAt_snoc {messages rest : List MarketMessage} {m : MarketMessage} {readings : List UInt64}
    (h : messages.drop readings.length = m :: rest) (now : UInt64) :
    sentAt messages (readings ++ [now]) = sentAt messages readings ++ [m.stamp now] := by
  induction readings generalizing messages with
  | nil =>
    rw [List.length_nil, List.drop_zero] at h
    rw [h, sentAt_nil, List.nil_append, List.nil_append]
    exact congrArg (m.stamp now :: ·) (sentAt_nil rest)
  | cons reading readings ih =>
    cases messages with
    | nil => simp at h
    | cons m' messages => exact congrArg (_ :: ·) (ih h)

/-- The messages with their timestamps erased. -/
def unstamped (messages : List MarketMessage) : List MarketMessage :=
  messages.map fun m => { m with exchangeTimestampNs := 0 }

/-- A timestamp is all that a producer changes. -/
theorem unstamped_sentAt {messages : List MarketMessage} {readings : List UInt64}
    (h : messages.length ≤ readings.length) : unstamped (sentAt messages readings) = unstamped messages := by
  induction messages generalizing readings with
  | nil => rfl
  | cons m messages ih =>
    cases readings with
    | nil => simp at h
    | cons now readings => exact congrArg (_ :: ·) (ih (Nat.le_of_succ_le_succ h))

end LatencyLab
