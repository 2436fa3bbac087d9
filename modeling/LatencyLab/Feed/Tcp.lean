import LatencyLab.Feed.Consumer
import LatencyLab.Transition.Exec

/-! The TCP feed: `send_all` on the producer's side, a byte stream, `recv_all` on
the consumer's side. The kernel chooses how much a `send` accepts and a `recv`
returns, interrupts either call, or fails it; each such choice is an event. -/

namespace LatencyLab

open Bytes

/-- The producer thread. In `sending`, `sent` bytes of the image are accepted. -/
inductive TcpProducerPc
  | nextMessage (rest : List MarketMessage)
  | sending (message : MarketMessage) (sent : ℕ) (rest : List MarketMessage)
  | finished
  deriving DecidableEq

/-- The consumer thread. In `receiving`, `received` bytes of the message are there. -/
inductive TcpConsumerPc
  | accepting
  | testCount
  | receiving (received : ℕ)
  | finished
  deriving DecidableEq

/-- `pipe` holds the bytes accepted and not yet received; `shutDown` says that no
more will follow. `sentMessages` records the stamped messages given to `send_all`,
`sendFailed` and `recvFailed` whether a side met an error other than `EINTR`. -/
structure TcpFeed (B : Type*) where
  producer : TcpProducerPc
  produced : UInt64
  pipe : List UInt8
  shutDown : Bool
  consumer : TcpConsumerPc
  numMessages : UInt64
  state : FeedConsumer B
  sentMessages : List MarketMessage
  sendFailed : Bool
  recvFailed : Bool
  deriving DecidableEq

inductive TcpEvent
  | startMessage (now : UInt64)
  | sendAccepts (bytes : ℕ)
  | sendInterrupted
  | sendFails
  | messageSent
  | shutdown
  | accept (ok : Bool)
  | testCount
  | recvReturns (bytes : ℕ)
  | recvInterrupted
  | recvEnd
  | recvFails
  | messageReceived (clock : ConsumeClock)
  deriving DecidableEq

/-- The reading of the clock that goes into the next message. -/
def TcpEvent.reading? : TcpEvent → Option UInt64
  | .startMessage now => some now
  | _ => none

namespace TcpFeed

variable {B : Type*}

def make (messages : List MarketMessage) (numMessages : UInt64) (book : B) : TcpFeed B where
  producer := .nextMessage messages
  produced := 0
  pipe := []
  shutDown := false
  consumer := .accepting
  numMessages := numMessages
  state := FeedConsumer.make book
  sentMessages := []
  sendFailed := false
  recvFailed := false

/-- One step of one thread, `none` where that thread is not at that step. -/
def step (onMessage : B → MarketMessage → B) (s : TcpFeed B) : TcpEvent → Option (TcpFeed B)
  | .startMessage now =>
    match s.producer with
    | .nextMessage (message :: rest) =>
      some { s with
        producer := .sending (message.stamp now) 0 rest
        sentMessages := s.sentMessages ++ [message.stamp now] }
    | _ => none
  -- `send` returns a positive count
  | .sendAccepts bytes =>
    match s.producer with
    | .sending message sent rest =>
      if 0 < bytes ∧ sent + bytes ≤ MarketMessage.size then
        some { s with
          producer := .sending message (sent + bytes) rest
          pipe := s.pipe ++ field message.image sent bytes }
      else none
    | _ => none
  -- `errno == EINTR`: the loop goes around
  | .sendInterrupted =>
    match s.producer with
    | .sending _ sent _ => if sent < MarketMessage.size then some s else none
    | _ => none
  -- any other result: `send_all` returns false and the loop over the messages breaks
  | .sendFails =>
    match s.producer with
    | .sending _ sent _ =>
      if sent < MarketMessage.size then
        some { s with producer := .finished, shutDown := true, sendFailed := true }
      else none
    | _ => none
  | .messageSent =>
    match s.producer with
    | .sending _ sent rest =>
      if sent = MarketMessage.size then
        some { s with producer := .nextMessage rest, produced := s.produced + 1 }
      else none
    | _ => none
  | .shutdown =>
    match s.producer with
    | .nextMessage [] => some { s with producer := .finished, shutDown := true }
    | _ => none
  | .accept ok =>
    match s.consumer with
    | .accepting =>
      if ok then some { s with consumer := .testCount }
      else some { s with consumer := .finished, recvFailed := true }
    | _ => none
  | .testCount =>
    match s.consumer with
    | .testCount =>
      if s.state.consumed < s.numMessages then some { s with consumer := .receiving 0 }
      else some { s with consumer := .finished }
    | _ => none
  -- `recv` returns a positive count
  | .recvReturns bytes =>
    match s.consumer with
    | .receiving received =>
      if 0 < bytes ∧ received + bytes ≤ MarketMessage.size ∧ bytes ≤ s.pipe.length then
        some { s with
          consumer := .receiving (received + bytes)
          pipe := s.pipe.drop bytes
          state := { s.state with message := writeAt s.state.message received (s.pipe.take bytes) } }
      else none
    | _ => none
  | .recvInterrupted =>
    match s.consumer with
    | .receiving received => if received < MarketMessage.size then some s else none
    | _ => none
  -- `recv` returns 0 behind the last byte of a stream that was shut down
  | .recvEnd =>
    match s.consumer with
    | .receiving received =>
      if received < MarketMessage.size ∧ s.pipe = [] ∧ s.shutDown then
        some { s with consumer := .finished }
      else none
    | _ => none
  -- an error, or an end of stream before that
  | .recvFails =>
    match s.consumer with
    | .receiving received =>
      if received < MarketMessage.size then some { s with consumer := .finished, recvFailed := true }
      else none
    | _ => none
  | .messageReceived clock =>
    match s.consumer with
    | .receiving received =>
      if received = MarketMessage.size then
        some { s with consumer := .testCount, state := s.state.consume onMessage clock }
      else none
    | _ => none

end TcpFeed

end LatencyLab
