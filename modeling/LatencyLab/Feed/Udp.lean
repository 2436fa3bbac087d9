import LatencyLab.Feed.Consumer
import LatencyLab.Transition.Exec

/-! The UDP feed: one datagram for each message, a network that delivers datagrams
in any order or drops them, a receive queue, and a consumer that looks at
`producer_done` only after a `recv` has failed. A `recv` fails by the timeout on an
empty queue, or because it was interrupted. -/

namespace LatencyLab

open Bytes

inductive UdpConsumerPc
  | testCount
  | receiving
  | failed
  | received (bytes : ℕ)
  | finished
  deriving DecidableEq

/-- `inFlight` are the datagrams sent and neither delivered nor dropped. The
producer thread is at its loop over `unsent` until it has set `producerDone`. -/
structure UdpFeed (B : Type*) where
  unsent : List MarketMessage
  produced : UInt64
  producerDone : Bool
  inFlight : List (List UInt8)
  receiveQueue : List (List UInt8)
  consumer : UdpConsumerPc
  numMessages : UInt64
  state : FeedConsumer B
  deriving DecidableEq

inductive UdpEvent
  | sendto (now : UInt64) (ok : Bool)
  | setDone
  | deliver (i : ℕ)
  | drop (i : ℕ)
  | testCount
  | recv
  | recvTimeout
  | recvInterrupted
  | testDone
  | messageReceived (clock : ConsumeClock)
  deriving DecidableEq

/-- The reading of the clock that went into a message `sendto` has taken. -/
def UdpEvent.reading? : UdpEvent → Option UInt64
  | .sendto now true => some now
  | _ => none

namespace UdpFeed

variable {B : Type*}

def make (messages : List MarketMessage) (numMessages : UInt64) (book : B) : UdpFeed B where
  unsent := messages
  produced := 0
  producerDone := false
  inFlight := []
  receiveQueue := []
  consumer := .testCount
  numMessages := numMessages
  state := FeedConsumer.make book

/-- One step of one thread or of the network, `none` where it is not possible. -/
def step (onMessage : B → MarketMessage → B) (s : UdpFeed B) : UdpEvent → Option (UdpFeed B)
  -- a datagram is sent whole or not at all
  | .sendto now ok =>
    match s.unsent with
    | message :: rest =>
      if ok then
        some { s with
          unsent := rest
          inFlight := s.inFlight ++ [(message.stamp now).image]
          produced := s.produced + 1 }
      else some { s with unsent := rest }
    | [] => none
  | .setDone =>
    match s.unsent with
    | [] => if s.producerDone then none else some { s with producerDone := true }
    | _ => none
  -- the consumer closes the socket when it leaves: what arrives later is discarded
  | .deliver i =>
    s.inFlight[i]?.map fun datagram =>
      { s with
        inFlight := s.inFlight.eraseIdx i
        receiveQueue :=
          if s.consumer = .finished then s.receiveQueue else s.receiveQueue ++ [datagram] }
  | .drop i => s.inFlight[i]?.map fun _ => { s with inFlight := s.inFlight.eraseIdx i }
  | .testCount =>
    match s.consumer with
    | .testCount =>
      if s.state.consumed < s.numMessages then some { s with consumer := .receiving }
      else some { s with consumer := .finished }
    | _ => none
  -- `recv` returns what fits of the head datagram and discards the rest of it
  | .recv =>
    match s.consumer, s.receiveQueue with
    | .receiving, datagram :: rest =>
      let bytes := datagram.take MarketMessage.size
      some { s with
        consumer := .received bytes.length
        receiveQueue := rest
        state := { s.state with message := writeAt s.state.message 0 bytes } }
    | _, _ => none
  | .recvTimeout =>
    match s.consumer, s.receiveQueue with
    | .receiving, [] => some { s with consumer := .failed }
    | _, _ => none
  | .recvInterrupted =>
    match s.consumer with
    | .receiving => some { s with consumer := .failed }
    | _ => none
  | .testDone =>
    match s.consumer with
    | .failed => some { s with consumer := if s.producerDone then .finished else .testCount }
    | _ => none
  | .messageReceived clock =>
    match s.consumer with
    | .received bytes =>
      if bytes = MarketMessage.size then
        some { s with consumer := .testCount, state := s.state.consume onMessage clock }
      else some { s with consumer := .testCount }
    | _ => none

end UdpFeed

end LatencyLab
