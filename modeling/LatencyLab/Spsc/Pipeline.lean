import LatencyLab.Market.Message
import LatencyLab.Spsc.Channel

/-! The producer and consumer threads of the SPSC benchmarks. The two programs
differ in the book only, so the book is a state with an `on_message`. The queue
is the channel of the ring with sequentially consistent loads: a load of the
other thread's index is at the last position. Clock reads take their value from
the event; migration counters and printing are left out. -/

namespace LatencyLab

structure MarketMessageEnvelope where
  message : MarketMessage
  producerTimestampNs : UInt64
  queuePushTimestampNs : UInt64
  deriving DecidableEq

/-- `MarketMessageEnvelope{}`, which also fills the slots of a new ring. -/
def MarketMessageEnvelope.zero : MarketMessageEnvelope := ⟨MarketMessage.zero, 0, 0⟩

instance : Inhabited MarketMessageEnvelope := ⟨MarketMessageEnvelope.zero⟩

/-- `rest` are the messages the loop has not finished with. -/
inductive ProducerPc
  | nextMessage (rest : List MarketMessage)
  | stamped (envelope : MarketMessageEnvelope) (rest : List MarketMessage)
  | pushing (envelope : MarketMessageEnvelope) (rest : List MarketMessage)
  | pushed (rest : List MarketMessage)
  | finished
  deriving DecidableEq

inductive ConsumerPc
  | testDone
  | testHead
  | testTail (head : ℕ)
  | popping
  | popped (envelope : MarketMessageEnvelope)
  | waited (envelope : MarketMessageEnvelope)
  | timing (envelope : MarketMessageEnvelope) (bookStart : UInt64)
  | applied (envelope : MarketMessageEnvelope) (bookStart : UInt64)
  | timed (envelope : MarketMessageEnvelope)
  | recorded
  | finished
  deriving DecidableEq

/-- `appliedMessages` records the arguments of `on_message`. -/
structure Pipeline (B : Type*) where
  queue : Channel MarketMessageEnvelope
  producer : ProducerPc
  consumer : ConsumerPc
  producerDone : Bool
  produced : UInt64
  consumed : UInt64
  producerSpins : UInt64
  consumerSpins : UInt64
  book : B
  queueWaitRecorder : List UInt64
  bookProcessingRecorder : List UInt64
  pipelineLatencyRecorder : List UInt64
  appliedMessages : List MarketMessage
  deriving DecidableEq

inductive PipelineEvent
  | stampMessage (now : UInt64)
  | stampPush (now : UInt64)
  | inPush (e : ChannelEvent MarketMessageEnvelope)
  | pushReturns
  | countProduced
  | storeDone
  | loadDone
  | loadHead
  | loadTail
  | inPop (e : ChannelEvent MarketMessageEnvelope)
  | popReturns
  | stampPop (now : UInt64)
  | startBook (now : UInt64)
  | applyMessage
  | endBook (now : UInt64)
  | stampEnd (now : UInt64)
  | countConsumed
  deriving DecidableEq

/-- The steps inside a `push`, loads of the other index being fresh. -/
def ChannelEvent.inPush {T : Type*} (r : SpscRingBuffer T) : ChannelEvent T → Bool
  | .pushLoadHead | .pushPartialWrite _ | .pushWrite | .pushStoreHead => true
  | .pushLoadTail position => position + 1 = r.tail_.length
  | _ => false

def ChannelEvent.inPop {T : Type*} (r : SpscRingBuffer T) : ChannelEvent T → Bool
  | .popLoadTail | .popRead | .popStoreTail => true
  | .popLoadHead position => position + 1 = r.head_.length
  | _ => false

namespace Pipeline

variable {B : Type*}

def make (capacity : ℕ) (messages : List MarketMessage) (book : B) : Pipeline B where
  queue := Channel.make capacity
  producer := .nextMessage messages
  consumer := .testDone
  producerDone := false
  produced := 0
  consumed := 0
  producerSpins := 0
  consumerSpins := 0
  book := book
  queueWaitRecorder := []
  bookProcessingRecorder := []
  pipelineLatencyRecorder := []
  appliedMessages := []

/-- Enter `queue.pop`. -/
def callPop (s : Pipeline B) : Option (Pipeline B) :=
  (s.queue.step .popCall).map fun queue => { s with queue := queue, consumer := .popping }

/-- One step of one thread, `none` where that thread is not at that step. -/
def step (onMessage : B → MarketMessage → B) (s : Pipeline B) : PipelineEvent → Option (Pipeline B)
  | .stampMessage now =>
    match s.producer with
    | .nextMessage (message :: rest) => some { s with producer := .stamped ⟨message, now, 0⟩ rest }
    | _ => none
  | .stampPush now =>
    match s.producer with
    | .stamped envelope rest =>
      let envelope := { envelope with queuePushTimestampNs := now }
      (s.queue.step (.pushCall envelope)).map fun queue =>
        { s with queue := queue, producer := .pushing envelope rest }
    | _ => none
  | .inPush e =>
    match s.producer with
    | .pushing _ _ =>
      if e.inPush s.queue.ring then (s.queue.step e).map fun queue => { s with queue := queue } else none
    | _ => none
  | .pushReturns =>
    match s.producer, s.queue.push with
    | .pushing _ rest, .idle true => some { s with producer := .pushed rest }
    | .pushing envelope rest, .idle false =>
      some { s with producer := .stamped envelope rest, producerSpins := s.producerSpins + 1 }
    | _, _ => none
  | .countProduced =>
    match s.producer with
    | .pushed rest => some { s with producer := .nextMessage rest, produced := s.produced + 1 }
    | _ => none
  | .storeDone =>
    match s.producer with
    | .nextMessage [] => some { s with producer := .finished, producerDone := true }
    | _ => none
  | .loadDone =>
    match s.consumer with
    | .testDone => if s.producerDone then some { s with consumer := .testHead } else s.callPop
    | _ => none
  | .loadHead =>
    match s.consumer, s.queue.ring.head_.getLast? with
    | .testHead, some head => some { s with consumer := .testTail head }
    | _, _ => none
  | .loadTail =>
    match s.consumer, s.queue.ring.tail_.getLast? with
    | .testTail head, some tail =>
      if head = tail then some { s with consumer := .finished } else s.callPop
    | _, _ => none
  | .inPop e =>
    match s.consumer with
    | .popping =>
      if e.inPop s.queue.ring then (s.queue.step e).map fun queue => { s with queue := queue } else none
    | _ => none
  | .popReturns =>
    match s.consumer, s.queue.pop with
    | .popping, .idle (some envelope) => some { s with consumer := .popped envelope }
    | .popping, .idle none => some { s with consumer := .testDone, consumerSpins := s.consumerSpins + 1 }
    | _, _ => none
  | .stampPop now =>
    match s.consumer with
    | .popped envelope =>
      some { s with
        consumer := .waited envelope
        queueWaitRecorder := s.queueWaitRecorder ++ [now - envelope.queuePushTimestampNs] }
    | _ => none
  | .startBook now =>
    match s.consumer with
    | .waited envelope => some { s with consumer := .timing envelope now }
    | _ => none
  | .applyMessage =>
    match s.consumer with
    | .timing envelope bookStart =>
      some { s with
        consumer := .applied envelope bookStart
        book := onMessage s.book envelope.message
        appliedMessages := s.appliedMessages ++ [envelope.message] }
    | _ => none
  | .endBook now =>
    match s.consumer with
    | .applied envelope bookStart =>
      some { s with
        consumer := .timed envelope
        bookProcessingRecorder := s.bookProcessingRecorder ++ [now - bookStart] }
    | _ => none
  | .stampEnd now =>
    match s.consumer with
    | .timed envelope =>
      some { s with
        consumer := .recorded
        pipelineLatencyRecorder := s.pipelineLatencyRecorder ++ [now - envelope.producerTimestampNs] }
    | _ => none
  | .countConsumed =>
    match s.consumer with
    | .recorded => some { s with consumer := .testDone, consumed := s.consumed + 1 }
    | _ => none

end Pipeline

end LatencyLab
