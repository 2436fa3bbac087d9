import LatencyLab.Book.OrderBook
import LatencyLab.Mutex.BoundedQueue
import LatencyLab.Spsc.Pipeline

/-! The producer and consumer threads of `benchmark_producer_consumer.cpp`, over a
`BoundedMutexQueue` of two threads. The push timestamp is read by the mutator, inside
the critical section of the push that queues the envelope. Clock reads take their
value from the event; migration counters and printing are left out. -/

namespace LatencyLab

/-- The two threads of the pipeline. -/
inductive Party
  | producer
  | consumer
  deriving DecidableEq

instance : Fintype Party := ⟨{.producer, .consumer}, by intro p; cases p <;> simp⟩

/-- The mutator that the producer passes. -/
def MarketMessageEnvelope.stampPush (now : UInt64) (envelope : MarketMessageEnvelope) : MarketMessageEnvelope :=
  { envelope with queuePushTimestampNs := now }

/-- `rest` are the messages the loop has not finished with. -/
inductive MutexProducerPc
  | nextMessage (rest : List MarketMessage)
  | stamped (envelope : MarketMessageEnvelope) (rest : List MarketMessage)
  | pushing (envelope : MarketMessageEnvelope) (rest : List MarketMessage)
  | pushed (rest : List MarketMessage)
  | closing
  | finished

inductive MutexConsumerPc
  | nextPop
  | popping
  | popped (envelope : MarketMessageEnvelope)
  | waited (envelope : MarketMessageEnvelope)
  | timing (envelope : MarketMessageEnvelope) (bookStart : UInt64)
  | applied (envelope : MarketMessageEnvelope) (bookStart : UInt64)
  | timed (envelope : MarketMessageEnvelope)
  | recorded
  | finished

abbrev EnvelopeQueue := BoundedMutexQueue Party MarketMessageEnvelope UInt64

/-- `appliedMessages` records the arguments of `on_message`. -/
structure MutexPipeline where
  queue : EnvelopeQueue
  producer : MutexProducerPc
  consumer : MutexConsumerPc
  produced : UInt64
  consumed : UInt64
  book : OrderBook
  queueWaitRecorder : List UInt64
  bookProcessingRecorder : List UInt64
  pipelineLatencyRecorder : List UInt64
  appliedMessages : List MarketMessage

inductive MutexPipelineEvent
  | stampMessage (now : UInt64)
  | callPush
  | inQueue (e : QueueEvent Party MarketMessageEnvelope UInt64)
  | pushReturns
  | countProduced
  | callClose
  | closeReturns
  | callPop
  | popReturns
  | stampPop (now : UInt64)
  | startBook (now : UInt64)
  | applyMessage
  | endBook (now : UInt64)
  | stampEnd (now : UInt64)
  | countConsumed

namespace MutexPipeline

def make (queueCapacity : ℕ) (messages : List MarketMessage) : MutexPipeline where
  queue := BoundedMutexQueue.make queueCapacity
  producer := .nextMessage messages
  consumer := .nextPop
  produced := 0
  consumed := 0
  book := OrderBook.empty
  queueWaitRecorder := []
  bookProcessingRecorder := []
  pipelineLatencyRecorder := []
  appliedMessages := []

/-- One step of one thread, `none` where that thread is not at that step. -/
def step (s : MutexPipeline) : MutexPipelineEvent → Option MutexPipeline
  | .stampMessage now =>
    match s.producer with
    | .nextMessage (message :: rest) => some { s with producer := .stamped ⟨message, now, 0⟩ rest }
    | _ => none
  | .callPush =>
    match s.producer with
    | .stamped envelope rest =>
      (s.queue.step (.call .producer (.pushWithMutation envelope MarketMessageEnvelope.stampPush))).map
        fun queue => { s with queue := queue, producer := .pushing envelope rest }
    | _ => none
  | .inQueue e =>
    if e.inCall then (s.queue.step e).map fun queue => { s with queue := queue } else none
  | .pushReturns =>
    match s.producer, s.queue.threads .producer with
    | .pushing _ rest, .idle _ => some { s with producer := .pushed rest }
    | _, _ => none
  | .countProduced =>
    match s.producer with
    | .pushed rest => some { s with producer := .nextMessage rest, produced := s.produced + 1 }
    | _ => none
  | .callClose =>
    match s.producer with
    | .nextMessage [] =>
      (s.queue.step (.call .producer .close)).map fun queue => { s with queue := queue, producer := .closing }
    | _ => none
  | .closeReturns =>
    match s.producer, s.queue.threads .producer with
    | .closing, .idle _ => some { s with producer := .finished }
    | _, _ => none
  | .callPop =>
    match s.consumer with
    | .nextPop =>
      (s.queue.step (.call .consumer .pop)).map fun queue => { s with queue := queue, consumer := .popping }
    | _ => none
  | .popReturns =>
    match s.consumer, s.queue.threads .consumer with
    | .popping, .idle (some envelope) => some { s with consumer := .popped envelope }
    | .popping, .idle none => some { s with consumer := .finished }
    | _, _ => none
  | .stampPop now =>
    match s.consumer with
    | .popped envelope =>
      some { s with
        consumer := .waited envelope
        queueWaitRecorder := s.queueWaitRecorder ++ [now - envelope.queuePushTimestampNs] }
    | _ => none
  | .startBook now =>
    match s.consumer with
    | .waited envelope => some { s with consumer := .timing envelope now }
    | _ => none
  | .applyMessage =>
    match s.consumer with
    | .timing envelope bookStart =>
      some { s with
        consumer := .applied envelope bookStart
        book := s.book.onMessage envelope.message
        appliedMessages := s.appliedMessages ++ [envelope.message] }
    | _ => none
  | .endBook now =>
    match s.consumer with
    | .applied envelope bookStart =>
      some { s with
        consumer := .timed envelope
        bookProcessingRecorder := s.bookProcessingRecorder ++ [now - bookStart] }
    | _ => none
  | .stampEnd now =>
    match s.consumer with
    | .timed envelope =>
      some { s with
        consumer := .recorded
        pipelineLatencyRecorder := s.pipelineLatencyRecorder ++ [now - envelope.producerTimestampNs] }
    | _ => none
  | .countConsumed =>
    match s.consumer with
    | .recorded => some { s with consumer := .nextPop, consumed := s.consumed + 1 }
    | _ => none

end MutexPipeline

end LatencyLab
