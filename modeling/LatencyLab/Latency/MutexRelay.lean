import LatencyLab.Latency.Journal
import LatencyLab.Mutex.Drain

/-! The mutex-queue pipeline is a relay. Its producer stamps the push inside the critical
section that queues the envelope, so the relay's push and its publication are one step
of the pipeline. -/

namespace LatencyLab

open Transition

def MutexPipelineEvent.clock? : MutexPipelineEvent → Option ClockRead
  | .stampMessage now => some (.message now)
  | .inQueue e => e.read?.map .push
  | .stampPop now => some (.pop now)
  | .stampEnd now => some (.finish now)
  | _ => none

namespace MutexPipeline

/-! ### The relay -/

def rest : MutexProducerPc → List MarketMessage
  | .nextMessage rest | .stamped _ rest | .pushing _ rest | .pushed rest => rest
  | .closing | .finished => []

/-- A push that has returned has published; `inCall` tells whether it has not. -/
def carried : MutexProducerPc → Bool → Carried
  | .stamped envelope _, _ => .stamped envelope
  | .pushing envelope _, inCall => if inCall then .stamped envelope else .nothing
  | .nextMessage _, _ | .pushed _, _ | .closing, _ | .finished, _ => .nothing

/-- `item` is what the consumer's last call handed out. -/
def held : MutexConsumerPc → Option MarketMessageEnvelope → Held
  | .popping, item => item.elim .nothing .popped
  | .popped envelope, _ => .popped envelope
  | .waited envelope, _ | .timing envelope _, _ => .waited envelope
  | .applied envelope _, _ | .timed envelope, _ => .applied envelope
  | .nextPop, _ | .recorded, _ | .finished, _ => .nothing

def relay (s : MutexPipeline) : Relay where
  rest := rest s.producer
  carried := carried s.producer s.producerThread.call?.isSome
  published := s.queue.appended
  returned := s.queue.popped
  held := held s.consumer s.consumerThread.handed
  waits := s.queueWaitRecorder
  latencies := s.pipelineLatencyRecorder
  applied := s.appliedMessages

variable {capacity : ℕ} {messages : List MarketMessage} {s s' : MutexPipeline}

namespace Inv

/-! ### Steps inside the queue -/

/-- A step of the producer's call: the critical section that queues the envelope stamps it. -/
theorem follows_producer (h : s.Inv capacity messages) {e : QueueEvent Party MarketMessageEnvelope UInt64}
    {queue : EnvelopeQueue} (hcall : e.inCall = true) (hactor : e.actor = .producer)
    (hq : s.queue.step e = some queue) :
    s.relay.Follows (e.read?.map .push) { s with queue := queue }.relay := by
  obtain ⟨call, hthread, hout⟩ := BoundedMutexQueue.outcome_of_step hcall hq
  have hconsumer := BoundedMutexQueue.caller_of_step (j := .consumer) hq (by rw [hactor]; decide)
  rw [hactor] at hthread hout
  have hpc := h.producerCall call hthread
  have hheld : held s.consumer (queue.threads .consumer).handed = held s.consumer s.consumerThread.handed := by
    rw [hconsumer.2]
  have hbusy : s.producerThread.call?.isSome = true := by rw [producerThread, hthread]; rfl
  cases hout with
  | goesOn noRead stays appended results closed =>
    refine Relay.follows_of_eq (by rw [noRead]; rfl) ?_
    simp only [relay, hheld, hbusy, BoundedMutexQueue.popped, appended, results, producerThread, stays,
      Option.isSome_some]
  | @queues _ item queued returns appended results closed =>
    rcases MutexProducerPc.of_call? hpc with ⟨envelope, rest, hpushing, rfl⟩ | ⟨-, rfl⟩
    · obtain ⟨now, hread, rfl⟩ := queuedItem_stampPush queued
      refine ⟨[.stampPush now, .publish], ?_, by rw [hread]; rfl⟩
      simp only [exec_cons, Relay.step, relay, hheld, hbusy, hpushing, BoundedMutexQueue.popped, appended, results,
        producerThread, returns]
      rfl
    · cases queued
  | refuses isPush isClosed =>
    rcases MutexProducerPc.of_call? hpc with ⟨envelope, rest, hpushing, -⟩ | ⟨-, rfl⟩
    · exact absurd isClosed (h.not_closed (by simp [hpushing]) (by simp [hpushing]))
    · cases isPush
  | takes | fails => rcases MutexProducerPc.of_call? hpc with ⟨_, _, -, hne⟩ | ⟨-, hne⟩ <;> cases hne
  | closes noRead stays appended results closed =>
    refine Relay.follows_of_eq (by rw [noRead]; rfl) ?_
    simp only [relay, hheld, hbusy, BoundedMutexQueue.popped, appended, results, producerThread, stays,
      Option.isSome_some]
  | returns noRead returns appended results closed =>
    rcases MutexProducerPc.of_call? hpc with ⟨_, _, -, hne⟩ | ⟨hclosing, -⟩
    · cases hne
    refine Relay.follows_of_eq (by rw [noRead]; rfl) ?_
    simp only [relay, hheld, hclosing, BoundedMutexQueue.popped, appended, results]
    rfl

/-- A step of the consumer's call: it hands out the next published envelope, or nothing. -/
theorem follows_consumer (h : s.Inv capacity messages) {e : QueueEvent Party MarketMessageEnvelope UInt64}
    {queue : EnvelopeQueue} (hcall : e.inCall = true) (hactor : e.actor = .consumer)
    (hq : s.queue.step e = some queue) :
    s.relay.Follows (e.read?.map .push) { s with queue := queue }.relay := by
  obtain ⟨call, hthread, hout⟩ := BoundedMutexQueue.outcome_of_step hcall hq
  have hproducer := BoundedMutexQueue.caller_of_step (j := .producer) hq (by rw [hactor]; decide)
  rw [hactor] at hthread hout
  obtain ⟨hpc, rfl⟩ := MutexConsumerPc.of_call? (h.consumerCall call hthread)
  have hcarried : carried s.producer (queue.threads .producer).call?.isSome =
      carried s.producer s.producerThread.call?.isSome := by rw [hproducer.1]
  have hhanded := QueuePc.handed_of_call? hthread
  cases hout with
  | goesOn noRead stays appended results closed =>
    refine Relay.follows_of_eq (by rw [noRead]; rfl) ?_
    simp only [relay, hcarried, consumerThread, hhanded, BoundedMutexQueue.popped, appended, results,
      QueuePc.handed_of_call? stays]
  | queues queued => cases queued
  | refuses isPush => cases isPush
  | @takes item noRead returns appended results closed =>
    have hpopped : queue.popped = s.queue.popped ++ [item] := BoundedMutexQueue.popped_of_results results
    have hfifo := (h.queue.step hq).popped_isPrefix
    rw [hpopped, appended] at hfifo
    have hnext := Relay.getElem?_of_concat_isPrefix hfifo
    rw [noRead]
    refine Relay.follows_of_step .hand rfl ?_
    simp only [Relay.step, relay, hcarried, consumerThread, hhanded, hpc, held, hnext, hpopped, appended, returns]
    rfl
  | fails noRead returns appended results closed =>
    have hpopped : queue.popped = s.queue.popped :=
      (BoundedMutexQueue.popped_of_results results).trans (List.append_nil _)
    refine Relay.follows_of_eq (by rw [noRead]; rfl) ?_
    simp only [relay, hcarried, consumerThread, hhanded, hpopped, appended, returns]
    rfl

end Inv

/-! ### Steps of the threads -/

/-- A new call of a thread shows in its own program counter only. -/
theorem frame_of_call {i : Party} {call : QueueCall MarketMessageEnvelope UInt64} {queue : EnvelopeQueue}
    (hq : s.queue.step (.call i call) = some queue) :
    queue.appended = s.queue.appended ∧ queue.popped = s.queue.popped ∧ queue.threads i = .entered call ∧
      ∀ j, j ≠ i → queue.threads j = s.queue.threads j := by
  obtain ⟨-, rfl⟩ := BoundedMutexQueue.of_call hq
  exact ⟨rfl, rfl, BoundedMutexQueue.threads_move _ _ _, fun j hj => BoundedMutexQueue.threads_move_of_ne _ hj _⟩

/-- To the relay nothing has happened when a thread that carries or holds the same as
before has made a new call. -/
theorem follows_newCall {i : Party} {call : QueueCall MarketMessageEnvelope UInt64} {queue : EnvelopeQueue}
    (hq : s.queue.step (.call i call) = some queue) {producer : MutexProducerPc} {consumer : MutexConsumerPc}
    (hrest : rest producer = rest s.producer)
    (hcarried : carried producer (queue.threads .producer).call?.isSome =
      carried s.producer s.producerThread.call?.isSome)
    (hheld : held consumer (queue.threads .consumer).handed = held s.consumer s.consumerThread.handed) :
    s.relay.Follows none { s with queue, producer, consumer }.relay := by
  obtain ⟨happended, hpopped, -, -⟩ := frame_of_call hq
  refine Relay.follows_of_eq rfl ?_
  simp only [relay, hrest, happended, hpopped]
  rw [← hcarried, ← hheld]

theorem follows_stampMessage {now : UInt64} (hs : s.step (.stampMessage now) = some s') :
    s.relay.Follows (some (.message now)) s'.relay := by
  simp only [step] at hs
  split at hs
  · rename_i message rest hpc
    cases hs
    refine Relay.follows_of_step (.stampMessage now) rfl ?_
    simp only [Relay.step, relay, hpc]
    rfl
  · cases hs

theorem follows_callPush (hs : s.step .callPush = some s') : s.relay.Follows none s'.relay := by
  simp only [step] at hs
  split at hs
  · rename_i envelope rest hpc
    obtain ⟨queue, hq, heq⟩ := Option.map_eq_some_iff.mp hs
    cases heq
    obtain ⟨-, -, hentered, hother⟩ := frame_of_call hq
    refine follows_newCall hq (by rw [hpc]; rfl) ?_ (by rw [hother .consumer (by decide)])
    rw [hpc, hentered]
    rfl
  · cases hs

theorem follows_pushReturns (hs : s.step .pushReturns = some s') : s.relay.Follows none s'.relay := by
  simp only [step] at hs
  split at hs
  · rename_i envelope rest item hpc hthread
    cases hs
    refine Relay.follows_of_eq rfl ?_
    simp only [relay, hpc, producerThread, hthread]
    rfl
  · cases hs

theorem follows_countProduced (hs : s.step .countProduced = some s') : s.relay.Follows none s'.relay := by
  simp only [step] at hs
  split at hs
  · rename_i rest hpc
    cases hs
    refine Relay.follows_of_eq rfl ?_
    simp only [relay, hpc]
    rfl
  · cases hs

theorem follows_callClose (hs : s.step .callClose = some s') : s.relay.Follows none s'.relay := by
  simp only [step] at hs
  split at hs
  · rename_i hpc
    obtain ⟨queue, hq, heq⟩ := Option.map_eq_some_iff.mp hs
    cases heq
    obtain ⟨-, -, hentered, hother⟩ := frame_of_call hq
    refine follows_newCall hq (by rw [hpc]; rfl) ?_ (by rw [hother .consumer (by decide)])
    rw [hpc, hentered]
    rfl
  · cases hs

theorem follows_closeReturns (hs : s.step .closeReturns = some s') : s.relay.Follows none s'.relay := by
  simp only [step] at hs
  split at hs
  · rename_i item hpc hthread
    cases hs
    refine Relay.follows_of_eq rfl ?_
    simp only [relay, hpc]
    rfl
  · cases hs

theorem follows_callPop (hs : s.step .callPop = some s') : s.relay.Follows none s'.relay := by
  simp only [step] at hs
  split at hs
  · rename_i hpc
    obtain ⟨queue, hq, heq⟩ := Option.map_eq_some_iff.mp hs
    cases heq
    obtain ⟨-, -, hentered, hother⟩ := frame_of_call hq
    refine follows_newCall hq rfl (by rw [hother .producer (by decide)]) ?_
    rw [hpc, hentered]
    rfl
  · cases hs

theorem follows_popReturns (hs : s.step .popReturns = some s') : s.relay.Follows none s'.relay := by
  simp only [step] at hs
  split at hs
  · rename_i envelope hpc hthread
    cases hs
    refine Relay.follows_of_eq rfl ?_
    simp only [relay, hpc, consumerThread, hthread]
    rfl
  · rename_i hpc hthread
    cases hs
    refine Relay.follows_of_eq rfl ?_
    simp only [relay, hpc, consumerThread, hthread]
    rfl
  · cases hs

theorem follows_stampPop {now : UInt64} (hs : s.step (.stampPop now) = some s') :
    s.relay.Follows (some (.pop now)) s'.relay := by
  simp only [step] at hs
  split at hs
  · rename_i envelope hpc
    cases hs
    refine Relay.follows_of_step (.stampPop now) rfl ?_
    simp only [Relay.step, relay, hpc]
    rfl
  · cases hs

theorem follows_startBook {now : UInt64} (hs : s.step (.startBook now) = some s') :
    s.relay.Follows none s'.relay := by
  simp only [step] at hs
  split at hs
  · rename_i envelope hpc
    cases hs
    refine Relay.follows_of_eq rfl ?_
    simp only [relay, hpc]
    rfl
  · cases hs

theorem follows_applyMessage (hs : s.step .applyMessage = some s') : s.relay.Follows none s'.relay := by
  simp only [step] at hs
  split at hs
  · rename_i envelope bookStart hpc
    cases hs
    refine Relay.follows_of_step .applyMessage rfl ?_
    simp only [Relay.step, relay, hpc]
    rfl
  · cases hs

theorem follows_endBook {now : UInt64} (hs : s.step (.endBook now) = some s') :
    s.relay.Follows none s'.relay := by
  simp only [step] at hs
  split at hs
  · rename_i envelope bookStart hpc
    cases hs
    refine Relay.follows_of_eq rfl ?_
    simp only [relay, hpc]
    rfl
  · cases hs

theorem follows_stampEnd {now : UInt64} (hs : s.step (.stampEnd now) = some s') :
    s.relay.Follows (some (.finish now)) s'.relay := by
  simp only [step] at hs
  split at hs
  · rename_i envelope hpc
    cases hs
    refine Relay.follows_of_step (.stampEnd now) rfl ?_
    simp only [Relay.step, relay, hpc]
    rfl
  · cases hs

theorem follows_countConsumed (hs : s.step .countConsumed = some s') : s.relay.Follows none s'.relay := by
  simp only [step] at hs
  split at hs
  · rename_i hpc
    cases hs
    refine Relay.follows_of_eq rfl ?_
    simp only [relay, hpc]
    rfl
  · cases hs

theorem Inv.follows (h : s.Inv capacity messages) {e : MutexPipelineEvent} (hs : s.step e = some s') :
    s.relay.Follows e.clock? s'.relay := by
  cases e with
  | stampMessage now => exact follows_stampMessage hs
  | callPush => exact follows_callPush hs
  | inQueue e =>
    simp only [MutexPipeline.step] at hs
    split_ifs at hs with hcall
    obtain ⟨queue, hq, heq⟩ := Option.map_eq_some_iff.mp hs
    cases heq
    cases hactor : e.actor with
    | producer => exact h.follows_producer hcall hactor hq
    | consumer => exact h.follows_consumer hcall hactor hq
  | pushReturns => exact follows_pushReturns hs
  | countProduced => exact follows_countProduced hs
  | callClose => exact follows_callClose hs
  | closeReturns => exact follows_closeReturns hs
  | callPop => exact follows_callPop hs
  | popReturns => exact follows_popReturns hs
  | stampPop now => exact follows_stampPop hs
  | startBook now => exact follows_startBook hs
  | applyMessage => exact follows_applyMessage hs
  | endBook now => exact follows_endBook hs
  | stampEnd now => exact follows_stampEnd hs
  | countConsumed => exact follows_countConsumed hs

theorem recorded_of_run {events : List MutexPipelineEvent}
    (hrun : exec step (make capacity messages) events = some s)
    (hclock : NeverDecreases (events.filterMap MutexPipelineEvent.clock?)) :
    Recorded messages (ClockLog.ofReads (events.filterMap MutexPipelineEvent.clock?)) s.queueWaitRecorder
      s.pipelineLatencyRecorder s.appliedMessages := by
  have hstep : ∀ s e s', Inv capacity messages s → step s e = some s' →
      Inv capacity messages s' ∧ s.relay.Follows e.clock? s'.relay := fun _ _ _ h hs => ⟨h.step hs, h.follows hs⟩
  exact Relay.recorded_of_follows hstep (inv_make capacity messages) rfl hrun hclock

end MutexPipeline

end LatencyLab
