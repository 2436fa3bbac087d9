import Mathlib.Data.List.ReduceOption
import LatencyLab.Mutex.Calls
import LatencyLab.Mutex.Pipeline

/-! The mutex-queue pipeline applies exactly the generated feed. Only the producer
closes, and only after its last push, so no push finds the queue closed; and a pop
fails only where the queue is closed and drained, so the consumer leaves nothing. -/

namespace LatencyLab

open Transition

namespace BoundedMutexQueue

variable {ι T C : Type*} {q : BoundedMutexQueue ι T C}

/-- The items that pops have handed out. -/
def popped (q : BoundedMutexQueue ι T C) : List T := q.results.reduceOption

theorem popped_of_results {q' : BoundedMutexQueue ι T C} {result : Option T}
    (h : q'.results = q.results ++ [result]) : q'.popped = q.popped ++ result.toList := by
  rw [popped, h, List.reduceOption_append, List.reduceOption_singleton]
  rfl

theorem Fifo.popped_eq {capacity n : ℕ} {items : List T} (h : q.Fifo capacity items n) : q.popped = items := by
  have hitems : (items.map some).reduceOption = items := by
    rw [List.reduceOption, List.filterMap_map]
    exact List.filterMap_some
  rw [popped, h.results, List.reduceOption_append, hitems, List.reduceOption_replicate_none, List.append_nil]

theorem IsFifo.popped_isPrefix {capacity : ℕ} (h : q.IsFifo capacity) : q.popped <+: q.appended := by
  obtain ⟨items, n, h⟩ := h
  rw [h.popped_eq, h.appended]
  exact List.prefix_append _ _

/-- Where a pop has failed everything has been popped. -/
theorem IsFifo.popped_of_failed {capacity : ℕ} (h : q.IsFifo capacity) (hfailed : none ∈ q.results) :
    q.popped = q.appended := by
  obtain ⟨items, n, h⟩ := h
  have hn : 0 < n := by
    rw [h.results, List.mem_append, List.mem_replicate] at hfailed
    rcases hfailed with hitem | ⟨hne, -⟩
    · simp at hitem
    · exact Nat.pos_of_ne_zero hne
  rw [h.popped_eq, h.appended, (h.drained hn).2, List.append_nil]

end BoundedMutexQueue

/-- The call the producer has made. -/
def MutexProducerPc.call? : MutexProducerPc → Option (QueueCall MarketMessageEnvelope UInt64)
  | .pushing envelope _ => some (.pushWithMutation envelope MarketMessageEnvelope.stampPush)
  | .closing => some .close
  | _ => none

/-- The call the consumer has made. -/
def MutexConsumerPc.call? : MutexConsumerPc → Option (QueueCall MarketMessageEnvelope UInt64)
  | .popping => some .pop
  | _ => none

theorem MutexProducerPc.of_call? {pc : MutexProducerPc} {call : QueueCall MarketMessageEnvelope UInt64}
    (h : pc.call? = some call) :
    (∃ envelope rest, pc = .pushing envelope rest ∧
      call = .pushWithMutation envelope MarketMessageEnvelope.stampPush) ∨ pc = .closing ∧ call = .close := by
  cases pc with
  | pushing envelope rest => exact .inl ⟨envelope, rest, rfl, (Option.some.inj h).symm⟩
  | closing => exact .inr ⟨rfl, (Option.some.inj h).symm⟩
  | _ => cases h

theorem MutexConsumerPc.of_call? {pc : MutexConsumerPc} {call : QueueCall MarketMessageEnvelope UInt64}
    (h : pc.call? = some call) : pc = .popping ∧ call = .pop := by
  cases pc with
  | popping => exact ⟨rfl, (Option.some.inj h).symm⟩
  | _ => cases h

/-- What the producer's mutated push queues. -/
theorem queuedItem_stampPush {envelope item : MarketMessageEnvelope} {read : Option UInt64}
    (h : (QueueCall.pushWithMutation envelope MarketMessageEnvelope.stampPush).queuedItem read = some item) :
    ∃ now, read = some now ∧ item = envelope.stampPush now := by
  cases read with
  | none => cases h
  | some now => exact ⟨now, rfl, (Option.some.inj h).symm⟩

namespace MutexPipeline

/-! ### The invariant -/

/-- The messages not yet queued; `inCall` tells whether the producer is still in its call. -/
def pending : MutexProducerPc → Bool → List MarketMessage
  | .nextMessage rest, _ => rest
  | .stamped envelope rest, _ => envelope.message :: rest
  | .pushing envelope rest, inCall => if inCall then envelope.message :: rest else rest
  | .pushed rest, _ => rest
  | .closing, _ | .finished, _ => []

/-- The queued items that `produced` does not count yet. -/
def uncounted : MutexProducerPc → Bool → UInt64
  | .pushing _ _, inCall => if inCall then 0 else 1
  | .pushed _, _ => 1
  | _, _ => 0

/-- The message popped and not yet applied; `item` is what the consumer's last call handed out. -/
def unapplied : MutexConsumerPc → Option MarketMessageEnvelope → List MarketMessage
  | .popping, item => (item.map MarketMessageEnvelope.message).toList
  | .popped envelope, _ | .waited envelope, _ | .timing envelope _, _ => [envelope.message]
  | _, _ => []

/-- The applied messages that `consumed` does not count yet. -/
def unconsumed : MutexConsumerPc → UInt64
  | .applied _ _ | .timed _ | .recorded => 1
  | _ => 0

/-- Where the producer's thread stands in the queue. -/
abbrev producerThread (s : MutexPipeline) : QueuePc MarketMessageEnvelope UInt64 := s.queue.threads .producer

abbrev consumerThread (s : MutexPipeline) : QueuePc MarketMessageEnvelope UInt64 := s.queue.threads .consumer

structure Inv (capacity : ℕ) (messages : List MarketMessage) (s : MutexPipeline) : Prop where
  queue : s.queue.IsFifo capacity
  producerCall : ∀ call, s.producerThread.call? = some call → s.producer.call? = some call
  consumerCall : ∀ call, s.consumerThread.call? = some call → s.consumer.call? = some call
  sent : s.queue.appended.map MarketMessageEnvelope.message ++
    pending s.producer s.producerThread.call?.isSome = messages
  produced : s.produced + uncounted s.producer s.producerThread.call?.isSome =
    UInt64.ofNat s.queue.appended.length
  received : s.queue.popped.map MarketMessageEnvelope.message =
    s.appliedMessages ++ unapplied s.consumer s.consumerThread.handed
  consumed : s.consumed + unconsumed s.consumer = UInt64.ofNat s.appliedMessages.length
  book : s.book = OrderBook.empty.run s.appliedMessages
  closed : s.queue.closed_ = true → s.producer = .closing ∨ s.producer = .finished
  failed : s.consumer = .popping → s.consumerThread.call? = none → s.consumerThread.handed = none →
    none ∈ s.queue.results
  drained : s.consumer = .finished → none ∈ s.queue.results

variable {capacity : ℕ} {messages : List MarketMessage} {s s' : MutexPipeline}

theorem inv_make (capacity : ℕ) (messages : List MarketMessage) :
    (make capacity messages).Inv capacity messages where
  queue := ⟨[], 0, BoundedMutexQueue.fifo_make capacity⟩
  producerCall call hcall := by cases hcall
  consumerCall call hcall := by cases hcall
  sent := rfl
  produced := rfl
  received := rfl
  consumed := rfl
  book := rfl
  closed hclosed := by cases hclosed
  failed hpc := by cases hpc
  drained hpc := by cases hpc

namespace Inv

/-! #### The producer -/

/-- Outside its calls the producer's thread is outside the queue. -/
theorem producer_idle (h : s.Inv capacity messages) (hp : s.producer.call? = none) :
    s.producerThread.call? = none := by
  by_contra hne
  obtain ⟨call, hcall⟩ := Option.ne_none_iff_exists'.mp hne
  have hcall' := h.producerCall call hcall
  rw [hp] at hcall'
  cases hcall'

/-- Until the producer closes the queue it is open. -/
theorem not_closed (h : s.Inv capacity messages) (hpc : s.producer ≠ .closing) (hpc' : s.producer ≠ .finished) :
    ¬s.queue.closed_ = true := fun hclosed => (h.closed hclosed).elim hpc hpc'

/-- The producer goes on with the same messages before it. -/
theorem moveProducer (h : s.Inv capacity messages) (hidle : s.producerThread.call? = none)
    (pc : MutexProducerPc) (hpending : pending s.producer false = pending pc false)
    (hcount : uncounted s.producer false = uncounted pc false)
    (hclosed : s.queue.closed_ = true → pc = .closing ∨ pc = .finished) :
    Inv capacity messages { s with producer := pc } where
  __ := h
  producerCall call hcall := by
    rw [hidle] at hcall
    cases hcall
  sent := by
    have hsent := h.sent
    rw [hidle] at hsent ⊢
    rw [Option.isSome_none, ← hpending]
    exact hsent
  produced := by
    have hproduced := h.produced
    rw [hidle] at hproduced ⊢
    rw [Option.isSome_none, ← hcount]
    exact hproduced
  closed := hclosed

/-- What the producer does in the queue is nothing to the consumer. -/
theorem ofProducer (h : s.Inv capacity messages) {queue : EnvelopeQueue} (pc : MutexProducerPc)
    (hqueue : queue.IsFifo capacity)
    (hconsumer : (queue.threads .consumer).call? = s.consumerThread.call? ∧
      (queue.threads .consumer).handed = s.consumerThread.handed)
    (hresults : queue.results = s.queue.results)
    (hcall : ∀ call, (queue.threads .producer).call? = some call → pc.call? = some call)
    (hsent : queue.appended.map MarketMessageEnvelope.message ++
      pending pc (queue.threads .producer).call?.isSome = messages)
    (hproduced : s.produced + uncounted pc (queue.threads .producer).call?.isSome =
      UInt64.ofNat queue.appended.length)
    (hclosed : queue.closed_ = true → pc = .closing ∨ pc = .finished) :
    Inv capacity messages { s with queue := queue, producer := pc } where
  queue := hqueue
  producerCall := hcall
  consumerCall := by rw [consumerThread, hconsumer.1]; exact h.consumerCall
  sent := hsent
  produced := hproduced
  received := by rw [consumerThread, hconsumer.2, BoundedMutexQueue.popped, hresults]; exact h.received
  consumed := h.consumed
  book := h.book
  closed := hclosed
  failed := by rw [consumerThread, hconsumer.1, hconsumer.2, hresults]; exact h.failed
  drained := by rw [hresults]; exact h.drained

/-- The producer enters a call, with the same messages before it. -/
theorem callProducer (h : s.Inv capacity messages) {call : QueueCall MarketMessageEnvelope UInt64}
    {queue : EnvelopeQueue} (hq : s.queue.step (.call .producer call) = some queue) (pc : MutexProducerPc)
    (hcall : pc.call? = some call) (hpending : pending s.producer false = pending pc true)
    (hcount : uncounted s.producer false = uncounted pc true)
    (hclosed : s.queue.closed_ = true → pc = .closing ∨ pc = .finished) :
    Inv capacity messages { s with queue := queue, producer := pc } := by
  have hfifo := h.queue.step hq
  obtain ⟨⟨item, hidle⟩, rfl⟩ := BoundedMutexQueue.of_call hq
  have hconsumer : (s.queue.move .producer (.entered call)).threads .consumer = s.consumerThread :=
    BoundedMutexQueue.threads_move_of_ne _ (by decide) _
  have hsent := h.sent
  have hproduced := h.produced
  rw [producerThread, hidle] at hsent hproduced
  refine h.ofProducer pc hfifo (by rw [hconsumer]; exact ⟨rfl, rfl⟩) rfl ?_ ?_ ?_ hclosed
  · intro call' hcall'
    rw [BoundedMutexQueue.threads_move] at hcall'
    cases hcall'
    exact hcall
  · rw [BoundedMutexQueue.threads_move]
    exact (congrArg _ hpending.symm).trans hsent
  · rw [BoundedMutexQueue.threads_move]
    exact (congrArg _ hcount.symm).trans hproduced

/-- A step of the producer's call. Its mutator keeps the message, and no push is refused:
the queue is open until the producer itself closes it. -/
theorem producerInQueue (h : s.Inv capacity messages) {e : QueueEvent Party MarketMessageEnvelope UInt64}
    {queue : EnvelopeQueue} (hcall : e.inCall = true) (hactor : e.actor = .producer)
    (hq : s.queue.step e = some queue) : Inv capacity messages { s with queue := queue } := by
  obtain ⟨call, hthread, hout⟩ := BoundedMutexQueue.outcome_of_step hcall hq
  have hconsumer := BoundedMutexQueue.caller_of_step (j := .consumer) hq (by rw [hactor]; decide)
  rw [hactor] at hthread hout
  have hpc := h.producerCall call hthread
  have hsent := h.sent
  have hproduced := h.produced
  rw [producerThread, hthread, Option.isSome_some] at hsent hproduced
  have hofProducer := h.ofProducer s.producer (h.queue.step hq) hconsumer
  cases hout with
  | goesOn noRead stays appended results closed =>
    refine hofProducer results ?_ ?_ ?_ (by rw [closed]; exact h.closed)
    · rw [stays]
      rintro _ ⟨rfl⟩
      exact hpc
    · rw [stays, appended]
      exact hsent
    · rw [stays, appended]
      exact hproduced
  | @queues _ item queued returns appended results closed =>
    rcases MutexProducerPc.of_call? hpc with ⟨envelope, rest, hpushing, rfl⟩ | ⟨-, rfl⟩
    · obtain ⟨now, -, rfl⟩ := queuedItem_stampPush queued
      rw [hpushing] at hsent hproduced
      have hidle : (queue.threads .producer).call? = none := by rw [returns]; rfl
      refine hofProducer results ?_ ?_ ?_ (by rw [closed]; exact h.closed)
      · rw [hidle]
        rintro _ ⟨⟩
      · rw [hidle, hpushing, appended, List.map_append, List.append_assoc]
        exact hsent
      · rw [hidle, hpushing, appended, List.length_append, List.length_singleton, UInt64.ofNat_add, ← hproduced]
        exact congrArg (· + 1) (add_zero s.produced).symm
    · cases queued
  | refuses isPush isClosed =>
    rcases MutexProducerPc.of_call? hpc with ⟨envelope, rest, hpushing, -⟩ | ⟨-, rfl⟩
    · exact absurd isClosed (h.not_closed (by simp [hpushing]) (by simp [hpushing]))
    · cases isPush
  | takes | fails => rcases MutexProducerPc.of_call? hpc with ⟨_, _, -, hne⟩ | ⟨-, hne⟩ <;> cases hne
  | closes noRead stays appended results closed =>
    rcases MutexProducerPc.of_call? hpc with ⟨_, _, -, hne⟩ | ⟨hclosing, -⟩
    · cases hne
    refine hofProducer results ?_ ?_ ?_ fun _ => .inl hclosing
    · rw [stays]
      rintro _ ⟨rfl⟩
      exact hpc
    · rw [stays, appended]
      exact hsent
    · rw [stays, appended]
      exact hproduced
  | returns noRead returns appended results closed =>
    rcases MutexProducerPc.of_call? hpc with ⟨_, _, -, hne⟩ | ⟨hclosing, -⟩
    · cases hne
    have hidle : (queue.threads .producer).call? = none := by rw [returns]; rfl
    rw [hclosing] at hsent hproduced
    refine hofProducer results ?_ ?_ ?_ fun _ => .inl hclosing
    · rw [hidle]
      rintro _ ⟨⟩
    · rw [hidle, hclosing, appended]
      exact hsent
    · rw [hidle, hclosing, appended]
      exact hproduced

theorem stampMessage (h : s.Inv capacity messages) {now : UInt64}
    (hs : s.step (.stampMessage now) = some s') : s'.Inv capacity messages := by
  simp only [step] at hs
  split at hs
  · rename_i message rest hpc
    cases hs
    have hopen := h.not_closed (by simp [hpc]) (by simp [hpc])
    exact h.moveProducer (h.producer_idle (by rw [hpc]; rfl)) (.stamped ⟨message, now, 0⟩ rest)
      (by rw [hpc]; rfl) (by rw [hpc]; rfl) fun hclosed => absurd hclosed hopen
  · cases hs

theorem callPush (h : s.Inv capacity messages) (hs : s.step .callPush = some s') :
    s'.Inv capacity messages := by
  simp only [step] at hs
  split at hs
  · rename_i envelope rest hpc
    obtain ⟨queue, hq, heq⟩ := Option.map_eq_some_iff.mp hs
    cases heq
    have hopen := h.not_closed (by simp [hpc]) (by simp [hpc])
    exact h.callProducer hq (.pushing envelope rest) rfl (by rw [hpc]; rfl) (by rw [hpc]; rfl)
      fun hclosed => absurd hclosed hopen
  · cases hs

theorem pushReturns (h : s.Inv capacity messages) (hs : s.step .pushReturns = some s') :
    s'.Inv capacity messages := by
  simp only [step] at hs
  split at hs
  · rename_i envelope rest item hpc hthread
    cases hs
    have hopen := h.not_closed (by simp [hpc]) (by simp [hpc])
    exact h.moveProducer (by rw [producerThread, hthread]; rfl) (.pushed rest) (by rw [hpc]; rfl)
      (by rw [hpc]; rfl) fun hclosed => absurd hclosed hopen
  · cases hs

theorem countProduced (h : s.Inv capacity messages) (hs : s.step .countProduced = some s') :
    s'.Inv capacity messages := by
  simp only [step] at hs
  split at hs
  · rename_i rest hpc
    cases hs
    have hidle := h.producer_idle (by rw [hpc]; rfl)
    have hopen := h.not_closed (by simp [hpc]) (by simp [hpc])
    have hsent := h.sent
    have hproduced := h.produced
    rw [hpc] at hsent hproduced
    refine { h with
      producerCall := ?_
      sent := hsent
      produced := (add_zero _).trans hproduced
      closed := fun hclosed => absurd hclosed hopen }
    intro call hcall
    rw [show producerThread _ = s.producerThread from rfl, hidle] at hcall
    cases hcall
  · cases hs

theorem callClose (h : s.Inv capacity messages) (hs : s.step .callClose = some s') :
    s'.Inv capacity messages := by
  simp only [step] at hs
  split at hs
  · rename_i hpc
    obtain ⟨queue, hq, heq⟩ := Option.map_eq_some_iff.mp hs
    cases heq
    exact h.callProducer hq .closing rfl (by rw [hpc]; rfl) (by rw [hpc]; rfl) fun _ => .inl rfl
  · cases hs

theorem closeReturns (h : s.Inv capacity messages) (hs : s.step .closeReturns = some s') :
    s'.Inv capacity messages := by
  simp only [step] at hs
  split at hs
  · rename_i item hpc hthread
    cases hs
    exact h.moveProducer (by rw [producerThread, hthread]; rfl) .finished (by rw [hpc]; rfl) (by rw [hpc]; rfl)
      fun _ => .inr rfl
  · cases hs

/-! #### The consumer -/

theorem consumer_idle (h : s.Inv capacity messages) (hc : s.consumer.call? = none) :
    s.consumerThread.call? = none := by
  by_contra hne
  obtain ⟨call, hcall⟩ := Option.ne_none_iff_exists'.mp hne
  have hcall' := h.consumerCall call hcall
  rw [hc] at hcall'
  cases hcall'

/-- The consumer goes on inside the loop, with the same message in its hands. -/
theorem moveConsumer (h : s.Inv capacity messages) (hidle : s.consumerThread.call? = none)
    (pc : MutexConsumerPc) (hpc : pc ≠ .popping)
    (hun : unapplied s.consumer s.consumerThread.handed = unapplied pc s.consumerThread.handed)
    (hcount : unconsumed s.consumer = unconsumed pc) (hdrained : pc = .finished → none ∈ s.queue.results) :
    Inv capacity messages { s with consumer := pc } where
  __ := h
  consumerCall call hcall := by
    rw [hidle] at hcall
    cases hcall
  received := by rw [← hun]; exact h.received
  consumed := by rw [← hcount]; exact h.consumed
  failed hpopping := absurd hpopping hpc
  drained := hdrained

/-- What the consumer does in the queue is nothing to the producer. -/
theorem ofConsumer (h : s.Inv capacity messages) {queue : EnvelopeQueue} (pc : MutexConsumerPc)
    (hqueue : queue.IsFifo capacity) (hproducer : (queue.threads .producer).call? = s.producerThread.call?)
    (happended : queue.appended = s.queue.appended) (hclosed : queue.closed_ = s.queue.closed_)
    (hcall : ∀ call, (queue.threads .consumer).call? = some call → pc.call? = some call)
    (hreceived : queue.popped.map MarketMessageEnvelope.message =
      s.appliedMessages ++ unapplied pc (queue.threads .consumer).handed)
    (hconsumed : unconsumed s.consumer = unconsumed pc)
    (hfailed : pc = .popping → (queue.threads .consumer).call? = none → (queue.threads .consumer).handed = none →
      none ∈ queue.results)
    (hrunning : pc ≠ .finished) : Inv capacity messages { s with queue := queue, consumer := pc } where
  queue := hqueue
  producerCall := by rw [producerThread, hproducer]; exact h.producerCall
  consumerCall := hcall
  sent := by rw [producerThread, hproducer, happended]; exact h.sent
  produced := by rw [producerThread, hproducer, happended]; exact h.produced
  received := hreceived
  consumed := by rw [← hconsumed]; exact h.consumed
  book := h.book
  closed := by rw [hclosed]; exact h.closed
  failed := hfailed
  drained hfinished := absurd hfinished hrunning

theorem callPop (h : s.Inv capacity messages) (hs : s.step .callPop = some s') :
    s'.Inv capacity messages := by
  simp only [step] at hs
  split at hs
  · rename_i hpc
    obtain ⟨queue, hq, heq⟩ := Option.map_eq_some_iff.mp hs
    cases heq
    have hfifo := h.queue.step hq
    obtain ⟨-, rfl⟩ := BoundedMutexQueue.of_call hq
    have hproducer : (s.queue.move .consumer (.entered .pop)).threads .producer = s.producerThread :=
      BoundedMutexQueue.threads_move_of_ne _ (by decide) _
    have hreceived := h.received
    rw [hpc] at hreceived
    refine h.ofConsumer .popping hfifo (by rw [hproducer]) rfl rfl ?_ ?_ (by rw [hpc]; rfl) ?_ (by simp)
    · rw [BoundedMutexQueue.threads_move]
      exact fun _ hcall => hcall
    · rw [BoundedMutexQueue.threads_move]
      exact hreceived
    · rw [BoundedMutexQueue.threads_move]
      rintro _ ⟨⟩
  · cases hs

/-- A step of the consumer's call: it hands out the next item, or fails. -/
theorem consumerInQueue (h : s.Inv capacity messages) {e : QueueEvent Party MarketMessageEnvelope UInt64}
    {queue : EnvelopeQueue} (hcall : e.inCall = true) (hactor : e.actor = .consumer)
    (hq : s.queue.step e = some queue) : Inv capacity messages { s with queue := queue } := by
  obtain ⟨call, hthread, hout⟩ := BoundedMutexQueue.outcome_of_step hcall hq
  have hproducer := BoundedMutexQueue.caller_of_step (j := .producer) hq (by rw [hactor]; decide)
  rw [hactor] at hthread hout
  obtain ⟨hpc, rfl⟩ := MutexConsumerPc.of_call? (h.consumerCall call hthread)
  have hreceived := h.received
  rw [hpc, unapplied, QueuePc.handed_of_call? hthread] at hreceived
  have hofConsumer := h.ofConsumer .popping (h.queue.step hq) hproducer.1
  have hsame : ({ s with queue := queue, consumer := .popping } : MutexPipeline) = { s with queue := queue } := by
    rw [hpc]
  rw [← hsame]
  cases hout with
  | goesOn noRead stays appended results closed =>
    refine hofConsumer appended closed ?_ ?_ (by rw [hpc]) ?_ (by simp)
    · rw [stays]
      exact fun _ hcall => hcall
    · rw [QueuePc.handed_of_call? stays, BoundedMutexQueue.popped, results]
      exact hreceived
    · rw [stays]
      rintro _ ⟨⟩
  | queues queued => cases queued
  | refuses isPush => cases isPush
  | @takes item noRead returns appended results closed =>
    refine hofConsumer appended closed ?_ ?_ (by rw [hpc]) ?_ (by simp)
    · rw [returns]
      rintro _ ⟨⟩
    · rw [returns, BoundedMutexQueue.popped_of_results results, List.map_append]
      exact congrArg (· ++ [item.message]) (hreceived.trans (List.append_nil _))
    · rw [returns]
      rintro _ _ ⟨⟩
  | fails noRead returns appended results closed =>
    refine hofConsumer appended closed ?_ ?_ (by rw [hpc]) ?_ (by simp)
    · rw [returns]
      rintro _ ⟨⟩
    · rw [returns, BoundedMutexQueue.popped_of_results results]
      exact (congrArg _ (List.append_nil _)).trans hreceived
    · intro _ _ _
      rw [results]
      exact List.mem_append_right _ List.mem_cons_self

theorem popReturns (h : s.Inv capacity messages) (hs : s.step .popReturns = some s') :
    s'.Inv capacity messages := by
  simp only [step] at hs
  split at hs
  · rename_i envelope hpc hthread
    cases hs
    exact h.moveConsumer (by rw [consumerThread, hthread]; rfl) (.popped envelope) (by simp)
      (by rw [hpc, consumerThread, hthread]; rfl) (by rw [hpc]; rfl) (by simp)
  · rename_i hpc hthread
    cases hs
    have hfailed := h.failed hpc (by rw [consumerThread, hthread]; rfl) (by rw [consumerThread, hthread]; rfl)
    exact h.moveConsumer (by rw [consumerThread, hthread]; rfl) .finished (by simp)
      (by rw [hpc, consumerThread, hthread]; rfl) (by rw [hpc]; rfl) fun _ => hfailed
  · cases hs

theorem stampPop (h : s.Inv capacity messages) {now : UInt64} (hs : s.step (.stampPop now) = some s') :
    s'.Inv capacity messages := by
  simp only [step] at hs
  split at hs
  · rename_i envelope hpc
    cases hs
    have hmoved := h.moveConsumer (h.consumer_idle (by rw [hpc]; rfl)) (.waited envelope) (by simp)
      (by rw [hpc]; rfl) (by rw [hpc]; rfl) (by simp)
    exact { hmoved with }
  · cases hs

theorem startBook (h : s.Inv capacity messages) {now : UInt64} (hs : s.step (.startBook now) = some s') :
    s'.Inv capacity messages := by
  simp only [step] at hs
  split at hs
  · rename_i envelope hpc
    cases hs
    exact h.moveConsumer (h.consumer_idle (by rw [hpc]; rfl)) (.timing envelope now) (by simp)
      (by rw [hpc]; rfl) (by rw [hpc]; rfl) (by simp)
  · cases hs

theorem applyMessage (h : s.Inv capacity messages) (hs : s.step .applyMessage = some s') :
    s'.Inv capacity messages := by
  simp only [step] at hs
  split at hs
  · rename_i envelope bookStart hpc
    cases hs
    have hidle := h.consumer_idle (by rw [hpc]; rfl)
    have hreceived := h.received
    have hconsumed := h.consumed
    rw [hpc] at hreceived hconsumed
    refine { h with
      consumerCall := ?_
      received := hreceived.trans (List.append_nil _).symm
      consumed := ?_
      book := ?_
      failed := by simp
      drained := by simp }
    · intro call hcall
      rw [show consumerThread _ = s.consumerThread from rfl, hidle] at hcall
      cases hcall
    · rw [List.length_append, List.length_singleton, UInt64.ofNat_add, ← hconsumed]
      exact congrArg (· + 1) (add_zero s.consumed).symm
    · show s.book.onMessage envelope.message = (s.appliedMessages ++ [envelope.message]).foldl _ _
      rw [List.foldl_append, h.book]
      rfl
  · cases hs

theorem endBook (h : s.Inv capacity messages) {now : UInt64} (hs : s.step (.endBook now) = some s') :
    s'.Inv capacity messages := by
  simp only [step] at hs
  split at hs
  · rename_i envelope bookStart hpc
    cases hs
    have hmoved := h.moveConsumer (h.consumer_idle (by rw [hpc]; rfl)) (.timed envelope) (by simp)
      (by rw [hpc]; rfl) (by rw [hpc]; rfl) (by simp)
    exact { hmoved with }
  · cases hs

theorem stampEnd (h : s.Inv capacity messages) {now : UInt64} (hs : s.step (.stampEnd now) = some s') :
    s'.Inv capacity messages := by
  simp only [step] at hs
  split at hs
  · rename_i envelope hpc
    cases hs
    have hmoved := h.moveConsumer (h.consumer_idle (by rw [hpc]; rfl)) .recorded (by simp)
      (by rw [hpc]; rfl) (by rw [hpc]; rfl) (by simp)
    exact { hmoved with }
  · cases hs

theorem countConsumed (h : s.Inv capacity messages) (hs : s.step .countConsumed = some s') :
    s'.Inv capacity messages := by
  simp only [step] at hs
  split at hs
  · rename_i hpc
    cases hs
    have hidle := h.consumer_idle (by rw [hpc]; rfl)
    have hreceived := h.received
    have hconsumed := h.consumed
    rw [hpc] at hreceived hconsumed
    refine { h with
      consumerCall := ?_
      received := hreceived
      consumed := (add_zero _).trans hconsumed
      failed := by simp
      drained := by simp }
    intro call hcall
    rw [show consumerThread _ = s.consumerThread from rfl, hidle] at hcall
    cases hcall
  · cases hs

theorem step (h : s.Inv capacity messages) {e : MutexPipelineEvent} (hs : s.step e = some s') :
    s'.Inv capacity messages := by
  cases e with
  | stampMessage now => exact h.stampMessage hs
  | callPush => exact h.callPush hs
  | inQueue e =>
    simp only [MutexPipeline.step] at hs
    split_ifs at hs with hcall
    obtain ⟨queue, hq, heq⟩ := Option.map_eq_some_iff.mp hs
    cases heq
    cases hactor : e.actor with
    | producer => exact h.producerInQueue hcall hactor hq
    | consumer => exact h.consumerInQueue hcall hactor hq
  | pushReturns => exact h.pushReturns hs
  | countProduced => exact h.countProduced hs
  | callClose => exact h.callClose hs
  | closeReturns => exact h.closeReturns hs
  | callPop => exact h.callPop hs
  | popReturns => exact h.popReturns hs
  | stampPop now => exact h.stampPop hs
  | startBook now => exact h.startBook hs
  | applyMessage => exact h.applyMessage hs
  | endBook now => exact h.endBook hs
  | stampEnd now => exact h.stampEnd hs
  | countConsumed => exact h.countConsumed hs

end Inv

/-! ### The pipeline property -/

/-- Every message was applied once and in order, and the counters agree. -/
structure Lossless (messages : List MarketMessage) (s : MutexPipeline) : Prop where
  applied : s.appliedMessages = messages
  consumed_eq : s.consumed = s.produced
  consumed : s.consumed = UInt64.ofNat messages.length
  book : s.book = OrderBook.empty.run messages

theorem Inv.applied_isPrefix (h : s.Inv capacity messages) : s.appliedMessages <+: messages := by
  have hpopped := h.queue.popped_isPrefix.map MarketMessageEnvelope.message
  rw [h.received] at hpopped
  have happended : s.queue.appended.map MarketMessageEnvelope.message <+: messages := ⟨_, h.sent⟩
  exact ((List.prefix_append _ _).trans hpopped).trans happended

theorem Inv.lossless (h : s.Inv capacity messages) (hp : s.producer = .finished) (hc : s.consumer = .finished) :
    s.Lossless messages := by
  have hall := h.queue.popped_of_failed (h.drained hc)
  have hpending : ∀ inCall, pending s.producer inCall = [] := by
    intro inCall
    rw [hp]
    rfl
  have huncounted : ∀ inCall, uncounted s.producer inCall = 0 := by
    intro inCall
    rw [hp]
    rfl
  have hunapplied : unapplied s.consumer s.consumerThread.handed = [] := by rw [hc]; rfl
  have hunconsumed : unconsumed s.consumer = 0 := by rw [hc]; rfl
  have hsent := h.sent
  have hproduced := h.produced
  have hreceived := h.received
  have hconsumed := h.consumed
  rw [hpending, List.append_nil] at hsent
  rw [huncounted, add_zero] at hproduced
  rw [hunapplied, List.append_nil, hall, hsent] at hreceived
  rw [hunconsumed, add_zero, ← hreceived] at hconsumed
  refine ⟨hreceived.symm, ?_, hconsumed, by rw [h.book, hreceived]⟩
  rw [hconsumed, hproduced, ← hsent, List.length_map]

theorem inv_of_run {events : List MutexPipelineEvent}
    (hrun : exec step (make capacity messages) events = some s) : s.Inv capacity messages := by
  have hstep : ∀ (s : MutexPipeline) e s', Inv capacity messages s → s.step e = some s' →
      Inv capacity messages s' := fun _ _ _ h hs => h.step hs
  exact exec_invariant hstep (inv_make capacity messages) hrun

/-- **The mutex-queue pipeline applies exactly the generated feed.** The applied messages
are always a prefix of it, and all of it once both threads have finished. -/
theorem feed_of_run {events : List MutexPipelineEvent}
    (hrun : exec step (make capacity messages) events = some s) :
    s.appliedMessages <+: messages ∧
      (s.producer = .finished → s.consumer = .finished → s.Lossless messages) := by
  have h := inv_of_run hrun
  exact ⟨h.applied_isPrefix, h.lossless⟩

/-- Two messages through a queue with one place: the consumer is asleep when the first is
pushed, the producer is asleep until it is popped, and the second is popped after the close. -/
def twoMessageRun : List MutexPipelineEvent :=
  [.callPop, .inQueue (.lock .consumer none none), .stampMessage 5, .callPush,
    .inQueue (.lock .producer (some 6) (some .consumer)), .pushReturns, .countProduced, .stampMessage 7, .callPush,
    .inQueue (.lock .producer none none), .inQueue (.lock .consumer none (some .producer)), .popReturns,
    .inQueue (.lock .producer (some 9) none), .pushReturns, .countProduced, .callClose, .stampPop 10, .startBook 11,
    .applyMessage, .endBook 12, .stampEnd 13, .countConsumed, .inQueue (.lock .producer none none),
    .inQueue (.notifyAllNotEmpty .producer), .inQueue (.notifyAllNotFull .producer), .closeReturns, .callPop,
    .inQueue (.lock .consumer none none), .popReturns, .stampPop 14, .startBook 15, .applyMessage, .endBook 16,
    .stampEnd 17, .countConsumed, .callPop, .inQueue (.lock .consumer none none), .popReturns]

theorem feed_twoMessageRun :
    ∃ s, exec step (make 1 addThenModify) twoMessageRun = some s ∧ s.Lossless addThenModify := by
  have hends : (exec step (make 1 addThenModify) twoMessageRun).map (fun s => (s.producer, s.consumer)) =
      some (.finished, .finished) := rfl
  obtain ⟨s, hrun, hpcs⟩ := Option.map_eq_some_iff.mp hends
  obtain ⟨hp, hc⟩ := Prod.mk.inj hpcs
  exact ⟨s, hrun, (feed_of_run hrun).2 hp hc⟩

end MutexPipeline

end LatencyLab
