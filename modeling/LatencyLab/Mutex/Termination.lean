import LatencyLab.Mutex.Drain
import LatencyLab.Mutex.Progress

/-! The mutex-queue pipeline comes to an end, with everything applied. The loops spend
effort on every message, the queue on every call, and nothing but a spurious wake-up
gives any back. A producer asleep at a full queue and a consumer asleep at an empty one
are not there at once, and behind the close nobody sleeps, so that before the end one of
the threads can go on. A queue of capacity zero is full and empty at once. -/

namespace LatencyLab

open Monitor Transition

/-- A wake-up in the queue that no notification caused. -/
def MutexPipelineEvent.spurious : MutexPipelineEvent → Bool
  | .inQueue e => e.spurious
  | _ => false

/-- What is left of the producer's loop, its call apart. -/
def MutexProducerPc.effort : MutexProducerPc → ℕ
  | .nextMessage rest => 6 * rest.length + 9
  | .stamped _ rest => 6 * rest.length + 14
  | .pushing _ rest => 6 * rest.length + 11
  | .pushed rest => 6 * rest.length + 10
  | .closing => 1
  | .finished => 0

/-- What is left of the consumer's round; `item` is what its last call handed out. -/
def MutexConsumerPc.effort : MutexConsumerPc → Option MarketMessageEnvelope → ℕ
  | .nextPop, _ => 4
  | .popping, none => 1
  | .popping, some _ => 11
  | .popped _, _ => 10
  | .waited _, _ => 9
  | .timing _ _, _ => 8
  | .applied _ _, _ => 7
  | .timed _, _ => 6
  | .recorded, _ => 5
  | .finished, _ => 0

namespace BoundedMutexQueue

variable {ι T C : Type*} [Fintype ι] [DecidableEq ι] {q q' : BoundedMutexQueue ι T C} {e : QueueEvent ι T C}

/-- A `close` returns with the queue closed. -/
theorem closed_of_returned (h : q.Wakeful) (hs : q.step e = some q')
    (hcall : (q.threads e.actor).call? = some .close) (hreturned : (q'.threads e.actor).call? = none) :
    q'.closed_ = true := by
  cases e with
  | call i call =>
    obtain ⟨-, rfl⟩ := of_call hs
    simp [QueueEvent.actor, QueuePc.call?] at hreturned
  | lock i read chosen =>
    obtain ⟨call, hpc, hc⟩ := of_lock hs
    have hclose : call = .close := by
      rcases hpc with hpc | hpc <;> rw [QueueEvent.actor, hpc] at hcall <;> exact Option.some.inj hcall
    subst hclose
    cases hc with
    | closes => rfl
    | pushSleeps isPush | pushRefused isPush | appends isPush => cases isPush
  | wakeSpuriously i =>
    obtain ⟨_, -, rfl⟩ := of_wakeSpuriously hs
    simp [QueueEvent.actor, QueuePc.call?] at hreturned
  | notifyAllNotEmpty i =>
    obtain ⟨-, rfl⟩ := of_notifyAllNotEmpty hs
    simp [QueueEvent.actor, QueuePc.call?] at hreturned
  | notifyAllNotFull i =>
    obtain ⟨hpc, rfl⟩ := of_notifyAllNotFull hs
    exact h.closing i (by rw [hpc]; rfl)

omit [Fintype ι] [DecidableEq ι] in
theorem IsFifo.closed_of_failed {capacity : ℕ} (h : q.IsFifo capacity) (hfailed : none ∈ q.results) :
    q.closed_ = true := by
  obtain ⟨items, n, h⟩ := h
  rw [h.results, List.mem_append, List.mem_replicate] at hfailed
  rcases hfailed with hitem | ⟨hne, -⟩
  · simp at hitem
  · exact (h.drained (Nat.pos_of_ne_zero hne)).1

theorem closed_of_step (hs : q.step e = some q') (hclosed : q.closed_ = true) : q'.closed_ = true :=
  Wakeful.closed_of_acts (acts_of_step hs) hclosed

/-- Something is queued only where there is room. -/
theorem appended_of_step (hs : q.step e = some q') :
    q'.appended = q.appended ∨ q.queue_.length < q.capacity_ := by
  cases e with
  | call i call =>
    obtain ⟨-, rfl⟩ := of_call hs
    exact .inl rfl
  | lock i read chosen =>
    obtain ⟨call, -, hc⟩ := of_lock hs
    cases hc with
    | appends isPush isOpen room => exact .inr room
    | _ => exact .inl rfl
  | wakeSpuriously i =>
    obtain ⟨_, -, rfl⟩ := of_wakeSpuriously hs
    exact .inl rfl
  | notifyAllNotEmpty i =>
    obtain ⟨-, rfl⟩ := of_notifyAllNotEmpty hs
    exact .inl rfl
  | notifyAllNotFull i =>
    obtain ⟨-, rfl⟩ := of_notifyAllNotFull hs
    exact .inl rfl

/-- A call from outside the queue. -/
theorem exists_call {i : ι} (hidle : (q.threads i).call? = none) (call : QueueCall T C) :
    (q.step (.call i call)).isSome := by
  cases hpc : q.threads i with
  | idle item => simp only [step, hpc, Option.isSome_some]
  | _ =>
    rw [hpc] at hidle
    cases hidle

end BoundedMutexQueue

namespace MutexPipeline

variable {capacity : ℕ} {messages : List MarketMessage} {s s' : MutexPipeline} {e : MutexPipelineEvent}

/-! ### Effort -/

/-- What is left to do; every message still to be popped costs the consumer a round. -/
def effort (messages : List MarketMessage) (s : MutexPipeline) : ℕ :=
  s.producer.effort + s.consumer.effort s.consumerThread.handed + s.queue.effort +
    10 * (messages.length - s.queue.popped.length)

theorem effort_inQueue (s : MutexPipeline) (queue : EnvelopeQueue) :
    { s with queue := queue }.effort messages =
      s.producer.effort + s.consumer.effort (queue.threads .consumer).handed + queue.effort +
        10 * (messages.length - queue.popped.length) := rfl

theorem effort_make (capacity : ℕ) (messages : List MarketMessage) :
    (make capacity messages).effort messages = 16 * messages.length + 13 := by
  have hqueue : (make capacity messages).queue.effort = 0 := BoundedMutexQueue.effort_make capacity
  have hpopped : (make capacity messages).queue.popped = [] := rfl
  rw [effort, hqueue, hpopped]
  simp only [make, MutexProducerPc.effort, MutexConsumerPc.effort, List.length_nil]
  omega

theorem Inv.popped_length_le (h : s.Inv capacity messages) : s.queue.popped.length ≤ messages.length := by
  have hpopped := h.queue.popped_isPrefix.length_le
  have hsent := congrArg List.length h.sent
  rw [List.length_append, List.length_map] at hsent
  omega

/-- A call that a thread makes. -/
theorem queueEffort_of_call {queue : EnvelopeQueue} {i : Party} {call : QueueCall MarketMessageEnvelope UInt64}
    (hq : s.queue.step (.call i call) = some queue) :
    queue.effort = s.queue.effort + call.effort 2 ∧ queue.popped = s.queue.popped := by
  refine ⟨BoundedMutexQueue.effort_of_call hq, ?_⟩
  obtain ⟨-, rfl⟩ := BoundedMutexQueue.of_call hq
  rfl

/-- A step inside the queue moves no effort to the loops, except for the rounds that
the popped messages cost. -/
theorem loops_of_inQueue (h : s.Inv capacity messages) {e : QueueEvent Party MarketMessageEnvelope UInt64}
    (hs : s.step (.inQueue e) = some s') (hinv : s'.Inv capacity messages) :
    s'.effort messages + s.queue.effort ≤ s.effort messages + s'.queue.effort := by
  simp only [step] at hs
  split_ifs at hs with hcall
  obtain ⟨queue, hq, heq⟩ := Option.map_eq_some_iff.mp hs
  cases heq
  obtain ⟨call, hthread, hout⟩ := BoundedMutexQueue.outcome_of_step hcall hq
  have hpopped' := hinv.popped_length_le
  cases hactor : e.actor with
  | producer =>
    have hconsumer := BoundedMutexQueue.caller_of_step (j := .consumer) hq (by rw [hactor]; decide)
    rw [hactor] at hthread hout
    have hpc := h.producerCall call hthread
    have hresults : queue.results = s.queue.results := by
      cases hout with
      | goesOn _ _ _ results => exact results
      | queues _ _ _ results => exact results
      | closes _ _ _ results => exact results
      | returns _ _ _ results => exact results
      | refuses isPush isClosed =>
        rcases MutexProducerPc.of_call? hpc with ⟨envelope, rest, hpushing, -⟩ | ⟨-, rfl⟩
        · exact absurd isClosed (h.not_closed (by simp [hpushing]) (by simp [hpushing]))
        · cases isPush
      | takes | fails => rcases MutexProducerPc.of_call? hpc with ⟨_, _, -, hne⟩ | ⟨-, hne⟩ <;> cases hne
    have hhanded : (queue.threads .consumer).handed = s.consumerThread.handed := hconsumer.2
    have hpopped : queue.popped = s.queue.popped := congrArg List.reduceOption hresults
    rw [effort_inQueue, effort, hhanded, hpopped]
    show _ ≤ _ + queue.effort
    omega
  | consumer =>
    rw [hactor] at hthread hout
    obtain ⟨hpc, rfl⟩ := MutexConsumerPc.of_call? (h.consumerCall call hthread)
    have hbusy : s.consumerThread.handed = none := QueuePc.handed_of_call? hthread
    have hpopped : ∀ result, queue.results = s.queue.results ++ [result] →
        queue.popped.length = s.queue.popped.length + result.toList.length := by
      intro result hresults
      rw [BoundedMutexQueue.popped_of_results hresults, List.length_append]
    rw [effort_inQueue, effort, hbusy, hpc]
    show _ ≤ _ + queue.effort
    cases hout with
    | goesOn _ stays _ results =>
      rw [QueuePc.handed_of_call? stays, BoundedMutexQueue.popped, results, ← BoundedMutexQueue.popped]
      omega
    | queues queued => cases queued
    | refuses isPush => cases isPush
    | @takes item _ returns _ results =>
      have hone : queue.popped.length = s.queue.popped.length + 1 := hpopped (some item) results
      have hround : MutexConsumerPc.popping.effort (some item) = MutexConsumerPc.popping.effort none + 10 := rfl
      rw [returns, QueuePc.handed, hround, hone]
      have hle : s.queue.popped.length + 1 ≤ messages.length := hone ▸ hpopped'
      omega
    | fails _ returns _ results =>
      have hnone : queue.popped.length = s.queue.popped.length := hpopped none results
      rw [returns, QueuePc.handed, hnone]
      omega

theorem effort_le_of_spurious (h : s.Inv capacity messages) (hspurious : e.spurious = true)
    (hs : s.step e = some s') : s'.effort messages ≤ s.effort messages + 1 := by
  cases e with
  | inQueue e =>
    have hloops := loops_of_inQueue h hs (h.step hs)
    simp only [step] at hs
    split_ifs at hs
    obtain ⟨queue, hq, heq⟩ := Option.map_eq_some_iff.mp hs
    cases heq
    have hqueue := BoundedMutexQueue.effort_le_of_spurious hspurious hq
    refine Nat.le_of_add_le_add_right (hloops.trans ?_)
    show _ + queue.effort ≤ _
    omega
  | _ => cases hspurious

/-- A step of the loops outside the queue. -/
theorem effort_lt_of_loop (hs : s.step e = some s') (hloop : ∀ e', e ≠ .inQueue e') :
    s'.effort messages < s.effort messages := by
  cases e with
  | inQueue e => exact absurd rfl (hloop e)
  | stampMessage now =>
    simp only [step] at hs
    split at hs
    · rename_i message rest hpc
      cases hs
      simp only [effort, consumerThread, hpc, MutexProducerPc.effort, List.length_cons]
      omega
    · cases hs
  | callPush =>
    simp only [step] at hs
    split at hs
    · rename_i envelope rest hpc
      obtain ⟨queue, hq, heq⟩ := Option.map_eq_some_iff.mp hs
      cases heq
      obtain ⟨hqueue, hpopped⟩ := queueEffort_of_call hq
      obtain ⟨-, rfl⟩ := BoundedMutexQueue.of_call hq
      simp only [effort, consumerThread, hpc, hqueue, hpopped, MutexProducerPc.effort, QueueCall.effort]
      rw [BoundedMutexQueue.threads_move_of_ne _ (by decide)]
      omega
    · cases hs
  | pushReturns =>
    simp only [step] at hs
    split at hs
    · rename_i envelope rest item hpc hthread
      cases hs
      simp only [effort, consumerThread, hpc, MutexProducerPc.effort]
      omega
    · cases hs
  | countProduced =>
    simp only [step] at hs
    split at hs
    · rename_i rest hpc
      cases hs
      simp only [effort, consumerThread, hpc, MutexProducerPc.effort]
      omega
    · cases hs
  | callClose =>
    simp only [step] at hs
    split at hs
    · rename_i hpc
      obtain ⟨queue, hq, heq⟩ := Option.map_eq_some_iff.mp hs
      cases heq
      obtain ⟨hqueue, hpopped⟩ := queueEffort_of_call hq
      obtain ⟨-, rfl⟩ := BoundedMutexQueue.of_call hq
      simp only [effort, consumerThread, hpc, hqueue, hpopped, MutexProducerPc.effort, QueueCall.effort]
      rw [BoundedMutexQueue.threads_move_of_ne _ (by decide)]
      omega
    · cases hs
  | closeReturns =>
    simp only [step] at hs
    split at hs
    · rename_i item hpc hthread
      cases hs
      simp only [effort, consumerThread, hpc, MutexProducerPc.effort]
      omega
    · cases hs
  | callPop =>
    simp only [step] at hs
    split at hs
    · rename_i hpc
      obtain ⟨queue, hq, heq⟩ := Option.map_eq_some_iff.mp hs
      cases heq
      obtain ⟨hqueue, hpopped⟩ := queueEffort_of_call hq
      obtain ⟨-, rfl⟩ := BoundedMutexQueue.of_call hq
      simp only [effort, consumerThread, hpc, hqueue, hpopped, MutexConsumerPc.effort, QueueCall.effort]
      rw [BoundedMutexQueue.threads_move]
      simp only [QueuePc.handed]
      omega
    · cases hs
  | popReturns =>
    simp only [step] at hs
    split at hs
    · rename_i envelope hpc hthread
      cases hs
      simp only [effort, consumerThread, hpc, hthread, MutexConsumerPc.effort, QueuePc.handed]
      omega
    · rename_i hpc hthread
      cases hs
      simp only [effort, consumerThread, hpc, hthread, MutexConsumerPc.effort, QueuePc.handed]
      omega
    · cases hs
  | _ =>
    simp only [step] at hs
    split at hs
    · rename_i hpc
      cases hs
      simp only [effort, consumerThread, hpc, MutexConsumerPc.effort]
      omega
    · cases hs

theorem effort_lt_of_step (h : s.Inv capacity messages) (hspurious : e.spurious = false)
    (hs : s.step e = some s') : s'.effort messages < s.effort messages := by
  cases e with
  | inQueue e =>
    have hloops := loops_of_inQueue h hs (h.step hs)
    simp only [step] at hs
    split_ifs at hs with hcall
    obtain ⟨queue, hq, heq⟩ := Option.map_eq_some_iff.mp hs
    cases heq
    have hqueue := BoundedMutexQueue.effort_lt_of_step hcall hspurious hq
    exact Nat.lt_of_add_lt_add_right (Nat.lt_of_le_of_lt hloops (Nat.add_lt_add_left hqueue _))
  | _ => exact effort_lt_of_loop hs fun _ => by simp

/-! ### The end is not far -/

/-- The invariant, with the queue's own and what is known behind the close. -/
structure Live (capacity : ℕ) (messages : List MarketMessage) (s : MutexPipeline) : Prop where
  inv : s.Inv capacity messages
  wakeful : s.queue.Wakeful
  sleepers : s.queue.SleepersWait
  closing : s.producer = .closing → s.producerThread.call? = none → s.queue.closed_ = true
  finished : s.producer = .finished → s.queue.closed_ = true

theorem live_make (capacity : ℕ) (messages : List MarketMessage) :
    (make capacity messages).Live capacity messages where
  inv := inv_make capacity messages
  wakeful := BoundedMutexQueue.wakeful_make capacity
  sleepers i call hpc := by cases hpc
  closing hpc := by cases hpc
  finished hpc := by cases hpc

/-- The queue takes a step of its own, or none. -/
theorem queue_of_step (hs : s.step e = some s') :
    s'.queue = s.queue ∨ ∃ e', s.queue.step e' = some s'.queue := by
  cases e <;> simp only [step] at hs <;> (try split_ifs at hs) <;> (try split at hs)
  all_goals first
    | cases hs; exact .inl rfl
    | obtain ⟨queue, hq, heq⟩ := Option.map_eq_some_iff.mp hs; cases heq; exact .inr ⟨_, hq⟩
    | cases hs

namespace Live

/-- Outside the queue, the producer's thread or its program counter stands still. -/
theorem closing_inQueue (h : s.Live capacity messages) {e : QueueEvent Party MarketMessageEnvelope UInt64}
    {queue : EnvelopeQueue} (hcall : e.inCall = true) (hq : s.queue.step e = some queue)
    (hpc : s.producer = .closing) (hidle : (queue.threads .producer).call? = none) : queue.closed_ = true := by
  cases hactor : e.actor with
  | producer =>
    obtain ⟨call, hthread, -⟩ := BoundedMutexQueue.outcome_of_step hcall hq
    have hclose : call = .close := by
      rw [hactor] at hthread
      have hcall' := h.inv.producerCall call hthread
      rw [hpc] at hcall'
      exact (Option.some.inj hcall').symm
    subst hclose
    exact BoundedMutexQueue.closed_of_returned h.wakeful hq hthread (hactor ▸ hidle)
  | consumer =>
    have hsame := BoundedMutexQueue.caller_of_step (j := .producer) hq (by rw [hactor]; decide)
    exact BoundedMutexQueue.closed_of_step hq (h.closing hpc (hsame.1 ▸ hidle))

theorem closing_step (h : s.Live capacity messages) (hs : s.step e = some s') (hpc : s'.producer = .closing)
    (hidle : s'.producerThread.call? = none) : s'.queue.closed_ = true := by
  cases e with
  | inQueue e =>
    simp only [step] at hs
    split_ifs at hs with hcall
    obtain ⟨queue, hq, heq⟩ := Option.map_eq_some_iff.mp hs
    cases heq
    exact h.closing_inQueue hcall hq hpc hidle
  | callClose =>
    simp only [step] at hs
    split at hs
    · obtain ⟨queue, hq, heq⟩ := Option.map_eq_some_iff.mp hs
      cases heq
      obtain ⟨-, rfl⟩ := BoundedMutexQueue.of_call hq
      rw [producerThread, BoundedMutexQueue.threads_move] at hidle
      cases hidle
    · cases hs
  | callPop =>
    simp only [step] at hs
    split at hs
    · obtain ⟨queue, hq, heq⟩ := Option.map_eq_some_iff.mp hs
      cases heq
      obtain ⟨-, rfl⟩ := BoundedMutexQueue.of_call hq
      rw [producerThread, BoundedMutexQueue.threads_move_of_ne _ (by decide)] at hidle
      exact h.closing hpc hidle
    · cases hs
  | stampMessage | pushReturns | countProduced | closeReturns =>
    simp only [step] at hs
    split at hs
    · cases hs
      cases hpc
    · cases hs
  | callPush =>
    simp only [step] at hs
    split at hs
    · obtain ⟨queue, -, heq⟩ := Option.map_eq_some_iff.mp hs
      cases heq
      cases hpc
    · cases hs
  | popReturns =>
    simp only [step] at hs
    split at hs
    · cases hs
      exact h.closing hpc hidle
    · cases hs
      exact h.closing hpc hidle
    · cases hs
  | _ =>
    simp only [step] at hs
    split at hs
    · cases hs
      exact h.closing hpc hidle
    · cases hs

/-- Only the return of the `close` makes the producer finish. -/
theorem finished_of_step (hs : s.step e = some s') (hpc : s'.producer = .finished) :
    s.producer = .finished ∨ s.producer = .closing ∧ s.producerThread.call? = none := by
  cases e with
  | closeReturns =>
    simp only [step] at hs
    split at hs
    · rename_i item hclosing hthread
      exact .inr ⟨hclosing, by rw [producerThread, hthread]; rfl⟩
    · cases hs
  | inQueue | callPop | callPush | callClose =>
    simp only [step] at hs
    split at hs
    · obtain ⟨queue, -, heq⟩ := Option.map_eq_some_iff.mp hs
      cases heq
      first | exact .inl hpc | cases hpc
    · cases hs
  | popReturns =>
    simp only [step] at hs
    split at hs
    · cases hs
      exact .inl hpc
    · cases hs
      exact .inl hpc
    · cases hs
  | _ =>
    simp only [step] at hs
    split at hs
    · cases hs
      first | exact .inl hpc | cases hpc
    · cases hs

theorem step (h : s.Live capacity messages) (hs : s.step e = some s') : s'.Live capacity messages where
  inv := h.inv.step hs
  wakeful := by
    rcases queue_of_step hs with hsame | ⟨e', hq⟩
    · rw [hsame]
      exact h.wakeful
    · exact h.wakeful.step hq
  sleepers := by
    rcases queue_of_step hs with hsame | ⟨e', hq⟩
    · rw [hsame]
      exact h.sleepers
    · exact h.sleepers.step hq
  closing := h.closing_step hs
  finished hpc := by
    have hclosed : s.queue.closed_ = true := by
      rcases finished_of_step hs hpc with hfinished | ⟨hclosing, hidle⟩
      · exact h.finished hfinished
      · exact h.closing hclosing hidle
    rcases queue_of_step hs with hsame | ⟨e', hq⟩
    · rw [hsame]
      exact hclosed
    · exact BoundedMutexQueue.closed_of_step hq hclosed

/-! #### What can happen next -/

/-- A thread that is awake inside the queue can go on. -/
theorem exists_inQueue {i : Party} {call : QueueCall MarketMessageEnvelope UInt64}
    (hcall : (s.queue.threads i).call? = some call) (hawake : (s.queue.threads i).asleep = false) :
    ∃ e : MutexPipelineEvent, e.spurious = false ∧ (s.step e).isSome := by
  obtain ⟨e, hin, hspurious, -, hsome⟩ := BoundedMutexQueue.exists_step_of_awake hcall hawake
  refine ⟨.inQueue e, hspurious, ?_⟩
  simp only [MutexPipeline.step, hin, if_true, Option.isSome_map, hsome]

/-- The producer outside the queue, before its end. -/
theorem exists_producer (hidle : s.producerThread.call? = none)
    (hpc : s.producer ≠ .finished) : ∃ e : MutexPipelineEvent, e.spurious = false ∧ (s.step e).isSome := by
  have hthread : ∃ item, s.queue.threads .producer = .idle item := by
    cases hq : s.queue.threads .producer with
    | idle item => exact ⟨item, rfl⟩
    | _ =>
      rw [producerThread, hq] at hidle
      cases hidle
  obtain ⟨item, hthread⟩ := hthread
  cases hp : s.producer with
  | nextMessage rest =>
    cases rest with
    | nil =>
      have hcall := BoundedMutexQueue.exists_call hidle .close
      exact ⟨.callClose, rfl, by simp only [MutexPipeline.step, hp, Option.isSome_map, hcall]⟩
    | cons message rest =>
      exact ⟨.stampMessage 0, rfl, by simp only [MutexPipeline.step, hp, Option.isSome_some]⟩
  | stamped envelope rest =>
    have hcall := BoundedMutexQueue.exists_call hidle (.pushWithMutation envelope MarketMessageEnvelope.stampPush)
    exact ⟨.callPush, rfl, by simp only [MutexPipeline.step, hp, Option.isSome_map, hcall]⟩
  | pushing envelope rest =>
    exact ⟨.pushReturns, rfl, by simp only [MutexPipeline.step, hp, hthread, Option.isSome_some]⟩
  | pushed rest => exact ⟨.countProduced, rfl, by simp only [MutexPipeline.step, hp, Option.isSome_some]⟩
  | closing => exact ⟨.closeReturns, rfl, by simp only [MutexPipeline.step, hp, hthread, Option.isSome_some]⟩
  | finished => exact absurd hp hpc

theorem exists_consumer (hidle : s.consumerThread.call? = none) (hpc : s.consumer ≠ .finished) :
    ∃ e : MutexPipelineEvent, e.spurious = false ∧ (s.step e).isSome := by
  cases hp : s.consumer with
  | nextPop =>
    have hcall := BoundedMutexQueue.exists_call hidle .pop
    exact ⟨.callPop, rfl, by simp only [MutexPipeline.step, hp, Option.isSome_map, hcall]⟩
  | popping =>
    cases hq : s.queue.threads .consumer with
    | idle item =>
      cases item <;> exact ⟨.popReturns, rfl, by simp only [MutexPipeline.step, hp, hq, Option.isSome_some]⟩
    | _ =>
      rw [consumerThread, hq] at hidle
      cases hidle
  | popped envelope => exact ⟨.stampPop 0, rfl, by simp only [MutexPipeline.step, hp, Option.isSome_some]⟩
  | waited envelope => exact ⟨.startBook 0, rfl, by simp only [MutexPipeline.step, hp, Option.isSome_some]⟩
  | timing envelope bookStart =>
    exact ⟨.applyMessage, rfl, by simp only [MutexPipeline.step, hp, Option.isSome_some]⟩
  | applied envelope bookStart => exact ⟨.endBook 0, rfl, by simp only [MutexPipeline.step, hp, Option.isSome_some]⟩
  | timed envelope => exact ⟨.stampEnd 0, rfl, by simp only [MutexPipeline.step, hp, Option.isSome_some]⟩
  | recorded => exact ⟨.countConsumed, rfl, by simp only [MutexPipeline.step, hp, Option.isSome_some]⟩
  | finished => exact absurd hp hpc

/-- Where both threads are asleep or over, both are over. -/
theorem finished_of_asleep (h : s.Live capacity messages) (hcap : 0 < capacity ∨ messages = [])
    (hproducer : s.producerThread.call? = none → s.producer = .finished)
    (hconsumer : s.consumerThread.call? = none → s.consumer = .finished)
    (hall : ∀ i call, (s.queue.threads i).call? = some call → (s.queue.threads i).asleep = true) :
    s.producer = .finished ∧ s.consumer = .finished := by
  have hwaits : ∀ i call, (s.queue.threads i).call? = some call → s.queue.Waits call := fun i call hcall =>
    BoundedMutexQueue.waits_of_asleep h.wakeful h.sleepers hall hcall
  obtain ⟨items, n, hfifo⟩ := h.inv.queue
  cases hp : s.producerThread.call? with
  | none =>
    refine ⟨hproducer hp, ?_⟩
    cases hc : s.consumerThread.call? with
    | none => exact hconsumer hc
    | some call =>
      have hopen := (hwaits .consumer call hc).1
      rw [h.finished (hproducer hp)] at hopen
      cases hopen
  | some call =>
    obtain ⟨hopen, hreason⟩ := hwaits .producer call hp
    have hfull : 0 < capacity ∧ capacity ≤ s.queue.queue_.length := by
      rcases MutexProducerPc.of_call? (h.inv.producerCall call hp) with ⟨_, _, hpushing, rfl⟩ | ⟨-, rfl⟩
      · rcases hreason with ⟨hne, -⟩ | ⟨-, hfull⟩
        · cases hne
        · have hsent := h.inv.sent
          rw [hp, hpushing] at hsent
          have hmessages : messages ≠ [] := by
            rintro rfl
            exact absurd hsent (by simp [pending])
          exact ⟨hcap.resolve_right hmessages, hfifo.capacity_eq ▸ hfull⟩
      · rcases hreason with ⟨hne, -⟩ | ⟨hne, -⟩ <;> cases hne
    cases hc : s.consumerThread.call? with
    | none =>
      rw [h.inv.queue.closed_of_failed (h.inv.drained (hconsumer hc))] at hopen
      cases hopen
    | some call' =>
      obtain ⟨-, rfl⟩ := MutexConsumerPc.of_call? (h.inv.consumerCall call' hc)
      rcases (hwaits .consumer .pop hc).2 with ⟨-, hempty⟩ | ⟨hne, -⟩
      · rw [hempty, List.length_nil] at hfull
        exact absurd hfull.1 (Nat.not_lt.mpr hfull.2)
      · cases hne

/-- Before both threads have finished one of them can go on. -/
theorem exists_step (h : s.Live capacity messages) (hcap : 0 < capacity ∨ messages = [])
    (hrunning : ¬(s.producer = .finished ∧ s.consumer = .finished)) :
    ∃ e : MutexPipelineEvent, e.spurious = false ∧ (s.step e).isSome := by
  by_contra hnone
  refine hrunning (h.finished_of_asleep hcap (fun hidle => ?_) (fun hidle => ?_) fun i call hcall => ?_)
  · by_contra hpc
    exact hnone (exists_producer hidle hpc)
  · by_contra hpc
    exact hnone (exists_consumer hidle hpc)
  · by_contra hawake
    exact hnone (exists_inQueue hcall (Bool.not_eq_true _ ▸ hawake))

end Live

/-! ### Runs -/

/-- Both threads have returned. -/
def Finished (s : MutexPipeline) : Prop := s.producer = .finished ∧ s.consumer = .finished

theorem spends (capacity : ℕ) (messages : List MarketMessage) :
    Spends step (Live capacity messages) MutexPipelineEvent.spurious (effort messages) 1 where
  keeps _ _ _ h hs := h.step hs
  spends _ _ _ h hs he := effort_lt_of_step h.inv he hs
  refunds _ _ _ h hs he := effort_le_of_spurious h.inv he hs

theorem live_of_run {events : List MutexPipelineEvent}
    (hrun : exec step (make capacity messages) events = some s) : s.Live capacity messages := by
  have hstep : ∀ (s : MutexPipeline) e s', Live capacity messages s → s.step e = some s' →
      Live capacity messages s' := fun _ _ _ h hs => h.step hs
  exact exec_invariant hstep (live_make capacity messages) hrun

/-- A state with room in the queue, or with nothing to send, goes on to the end. -/
theorem Live.exists_finish (h : s.Live capacity messages) (hcap : 0 < capacity ∨ messages = []) :
    ∃ events s', exec MutexPipeline.step s events = some s' ∧ s'.Finished ∧ s'.Lossless messages ∧
      ∀ e ∈ events, e.spurious = false := by
  obtain ⟨events, s', hrun, h', hdone, hevents⟩ := (spends capacity messages).exists_exec
    (fun s (hs : s.Live capacity messages) hd => hs.exists_step hcap hd) h
  exact ⟨events, s', hrun, hdone, h'.inv.lossless hdone.1 hdone.2, hevents⟩

/-- **The mutex-queue pipeline terminates**: the length of a run is bounded by the number
of messages and of spurious wake-ups, one of the threads can go on until both have
finished, and every run goes on to an end with everything applied. -/
theorem run_terminates (hcap : 0 < capacity) {events : List MutexPipelineEvent}
    (hrun : exec step (make capacity messages) events = some s) :
    events.length ≤ 16 * messages.length + 13 + 2 * events.countP MutexPipelineEvent.spurious ∧
      (¬s.Finished → ∃ e : MutexPipelineEvent, e.spurious = false ∧ (s.step e).isSome) ∧
      ∃ events' s', exec step s events' = some s' ∧ s'.Finished ∧ s'.Lossless messages ∧
        ∀ e ∈ events', e.spurious = false := by
  have h := live_of_run hrun
  have hle := (spends capacity messages).length_le (live_make capacity messages) hrun
  rw [effort_make] at hle
  exact ⟨by omega, h.exists_step (.inl hcap), h.exists_finish (.inl hcap)⟩

/-- The run of one message, with the consumer woken in between for nothing. -/
def spuriousRun : List MutexPipelineEvent :=
  [.callPop, .inQueue (.lock .consumer none none), .stampMessage 5, .inQueue (.wakeSpuriously .consumer), .callPush]

theorem run_terminates_spuriousRun :
    ∃ s, exec step (make 1 [MarketMessage.zero]) spuriousRun = some s ∧
      ∃ events' s', exec step s events' = some s' ∧ s'.Finished ∧ s'.Lossless [MarketMessage.zero] ∧
        ∀ e ∈ events', e.spurious = false :=
  ⟨_, rfl, (run_terminates Nat.one_pos (show exec step (make 1 [MarketMessage.zero]) spuriousRun = _ from rfl)).2.2⟩

/-! ### A queue of capacity zero -/

/-- A queue that has never held anything. -/
def Useless (s : MutexPipeline) : Prop := s.queue.appended = []

theorem Useless.step (h : s.Useless) (hinv : s.Inv 0 messages) (hs : s.step e = some s') : s'.Useless := by
  rcases queue_of_step hs with hsame | ⟨e', hq⟩
  · rw [Useless, hsame]
    exact h
  · obtain ⟨items, n, hfifo⟩ := hinv.queue
    rcases BoundedMutexQueue.appended_of_step hq with hsame | hroom
    · exact hsame.trans h
    · rw [hfifo.capacity_eq] at hroom
      cases hroom

/-- With nothing queued no thread with something to send or to wait for finishes. -/
theorem Useless.stuck (h : s.Useless) (hinv : s.Inv 0 messages) (hmessages : messages ≠ []) :
    s.producer ≠ .finished ∧ s.consumer ≠ .finished := by
  have hpending : pending s.producer s.producerThread.call?.isSome = messages := by
    have hsent := hinv.sent
    rw [h] at hsent
    exact hsent
  have hnot : s.producer ≠ .closing ∧ s.producer ≠ .finished := by
    constructor <;> intro hpc <;> rw [hpc] at hpending <;> exact hmessages hpending.symm
  refine ⟨hnot.2, fun hpc => ?_⟩
  exact hinv.not_closed hnot.1 hnot.2 (hinv.queue.closed_of_failed (hinv.drained hpc))

/-- **The pipeline can finish exactly when its queue can hold something**, or there is
nothing to send. -/
theorem can_finish_iff (capacity : ℕ) (messages : List MarketMessage) :
    (∃ events s, exec step (make capacity messages) events = some s ∧ s.Finished) ↔
      0 < capacity ∨ messages = [] := by
  constructor
  · rintro ⟨events, s, hrun, hdone⟩
    by_contra hne
    obtain ⟨hcap, hmessages⟩ := not_or.mp hne
    obtain rfl := Nat.eq_zero_of_not_pos hcap
    have hstep : ∀ (s : MutexPipeline) e s', s.Inv 0 messages ∧ s.Useless → s.step e = some s' →
        s'.Inv 0 messages ∧ s'.Useless := fun _ _ _ h hs => ⟨h.1.step hs, h.2.step h.1 hs⟩
    have h := exec_invariant hstep ⟨inv_make 0 messages, rfl⟩ hrun
    exact (h.2.stuck h.1 hmessages).1 hdone.1
  · intro hcap
    obtain ⟨events, s, hrun, hdone, -⟩ := (live_make capacity messages).exists_finish hcap
    exact ⟨events, s, hrun, hdone⟩

end MutexPipeline

end LatencyLab
