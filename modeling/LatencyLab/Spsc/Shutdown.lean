import LatencyLab.Book.OrderBook
import LatencyLab.Spsc.Pipeline

/-! The SPSC pipeline loses nothing at shutdown. The consumer leaves only after it
has seen `producer_done`, then a head, then a tail equal to it. Once the flag is
up the producer stores no more heads, so the head read is final, and equal
indices within one lap mean that every published item has been returned. -/

namespace LatencyLab

open Transition

/-! ### Calls on the queue -/

section Calls

variable {T : Type*} {c c' : Channel T}

/-- The item of a `push` in progress. -/
def PushPc.item? : PushPc T → Option T
  | .idle _ => none
  | .entered item | .loaded item _ _ | .admitted item _ _ | .written item _ => some item

/-- The item the last `pop` handed out. -/
def PopPc.handed : PopPc T → Option T
  | .idle result => result
  | _ => none

/-- A push that has not published. -/
theorem ne_idle_true {pc : PushPc T} {item : T} (h : pc.item? = some item ∨ pc = .idle false) :
    pc ≠ .idle true := by
  rintro rfl
  rcases h with hitem | hfail
  · cases hitem
  · cases hfail

/-- A step inside `push` goes on, gives up, or publishes the item and succeeds. -/
structure PushStep (c c' : Channel T) : Prop where
  pop : c'.pop = c.pop
  returned : c'.returned = c.returned
  call : ∃ item, c.push.item? = some item ∧
    ((c'.published = c.published ∧ (c'.push.item? = some item ∨ c'.push = .idle false)) ∨
      c'.published = c.published ++ [item] ∧ c'.push = .idle true)

/-- A step inside `pop` goes on or gives up, or hands out an item and succeeds. -/
structure PopStep (c c' : Channel T) : Prop where
  busy : c.pop.handed = none
  push : c'.push = c.push
  published : c'.published = c.published
  call : (c'.returned = c.returned ∧ c'.pop.handed = none) ∨
    ∃ item, c'.returned = c.returned ++ [item] ∧ c'.pop = .idle (some item)

theorem pushStep_of_step {e : ChannelEvent T} (he : e.inPush c.ring = true) (hs : c.step e = some c') :
    PushStep c c' := by
  cases e with
  | pushLoadHead =>
    obtain ⟨item, head, hpc, -, rfl⟩ := Channel.of_pushLoadHead hs
    exact ⟨rfl, rfl, item, by rw [hpc]; rfl, .inl ⟨rfl, .inl rfl⟩⟩
  | pushLoadTail k =>
    obtain ⟨item, head, nextHead, tail, hpc, -, -, rfl⟩ := Channel.of_pushLoadTail hs
    refine ⟨rfl, rfl, item, by rw [hpc]; rfl, .inl ⟨rfl, ?_⟩⟩
    split_ifs
    · exact .inr rfl
    · exact .inl rfl
  | pushPartialWrite junk =>
    obtain ⟨item, head, nextHead, hpc, rfl⟩ := Channel.of_pushPartialWrite hs
    exact ⟨rfl, rfl, item, by rw [hpc]; rfl, .inl ⟨rfl, .inl (by rw [hpc]; rfl)⟩⟩
  | pushWrite =>
    obtain ⟨item, head, nextHead, hpc, rfl⟩ := Channel.of_pushWrite hs
    exact ⟨rfl, rfl, item, by rw [hpc]; rfl, .inl ⟨rfl, .inl rfl⟩⟩
  | pushStoreHead =>
    obtain ⟨item, nextHead, hpc, rfl⟩ := Channel.of_pushStoreHead hs
    exact ⟨rfl, rfl, item, by rw [hpc]; rfl, .inr ⟨rfl, rfl⟩⟩
  | _ => simp [ChannelEvent.inPush] at he

theorem popStep_of_step {e : ChannelEvent T} (he : e.inPop c.ring = true) (hs : c.step e = some c') :
    PopStep c c' := by
  cases e with
  | popLoadTail =>
    obtain ⟨tail, hpc, -, rfl⟩ := Channel.of_popLoadTail hs
    exact ⟨by rw [hpc]; rfl, rfl, rfl, .inl ⟨rfl, rfl⟩⟩
  | popLoadHead k =>
    obtain ⟨tail, head, hpc, -, -, rfl⟩ := Channel.of_popLoadHead hs
    refine ⟨by rw [hpc]; rfl, rfl, rfl, .inl ⟨rfl, ?_⟩⟩
    split_ifs
    · rfl
    · rfl
  | popRead =>
    obtain ⟨tail, item, hpc, -, rfl⟩ := Channel.of_popRead hs
    exact ⟨by rw [hpc]; rfl, rfl, rfl, .inl ⟨rfl, rfl⟩⟩
  | popStoreTail =>
    obtain ⟨item, tail, hpc, rfl⟩ := Channel.of_popStoreTail hs
    exact ⟨by rw [hpc]; rfl, rfl, rfl, .inr ⟨item, rfl, rfl⟩⟩
  | _ => simp [ChannelEvent.inPop] at he

end Calls

namespace Pipeline

/-! ### The invariant -/

/-- The messages not yet published. -/
def pending : ProducerPc → PushPc MarketMessageEnvelope → List MarketMessage
  | .nextMessage rest, _ => rest
  | .stamped envelope rest, _ => envelope.message :: rest
  | .pushing _ rest, .idle true => rest
  | .pushing envelope rest, _ => envelope.message :: rest
  | .pushed rest, _ => rest
  | .finished, _ => []

/-- The published items that `produced` does not count yet. -/
def uncounted : ProducerPc → PushPc MarketMessageEnvelope → UInt64
  | .pushing _ _, .idle true => 1
  | .pushed _, _ => 1
  | _, _ => 0

/-- The message popped and not yet applied. -/
def unapplied : ConsumerPc → PopPc MarketMessageEnvelope → List MarketMessage
  | .popping, pc => (pc.handed.map MarketMessageEnvelope.message).toList
  | .popped envelope, _ | .waited envelope, _ | .timing envelope _, _ => [envelope.message]
  | _, _ => []

/-- The applied messages that `consumed` does not count yet. -/
def unconsumed : ConsumerPc → UInt64
  | .applied _ _ | .timed _ | .recorded => 1
  | _ => 0

/-- Inside the loop: neither in the exit test behind `producer_done` nor gone. -/
def InLoop : ConsumerPc → Prop
  | .testHead | .testTail _ | .finished => False
  | _ => True

theorem pending_pushing {envelope : MarketMessageEnvelope} {rest : List MarketMessage}
    {pc : PushPc MarketMessageEnvelope} (h : pc ≠ .idle true) :
    pending (.pushing envelope rest) pc = envelope.message :: rest := by
  cases pc with
  | idle result =>
    cases result with
    | false => rfl
    | true => exact absurd rfl h
  | _ => rfl

theorem uncounted_pushing {envelope : MarketMessageEnvelope} {rest : List MarketMessage}
    {pc : PushPc MarketMessageEnvelope} (h : pc ≠ .idle true) : uncounted (.pushing envelope rest) pc = 0 := by
  cases pc with
  | idle result =>
    cases result with
    | false => rfl
    | true => exact absurd rfl h
  | _ => rfl

variable {B : Type*}

structure Inv (capacity : ℕ) (messages : List MarketMessage) (onMessage : B → MarketMessage → B) (book : B)
    (s : Pipeline B) : Prop where
  queue : Channel.InvFor capacity s.queue
  item : ∀ envelope rest item, s.producer = .pushing envelope rest →
    s.queue.push.item? = some item → item = envelope
  sent : s.queue.published.map MarketMessageEnvelope.message ++ pending s.producer s.queue.push = messages
  produced : s.produced + uncounted s.producer s.queue.push = UInt64.ofNat s.queue.published.length
  received : s.queue.returned.map MarketMessageEnvelope.message =
    s.appliedMessages ++ unapplied s.consumer s.queue.pop
  consumed : s.consumed + unconsumed s.consumer = UInt64.ofNat s.appliedMessages.length
  book : s.book = s.appliedMessages.foldl onMessage book
  done : s.producerDone = true → s.producer = .finished
  testHead : s.consumer = .testHead → s.producerDone = true
  testTail : ∀ head, s.consumer = .testTail head →
    s.producerDone = true ∧ s.queue.ring.head_.getLast? = some head
  drained : s.consumer = .finished → s.producerDone = true ∧ s.queue.returned = s.queue.published

variable {capacity : ℕ} {messages : List MarketMessage} {onMessage : B → MarketMessage → B} {book : B}
  {s s' : Pipeline B}

theorem inv_make (hcap : capacity + 1 < sizeMod) (onMessage : B → MarketMessage → B) :
    (make capacity messages book).Inv capacity messages onMessage book where
  queue := Channel.invFor_make hcap
  item := by simp [make]
  sent := rfl
  produced := rfl
  received := rfl
  consumed := rfl
  book := rfl
  done := by simp [make]
  testHead := by simp [make]
  testTail := by simp [make]
  drained := by simp [make]

namespace Inv

/-! #### The producer -/

/-- While the producer runs the flag is down. -/
theorem running (h : s.Inv capacity messages onMessage book) (hp : s.producer ≠ .finished) :
    ¬s.producerDone = true := fun hd => hp (h.done hd)

/-- While the producer runs the consumer is not past the flag test. -/
theorem before_exit (h : s.Inv capacity messages onMessage book) (hp : s.producer ≠ .finished) :
    s.consumer ≠ .testHead ∧ (∀ head, s.consumer ≠ .testTail head) ∧ s.consumer ≠ .finished :=
  ⟨fun hc => h.running hp (h.testHead hc), fun head hc => h.running hp (h.testTail head hc).1,
    fun hc => h.running hp (h.drained hc).1⟩

/-- The producer goes on with the same messages before it. -/
theorem moveProducer (h : s.Inv capacity messages onMessage book) (hp : s.producer ≠ .finished)
    (pc : ProducerPc) (hcall : ∀ envelope rest, pc ≠ .pushing envelope rest)
    (hpending : pending s.producer s.queue.push = pending pc s.queue.push)
    (hcount : uncounted s.producer s.queue.push = uncounted pc s.queue.push) :
    Inv capacity messages onMessage book { s with producer := pc } where
  __ := h
  item envelope rest _ hpc := absurd hpc (hcall envelope rest)
  sent := by rw [← hpending]; exact h.sent
  produced := by rw [← hcount]; exact h.produced
  done hd := absurd hd (h.running hp)

theorem stampMessage (h : s.Inv capacity messages onMessage book) {now : UInt64}
    (hs : s.step onMessage (.stampMessage now) = some s') : s'.Inv capacity messages onMessage book := by
  simp only [step] at hs
  split at hs
  · rename_i message rest hpc
    cases hs
    exact h.moveProducer (by simp [hpc]) (.stamped ⟨message, now, 0⟩ rest) (by simp) (by rw [hpc]; rfl)
      (by rw [hpc]; rfl)
  · cases hs

/-- The producer's call: a fresh `push` with nothing else changed in the queue. -/
theorem stampPush (h : s.Inv capacity messages onMessage book) {now : UInt64}
    (hs : s.step onMessage (.stampPush now) = some s') : s'.Inv capacity messages onMessage book := by
  simp only [step] at hs
  split at hs
  · rename_i envelope rest hpc
    obtain ⟨queue, hq, he⟩ := Option.map_eq_some_iff.mp hs
    cases he
    have hqueue := h.queue.step hq
    obtain ⟨-, rfl⟩ := Channel.of_pushCall hq
    have hsent := h.sent
    have hproduced := h.produced
    have hrun := h.running (by simp [hpc])
    rw [hpc] at hsent hproduced
    refine { h with
      queue := hqueue
      item := ?_
      sent := hsent
      produced := hproduced
      done := fun hd => absurd hd hrun }
    rintro envelope' rest' item' ⟨rfl, rfl⟩ ⟨rfl⟩
    rfl
  · cases hs

theorem inPush (h : s.Inv capacity messages onMessage book) {e : ChannelEvent MarketMessageEnvelope}
    (hs : s.step onMessage (.inPush e) = some s') : s'.Inv capacity messages onMessage book := by
  simp only [step] at hs
  split at hs
  · rename_i envelope rest hpc
    split_ifs at hs with he
    obtain ⟨queue, hq, heq⟩ := Option.map_eq_some_iff.mp hs
    cases heq
    obtain ⟨hpop, hret, item, hitem, hcall⟩ := pushStep_of_step he hq
    have hsame : item = envelope := h.item envelope rest item hpc hitem
    have hsent := h.sent
    have hproduced := h.produced
    obtain ⟨hnoHead, hnoTail, hnoExit⟩ := h.before_exit (by simp [hpc])
    have hbusy := ne_idle_true (.inl hitem)
    rw [hpc, pending_pushing hbusy] at hsent
    rw [hpc, uncounted_pushing hbusy] at hproduced
    refine { h with
      queue := h.queue.step hq
      item := ?_
      sent := ?_
      produced := ?_
      received := by rw [hret, hpop]; exact h.received
      testTail := fun head hc => absurd hc (hnoTail head)
      drained := fun hc => absurd hc hnoExit }
    · intro envelope' rest' item' hpc' hitem'
      cases hpc.symm.trans hpc'
      rcases hcall with ⟨-, hgo | hfail⟩ | ⟨-, hok⟩
      · cases hgo.symm.trans hitem'
        exact hsame
      · rw [hfail] at hitem'
        cases hitem'
      · rw [hok] at hitem'
        cases hitem'
    · rcases hcall with ⟨hpub, hgoes⟩ | ⟨hpub, hok⟩
      · rw [hpub, hpc, pending_pushing (ne_idle_true hgoes)]
        exact hsent
      · rw [hpub, hpc, hok, hsame, List.map_append, List.append_assoc]
        exact hsent
    · rcases hcall with ⟨hpub, hgoes⟩ | ⟨hpub, hok⟩
      · rw [hpub, hpc, uncounted_pushing (ne_idle_true hgoes)]
        exact hproduced
      · rw [add_zero] at hproduced
        rw [hpub, hpc, hok, List.length_append, List.length_singleton, UInt64.ofNat_add, ← hproduced]
        rfl
  · cases hs

theorem pushReturns (h : s.Inv capacity messages onMessage book)
    (hs : s.step onMessage .pushReturns = some s') : s'.Inv capacity messages onMessage book := by
  simp only [step] at hs
  split at hs
  · rename_i envelope rest hpc hpush
    cases hs
    exact h.moveProducer (by simp [hpc]) (.pushed rest) (by simp) (by rw [hpc, hpush]; rfl)
      (by rw [hpc, hpush]; rfl)
  · rename_i envelope rest hpc hpush
    cases hs
    have hmoved := h.moveProducer (by simp [hpc]) (.stamped envelope rest) (by simp)
      (by rw [hpc, hpush]; rfl) (by rw [hpc, hpush]; rfl)
    exact { hmoved with }
  · cases hs

theorem countProduced (h : s.Inv capacity messages onMessage book)
    (hs : s.step onMessage .countProduced = some s') : s'.Inv capacity messages onMessage book := by
  simp only [step] at hs
  split at hs
  · rename_i rest hpc
    cases hs
    have hsent := h.sent
    have hproduced := h.produced
    have hrun := h.running (by simp [hpc])
    rw [hpc] at hsent hproduced
    refine { h with item := by simp, sent := hsent, produced := ?_, done := fun hd => absurd hd hrun }
    exact (add_zero _).trans hproduced
  · cases hs

theorem storeDone (h : s.Inv capacity messages onMessage book)
    (hs : s.step onMessage .storeDone = some s') : s'.Inv capacity messages onMessage book := by
  simp only [step] at hs
  split at hs
  · rename_i hpc
    cases hs
    have hsent := h.sent
    have hproduced := h.produced
    rw [hpc] at hsent hproduced
    exact { h with
      item := by simp
      sent := hsent
      produced := hproduced
      done := fun _ => rfl
      testHead := fun _ => rfl
      testTail := fun head hc => ⟨rfl, (h.testTail head hc).2⟩
      drained := fun hc => ⟨rfl, (h.drained hc).2⟩ }
  · cases hs

/-! #### The consumer -/

/-- The consumer goes on inside the loop, with the same message in its hands. -/
theorem moveConsumer (h : s.Inv capacity messages onMessage book) (pc : ConsumerPc) (hloop : InLoop pc)
    (hun : unapplied s.consumer s.queue.pop = unapplied pc s.queue.pop)
    (hcount : unconsumed s.consumer = unconsumed pc) :
    Inv capacity messages onMessage book { s with consumer := pc } where
  __ := h
  received := by rw [← hun]; exact h.received
  consumed := by rw [← hcount]; exact h.consumed
  testHead := by rintro rfl; exact hloop.elim
  testTail := by rintro head rfl; exact hloop.elim
  drained := by rintro rfl; exact hloop.elim

/-- Entering `pop` from a test that holds no message. -/
theorem callPop (h : s.Inv capacity messages onMessage book) (hun : unapplied s.consumer s.queue.pop = [])
    (hcount : unconsumed s.consumer = 0) (hs : s.callPop = some s') :
    s'.Inv capacity messages onMessage book := by
  obtain ⟨queue, hq, heq⟩ := Option.map_eq_some_iff.mp hs
  cases heq
  have hqueue := h.queue.step hq
  obtain ⟨-, rfl⟩ := Channel.of_popCall hq
  have hreceived := h.received
  have hconsumed := h.consumed
  rw [hun] at hreceived
  rw [hcount] at hconsumed
  exact { h with
    queue := hqueue
    received := hreceived
    consumed := hconsumed
    testHead := by simp
    testTail := by simp
    drained := by simp }

theorem loadDone (h : s.Inv capacity messages onMessage book)
    (hs : s.step onMessage .loadDone = some s') : s'.Inv capacity messages onMessage book := by
  simp only [step] at hs
  split at hs
  · rename_i hpc
    split_ifs at hs with hd
    · cases hs
      have hreceived := h.received
      have hconsumed := h.consumed
      rw [hpc] at hreceived hconsumed
      exact { h with
        received := hreceived
        consumed := hconsumed
        testHead := fun _ => hd
        testTail := by simp
        drained := by simp }
    · exact h.callPop (by rw [hpc]; rfl) (by rw [hpc]; rfl) hs
  · cases hs

theorem loadHead (h : s.Inv capacity messages onMessage book)
    (hs : s.step onMessage .loadHead = some s') : s'.Inv capacity messages onMessage book := by
  simp only [step] at hs
  split at hs
  · rename_i head hpc hhead
    cases hs
    have hreceived := h.received
    have hconsumed := h.consumed
    have hd := h.testHead hpc
    rw [hpc] at hreceived hconsumed
    refine { h with
      received := hreceived
      consumed := hconsumed
      testHead := by simp
      testTail := ?_
      drained := by simp }
    rintro head' ⟨rfl⟩
    exact ⟨hd, hhead⟩
  · cases hs

/-- Equal indices, the head being final, leave nothing between them. -/
theorem loadTail (h : s.Inv capacity messages onMessage book)
    (hs : s.step onMessage .loadTail = some s') : s'.Inv capacity messages onMessage book := by
  simp only [step] at hs
  split at hs
  · rename_i head tail hpc htail
    obtain ⟨hd, hhead⟩ := h.testTail head hpc
    split_ifs at hs with heq
    · cases hs
      have hq := h.queue.inv
      have hreceived := h.received
      have hconsumed := h.consumed
      rw [hpc] at hreceived hconsumed
      rw [hq.head, Cyclic.getLast?_laps, Option.some.injEq] at hhead
      rw [hq.tail, Cyclic.getLast?_laps, Option.some.injEq] at htail
      have hlen : s.queue.returned.length = s.queue.published.length :=
        Cyclic.eq_of_mod_eq hq.returned_le_published hq.window (by rw [htail, hhead, heq])
      exact { h with
        received := hreceived
        consumed := hconsumed
        testHead := by simp
        testTail := by simp
        drained := fun _ => ⟨hd, hq.fifo.eq_of_length hlen⟩ }
    · exact h.callPop (by rw [hpc]; rfl) (by rw [hpc]; rfl) hs
  · cases hs

theorem inPop (h : s.Inv capacity messages onMessage book) {e : ChannelEvent MarketMessageEnvelope}
    (hs : s.step onMessage (.inPop e) = some s') : s'.Inv capacity messages onMessage book := by
  simp only [step] at hs
  split at hs
  · rename_i hpc
    split_ifs at hs with he
    obtain ⟨queue, hq, heq⟩ := Option.map_eq_some_iff.mp hs
    cases heq
    obtain ⟨hbusy, hpush, hpub, hcall⟩ := popStep_of_step he hq
    have hreceived := h.received
    rw [hpc, unapplied, hbusy] at hreceived
    refine { h with
      queue := h.queue.step hq
      item := by rw [hpush]; exact h.item
      sent := by rw [hpush, hpub]; exact h.sent
      produced := by rw [hpush, hpub]; exact h.produced
      received := ?_
      testHead := by simp [hpc]
      testTail := by simp [hpc]
      drained := by simp [hpc] }
    rw [hpc, unapplied]
    rcases hcall with ⟨hret, hnone⟩ | ⟨envelope, hret, hok⟩
    · rw [hret, hnone]
      exact hreceived
    · rw [hret, hok, List.map_append, hreceived, List.append_assoc]
      rfl
  · cases hs

theorem popReturns (h : s.Inv capacity messages onMessage book)
    (hs : s.step onMessage .popReturns = some s') : s'.Inv capacity messages onMessage book := by
  simp only [step] at hs
  split at hs
  · rename_i envelope hpc hpop
    cases hs
    exact h.moveConsumer (.popped envelope) trivial (by rw [hpc, hpop]; rfl) (by rw [hpc]; rfl)
  · rename_i hpc hpop
    cases hs
    have hmoved := h.moveConsumer .testDone trivial (by rw [hpc, hpop]; rfl) (by rw [hpc]; rfl)
    exact { hmoved with }
  · cases hs

theorem stampPop (h : s.Inv capacity messages onMessage book) {now : UInt64}
    (hs : s.step onMessage (.stampPop now) = some s') : s'.Inv capacity messages onMessage book := by
  simp only [step] at hs
  split at hs
  · rename_i envelope hpc
    cases hs
    have hmoved := h.moveConsumer (.waited envelope) trivial (by rw [hpc]; rfl) (by rw [hpc]; rfl)
    exact { hmoved with }
  · cases hs

theorem startBook (h : s.Inv capacity messages onMessage book) {now : UInt64}
    (hs : s.step onMessage (.startBook now) = some s') : s'.Inv capacity messages onMessage book := by
  simp only [step] at hs
  split at hs
  · rename_i envelope hpc
    cases hs
    exact h.moveConsumer (.timing envelope now) trivial (by rw [hpc]; rfl) (by rw [hpc]; rfl)
  · cases hs

theorem applyMessage (h : s.Inv capacity messages onMessage book)
    (hs : s.step onMessage .applyMessage = some s') : s'.Inv capacity messages onMessage book := by
  simp only [step] at hs
  split at hs
  · rename_i envelope bookStart hpc
    cases hs
    have hreceived := h.received
    have hconsumed := h.consumed
    rw [hpc] at hreceived hconsumed
    refine { h with
      received := hreceived.trans (List.append_nil _).symm
      consumed := ?_
      book := by rw [List.foldl_append, ← h.book]; rfl
      testHead := by simp
      testTail := by simp
      drained := by simp }
    rw [List.length_append, List.length_singleton, UInt64.ofNat_add, ← hconsumed]
    exact congrArg (· + 1) (add_zero s.consumed).symm
  · cases hs

theorem endBook (h : s.Inv capacity messages onMessage book) {now : UInt64}
    (hs : s.step onMessage (.endBook now) = some s') : s'.Inv capacity messages onMessage book := by
  simp only [step] at hs
  split at hs
  · rename_i envelope bookStart hpc
    cases hs
    have hmoved := h.moveConsumer (.timed envelope) trivial (by rw [hpc]; rfl) (by rw [hpc]; rfl)
    exact { hmoved with }
  · cases hs

theorem stampEnd (h : s.Inv capacity messages onMessage book) {now : UInt64}
    (hs : s.step onMessage (.stampEnd now) = some s') : s'.Inv capacity messages onMessage book := by
  simp only [step] at hs
  split at hs
  · rename_i envelope hpc
    cases hs
    have hmoved := h.moveConsumer .recorded trivial (by rw [hpc]; rfl) (by rw [hpc]; rfl)
    exact { hmoved with }
  · cases hs

theorem countConsumed (h : s.Inv capacity messages onMessage book)
    (hs : s.step onMessage .countConsumed = some s') : s'.Inv capacity messages onMessage book := by
  simp only [step] at hs
  split at hs
  · rename_i hpc
    cases hs
    have hreceived := h.received
    have hconsumed := h.consumed
    rw [hpc] at hreceived hconsumed
    exact { h with
      received := hreceived
      consumed := (add_zero _).trans hconsumed
      testHead := by simp
      testTail := by simp
      drained := by simp }
  · cases hs

theorem step (h : s.Inv capacity messages onMessage book) {e : PipelineEvent}
    (hs : s.step onMessage e = some s') : s'.Inv capacity messages onMessage book := by
  cases e with
  | stampMessage now => exact h.stampMessage hs
  | stampPush now => exact h.stampPush hs
  | inPush e => exact h.inPush hs
  | pushReturns => exact h.pushReturns hs
  | countProduced => exact h.countProduced hs
  | storeDone => exact h.storeDone hs
  | loadDone => exact h.loadDone hs
  | loadHead => exact h.loadHead hs
  | loadTail => exact h.loadTail hs
  | inPop e => exact h.inPop hs
  | popReturns => exact h.popReturns hs
  | stampPop now => exact h.stampPop hs
  | startBook now => exact h.startBook hs
  | applyMessage => exact h.applyMessage hs
  | endBook now => exact h.endBook hs
  | stampEnd now => exact h.stampEnd hs
  | countConsumed => exact h.countConsumed hs

end Inv

/-! ### The pipeline property -/

/-- Every message was applied once and in order, and the counters agree. -/
structure Lossless (messages : List MarketMessage) (onMessage : B → MarketMessage → B) (book : B)
    (s : Pipeline B) : Prop where
  applied : s.appliedMessages = messages
  consumed_eq : s.consumed = s.produced
  consumed : s.consumed = UInt64.ofNat messages.length
  book : s.book = messages.foldl onMessage book

theorem Inv.lossless (h : s.Inv capacity messages onMessage book) (hp : s.producer = .finished)
    (hc : s.consumer = .finished) : s.Lossless messages onMessage book := by
  obtain ⟨-, hall⟩ := h.drained hc
  have hpending : pending s.producer s.queue.push = [] := by rw [hp]; rfl
  have huncounted : uncounted s.producer s.queue.push = 0 := by rw [hp]; rfl
  have hunapplied : unapplied s.consumer s.queue.pop = [] := by rw [hc]; rfl
  have hunconsumed : unconsumed s.consumer = 0 := by rw [hc]; rfl
  have hsent := h.sent
  have hproduced := h.produced
  have hreceived := h.received
  have hconsumed := h.consumed
  rw [hpending, List.append_nil] at hsent
  rw [huncounted, add_zero] at hproduced
  rw [hunapplied, List.append_nil, hall, hsent] at hreceived
  rw [hunconsumed, add_zero, ← hreceived] at hconsumed
  refine ⟨hreceived.symm, ?_, hconsumed, by rw [h.book, hreceived]⟩
  rw [hconsumed, hproduced, ← hsent, List.length_map]

/-- **Nothing is lost at shutdown.** Whenever both threads have finished, the
consumer has applied exactly the producer's messages in order. -/
theorem lossless_of_run (hcap : capacity + 1 < sizeMod) {events : List PipelineEvent}
    (hrun : exec (step onMessage) (make capacity messages book) events = some s)
    (hp : s.producer = .finished) (hc : s.consumer = .finished) : s.Lossless messages onMessage book :=
  (exec_invariant (fun _ _ _ h hs => h.step hs) (inv_make hcap onMessage) hrun).lossless hp hc

/-- Two messages through a ring with one slot: the consumer finds it empty, the producer
finds it full and stamps the push again, and the second item is popped after the flag. -/
def twoMessageRun : List PipelineEvent :=
  [.loadDone, .inPop .popLoadTail, .inPop (.popLoadHead 0), .popReturns, .stampMessage 5, .stampPush 6,
    .inPush .pushLoadHead, .inPush (.pushLoadTail 0), .inPush .pushWrite, .loadDone, .inPush .pushStoreHead,
    .pushReturns, .countProduced, .stampMessage 7, .stampPush 8, .inPush .pushLoadHead, .inPush (.pushLoadTail 0),
    .pushReturns, .inPop .popLoadTail, .inPop (.popLoadHead 1), .inPop .popRead, .inPop .popStoreTail, .popReturns,
    .stampPush 9, .inPush .pushLoadHead, .inPush (.pushLoadTail 1), .inPush .pushWrite, .inPush .pushStoreHead,
    .pushReturns, .countProduced, .storeDone, .stampPop 10, .startBook 11, .applyMessage, .endBook 12, .stampEnd 13,
    .countConsumed, .loadDone, .loadHead, .loadTail, .inPop .popLoadTail, .inPop (.popLoadHead 2), .inPop .popRead,
    .inPop .popStoreTail, .popReturns, .stampPop 14, .startBook 15, .applyMessage, .endBook 16, .stampEnd 17,
    .countConsumed, .loadDone, .loadHead, .loadTail]

theorem lossless_twoMessageRun :
    ∃ s, exec (step OrderBook.onMessage) (make 1 addThenModify OrderBook.empty) twoMessageRun = some s ∧
      s.Lossless addThenModify OrderBook.onMessage OrderBook.empty := by
  have hends : (exec (step OrderBook.onMessage) (make 1 addThenModify OrderBook.empty) twoMessageRun).map
      (fun s => (s.producer, s.consumer)) = some (.finished, .finished) := by decide +kernel
  obtain ⟨s, hrun, hpcs⟩ := Option.map_eq_some_iff.mp hends
  obtain ⟨hp, hc⟩ := Prod.mk.inj hpcs
  exact ⟨s, hrun, lossless_of_run (by decide) hrun hp hc⟩

end Pipeline

end LatencyLab
