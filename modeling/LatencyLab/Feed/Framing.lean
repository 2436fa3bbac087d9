import LatencyLab.Feed.Tcp

/-! TCP framing delivers whole messages only. At every moment the bytes behind the
applied messages are those of the message being received, then those in the pipe,
then those the sender has not got rid of, and together they are the stream of the
messages handed to `send_all`. A full buffer is therefore the next record. -/

namespace LatencyLab

open Bytes Transition

namespace TcpFeed

variable {B : Type*}

/-- The bytes of the message being received that are in the buffer. -/
def inBuffer (message : List UInt8) : TcpConsumerPc → List UInt8
  | .receiving received => message.take received
  | _ => []

/-- `tail` is what the sender has still to hand over; unknown after an error. -/
def Unaccepted (sendFailed : Bool) (tail : List UInt8) : TcpProducerPc → Prop
  | .nextMessage _ => tail = []
  | .sending message sent _ => tail = message.image.drop sent
  | .finished => sendFailed = false → tail = []

/-- After `count` messages the producer has the rest before it. -/
def Unsent (sendFailed : Bool) (messages : List MarketMessage) (count : ℕ) : TcpProducerPc → Prop
  | .nextMessage rest | .sending _ _ rest => rest = messages.drop count
  | .finished => sendFailed = false → messages.length ≤ count

structure Inv (messages : List MarketMessage) (s : TcpFeed B) : Prop where
  sent_le : s.sentMessages.length ≤ messages.length
  unsent : Unsent s.sendFailed messages s.sentMessages.length s.producer
  applied : s.state.appliedMessages <+: s.sentMessages
  count : s.state.consumed.toNat = s.state.appliedMessages.length
  limit : s.state.appliedMessages.length ≤ s.numMessages.toNat
  buffer : s.state.message.length = MarketMessage.size
  bytes : s.consumer ≠ .finished → ∃ tail, Unaccepted s.sendFailed tail s.producer ∧
    stream MarketMessage.image s.state.appliedMessages ++ inBuffer s.state.message s.consumer ++ s.pipe ++
      tail = stream MarketMessage.image s.sentMessages
  receiving : ∀ received, s.consumer = .receiving received →
    received ≤ MarketMessage.size ∧ s.state.appliedMessages.length < s.numMessages.toNat
  shutDown : s.shutDown = true → s.producer = .finished
  ended : s.consumer = .finished → s.recvFailed = false →
    s.state.appliedMessages.length = s.numMessages.toNat ∨
      s.producer = .finished ∧ (s.sendFailed = false → s.state.appliedMessages = s.sentMessages)

variable {messages : List MarketMessage} {onMessage : B → MarketMessage → B} {s s' : TcpFeed B}

theorem inv_make (messages : List MarketMessage) (numMessages : UInt64) (book : B) :
    (make messages numMessages book).Inv messages where
  sent_le := Nat.zero_le _
  unsent := rfl
  applied := List.prefix_rfl
  count := rfl
  limit := Nat.zero_le _
  buffer := MarketMessage.length_image _
  bytes _ := ⟨[], rfl, rfl⟩
  receiving := by simp [make]
  shutDown := by simp [make]
  ended := by simp [make]

namespace Inv

/-! #### The producer -/

/-- A consumer that left without an error before the producer did has its count. -/
theorem counted_of_running (h : s.Inv messages) (hp : s.producer ≠ .finished)
    (hc : s.consumer = .finished) (hf : s.recvFailed = false) :
    s.state.appliedMessages.length = s.numMessages.toNat := by
  rcases h.ended hc hf with hnum | ⟨hfin, -⟩
  · exact hnum
  · exact absurd hfin hp

theorem startMessage (h : s.Inv messages) {now : UInt64}
    (hs : s.step onMessage (.startMessage now) = some s') : s'.Inv messages := by
  simp only [step] at hs
  split at hs
  · rename_i message rest hpc
    cases hs
    have hunsent : message :: rest = messages.drop s.sentMessages.length := by
      have hunsent := h.unsent
      rwa [hpc] at hunsent
    have hlen : (s.sentMessages ++ [message.stamp now]).length = s.sentMessages.length + 1 := by simp
    have hrunning : s.producer ≠ .finished := by simp [hpc]
    refine { h with
      sent_le := ?_
      unsent := ?_
      applied := h.applied.trans (List.prefix_append _ _)
      bytes := fun hc => ?_
      shutDown := fun hd => absurd (h.shutDown hd) hrunning
      ended := fun hc hf => .inl (h.counted_of_running hrunning hc hf) }
    · have hrest := congrArg List.length hunsent
      rw [List.length_cons, List.length_drop] at hrest
      rw [hlen]
      omega
    · show rest = messages.drop (s.sentMessages ++ [message.stamp now]).length
      rw [hlen, ← List.tail_drop, ← hunsent]
      rfl
    · obtain ⟨tail, htail, hbytes⟩ := h.bytes hc
      rw [hpc, Unaccepted] at htail
      rw [htail, List.append_nil] at hbytes
      refine ⟨(message.stamp now).image, rfl, ?_⟩
      rw [stream_snoc, ← hbytes]
  · cases hs

theorem sendAccepts (h : s.Inv messages) {n : ℕ}
    (hs : s.step onMessage (.sendAccepts n) = some s') : s'.Inv messages := by
  simp only [step] at hs
  split at hs
  · rename_i message sent rest hpc
    split_ifs at hs
    cases hs
    have hrunning : s.producer ≠ .finished := by simp [hpc]
    have hunsent := h.unsent
    rw [hpc] at hunsent
    refine { h with
      unsent := hunsent
      bytes := fun hc => ?_
      shutDown := fun hd => absurd (h.shutDown hd) hrunning
      ended := fun hc hf => .inl (h.counted_of_running hrunning hc hf) }
    obtain ⟨tail, htail, hbytes⟩ := h.bytes hc
    rw [hpc, Unaccepted] at htail
    refine ⟨message.image.drop (sent + n), rfl, ?_⟩
    rw [← hbytes, htail, ← List.take_append_drop n (message.image.drop sent), List.drop_drop]
    simp only [List.append_assoc]
    rfl
  · cases hs

theorem sendInterrupted (h : s.Inv messages) (hs : s.step onMessage .sendInterrupted = some s') :
    s'.Inv messages := by
  simp only [step] at hs
  split at hs
  · split_ifs at hs
    cases hs
    exact h
  · cases hs

theorem sendFails (h : s.Inv messages) (hs : s.step onMessage .sendFails = some s') : s'.Inv messages := by
  simp only [step] at hs
  split at hs
  · rename_i message sent rest hpc
    split_ifs at hs
    cases hs
    refine { h with
      unsent := fun hf => by simp at hf
      bytes := fun hc => ?_
      shutDown := fun _ => rfl
      ended := fun hc hf => .inl (h.counted_of_running (by simp [hpc]) hc hf) }
    obtain ⟨tail, -, hbytes⟩ := h.bytes hc
    exact ⟨tail, fun hf => by simp at hf, hbytes⟩
  · cases hs

theorem messageSent (h : s.Inv messages) (hs : s.step onMessage .messageSent = some s') :
    s'.Inv messages := by
  simp only [step] at hs
  split at hs
  · rename_i message sent rest hpc
    split_ifs at hs with hsent
    cases hs
    have hrunning : s.producer ≠ .finished := by simp [hpc]
    have hunsent := h.unsent
    rw [hpc] at hunsent
    refine { h with
      unsent := hunsent
      bytes := fun hc => ?_
      shutDown := fun hd => absurd (h.shutDown hd) hrunning
      ended := fun hc hf => .inl (h.counted_of_running hrunning hc hf) }
    obtain ⟨tail, htail, hbytes⟩ := h.bytes hc
    rw [hpc, Unaccepted, hsent, List.drop_of_length_le (by simp)] at htail
    exact ⟨tail, htail, hbytes⟩
  · cases hs

theorem shutdown (h : s.Inv messages) (hs : s.step onMessage .shutdown = some s') : s'.Inv messages := by
  simp only [step] at hs
  split at hs
  · rename_i hpc
    cases hs
    have hunsent := h.unsent
    rw [hpc] at hunsent
    refine { h with
      unsent := fun _ => List.drop_eq_nil_iff.mp hunsent.symm
      bytes := fun hc => ?_
      shutDown := fun _ => rfl
      ended := fun hc hf => .inl (h.counted_of_running (by simp [hpc]) hc hf) }
    obtain ⟨tail, htail, hbytes⟩ := h.bytes hc
    rw [hpc, Unaccepted] at htail
    exact ⟨tail, fun _ => htail, hbytes⟩
  · cases hs

/-! #### The consumer -/

theorem accept (h : s.Inv messages) {ok : Bool} (hs : s.step onMessage (.accept ok) = some s') :
    s'.Inv messages := by
  simp only [step] at hs
  split at hs
  · rename_i hpc
    split_ifs at hs
    · cases hs
      obtain ⟨tail, htail, hbytes⟩ := h.bytes (by simp [hpc])
      rw [hpc] at hbytes
      exact { h with
        bytes := fun _ => ⟨tail, htail, hbytes⟩
        receiving := by simp
        ended := by simp }
    · cases hs
      exact { h with
        bytes := fun hc => absurd rfl hc
        receiving := by simp
        ended := by simp }
  · cases hs

theorem testCount (h : s.Inv messages) (hs : s.step onMessage .testCount = some s') : s'.Inv messages := by
  simp only [step] at hs
  split at hs
  · rename_i hpc
    split_ifs at hs with hlt
    · cases hs
      obtain ⟨tail, htail, hbytes⟩ := h.bytes (by simp [hpc])
      rw [hpc] at hbytes
      refine { h with
        bytes := fun _ => ⟨tail, htail, hbytes⟩
        receiving := ?_
        ended := by simp }
      rintro received ⟨rfl⟩
      rw [UInt64.lt_iff_toNat_lt, h.count] at hlt
      exact ⟨Nat.zero_le _, hlt⟩
    · cases hs
      refine { h with
        bytes := fun hc => absurd rfl hc
        receiving := by simp
        ended := fun _ _ => .inl (h.limit.antisymm ?_) }
      rw [UInt64.lt_iff_toNat_lt, h.count] at hlt
      exact Nat.le_of_not_lt hlt
  · cases hs

theorem recvReturns (h : s.Inv messages) {n : ℕ} (hs : s.step onMessage (.recvReturns n) = some s') :
    s'.Inv messages := by
  simp only [step] at hs
  split at hs
  · rename_i received hpc
    split_ifs at hs with hn
    cases hs
    obtain ⟨-, hroom, havail⟩ := hn
    obtain ⟨hrec, hbelow⟩ := h.receiving received hpc
    have hbuffer := h.buffer
    have hchunk : (s.pipe.take n).length = n := by rw [List.length_take, Nat.min_eq_left havail]
    refine { h with
      buffer := ?_
      bytes := fun _ => ?_
      receiving := ?_
      ended := by simp }
    · rw [length_writeAt]
      · exact hbuffer
      · rw [hchunk, hbuffer]
        exact hroom
    · obtain ⟨tail, htail, hbytes⟩ := h.bytes (by simp [hpc])
      rw [hpc, inBuffer] at hbytes
      have hin := take_writeAt (s.pipe.take n) (show received ≤ s.state.message.length by omega)
      rw [hchunk] at hin
      refine ⟨tail, htail, ?_⟩
      show stream MarketMessage.image s.state.appliedMessages ++
        (writeAt s.state.message received (s.pipe.take n)).take (received + n) ++ s.pipe.drop n ++ tail = _
      rw [hin, ← hbytes, ← List.append_assoc, List.append_assoc _ (s.pipe.take n), List.take_append_drop]
    · rintro received' ⟨rfl⟩
      exact ⟨hroom, hbelow⟩
  · cases hs

theorem recvInterrupted (h : s.Inv messages) (hs : s.step onMessage .recvInterrupted = some s') :
    s'.Inv messages := by
  simp only [step] at hs
  split at hs
  · split_ifs at hs
    cases hs
    exact h
  · cases hs

/-- The end of the stream: nothing is left in the pipe and nothing to come. -/
theorem recvEnd (h : s.Inv messages) (hs : s.step onMessage .recvEnd = some s') : s'.Inv messages := by
  simp only [step] at hs
  split at hs
  · rename_i received hpc
    split_ifs at hs with hcond
    cases hs
    obtain ⟨hlt, hpipe, hdown⟩ := hcond
    have hfin := h.shutDown hdown
    refine { h with
      bytes := fun hc => absurd rfl hc
      receiving := by simp
      ended := fun _ _ => .inr ⟨hfin, fun hf => ?_⟩ }
    obtain ⟨tail, htail, hbytes⟩ := h.bytes (by simp [hpc])
    rw [hfin, Unaccepted] at htail
    rw [hpc, inBuffer, hpipe, htail hf, List.append_nil, List.append_nil] at hbytes
    have hlen := congrArg List.length hbytes
    have hbuffer := h.buffer
    rw [List.length_append, length_stream MarketMessage.length_image, length_stream MarketMessage.length_image,
      List.length_take, hbuffer, Nat.min_eq_left hlt.le] at hlen
    have hle := h.applied.length_le
    simp only [MarketMessage.size] at hlen hlt
    exact h.applied.eq_of_length (by omega)
  · cases hs

theorem recvFails (h : s.Inv messages) (hs : s.step onMessage .recvFails = some s') : s'.Inv messages := by
  simp only [step] at hs
  split at hs
  · split_ifs at hs
    cases hs
    exact { h with
      bytes := fun hc => absurd rfl hc
      receiving := by simp
      ended := by simp }
  · cases hs

/-- A full buffer is the next message that was sent. -/
theorem messageReceived (h : s.Inv messages) {clock : ConsumeClock}
    (hs : s.step onMessage (.messageReceived clock) = some s') : s'.Inv messages := by
  simp only [step] at hs
  split at hs
  · rename_i received hpc
    split_ifs at hs with hfull
    cases hs
    obtain ⟨-, hbelow⟩ := h.receiving received hpc
    obtain ⟨tail, htail, hbytes⟩ := h.bytes (by simp [hpc])
    rw [hpc, inBuffer, hfull, List.take_of_length_le h.buffer.le] at hbytes
    have hstream : stream MarketMessage.image s.state.appliedMessages ++ s.state.message ++ (s.pipe ++ tail) <+:
        stream MarketMessage.image s.sentMessages := by
      rw [← hbytes, List.append_assoc _ s.pipe]
    obtain ⟨m, hm, himage⟩ := next_record MarketMessage.length_image (by decide) h.applied h.buffer hstream
    have hmessage : MarketMessage.ofImage s.state.message = m := by
      rw [← himage, MarketMessage.ofImage_image]
    have hlen : (s.state.appliedMessages ++ [m]).length = s.state.appliedMessages.length + 1 := by simp
    have hcount := h.count
    have hmax := s.numMessages.toNat_lt
    have hstep : (s.state.consume onMessage clock).appliedMessages = s.state.appliedMessages ++ [m] := by
      rw [← hmessage]
      rfl
    refine { h with
      applied := ?_
      count := ?_
      limit := ?_
      bytes := fun _ => ⟨tail, htail, ?_⟩
      receiving := by simp
      ended := by simp }
    · rw [hstep]
      exact hm
    · rw [hstep, hlen]
      show (s.state.consumed + 1).toNat = _
      rw [UInt64.toNat_add, hcount, UInt64.toNat_one, Nat.mod_eq_of_lt (by omega)]
    · rw [hstep, hlen]
      exact hbelow
    · rw [hstep, stream_snoc, himage]
      show _ ++ _ ++ [] ++ s.pipe ++ tail = _
      rw [List.append_nil]
      exact hbytes
  · cases hs

theorem step (h : s.Inv messages) {e : TcpEvent} (hs : s.step onMessage e = some s') : s'.Inv messages := by
  cases e with
  | startMessage now => exact h.startMessage hs
  | sendAccepts n => exact h.sendAccepts hs
  | sendInterrupted => exact h.sendInterrupted hs
  | sendFails => exact h.sendFails hs
  | messageSent => exact h.messageSent hs
  | shutdown => exact h.shutdown hs
  | accept ok => exact h.accept hs
  | testCount => exact h.testCount hs
  | recvReturns n => exact h.recvReturns hs
  | recvInterrupted => exact h.recvInterrupted hs
  | recvEnd => exact h.recvEnd hs
  | recvFails => exact h.recvFails hs
  | messageReceived clock => exact h.messageReceived hs

end Inv

/-! ### Send timestamps -/

/-- The readings of the clock for the messages of a run. -/
def sendReadings (events : List TcpEvent) : List UInt64 := events.filterMap TcpEvent.reading?

/-- The messages handed to `send_all` have the readings of the run in them, one each. -/
structure Timed (messages : List MarketMessage) (events : List TcpEvent) (s : TcpFeed B) : Prop where
  sent : s.sentMessages = sentAt messages (sendReadings events)
  each : s.sentMessages.length = (sendReadings events).length

theorem timed_make (messages : List MarketMessage) (numMessages : UInt64) (book : B) :
    (make messages numMessages book).Timed messages [] where
  sent := by simp [make, sendReadings, sentAt]
  each := rfl

/-- One event hands a message to `send_all`. -/
theorem sentMessages_of_step {e : TcpEvent} (hs : s.step onMessage e = some s') :
    (∃ now message rest, e = .startMessage now ∧ s.producer = .nextMessage (message :: rest) ∧
      s'.sentMessages = s.sentMessages ++ [message.stamp now]) ∨
    (e.reading? = none ∧ s'.sentMessages = s.sentMessages) := by
  cases e with
  | startMessage now =>
    simp only [step] at hs
    split at hs
    · rename_i message rest hpc
      cases hs
      exact .inl ⟨now, message, rest, rfl, hpc, rfl⟩
    · cases hs
  | _ =>
    simp only [step] at hs
    split at hs
    · try split_ifs at hs
      all_goals
        cases hs
        exact .inr ⟨rfl, rfl⟩
    · cases hs

theorem Timed.step {events : List TcpEvent} (h : s.Timed messages events) (hinv : s.Inv messages) {e : TcpEvent}
    (hs : s.step onMessage e = some s') : s'.Timed messages (events ++ [e]) := by
  rcases sentMessages_of_step hs with ⟨now, message, rest, rfl, hpc, hsent⟩ | ⟨hnone, hsent⟩
  · have hreadings : sendReadings (events ++ [.startMessage now]) = sendReadings events ++ [now] :=
      filterMap_snoc _ _ _
    have hunsent := hinv.unsent
    rw [hpc, Unsent, h.each] at hunsent
    refine ⟨?_, ?_⟩
    · rw [hsent, hreadings, sentAt_snoc hunsent.symm, ← h.sent]
    · rw [hsent, hreadings, List.length_append, List.length_append, h.each]
      rfl
  · have hreadings : sendReadings (events ++ [e]) = sendReadings events := by
      rw [sendReadings, filterMap_snoc, hnone, Option.toList_none, List.append_nil, ← sendReadings]
    refine ⟨?_, ?_⟩
    · rw [hsent, hreadings, h.sent]
    · rw [hsent, hreadings, h.each]

/-! ### The framing property -/

/-- The messages as sent are the first messages of the list, each under the reading of the
clock that the run has for it, and the applied messages are a prefix of them; all of the
list if nothing fails and the consumer waits for as many messages as the list has, as the
benchmark does. -/
structure Delivered (messages : List MarketMessage) (numMessages : UInt64) (events : List TcpEvent)
    (s : TcpFeed B) : Prop extends Timed messages events s where
  applied : s.state.appliedMessages <+: s.sentMessages
  complete : messages.length ≤ numMessages.toNat → s.producer = .finished → s.consumer = .finished →
    s.sendFailed = false → s.recvFailed = false →
      s.state.appliedMessages = s.sentMessages ∧ s.sentMessages.length = messages.length

/-- Without an error the whole list has been applied in the end. -/
theorem Inv.complete (h : s.Inv messages) (hnum : messages.length ≤ s.numMessages.toNat)
    (hp : s.producer = .finished) (hc : s.consumer = .finished) (hsend : s.sendFailed = false)
    (hrecv : s.recvFailed = false) :
    s.state.appliedMessages = s.sentMessages ∧ s.sentMessages.length = messages.length := by
  have hunsent := h.unsent
  rw [hp, Unsent] at hunsent
  have hall := hunsent hsend
  have hsent := h.sent_le
  have hle := h.applied.length_le
  rcases h.ended hc hrecv with hcount | ⟨-, hdone⟩
  · exact ⟨h.applied.eq_of_length (by omega), by omega⟩
  · exact ⟨hdone hsend, by omega⟩

/-- The count the consumer waits for never changes. -/
theorem numMessages_of_step {e : TcpEvent} (hs : s.step onMessage e = some s') :
    s'.numMessages = s.numMessages := by
  cases e
  all_goals
    simp only [step] at hs
    split at hs
    · try split_ifs at hs
      all_goals
        cases hs
        rfl
    · cases hs

theorem timed_of_run {numMessages : UInt64} {book : B} {events : List TcpEvent}
    (hrun : exec (step onMessage) (make messages numMessages book) events = some s) :
    s.Inv messages ∧ s.Timed messages events ∧ s.numMessages = numMessages := by
  have hstep : ∀ es (s : TcpFeed B) e s', s.Inv messages ∧ s.Timed messages es ∧ s.numMessages = numMessages →
      step onMessage s e = some s' → s'.Inv messages ∧ s'.Timed messages (es ++ [e]) ∧ s'.numMessages = numMessages :=
    fun _ _ _ _ h hs => ⟨h.1.step hs, h.2.1.step h.1 hs, (numMessages_of_step hs).trans h.2.2⟩
  have hmake : (make messages numMessages book).Inv messages ∧ (make messages numMessages book).Timed messages [] ∧
      (make messages numMessages book).numMessages = numMessages :=
    ⟨inv_make messages numMessages book, timed_make messages numMessages book, rfl⟩
  exact exec_history hstep hmake hrun

/-- **TCP framing delivers whole messages only**, however the stream is cut and
wherever it breaks. -/
theorem delivered_of_run {numMessages : UInt64} {book : B} {events : List TcpEvent}
    (hrun : exec (step onMessage) (make messages numMessages book) events = some s) :
    s.Delivered messages numMessages events := by
  obtain ⟨hinv, htimed, rfl⟩ := timed_of_run hrun
  exact ⟨htimed, hinv.applied, hinv.complete⟩

/-- Two messages, the first in two chunks that are cut elsewhere on the way in, the second
in the same `recv` as the end of the first, with interruptions. -/
def choppedRun : List TcpEvent :=
  [.accept true, .testCount, .startMessage 5, .sendAccepts 40, .recvReturns 7, .sendInterrupted,
    .sendAccepts 24, .recvInterrupted, .messageSent, .startMessage 6, .sendAccepts 64, .recvReturns 50,
    .recvReturns 7, .messageReceived ⟨9, 9, 9⟩, .messageSent, .shutdown, .testCount, .recvReturns 64,
    .messageReceived ⟨10, 10, 10⟩, .testCount]

theorem delivered_choppedRun :
    ∃ s, exec (step fun (n : ℕ) _ => n + 1) (make addThenModify 2 0) choppedRun = some s ∧
      s.state.book = 2 ∧ s.Delivered addThenModify 2 choppedRun := by
  have hends : (exec (step fun (n : ℕ) _ => n + 1) (make addThenModify 2 0) choppedRun).map
      (fun s => s.state.book) = some 2 := by decide +kernel
  obtain ⟨s, hrun, hbook⟩ := Option.map_eq_some_iff.mp hends
  exact ⟨s, hrun, hbook, delivered_of_run hrun⟩

end TcpFeed

end LatencyLab
