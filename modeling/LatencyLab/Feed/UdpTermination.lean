import LatencyLab.Feed.Ledger
import LatencyLab.Transition.Progress

/-! The UDP feed under a fair scheduler. The producer never waits. Until it has set
`producer_done` the consumer may go round its loop without end, on one failed `recv` after
another; from then on every round takes a datagram out of the queue or is the last one. So
each thread has only to be scheduled again and again, and the network need do nothing. It
is the failed `recv` that this rests on: without a timeout one lost datagram is enough, and
the consumer waits for ever. -/

namespace LatencyLab

open Transition

/-- The two threads; what the network does is done by neither. -/
inductive UdpParty
  | producer
  | consumer
  deriving DecidableEq

/-- The thread that takes a step. -/
def UdpEvent.agent : UdpEvent → Option UdpParty
  | .sendto _ _ | .setDone => some .producer
  | .deliver _ | .drop _ => none
  | .testCount | .recv | .recvTimeout | .recvInterrupted | .testDone | .messageReceived _ => some .consumer

namespace UdpFeed

variable {B : Type*} {onMessage : B → MarketMessage → B} {s s' : UdpFeed B} {e : UdpEvent}

/-- The thread has not returned. -/
def Running (s : UdpFeed B) : UdpParty → Prop
  | .producer => s.producerDone = false
  | .consumer => s.consumer ≠ .finished

def Finished (s : UdpFeed B) : Prop := s.producerDone = true ∧ s.consumer = .finished

/-! ### What is left to do -/

/-- The steps to the end of the consumer's loop, if the next `recv` fails. -/
def stepsToLeave : UdpConsumerPc → ℕ
  | .finished => 0
  | .failed => 1
  | .receiving => 2
  | .testCount => 3
  | .received _ => 4

/-- Who has to go on. -/
def helper (s : UdpFeed B) : UdpParty := if s.producerDone then .consumer else .producer

/-- Every message still to be sent can become a datagram, and every datagram a round of
the loop. While the producer runs, where the consumer is in its round does not count. -/
def rank (s : UdpFeed B) : ℕ :=
  11 * s.unsent.length + 5 * (s.inFlight.length + s.receiveQueue.length) +
    if s.producerDone then stepsToLeave s.consumer else 5

theorem stepsToLeave_le (pc : UdpConsumerPc) : stepsToLeave pc ≤ 4 := by
  cases pc <;> simp [stepsToLeave]

theorem lowers_of_step (hs : s.step onMessage e = some s') :
    rank s' < rank s ∨
      ¬s.Finished ∧ rank s' = rank s ∧ helper s' = helper s ∧ e.agent ≠ some (helper s) := by
  have hconsumer : ∀ {pc : UdpConsumerPc} {f : UdpFeed B}, f.unsent = s.unsent → f.inFlight = s.inFlight →
      f.receiveQueue = s.receiveQueue → f.producerDone = s.producerDone → f.consumer = pc →
      (s.producerDone = true → stepsToLeave pc < stepsToLeave s.consumer) →
      rank f < rank s ∨
        ¬s.Finished ∧ rank f = rank s ∧ helper f = helper s ∧ some UdpParty.consumer ≠ some (helper s) := by
    intro pc f hunsent hflight hqueue hdone hpc hlt
    cases hproducer : s.producerDone with
    | true =>
      have hleave := hlt hproducer
      left
      simp only [rank, hunsent, hflight, hqueue, hdone, hproducer, hpc, if_true]
      omega
    | false =>
      right
      simp [rank, helper, Finished, hunsent, hflight, hqueue, hdone, hproducer]
  cases e with
  | sendto now ok =>
    left
    simp only [step] at hs
    split at hs
    · rename_i message rest hunsent
      split_ifs at hs
      all_goals
        cases hs
        simp only [rank, hunsent, List.length_cons, List.length_append, List.length_nil]
        omega
    · cases hs
  | setDone =>
    left
    have hdone : s.producerDone = false := by
      simp only [step] at hs
      split at hs
      · split_ifs at hs with hdone
        exact Bool.not_eq_true _ ▸ hdone
      · cases hs
    have hle := stepsToLeave_le s.consumer
    rw [of_setDone hs]
    simp only [rank, hdone, if_true, Bool.false_eq_true, if_false]
    omega
  | deliver i =>
    obtain ⟨datagram, hi, rfl⟩ := Option.map_eq_some_iff.mp hs
    have hlen := List.length_eraseIdx_of_lt (List.getElem?_eq_some_iff.mp hi).1
    have hlt := (List.getElem?_eq_some_iff.mp hi).1
    by_cases hleft : s.consumer = .finished
    · left
      simp only [rank, hleft, if_true, hlen]
      omega
    · right
      refine ⟨fun hd => hleft hd.2, ?_, rfl, by simp [UdpEvent.agent]⟩
      simp only [rank, hleft, if_false, hlen, List.length_append, List.length_singleton]
      omega
  | drop i =>
    left
    obtain ⟨datagram, hi, rfl⟩ := Option.map_eq_some_iff.mp hs
    have hlen := List.length_eraseIdx_of_lt (List.getElem?_eq_some_iff.mp hi).1
    have hlt := (List.getElem?_eq_some_iff.mp hi).1
    simp only [rank, hlen]
    omega
  | recv =>
    left
    obtain ⟨datagram, rest, hpc, hqueue, rfl⟩ := recv_eq hs
    simp only [rank, hpc, hqueue, List.length_cons, stepsToLeave]
    split_ifs <;> omega
  | testCount =>
    rcases of_testCount hs with ⟨hc, ⟨-, rfl⟩ | ⟨-, rfl⟩⟩
    · exact hconsumer rfl rfl rfl rfl rfl fun _ => by simp [hc, stepsToLeave]
    · exact hconsumer rfl rfl rfl rfl rfl fun _ => by simp [hc, stepsToLeave]
  | recvTimeout =>
    obtain ⟨hc, -, rfl⟩ := of_recvTimeout hs
    exact hconsumer rfl rfl rfl rfl rfl fun _ => by simp [hc, stepsToLeave]
  | recvInterrupted =>
    obtain ⟨hc, rfl⟩ := of_recvInterrupted hs
    exact hconsumer rfl rfl rfl rfl rfl fun _ => by simp [hc, stepsToLeave]
  | testDone =>
    obtain ⟨hc, rfl⟩ := of_testDone hs
    exact hconsumer rfl rfl rfl rfl rfl fun hdone => by simp [hc, hdone, stepsToLeave]
  | messageReceived clock =>
    obtain ⟨bytes, hc, rfl⟩ := messageReceived_eq hs
    exact hconsumer rfl rfl rfl rfl rfl fun _ => by simp [hc, stepsToLeave]

theorem helps (onMessage : B → MarketMessage → B) :
    Helps (step onMessage) (fun _ => True) UdpEvent.agent helper rank where
  keeps _ _ _ _ _ := trivial
  lowers _ _ _ _ hs := (lowers_of_step hs).imp_right And.right

/-! ### Nobody has to wait -/

theorem exists_producer (onMessage : B → MarketMessage → B) (h : s.Running .producer) :
    ∃ e : UdpEvent, e.agent = some .producer ∧ (s.step onMessage e).isSome := by
  have hdone : s.producerDone = false := h
  cases hunsent : s.unsent with
  | nil => exact ⟨.setDone, rfl, by simp [step, hunsent, hdone]⟩
  | cons message rest => exact ⟨.sendto 0 true, rfl, by simp [step, hunsent]⟩

theorem exists_consumer (onMessage : B → MarketMessage → B) (h : s.Running .consumer) :
    ∃ e : UdpEvent, e.agent = some .consumer ∧ (s.step onMessage e).isSome := by
  cases hpc : s.consumer with
  | testCount =>
    refine ⟨.testCount, rfl, ?_⟩
    simp only [step, hpc]
    split_ifs <;> rfl
  | receiving =>
    cases hqueue : s.receiveQueue with
    | nil => exact ⟨.recvTimeout, rfl, by simp [step, hpc, hqueue]⟩
    | cons datagram rest => exact ⟨.recv, rfl, by simp [step, hpc, hqueue]⟩
  | failed => exact ⟨.testDone, rfl, by simp [step, hpc]⟩
  | received bytes =>
    refine ⟨.messageReceived ⟨0, 0, 0⟩, rfl, ?_⟩
    simp only [step, hpc]
    split_ifs <;> rfl
  | finished => exact absurd hpc h

theorem exists_step (onMessage : B → MarketMessage → B) {p : UdpParty} (h : s.Running p) :
    ∃ e : UdpEvent, e.agent = some p ∧ (s.step onMessage e).isSome := by
  cases p with
  | producer => exact exists_producer onMessage h
  | consumer => exact exists_consumer onMessage h

theorem running_helper (h : ¬s.Finished) : s.Running s.helper := by
  unfold helper
  cases hdone : s.producerDone with
  | true => exact fun hc => h ⟨hdone, hc⟩
  | false => exact hdone

/-! ### Runs -/

/-- **The UDP feed ends under every fair scheduler**, whatever the network does: a run that
goes on forever starves a thread that has not returned, although no such thread ever has
to wait for a step; and every run goes on to an end. -/
theorem ends_if_fair (onMessage : B → MarketMessage → B) :
    (∀ run : Forever (step onMessage), ∃ p N, ∀ n, N ≤ n → (run.state n).Running p ∧ (run.event n).agent ≠ some p) ∧
      ∀ s : UdpFeed B, (∀ p, s.Running p → ∃ e : UdpEvent, e.agent = some p ∧ (s.step onMessage e).isSome) ∧
        ∃ events s', exec (step onMessage) s events = some s' ∧ s'.Finished := by
  constructor
  · intro run
    obtain ⟨p, N, hN⟩ := (helps onMessage).starves run trivial
    refine ⟨p, N, fun n hn => ?_⟩
    obtain ⟨hhelper, hagent, hrank⟩ := hN n hn
    have hd : ¬(run.state n).Finished := by
      rcases lowers_of_step (run.next n) with hlt | ⟨hd, -⟩
      · exact absurd hrank hlt.ne
      · exact hd
    exact ⟨hhelper ▸ running_helper hd, hagent⟩
  · intro s
    have hnext : ∀ s : UdpFeed B, True → ¬s.Finished →
        ∃ e : UdpEvent, e.agent = some s.helper ∧ (s.step onMessage e).isSome :=
      fun s _ hd => exists_step onMessage (running_helper hd)
    obtain ⟨events, s', hrun, -, hdone, -⟩ := (helps onMessage).exists_exec hnext (s := s) trivial
    exact ⟨fun p hp => exists_step onMessage hp, events, s', hrun, hdone⟩

/-! ### Without a timeout -/

end UdpFeed

/-- A message that will not come into the queue. -/
def UdpEvent.loses : UdpEvent → Bool
  | .sendto _ ok => !ok
  | .drop _ => true
  | _ => false

/-- Without a timeout, and without signals, no `recv` fails. -/
def UdpEvent.patient (e : UdpEvent) : Bool := !e.recvFails

namespace UdpLedger

variable {B : Type*} {onMessage : B → MarketMessage → B} {messages : List MarketMessage} {numMessages : UInt64}
variable {book : B} {l l' : UdpLedger B} {es : List UdpEvent} {e : UdpEvent}

/-- The losses among the events so far, against the books. -/
structure Tally (messages : List MarketMessage) (numMessages : UInt64) (es : List UdpEvent) (l : UdpLedger B) :
    Prop where
  losses : l.accepted.length + l.feed.unsent.length + es.countP UdpEvent.loses ≤ messages.length + l.lost.length
  exact : l.feed.consumer ≠ .finished →
    l.accepted.length + l.feed.unsent.length + es.countP UdpEvent.loses = messages.length + l.lost.length
  patient : (∀ e ∈ es, e.patient = true) →
    l.feed.consumer ≠ .failed ∧ (l.feed.consumer = .finished → ¬l.feed.state.consumed < numMessages)
  numMessages : l.feed.numMessages = numMessages

theorem tally_make (messages : List MarketMessage) (numMessages : UInt64) (book : B) :
    (make messages numMessages book).Tally messages numMessages [] where
  losses := by simp [make, UdpFeed.make]
  exact _ := by simp [make, UdpFeed.make]
  patient _ := by simp [make, UdpFeed.make]
  numMessages := rfl

/-- A step that loses nothing and that leaves the socket as it is. -/
theorem Tally.quiet (h : l.Tally messages numMessages es) {feed : UdpFeed B} (hloses : e.loses = false)
    (hunsent : feed.unsent = l.feed.unsent) (hnum : feed.numMessages = l.feed.numMessages)
    (hopen : feed.consumer ≠ .finished → l.feed.consumer ≠ .finished)
    (hpatient : e.patient = true → l.feed.consumer ≠ .failed →
      (l.feed.consumer = .finished → ¬l.feed.state.consumed < numMessages) →
      feed.consumer ≠ .failed ∧ (feed.consumer = .finished → ¬feed.state.consumed < numMessages)) :
    { l with feed }.Tally messages numMessages (es ++ [e]) := by
  have hcount : (es ++ [e]).countP UdpEvent.loses = es.countP UdpEvent.loses := by
    simp [List.countP_append, hloses]
  refine ⟨?_, fun hfinished => ?_, fun hall => ?_, hnum.trans h.numMessages⟩
  · rw [hcount, hunsent]
    exact h.losses
  · rw [hcount, hunsent]
    exact h.exact (hopen hfinished)
  · rw [List.forall_mem_append, List.forall_mem_singleton] at hall
    obtain ⟨hfailed, hfull⟩ := h.patient hall.1
    exact hpatient hall.2 hfailed hfull

/-- A step of the producer or the network. -/
theorem Tally.moves (h : l.Tally messages numMessages es)
    (hsum : l'.accepted.length + l'.feed.unsent.length + [e].countP UdpEvent.loses + l.lost.length =
      l.accepted.length + l.feed.unsent.length + l'.lost.length)
    (hconsumer : l'.feed.consumer = l.feed.consumer) (hstate : l'.feed.state = l.feed.state)
    (hnum : l'.feed.numMessages = l.feed.numMessages) : l'.Tally messages numMessages (es ++ [e]) := by
  have hlosses := h.losses
  refine ⟨?_, fun hc => ?_, fun hall => ?_, hnum.trans h.numMessages⟩
  · rw [List.countP_append]
    omega
  · have hexact := h.exact (hconsumer ▸ hc)
    rw [List.countP_append]
    omega
  · rw [hconsumer, hstate]
    exact h.patient fun e he => hall e (List.mem_append_left _ he)

theorem Tally.step (h : l.Tally messages numMessages es) (hs : l.step onMessage e = some l') :
    l'.Tally messages numMessages (es ++ [e]) := by
  obtain ⟨feed, hf, rfl⟩ := Option.map_eq_some_iff.mp hs
  cases e with
  | sendto now ok =>
    simp only [UdpFeed.step] at hf
    split at hf
    · rename_i message rest hunsent
      cases ok with
      | true =>
        cases hf
        refine h.moves ?_ rfl rfl rfl
        simp only [hunsent, List.head?_cons, Option.toList_some, List.length_append, List.length_cons,
          List.length_nil, List.countP_singleton, UdpEvent.loses, Bool.not_true, Bool.false_eq_true, if_false]
        omega
      | false =>
        cases hf
        refine h.moves ?_ rfl rfl rfl
        simp only [hunsent, List.length_cons, List.countP_singleton, UdpEvent.loses, Bool.not_false, if_true]
        omega
    · cases hf
  | setDone =>
    rw [UdpFeed.of_setDone hf]
    exact h.moves rfl rfl rfl rfl
  | deliver i =>
    obtain ⟨datagram, hi, rfl⟩ := Option.map_eq_some_iff.mp hf
    have hlosses := h.losses
    refine ⟨?_, fun hc => ?_, fun hall => h.patient fun e he => hall e (List.mem_append_left _ he), h.numMessages⟩
    · simp only [List.countP_append, List.countP_singleton, UdpEvent.loses, Bool.false_eq_true, if_false]
      split_ifs
      · rw [List.length_append]
        omega
      · exact hlosses
    · have hopen : l.feed.consumer ≠ .finished := hc
      simp only [if_neg hopen, List.countP_append, List.countP_singleton, UdpEvent.loses, Bool.false_eq_true,
        if_false]
      exact h.exact hopen
  | drop i =>
    obtain ⟨datagram, hi, rfl⟩ := Option.map_eq_some_iff.mp hf
    refine h.moves ?_ rfl rfl rfl
    simp only [hi, Option.toList_some, List.map_singleton, List.length_append, List.length_singleton,
      List.countP_singleton, UdpEvent.loses, if_true]
    omega
  | testCount =>
    rcases UdpFeed.of_testCount hf with ⟨hc, ⟨-, rfl⟩ | ⟨hfull, rfl⟩⟩
    · exact h.quiet rfl rfl rfl (by simp [hc]) (by simp)
    · rw [h.numMessages] at hfull
      exact h.quiet rfl rfl rfl (by simp [hc]) fun _ _ _ => ⟨by simp, fun _ => hfull⟩
  | recv =>
    obtain ⟨datagram, rest, hc, -, rfl⟩ := UdpFeed.recv_eq hf
    exact h.quiet rfl rfl rfl (by simp [hc]) (by simp)
  | recvTimeout =>
    obtain ⟨hc, -, rfl⟩ := UdpFeed.of_recvTimeout hf
    exact h.quiet rfl rfl rfl (by simp [hc]) fun hpatient => by cases hpatient
  | recvInterrupted =>
    obtain ⟨hc, rfl⟩ := UdpFeed.of_recvInterrupted hf
    exact h.quiet rfl rfl rfl (by simp [hc]) fun hpatient => by cases hpatient
  | testDone =>
    obtain ⟨hc, rfl⟩ := UdpFeed.of_testDone hf
    exact h.quiet rfl rfl rfl (by simp [hc]) fun _ hfailed => absurd hc hfailed
  | messageReceived clock =>
    obtain ⟨bytes, hc, rfl⟩ := UdpFeed.messageReceived_eq hf
    exact h.quiet rfl rfl rfl (by simp [hc]) (by simp)

theorem tally_of_run {es : List UdpEvent}
    (hrun : exec (step onMessage) (make messages numMessages book) es = some l) :
    l.Tally messages numMessages es := by
  have hstep : ∀ es (l : UdpLedger B) e l', l.Tally messages numMessages es → l.step onMessage e = some l' →
      l'.Tally messages numMessages (es ++ [e]) := fun _ _ _ _ h hs => h.step hs
  exact exec_history hstep (tally_make messages numMessages book) hrun

end UdpLedger

namespace UdpFeed

variable {B : Type*} {onMessage : B → MarketMessage → B} {s s' : UdpFeed B}

/-- What is left to do where nothing is lost. -/
def todo (s : UdpFeed B) : ℕ :=
  12 * s.unsent.length + 7 * s.inFlight.length + 6 * s.receiveQueue.length + stepsToLeave s.consumer +
    if s.producerDone then 0 else 1

/-- Unless the consumer waits at the end of everything, some step gets on without a loss. -/
theorem exists_forward (onMessage : B → MarketMessage → B) (hd : ¬s.Finished) (hfailed : s.consumer ≠ .failed)
    (hwaits : s.consumer = .receiving → s.unsent = [] → s.inFlight = [] → s.receiveQueue ≠ []) :
    ∃ (e : UdpEvent) (s' : UdpFeed B), (e.patient = true ∧ e.loses = false) ∧ s.step onMessage e = some s' ∧
      s'.todo < s.todo := by
  cases hunsent : s.unsent with
  | cons message rest =>
    refine ⟨.sendto 0 true, { s with
      unsent := rest
      inFlight := s.inFlight ++ [(message.stamp 0).image]
      produced := s.produced + 1 }, ⟨rfl, rfl⟩, by simp [step, hunsent], ?_⟩
    simp only [todo, hunsent, List.length_append, List.length_cons, List.length_nil]
    omega
  | nil =>
    cases hdone : s.producerDone with
    | false =>
      refine ⟨.setDone, { s with producerDone := true }, ⟨rfl, rfl⟩, by simp [step, hunsent, hdone], ?_⟩
      simp only [todo, hunsent, hdone, if_true, Bool.false_eq_true, if_false]
      omega
    | true =>
      cases hpc : s.consumer with
      | finished => exact absurd ⟨hdone, hpc⟩ hd
      | failed => exact absurd hpc hfailed
      | testCount =>
        have hstep : s.step onMessage .testCount =
            some { s with consumer := if s.state.consumed < s.numMessages then .receiving else .finished } := by
          simp only [step, hpc]
          split_ifs <;> rfl
        have hle : stepsToLeave (if s.state.consumed < s.numMessages then .receiving else .finished) ≤ 2 := by
          split_ifs <;> simp [stepsToLeave]
        have hthree : stepsToLeave .testCount = 3 := rfl
        refine ⟨.testCount, _, ⟨rfl, rfl⟩, hstep, ?_⟩
        simp only [todo, hpc]
        omega
      | received bytes =>
        have hstep : s.step onMessage (.messageReceived ⟨0, 0, 0⟩) = some { s with
            consumer := .testCount
            state := if bytes = MarketMessage.size then s.state.consume onMessage ⟨0, 0, 0⟩ else s.state } := by
          simp only [step, hpc]
          split_ifs <;> rfl
        refine ⟨.messageReceived ⟨0, 0, 0⟩, _, ⟨rfl, rfl⟩, hstep, ?_⟩
        simp only [todo, hpc, stepsToLeave]
        omega
      | receiving =>
        cases hqueue : s.receiveQueue with
        | cons datagram rest =>
          obtain ⟨s', hs⟩ : ∃ s', s.step onMessage .recv = some s' := by
            simp only [step, hpc, hqueue]
            exact ⟨_, rfl⟩
          refine ⟨.recv, s', ⟨rfl, rfl⟩, hs, ?_⟩
          obtain ⟨_, rest', -, hqueue', rfl⟩ := recv_eq hs
          simp only [todo, hpc, hqueue', List.length_cons, stepsToLeave]
          omega
        | nil =>
          cases hflight : s.inFlight with
          | nil => exact absurd hqueue (hwaits hpc hunsent hflight)
          | cons datagram rest =>
            have hstep : s.step onMessage (.deliver 0) =
                some { s with inFlight := rest, receiveQueue := [datagram] } := by
              simp [step, hflight, hqueue, hpc]
            refine ⟨.deliver 0, _, ⟨rfl, rfl⟩, hstep, ?_⟩
            simp only [todo, hqueue, hflight, List.length_cons, List.length_nil]
            omega

variable {messages : List MarketMessage} {numMessages : UInt64} {book : B} {es : List UdpEvent}

/-- Where nothing was lost, a consumer that is waiting has something to wait for. -/
theorem forward_of_run (hnum : messages.length = numMessages.toNat)
    (hes : ∀ e ∈ es, e.patient = true ∧ e.loses = false)
    (hrun : exec (step onMessage) (make messages numMessages book) es = some s) :
    s.consumer ≠ .failed ∧
      (s.consumer = .receiving → s.unsent = [] → s.inFlight = [] → s.receiveQueue ≠ []) := by
  obtain ⟨l, hl, rfl, hbalanced, -⟩ := UdpLedger.exists_balanced hrun
  have htally := UdpLedger.tally_of_run hl
  refine ⟨(htally.patient fun e he => (hes e he).1).1, fun hpc hunsent hflight hqueue => ?_⟩
  have hexact := htally.exact (by simp [hpc])
  have hnone : es.countP UdpEvent.loses = 0 := List.countP_eq_zero.mpr fun e he => by simp [(hes e he).2]
  have hhand : l.feed.hand = [] := hand_eq_nil (by simp [hpc])
  have hsplit := hbalanced.length_sent
  have hlt := (counted_of_run hrun).below (.inl hpc)
  rw [← hbalanced.each, underway, hhand, hqueue, hflight] at hsplit
  rw [htally.numMessages, ← hnum, hbalanced.consumed, UInt64.toNat_ofNat'] at hlt
  have hsmall := numMessages.toNat_lt
  simp only [hunsent, List.map_nil, List.nil_append, List.length_nil] at hexact hsplit
  rw [Nat.mod_eq_of_lt (by omega)] at hlt
  omega

/-- **Without a timeout one loss is the end of it**: a run in which no `recv` has failed can
go on, with none failing, to an end exactly if every `sendto` has taken its message and the
network has dropped none. -/
theorem ends_without_timeout_iff (hnum : messages.length = numMessages.toNat)
    (hpatient : ∀ e ∈ es, e.patient = true)
    (hrun : exec (step onMessage) (make messages numMessages book) es = some s) :
    (∃ es' s', (∀ e ∈ es', e.patient = true) ∧ exec (step onMessage) s es' = some s' ∧ s'.Finished) ↔
      ∀ e ∈ es, e.loses = false := by
  constructor
  · rintro ⟨es', s', hpatient', hrun', hdone⟩
    have hwhole : exec (step onMessage) (make messages numMessages book) (es ++ es') = some s' := by
      rw [exec_append, hrun]
      exact hrun'
    obtain ⟨l, hl, rfl, hbalanced, -⟩ := UdpLedger.exists_balanced hwhole
    have htally := UdpLedger.tally_of_run hl
    have hfull := (htally.patient (List.forall_mem_append.mpr ⟨hpatient, hpatient'⟩)).2 hdone.2
    rw [UInt64.lt_iff_toNat_lt, ← hnum, Nat.not_lt] at hfull
    obtain ⟨haccepted, hrest⟩ := hbalanced.full hfull
    have hlosses := htally.losses
    rw [haccepted, (List.append_eq_nil_iff.mp hrest).2, List.length_nil] at hlosses
    have hnone : (es ++ es').countP UdpEvent.loses = 0 := by omega
    intro e he
    exact Bool.not_eq_true _ ▸ List.countP_eq_zero.mp hnone e (List.mem_append_left _ he)
  · intro hnone
    have hnext : ∀ s : UdpFeed B,
        (∃ es, (∀ e ∈ es, e.patient = true ∧ e.loses = false) ∧
          exec (step onMessage) (make messages numMessages book) es = some s) → ¬s.Finished →
        ∃ (e : UdpEvent) (s' : UdpFeed B), (e.patient = true ∧ e.loses = false) ∧ s.step onMessage e = some s' ∧
          (∃ es, (∀ e ∈ es, e.patient = true ∧ e.loses = false) ∧
            exec (step onMessage) (make messages numMessages book) es = some s') ∧ s'.todo < s.todo := by
      rintro s ⟨es, hes, hrun⟩ hd
      obtain ⟨hfailed, hwaits⟩ := forward_of_run hnum hes hrun
      obtain ⟨e, s', hgood, hstep, hlt⟩ := exists_forward onMessage hd hfailed hwaits
      refine ⟨e, s', hgood, hstep, ⟨es ++ [e], ?_, exec_concat hrun hstep⟩, hlt⟩
      exact List.forall_mem_append.mpr ⟨hes, List.forall_mem_singleton.mpr hgood⟩
    obtain ⟨es', s', hrun', -, hdone, hgood⟩ :=
      exists_exec_of_lt todo hnext ⟨es, fun e he => ⟨hpatient e he, hnone e he⟩, hrun⟩
    exact ⟨es', s', fun e he => (hgood e he).1, hrun', hdone⟩

/-- One of two datagrams is dropped. -/
def droppedRun : List UdpEvent :=
  [.sendto 5 true, .sendto 6 true, .setDone, .drop 0, .testCount, .deliver 0, .recv, .messageReceived ⟨7, 8, 9⟩]

theorem ends_without_timeout_iff_droppedRun :
    ∃ s, exec (step fun (n : ℕ) _ => n + 1) (make [MarketMessage.zero, MarketMessage.zero] 2 0) droppedRun = some s ∧
      ¬∃ es' s', (∀ e ∈ es', e.patient = true) ∧ exec (step fun n _ => n + 1) s es' = some s' ∧ s'.Finished := by
  have hruns : (exec (step fun (n : ℕ) _ => n + 1) (make [MarketMessage.zero, MarketMessage.zero] 2 0)
      droppedRun).isSome := by decide
  obtain ⟨s, hrun⟩ := Option.isSome_iff_exists.mp hruns
  refine ⟨s, hrun, fun hends => ?_⟩
  have hnone := (ends_without_timeout_iff rfl (by decide) hrun).mp hends (.drop 0) (by decide)
  cases hnone

end UdpFeed

end LatencyLab
