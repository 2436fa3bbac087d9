import LatencyLab.Feed.Abandoned
import LatencyLab.Book.Liquidity

/-! The UDP consumer when the socket takes datagrams from anyone, of any length and
content. The loop means to use a datagram that is a whole message and to skip every
other one. `recv` into a buffer of the size of a message reports no more than that
size, so the test tells a shorter datagram from a message, but not a longer one. -/

namespace LatencyLab

open Bytes Transition

/-! ### Consumed datagrams -/

namespace FeedConsumer

variable {B : Type*} {onMessage : B → MarketMessage → B} {book : B} {f : FeedConsumer B}
variable {rounds : List (List UInt8 × ConsumeClock)}

/-- The consumer's books are those of one round for each of the given datagrams,
with the clock reads of its round. -/
structure Reflects (onMessage : B → MarketMessage → B) (book : B)
    (rounds : List (List UInt8 × ConsumeClock)) (f : FeedConsumer B) : Prop where
  applied : f.appliedMessages = rounds.map fun x => MarketMessage.ofImage x.1
  book : f.book = f.appliedMessages.foldl onMessage book
  consumed : f.consumed = UInt64.ofNat rounds.length
  networkToBook : f.networkToBookLatency =
    rounds.map fun x => x.2.beforeBookNs - (MarketMessage.ofImage x.1).exchangeTimestampNs
  bookProcessing : f.bookProcessingLatency = rounds.map fun x => x.2.bookEnd - x.2.bookStart

theorem reflects_make (onMessage : B → MarketMessage → B) (book : B) :
    (make book).Reflects onMessage book [] where
  applied := rfl
  book := rfl
  consumed := rfl
  networkToBook := rfl
  bookProcessing := rfl

theorem Reflects.consume (h : f.Reflects onMessage book rounds) (clock : ConsumeClock) :
    (f.consume onMessage clock).Reflects onMessage book (rounds ++ [(f.message, clock)]) where
  applied := by
    rw [List.map_append, ← h.applied]
    rfl
  book := by
    simp only [FeedConsumer.consume]
    rw [List.foldl_append, ← h.book]
    rfl
  consumed := by
    rw [List.length_append, List.length_singleton, UInt64.ofNat_add, ← h.consumed]
    rfl
  networkToBook := by
    rw [List.map_append, ← h.networkToBook]
    rfl
  bookProcessing := by
    rw [List.map_append, ← h.bookProcessing]
    rfl

/-- What is in the message buffer does not count. -/
theorem Reflects.setMessage (h : f.Reflects onMessage book rounds) (bytes : List UInt8) :
    { f with message := bytes }.Reflects onMessage book rounds :=
  ⟨h.applied, h.book, h.consumed, h.networkToBook, h.bookProcessing⟩

end FeedConsumer

/-! ### One round of the loop -/

namespace UdpFeed

variable {B : Type*} {onMessage : B → MarketMessage → B} {s s' : UdpFeed B}

theorem recv_eq (hs : s.step onMessage .recv = some s') :
    ∃ datagram rest, s.consumer = .receiving ∧ s.receiveQueue = datagram :: rest ∧
      s' = { s with
        consumer := .received (datagram.take MarketMessage.size).length
        receiveQueue := rest
        state := { s.state with message := writeAt s.state.message 0 (datagram.take MarketMessage.size) } } := by
  simp only [step] at hs
  split at hs
  · rename_i datagram rest hpc hqueue
    exact ⟨datagram, rest, hpc, hqueue, (Option.some.inj hs).symm⟩
  · cases hs

theorem messageReceived_eq {clock : ConsumeClock} (hs : s.step onMessage (.messageReceived clock) = some s') :
    ∃ bytes, s.consumer = .received bytes ∧
      s' = { s with
        consumer := .testCount
        state := if bytes = MarketMessage.size then s.state.consume onMessage clock else s.state } := by
  simp only [step] at hs
  split at hs
  · rename_i bytes hpc
    refine ⟨bytes, hpc, ?_⟩
    split_ifs at hs ⊢ <;> exact (Option.some.inj hs).symm
  · cases hs

end UdpFeed

/-! ### The open socket -/

/-- The feed with the history of its socket: the datagrams that came into the receive
queue, those the loop is done with, and the one that `recv` has just taken. -/
structure OpenUdpFeed (B : Type*) where
  feed : UdpFeed B
  arrived : List (List UInt8)
  handled : List (List UInt8 × ConsumeClock)
  inHand : Option (List UInt8)
  deriving DecidableEq

/-- A step of the feed, or a datagram from somebody else. -/
inductive OpenUdpEvent
  | own (e : UdpEvent)
  | arrive (datagram : List UInt8)
  deriving DecidableEq

namespace OpenUdpFeed

variable {B : Type*}

def make (messages : List MarketMessage) (numMessages : UInt64) (book : B) : OpenUdpFeed B where
  feed := UdpFeed.make messages numMessages book
  arrived := []
  handled := []
  inHand := none

/-- What has come in, unless the socket is closed. -/
def arrivals (s : OpenUdpFeed B) (datagrams : List (List UInt8)) : List (List UInt8) :=
  if s.feed.consumer = .finished then s.arrived else s.arrived ++ datagrams

def step (onMessage : B → MarketMessage → B) (s : OpenUdpFeed B) : OpenUdpEvent → Option (OpenUdpFeed B)
  | .arrive datagram =>
    some { s with
      feed := { s.feed with
        receiveQueue :=
          if s.feed.consumer = .finished then s.feed.receiveQueue else s.feed.receiveQueue ++ [datagram] }
      arrived := s.arrivals [datagram] }
  | .own e =>
    (s.feed.step onMessage e).map fun feed =>
      match e with
      | .deliver i => { s with feed, arrived := s.arrivals s.feed.inFlight[i]?.toList }
      | .recv => { s with feed, inHand := s.feed.receiveQueue.head? }
      | .messageReceived clock =>
        { s with feed, handled := s.handled ++ s.inHand.toList.map (·, clock), inHand := none }
      | _ => { s with feed }

/-- `s` is the state after some events. -/
abbrev After (onMessage : B → MarketMessage → B) (messages : List MarketMessage) (numMessages : UInt64)
    (book : B) (events : List OpenUdpEvent) (s : OpenUdpFeed B) : Prop :=
  exec (step onMessage) (make messages numMessages book) events = some s

/-- A datagram that is a whole message. -/
def wellSized (datagram : List UInt8) : Bool := datagram.length = MarketMessage.size

/-- The messages applied are the datagrams of the size of a message, each once and in
the order of arrival, and the book, the count and the recorders know of no others. -/
structure AppliesWellSized (onMessage : B → MarketMessage → B) (book : B) (s : OpenUdpFeed B) : Prop where
  inOrder : s.arrived = s.handled.map Prod.fst ++ s.inHand.toList ++ s.feed.receiveQueue
  reflects : s.feed.state.Reflects onMessage book (s.handled.filter fun x => wellSized x.1)

variable {onMessage : B → MarketMessage → B} {messages : List MarketMessage} {numMessages : UInt64} {book : B}
variable {s s' : OpenUdpFeed B}

/-! ### The invariant -/

/-- What `recv` makes of a datagram. -/
def truncate (x : List UInt8 × ConsumeClock) : List UInt8 × ConsumeClock := (x.1.take MarketMessage.size, x.2)

/-- Not shorter than a message. -/
def fills (datagram : List UInt8) : Bool := MarketMessage.size ≤ datagram.length

/-- The rounds that the size test lets through, longer datagrams cut to a message. -/
def letThrough (handled : List (List UInt8 × ConsumeClock)) : List (List UInt8 × ConsumeClock) :=
  (handled.filter fun x => fills x.1).map truncate

structure Inv (onMessage : B → MarketMessage → B) (book : B) (s : OpenUdpFeed B) : Prop where
  inOrder : s.arrived = s.handled.map Prod.fst ++ s.inHand.toList ++ s.feed.receiveQueue
  buffer : s.feed.state.message.length = MarketMessage.size
  empty : (∀ bytes, s.feed.consumer ≠ .received bytes) → s.inHand = none
  holding : ∀ bytes, s.feed.consumer = .received bytes → ∃ datagram, s.inHand = some datagram ∧
    bytes = min MarketMessage.size datagram.length ∧
    s.feed.state.message.take bytes = datagram.take MarketMessage.size
  reflects : s.feed.state.Reflects onMessage book (letThrough s.handled)

theorem inv_make (onMessage : B → MarketMessage → B) (messages : List MarketMessage) (numMessages : UInt64)
    (book : B) : (make messages numMessages book).Inv onMessage book where
  inOrder := rfl
  buffer := MarketMessage.length_image _
  empty _ := rfl
  holding bytes hc := by cases hc
  reflects := FeedConsumer.reflects_make onMessage book

namespace Inv

/-- Steps that have nothing to do with `recv`. -/
theorem quiet (h : s.Inv onMessage book) {feed : UdpFeed B} (hqueue : feed.receiveQueue = s.feed.receiveQueue)
    (hstate : feed.state = s.feed.state)
    (hc : feed.consumer = s.feed.consumer ∨
      (∀ bytes, s.feed.consumer ≠ .received bytes) ∧ ∀ bytes, feed.consumer ≠ .received bytes) :
    { s with feed }.Inv onMessage book where
  inOrder := by rw [hqueue]; exact h.inOrder
  buffer := by rw [hstate]; exact h.buffer
  empty hne := by
    rcases hc with hsame | ⟨hwas, -⟩
    · exact h.empty (by rw [← hsame]; exact hne)
    · exact h.empty hwas
  holding bytes hb := by
    rcases hc with hsame | ⟨-, his⟩
    · rw [hstate]
      exact h.holding bytes (hsame ▸ hb)
    · exact absurd hb (his bytes)
  reflects := by rw [hstate]; exact h.reflects

/-- A datagram comes into the queue, or into a closed socket. -/
theorem incoming (h : s.Inv onMessage book) {feed : UdpFeed B} (datagram : List UInt8)
    (hqueue : feed.receiveQueue =
      if s.feed.consumer = .finished then s.feed.receiveQueue else s.feed.receiveQueue ++ [datagram])
    (hstate : feed.state = s.feed.state) (hc : feed.consumer = s.feed.consumer) :
    { s with feed, arrived := s.arrivals [datagram] }.Inv onMessage book where
  inOrder := by
    rw [hqueue, arrivals, h.inOrder]
    split_ifs
    · rfl
    · simp only [List.append_assoc]
  buffer := by rw [hstate]; exact h.buffer
  empty hne := h.empty (by rw [← hc]; exact hne)
  holding bytes hb := by
    rw [hstate]
    exact h.holding bytes (hc ▸ hb)
  reflects := by rw [hstate]; exact h.reflects

theorem recv (h : s.Inv onMessage book) {feed : UdpFeed B} (hs : s.feed.step onMessage .recv = some feed) :
    { s with feed, inHand := s.feed.receiveQueue.head? }.Inv onMessage book := by
  obtain ⟨datagram, rest, hpc, hqueue, rfl⟩ := UdpFeed.recv_eq hs
  have hhand : s.inHand = none := h.empty (by simp [hpc])
  have hle : (datagram.take MarketMessage.size).length ≤ s.feed.state.message.length := by
    rw [h.buffer, List.length_take]
    exact Nat.min_le_left _ _
  rw [hqueue]
  refine ⟨?_, ?_, fun hne => absurd rfl (hne _), ?_, h.reflects.setMessage _⟩
  · rw [h.inOrder, hhand, hqueue]
    simp
  · exact (length_writeAt (by omega)).trans h.buffer
  · rintro bytes hb
    cases hb
    refine ⟨datagram, rfl, List.length_take, ?_⟩
    have hwritten := take_writeAt (datagram.take MarketMessage.size) (Nat.zero_le s.feed.state.message.length)
    rwa [Nat.zero_add, List.take_zero, List.nil_append] at hwritten

/-- The size test passes exactly for a datagram that is not shorter than a message,
and then the buffer holds what `recv` made of it. -/
theorem messageReceived (h : s.Inv onMessage book) {feed : UdpFeed B} {clock : ConsumeClock}
    (hs : s.feed.step onMessage (.messageReceived clock) = some feed) :
    { s with feed, handled := s.handled ++ s.inHand.toList.map (·, clock), inHand := none }.Inv
      onMessage book := by
  obtain ⟨bytes, hpc, rfl⟩ := UdpFeed.messageReceived_eq hs
  obtain ⟨datagram, hhand, hbytes, hbuffer⟩ := h.holding bytes hpc
  rw [hhand, Option.toList_some, List.map_singleton]
  have htest : bytes = MarketMessage.size ↔ fills datagram = true := by
    rw [fills, decide_eq_true_iff, hbytes]
    omega
  refine ⟨?_, ?_, fun _ => rfl, (fun bytes hb => by cases hb), ?_⟩
  · rw [h.inOrder, hhand]
    simp
  · by_cases hfull : bytes = MarketMessage.size
    · simp only [if_pos hfull]
      exact h.buffer
    · simpa only [if_neg hfull] using h.buffer
  · rw [letThrough, List.filter_append, List.map_append, ← letThrough]
    by_cases hfull : bytes = MarketMessage.size
    · have hmessage : s.feed.state.message = datagram.take MarketMessage.size := by
        rw [← hbuffer, hfull, ← h.buffer, List.take_length]
      have hreflects := h.reflects.consume clock
      rw [hmessage] at hreflects
      simpa [hfull, htest.mp hfull, truncate] using hreflects
    · have hshort := mt htest.mpr hfull
      simpa [hfull, hshort] using h.reflects

theorem step (h : s.Inv onMessage book) {e : OpenUdpEvent} (hs : s.step onMessage e = some s') :
    s'.Inv onMessage book := by
  cases e with
  | arrive datagram =>
    cases hs
    exact h.incoming datagram rfl rfl rfl
  | own e =>
    obtain ⟨feed, hfeed, rfl⟩ := Option.map_eq_some_iff.mp hs
    cases e with
    | sendto now ok =>
      obtain ⟨hc, hqueue, hstate, -⟩ := UdpFeed.of_sendto hfeed
      exact h.quiet hqueue hstate (.inl hc)
    | setDone =>
      rw [UdpFeed.of_setDone hfeed]
      exact h.quiet rfl rfl (.inl rfl)
    | deliver i =>
      obtain ⟨datagram, hi, rfl⟩ := Option.map_eq_some_iff.mp hfeed
      simp only [hi, Option.toList_some]
      exact h.incoming datagram rfl rfl rfl
    | drop i =>
      rw [UdpFeed.of_drop hfeed]
      exact h.quiet rfl rfl (.inl rfl)
    | testCount =>
      rcases UdpFeed.of_testCount hfeed with ⟨hc, ⟨-, rfl⟩ | ⟨-, rfl⟩⟩
      · exact h.quiet rfl rfl (.inr ⟨by simp [hc], by simp⟩)
      · exact h.quiet rfl rfl (.inr ⟨by simp [hc], by simp⟩)
    | recv => exact h.recv hfeed
    | recvTimeout =>
      obtain ⟨hc, -, rfl⟩ := UdpFeed.of_recvTimeout hfeed
      exact h.quiet rfl rfl (.inr ⟨by simp [hc], by simp⟩)
    | recvInterrupted =>
      obtain ⟨hc, rfl⟩ := UdpFeed.of_recvInterrupted hfeed
      exact h.quiet rfl rfl (.inr ⟨by simp [hc], by simp⟩)
    | testDone =>
      obtain ⟨hc, rfl⟩ := UdpFeed.of_testDone hfeed
      refine h.quiet rfl rfl (.inr ⟨by simp [hc], fun bytes => ?_⟩)
      cases s.feed.producerDone <;> simp
    | messageReceived clock => exact h.messageReceived hfeed

end Inv

/-! ### Exactly the well-sized datagrams -/

theorem inv_of_run {events : List OpenUdpEvent} (h : After onMessage messages numMessages book events s) :
    s.Inv onMessage book :=
  exec_invariant (fun _ _ _ hi hs => hi.step hs) (inv_make onMessage messages numMessages book) h

/-- No datagram the loop is done with was longer than a message. -/
def NoneLonger (s : OpenUdpFeed B) : Prop := ∀ x ∈ s.handled, x.1.length ≤ MarketMessage.size

theorem fills_iff_wellSized {datagram : List UInt8} (h : datagram.length ≤ MarketMessage.size) :
    fills datagram = wellSized datagram := by
  rw [fills, wellSized, decide_eq_decide]
  omega

/-- Where nothing is cut, what the test lets through is what is well-sized. -/
theorem letThrough_eq {handled : List (List UInt8 × ConsumeClock)}
    (h : ∀ x ∈ handled, x.1.length ≤ MarketMessage.size) :
    letThrough handled = handled.filter fun x => wellSized x.1 := by
  have hfilter : (handled.filter fun x => fills x.1) = handled.filter fun x => wellSized x.1 :=
    List.filter_congr fun x hx => fills_iff_wellSized (h x hx)
  rw [letThrough, hfilter]
  refine (List.map_congr_left fun x hx => ?_).trans (List.map_id _)
  have hle := h x (List.mem_of_mem_filter hx)
  rw [truncate, List.take_of_length_le hle]
  rfl

/-- The count alone gives a longer datagram away. -/
theorem length_letThrough {handled : List (List UInt8 × ConsumeClock)}
    (h : (letThrough handled).length = (handled.filter fun x => wellSized x.1).length) :
    ∀ x ∈ handled, x.1.length ≤ MarketMessage.size := by
  intro x hx
  by_contra hlong
  have hboth : (handled.filter fun x => wellSized x.1) =
      (handled.filter fun x => fills x.1).filter fun x => wellSized x.1 := by
    rw [List.filter_filter]
    refine List.filter_congr fun x _ => ?_
    rw [Bool.eq_iff_iff, Bool.and_eq_true, wellSized, fills, decide_eq_true_iff, decide_eq_true_iff]
    omega
  rw [letThrough, List.length_map, hboth, eq_comm, List.length_filter_eq_length_iff] at h
  have hfills : fills x.1 = true := by
    rw [fills, decide_eq_true_iff]
    omega
  have hwell := h x (List.mem_filter.mpr ⟨hx, hfills⟩)
  rw [wellSized, decide_eq_true_iff] at hwell
  omega

theorem Inv.appliesWellSized_iff (h : s.Inv onMessage book) :
    s.AppliesWellSized onMessage book ↔ s.NoneLonger := by
  constructor
  · intro happ
    refine length_letThrough ?_
    have hcount := congrArg List.length h.reflects.applied
    rwa [happ.reflects.applied, List.length_map, List.length_map, eq_comm] at hcount
  · intro hnone
    have hreflects := h.reflects
    rw [letThrough_eq hnone] at hreflects
    exact ⟨h.inOrder, hreflects⟩

/-- The datagram of the round that ends is not longer than a message. -/
def Fits (s : OpenUdpFeed B) (e : OpenUdpEvent) : Prop :=
  ∀ clock, e = .own (.messageReceived clock) → ∀ datagram, s.inHand = some datagram →
    datagram.length ≤ MarketMessage.size

theorem noneLonger_step_iff (h : s.NoneLonger) {e : OpenUdpEvent} (hs : s.step onMessage e = some s') :
    s'.NoneLonger ↔ s.Fits e := by
  by_cases hround : ∃ clock, e = .own (.messageReceived clock)
  · obtain ⟨clock, rfl⟩ := hround
    obtain ⟨feed, hfeed, rfl⟩ := Option.map_eq_some_iff.mp hs
    cases hhand : s.inHand with
    | none => exact iff_of_true (by simpa [NoneLonger] using h) (by simp [Fits, hhand])
    | some datagram =>
      simp only [NoneLonger, Fits, hhand, Option.toList_some, List.map_singleton, List.forall_mem_append,
        List.forall_mem_singleton]
      constructor
      · rintro ⟨-, hfit⟩ _ _ d hd
        cases hd
        exact hfit
      · intro hfit
        exact ⟨h, hfit clock rfl datagram rfl⟩
  · have hsame : s'.handled = s.handled := by
      cases e with
      | arrive datagram => cases hs; rfl
      | own e =>
        obtain ⟨feed, hfeed, rfl⟩ := Option.map_eq_some_iff.mp hs
        cases e with
        | messageReceived clock => exact absurd ⟨clock, rfl⟩ hround
        | _ => rfl
    refine iff_of_true ?_ fun clock he => absurd ⟨clock, he⟩ hround
    rw [NoneLonger, hsame]
    exact h

/-- **Datagrams, exactly.** In every state a run passes through, the consumer has
applied the well-sized datagrams and no others, if and only if no round of the loop
ends with a datagram that is longer than a message. -/
theorem appliesWellSized_along_iff (onMessage : B → MarketMessage → B) (messages : List MarketMessage)
    (numMessages : UInt64) (book : B) (events : List OpenUdpEvent) :
    (∀ pre, pre <+: events → ∀ s, After onMessage messages numMessages book pre s →
        s.AppliesWellSized onMessage book) ↔
      ∀ pre e, pre ++ [e] <+: events → ∀ s, After onMessage messages numMessages book pre s → s.Fits e := by
  refine along_iff ?_ ?_
  · intro s h
    cases h
    exact (inv_make onMessage messages numMessages book).appliesWellSized_iff.mpr (by simp [NoneLonger, make])
  · intro pre e _ hp
    constructor
    · rintro hnext s hs clock rfl datagram hhand
      have hnone := (inv_of_run hs).appliesWellSized_iff.mp (hp s hs)
      have hreceived : ∃ bytes, s.feed.consumer = .received bytes := by
        by_contra hno
        rw [(inv_of_run hs).empty (not_exists.mp hno)] at hhand
        cases hhand
      obtain ⟨bytes, hpc⟩ := hreceived
      obtain ⟨s', hstep⟩ : ∃ s', s.step onMessage (.own (.messageReceived clock)) = some s' := by
        simp only [step, UdpFeed.step, hpc]
        split_ifs
        · exact ⟨_, rfl⟩
        · exact ⟨_, rfl⟩
      have hafter : After onMessage messages numMessages book (pre ++ [.own (.messageReceived clock)]) s' :=
        exec_concat hs hstep
      have hnone' := (inv_of_run hafter).appliesWellSized_iff.mp (hnext s' hafter)
      exact (noneLonger_step_iff hnone hstep).mp hnone' clock rfl datagram hhand
    · intro hfits s' hs'
      obtain ⟨s, hs, hstep⟩ := exists_last_step hs'
      have hnone := (inv_of_run hs).appliesWellSized_iff.mp (hp s hs)
      exact (inv_of_run hs').appliesWellSized_iff.mpr ((noneLonger_step_iff hnone hstep).mpr (hfits s hs))

/-- A message with one more byte behind it. -/
def longDatagram : List UInt8 := (orderMessage .add 1 .buy 100 10).image ++ [0]

def longRun : List OpenUdpEvent :=
  [.arrive longDatagram, .own .testCount, .own .recv, .own (.messageReceived ⟨5, 6, 7⟩)]

/-- The datagram of 65 bytes is applied like a message. -/
theorem longRun_counterexample :
    ∃ s, After OrderBook.onMessage [] 1 OrderBook.empty longRun s ∧ s.handled.map Prod.fst = [longDatagram] ∧
      longDatagram.length = 65 ∧ s.feed.state.consumed = 1 ∧
      s.feed.state.appliedMessages = [orderMessage .add 1 .buy 100 10] ∧
      ¬ s.AppliesWellSized OrderBook.onMessage OrderBook.empty := by
  have hends : (exec (step OrderBook.onMessage) (make [] 1 OrderBook.empty) longRun).map
      (fun s => (s.handled.map Prod.fst, s.feed.state.consumed, s.feed.state.appliedMessages)) =
        some ([longDatagram], 1, [orderMessage .add 1 .buy 100 10]) := by decide
  obtain ⟨s, hrun, hview⟩ := Option.map_eq_some_iff.mp hends
  simp only [Prod.mk.injEq] at hview
  obtain ⟨hhandled, hcount, happlied⟩ := hview
  refine ⟨s, hrun, hhandled, by decide, hcount, happlied, fun happ => ?_⟩
  have hmem : longDatagram ∈ s.handled.map Prod.fst := hhandled ▸ List.mem_cons_self
  obtain ⟨x, hx, hlong⟩ := List.mem_map.mp hmem
  have hle := (inv_of_run hrun).appliesWellSized_iff.mp happ x hx
  rw [hlong] at hle
  exact absurd hle (by decide)

end OpenUdpFeed

end LatencyLab
