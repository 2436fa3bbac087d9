import LatencyLab.Feed.Datagrams
import LatencyLab.Book.Streams
import LatencyLab.Feed.Framing
import Mathlib.Data.List.Perm.Basic

/-! Where the datagrams of the UDP feed go. Each message handed to `sendto` with success
is at any moment applied, in the consumer's hands, unread in the receive queue, in
flight, or lost, once and in one of these places only; lost are the datagrams that the
network drops and those that come to a closed socket. The line "Dropped/Unreceived" of
the report counts what is in none of the consumer's books. -/

namespace LatencyLab

open Bytes Transition

namespace MarketMessage

/-- The bytes are a message. -/
def Whole (datagram : List UInt8) : Prop := (ofImage datagram).image = datagram

theorem whole_image (m : MarketMessage) : Whole m.image := by rw [Whole, ofImage_image]

theorem Whole.length {datagram : List UInt8} (h : Whole datagram) : datagram.length = size := by
  rw [← h, length_image]

end MarketMessage

/-- Taking one out of a list. -/
theorem map_eraseIdx_perm {α β : Type*} {l : List α} {i : ℕ} {a : α} (h : l[i]? = some a) (f : α → β) :
    (l.map f).Perm (f a :: (l.eraseIdx i).map f) := by
  obtain ⟨hi, rfl⟩ := List.getElem?_eq_some_iff.mp h
  exact ((List.getElem_cons_eraseIdx_perm hi).map f).symm

namespace UdpFeed

variable {B : Type*}

/-- The message the consumer has received and not yet applied. -/
def hand (s : UdpFeed B) : List MarketMessage :=
  match s.consumer with
  | .received _ => [MarketMessage.ofImage s.state.message]
  | _ => []

/-- The messages on their way to the book. -/
def underway (s : UdpFeed B) : List MarketMessage :=
  s.hand ++ s.receiveQueue.map MarketMessage.ofImage ++ s.inFlight.map MarketMessage.ofImage

theorem hand_eq_nil {s : UdpFeed B} (h : ∀ bytes, s.consumer ≠ .received bytes) : s.hand = [] := by
  unfold hand
  split
  · rename_i bytes hc
    exact absurd hc (h bytes)
  · rfl

end UdpFeed

/-- The feed with its books: of the generated messages those that were sent, the same as
they were sent, and those that were lost. -/
structure UdpLedger (B : Type*) where
  feed : UdpFeed B
  accepted : List MarketMessage
  sent : List MarketMessage
  lost : List MarketMessage

namespace UdpLedger

variable {B : Type*}

def make (messages : List MarketMessage) (numMessages : UInt64) (book : B) : UdpLedger B where
  feed := UdpFeed.make messages numMessages book
  accepted := []
  sent := []
  lost := []

/-- A step of the feed, and what it means for the books. -/
def step (onMessage : B → MarketMessage → B) (l : UdpLedger B) (e : UdpEvent) : Option (UdpLedger B) :=
  (l.feed.step onMessage e).map fun feed =>
    match e with
    | .sendto now true =>
      { l with
        feed
        accepted := l.accepted ++ l.feed.unsent.head?.toList
        sent := l.sent ++ l.feed.unsent.head?.toList.map fun m => m.stamp now }
    | .deliver i =>
      { l with
        feed
        lost := if l.feed.consumer = .finished then l.lost ++ l.feed.inFlight[i]?.toList.map MarketMessage.ofImage
          else l.lost }
    | .drop i => { l with feed, lost := l.lost ++ l.feed.inFlight[i]?.toList.map MarketMessage.ofImage }
    | _ => { l with feed }

variable {onMessage : B → MarketMessage → B} {messages : List MarketMessage} {numMessages : UInt64} {book : B}
variable {l l' : UdpLedger B} {e : UdpEvent}

/-- The books follow the feed. -/
theorem feed_of_step (hs : l.step onMessage e = some l') : l.feed.step onMessage e = some l'.feed := by
  obtain ⟨feed, hf, rfl⟩ := Option.map_eq_some_iff.mp hs
  rw [hf]
  split <;> rfl

/-- Every run of the feed has its books. -/
theorem exists_ledger {s : UdpFeed B} {events : List UdpEvent}
    (hrun : exec (UdpFeed.step onMessage) l.feed events = some s) :
    ∃ l', exec (step onMessage) l events = some l' ∧ l'.feed = s := by
  refine exec_lift (fun l e feed hf => ?_) hrun
  obtain ⟨l', hl'⟩ : ∃ l', l.step onMessage e = some l' := by
    rw [step, hf]
    exact ⟨_, rfl⟩
  exact ⟨l', hl', Option.some.inj ((feed_of_step hl').symm.trans hf)⟩

/-! ### The books balance -/

/-- The messages that `sendto` took are in the order of the list, those sent are as many,
and each of these is in one place. -/
structure Balanced (messages : List MarketMessage) (onMessage : B → MarketMessage → B) (book : B)
    (l : UdpLedger B) : Prop where
  order : ∃ tried, tried ++ l.feed.unsent = messages ∧ l.accepted.Sublist tried
  each : l.accepted.length = l.sent.length
  accounts : l.sent.Perm (l.feed.state.appliedMessages ++ l.feed.underway ++ l.lost)
  produced : l.feed.produced = UInt64.ofNat l.sent.length
  consumed : l.feed.state.consumed = UInt64.ofNat l.feed.state.appliedMessages.length
  book : l.feed.state.book = l.feed.state.appliedMessages.foldl onMessage book

/-- With what the bytes on the way are. -/
structure Inv (messages : List MarketMessage) (onMessage : B → MarketMessage → B) (book : B)
    (l : UdpLedger B) : Prop extends Balanced messages onMessage book l where
  buffer : l.feed.state.message.length = MarketMessage.size
  queue : ∀ datagram ∈ l.feed.receiveQueue, MarketMessage.Whole datagram
  flight : ∀ datagram ∈ l.feed.inFlight, MarketMessage.Whole datagram
  received : ∀ bytes, l.feed.consumer = .received bytes → bytes = MarketMessage.size

theorem inv_make (messages : List MarketMessage) (numMessages : UInt64) (onMessage : B → MarketMessage → B)
    (book : B) : (make messages numMessages book).Inv messages onMessage book where
  order := ⟨[], rfl, .slnil⟩
  each := rfl
  accounts := .nil
  produced := rfl
  consumed := rfl
  book := rfl
  buffer := MarketMessage.length_image _
  queue := by simp [make, UdpFeed.make]
  flight := by simp [make, UdpFeed.make]
  received _ hc := by cases hc

namespace Inv

/-- A step that moves no datagram. -/
theorem quiet (h : l.Inv messages onMessage book) {feed : UdpFeed B} (hunsent : feed.unsent = l.feed.unsent)
    (hproduced : feed.produced = l.feed.produced) (hflight : feed.inFlight = l.feed.inFlight)
    (hqueue : feed.receiveQueue = l.feed.receiveQueue) (hstate : feed.state = l.feed.state)
    (hbusy : ∀ bytes, l.feed.consumer ≠ .received bytes) (hbusy' : ∀ bytes, feed.consumer ≠ .received bytes) :
    { l with feed }.Inv messages onMessage book := by
  refine ⟨⟨?_, h.each, ?_, ?_, ?_, ?_⟩, ?_, ?_, ?_, fun bytes hc => absurd hc (hbusy' bytes)⟩
  · rw [hunsent]
    exact h.order
  · have haccounts := h.accounts
    simp only [UdpFeed.underway, UdpFeed.hand_eq_nil hbusy, UdpFeed.hand_eq_nil hbusy', hqueue, hflight,
      hstate] at haccounts ⊢
    exact haccounts
  · rw [hproduced]
    exact h.produced
  · rw [hstate]
    exact h.consumed
  · rw [hstate]
    exact h.book
  · rw [hstate]
    exact h.buffer
  · rw [hqueue]
    exact h.queue
  · rw [hflight]
    exact h.flight

/-- A datagram is sent. -/
theorem send (h : l.Inv messages onMessage book) {now : UInt64} {message : MarketMessage} {rest : List MarketMessage}
    (hunsent : l.feed.unsent = message :: rest) {feed : UdpFeed B}
    (hf : feed = { l.feed with
      unsent := rest
      inFlight := l.feed.inFlight ++ [(message.stamp now).image]
      produced := l.feed.produced + 1 }) :
    { l with feed, accepted := l.accepted ++ [message], sent := l.sent ++ [message.stamp now] }.Inv
      messages onMessage book := by
  obtain ⟨tried, htried, hsub⟩ := h.order
  subst hf
  refine ⟨⟨⟨tried ++ [message], ?_, hsub.append (List.Sublist.refl _)⟩, ?_, ?_, ?_, h.consumed, h.book⟩,
    h.buffer, h.queue, ?_, h.received⟩
  · rw [List.append_assoc, List.singleton_append, ← hunsent]
    exact htried
  · rw [List.length_append, List.length_append, h.each]
    rfl
  · have haccounts := h.accounts
    rw [List.perm_iff_count] at haccounts ⊢
    intro m
    have hm := haccounts m
    simp only [UdpFeed.underway, UdpFeed.hand, List.map_append, List.map_singleton, MarketMessage.ofImage_image,
      List.count_append] at hm ⊢
    omega
  · rw [List.length_append, List.length_singleton, UInt64.ofNat_add, ← h.produced]
    rfl
  · intro datagram hmem
    rcases List.mem_append.mp hmem with hold | hnew
    · exact h.flight datagram hold
    · rw [List.mem_singleton.mp hnew]
      exact MarketMessage.whole_image _

/-- A message that `sendto` does not take. -/
theorem skip (h : l.Inv messages onMessage book) {message : MarketMessage} {rest : List MarketMessage}
    (hunsent : l.feed.unsent = message :: rest) :
    { l with feed := { l.feed with unsent := rest } }.Inv messages onMessage book := by
  obtain ⟨tried, htried, hsub⟩ := h.order
  refine ⟨⟨⟨tried ++ [message], ?_, hsub.trans (List.sublist_append_left _ _)⟩, h.each, h.accounts, h.produced,
    h.consumed, h.book⟩, h.buffer, h.queue, h.flight, h.received⟩
  rw [List.append_assoc, List.singleton_append, ← hunsent]
  exact htried

/-- A datagram leaves the network, into the queue or nowhere. -/
theorem leave (h : l.Inv messages onMessage book) {i : ℕ} {datagram : List UInt8}
    (hi : l.feed.inFlight[i]? = some datagram) {unread gone : List (List UInt8)}
    (hwhere : unread = [datagram] ∧ gone = [] ∨ unread = [] ∧ gone = [datagram]) :
    { l with
      feed := { l.feed with
        inFlight := l.feed.inFlight.eraseIdx i
        receiveQueue := l.feed.receiveQueue ++ unread }
      lost := l.lost ++ gone.map MarketMessage.ofImage }.Inv messages onMessage book := by
  refine ⟨⟨h.order, h.each, ?_, h.produced, h.consumed, h.book⟩, h.buffer, ?_, ?_, h.received⟩
  · have haccounts := h.accounts
    have herase := map_eraseIdx_perm hi MarketMessage.ofImage
    rw [List.perm_iff_count] at haccounts herase ⊢
    intro m
    have hm := haccounts m
    have hone := herase m
    rw [List.count_cons] at hone
    simp only [UdpFeed.underway, UdpFeed.hand, List.map_append, List.count_append] at hm ⊢
    rcases hwhere with ⟨rfl, rfl⟩ | ⟨rfl, rfl⟩
    · simp only [List.map_nil, List.map_singleton, List.count_nil, List.count_singleton]
      omega
    · simp only [List.map_nil, List.map_singleton, List.count_nil, List.count_singleton]
      omega
  · intro x hx
    rcases List.mem_append.mp hx with hold | hnew
    · exact h.queue x hold
    · have hmem := List.mem_of_getElem? hi
      rcases hwhere with ⟨rfl, -⟩ | ⟨rfl, -⟩
      · rw [List.mem_singleton.mp hnew]
        exact h.flight datagram hmem
      · exact absurd hnew List.not_mem_nil
  · intro x hx
    exact h.flight x (List.mem_of_mem_eraseIdx hx)

/-- The head of the queue comes into the buffer. -/
theorem recv (h : l.Inv messages onMessage book) {feed : UdpFeed B} (hs : l.feed.step onMessage .recv = some feed) :
    { l with feed }.Inv messages onMessage book := by
  obtain ⟨datagram, rest, hpc, hqueue, rfl⟩ := UdpFeed.recv_eq hs
  have hwhole := h.queue datagram (hqueue ▸ List.mem_cons_self)
  have htake : datagram.take MarketMessage.size = datagram := by
    rw [← hwhole.length, List.take_length]
  have hbuffer : writeAt l.feed.state.message 0 datagram = datagram :=
    writeAt_whole (hwhole.length.trans h.buffer.symm)
  rw [htake, hbuffer]
  refine ⟨⟨h.order, h.each, ?_, h.produced, h.consumed, h.book⟩, hwhole.length, ?_, h.flight, ?_⟩
  · have haccounts := h.accounts
    have hempty : l.feed.hand = [] := UdpFeed.hand_eq_nil (by simp [hpc])
    rw [UdpFeed.underway, hempty, hqueue, List.map_cons] at haccounts
    exact haccounts
  · exact fun x hx => h.queue x (hqueue ▸ List.mem_cons_of_mem datagram hx)
  · rintro bytes hb
    cases hb
    exact hwhole.length

/-- The message in the buffer is applied. -/
theorem messageReceived (h : l.Inv messages onMessage book) {feed : UdpFeed B} {clock : ConsumeClock}
    (hs : l.feed.step onMessage (.messageReceived clock) = some feed) :
    { l with feed }.Inv messages onMessage book := by
  obtain ⟨bytes, hpc, rfl⟩ := UdpFeed.messageReceived_eq hs
  rw [if_pos (h.received bytes hpc)]
  refine ⟨⟨h.order, h.each, ?_, h.produced, ?_, ?_⟩, h.buffer, h.queue, h.flight, fun bytes hb => by cases hb⟩
  · have haccounts := h.accounts
    have hhand : l.feed.hand = [MarketMessage.ofImage l.feed.state.message] := by
      rw [UdpFeed.hand, hpc]
    rw [List.perm_iff_count] at haccounts ⊢
    intro m
    have hm := haccounts m
    rw [UdpFeed.underway, hhand] at hm
    simp only [UdpFeed.underway, UdpFeed.hand, FeedConsumer.consume, List.count_append, List.count_nil] at hm ⊢
    omega
  · rw [FeedConsumer.consume, List.length_append, List.length_singleton, UInt64.ofNat_add, ← h.consumed]
    rfl
  · rw [FeedConsumer.consume, List.foldl_append, ← h.book]
    rfl

theorem step (h : l.Inv messages onMessage book) (hs : l.step onMessage e = some l') :
    l'.Inv messages onMessage book := by
  obtain ⟨feed, hf, rfl⟩ := Option.map_eq_some_iff.mp hs
  cases e with
  | sendto now ok =>
    simp only [UdpFeed.step] at hf
    split at hf
    · rename_i message rest hunsent
      cases ok with
      | true =>
        simp only [if_true] at hf
        simp only [hunsent, List.head?_cons, Option.toList_some, List.map_singleton]
        exact h.send hunsent (Option.some.inj hf).symm
      | false =>
        cases hf
        exact h.skip hunsent
    · cases hf
  | setDone =>
    rw [UdpFeed.of_setDone hf]
    exact ⟨⟨h.order, h.each, h.accounts, h.produced, h.consumed, h.book⟩, h.buffer, h.queue, h.flight, h.received⟩
  | deliver i =>
    obtain ⟨datagram, hi, rfl⟩ := Option.map_eq_some_iff.mp hf
    by_cases hleft : l.feed.consumer = .finished
    · have hgone := h.leave hi (.inr ⟨rfl, rfl⟩)
      simpa only [hleft, if_true, hi, Option.toList_some, List.append_nil] using hgone
    · have hunread := h.leave hi (.inl ⟨rfl, rfl⟩)
      simpa only [hleft, if_false, List.map_nil, List.append_nil] using hunread
  | drop i =>
    obtain ⟨datagram, hi, rfl⟩ := Option.map_eq_some_iff.mp hf
    have hgone := h.leave hi (.inr ⟨rfl, rfl⟩)
    simpa only [hi, Option.toList_some, List.append_nil] using hgone
  | testCount =>
    rcases UdpFeed.of_testCount hf with ⟨hc, ⟨-, rfl⟩ | ⟨-, rfl⟩⟩
    · exact h.quiet rfl rfl rfl rfl rfl (by simp [hc]) (by simp)
    · exact h.quiet rfl rfl rfl rfl rfl (by simp [hc]) (by simp)
  | recv => exact h.recv hf
  | recvTimeout =>
    obtain ⟨hc, -, rfl⟩ := UdpFeed.of_recvTimeout hf
    exact h.quiet rfl rfl rfl rfl rfl (by simp [hc]) (by simp)
  | recvInterrupted =>
    obtain ⟨hc, rfl⟩ := UdpFeed.of_recvInterrupted hf
    exact h.quiet rfl rfl rfl rfl rfl (by simp [hc]) (by simp)
  | testDone =>
    obtain ⟨hc, rfl⟩ := UdpFeed.of_testDone hf
    refine h.quiet rfl rfl rfl rfl rfl (by simp [hc]) fun bytes => ?_
    cases l.feed.producerDone <;> simp
  | messageReceived clock => exact h.messageReceived hf

end Inv

/-! ### Send timestamps -/

/-- The readings of the clock for the messages that `sendto` took. -/
def sendReadings (events : List UdpEvent) : List UInt64 := events.filterMap UdpEvent.reading?

/-- Each of these messages was sent with the reading of the run that belongs to it. -/
structure Timed (events : List UdpEvent) (l : UdpLedger B) : Prop where
  sent : l.sent = sentAt l.accepted (sendReadings events)
  each : l.accepted.length = (sendReadings events).length

theorem Timed.step {events : List UdpEvent} (h : l.Timed events) (hs : l.step onMessage e = some l') :
    l'.Timed (events ++ [e]) := by
  obtain ⟨feed, hf, rfl⟩ := Option.map_eq_some_iff.mp hs
  have hquiet : e.reading? = none → sendReadings (events ++ [e]) = sendReadings events := by
    intro hnone
    rw [sendReadings, filterMap_snoc, hnone, Option.toList_none, List.append_nil, ← sendReadings]
  cases e with
  | sendto now ok =>
    cases ok with
    | false => exact ⟨(hquiet rfl).symm ▸ h.sent, (hquiet rfl).symm ▸ h.each⟩
    | true =>
      simp only [UdpFeed.step] at hf
      split at hf
      · rename_i message rest hunsent
        have hreadings : sendReadings (events ++ [.sendto now true]) = sendReadings events ++ [now] :=
          filterMap_snoc _ _ _
        simp only [hunsent, List.head?_cons, Option.toList_some, List.map_singleton]
        refine ⟨?_, ?_⟩
        · rw [hreadings, sentAt_append h.each, ← h.sent]
          rfl
        · rw [hreadings, List.length_append, List.length_append, h.each]
          rfl
      · cases hf
  | _ => exact ⟨(hquiet rfl).symm ▸ h.sent, (hquiet rfl).symm ▸ h.each⟩

/-! ### The report -/

/-- Every run of the feed has books that balance. -/
theorem exists_balanced {s : UdpFeed B} {events : List UdpEvent}
    (hrun : exec (UdpFeed.step onMessage) (UdpFeed.make messages numMessages book) events = some s) :
    ∃ l, exec (step onMessage) (make messages numMessages book) events = some l ∧ l.feed = s ∧
      l.Balanced messages onMessage book ∧ l.Timed events := by
  obtain ⟨l, hl, hfeed⟩ := exists_ledger (l := make messages numMessages book) hrun
  have h : l.Inv messages onMessage book :=
    exec_invariant (fun _ _ _ hi hs => hi.step hs) (inv_make messages numMessages onMessage book) hl
  have hmake : (make messages numMessages book).Timed [] := ⟨rfl, rfl⟩
  exact ⟨l, hl, hfeed, h.toBalanced, exec_history (fun _ _ _ _ ht hs => ht.step hs) hmake hl⟩

namespace Balanced

theorem length_sent (h : l.Balanced messages onMessage book) :
    l.sent.length = l.feed.state.appliedMessages.length + (l.feed.underway ++ l.lost).length := by
  have hlength := h.accounts.length_eq
  rwa [List.append_assoc, List.length_append] at hlength

theorem accepted_sublist (h : l.Balanced messages onMessage book) : l.accepted.Sublist messages := by
  obtain ⟨tried, htried, hsub⟩ := h.order
  exact htried ▸ hsub.trans (List.sublist_append_left tried _)

/-- As many messages counted as were generated leave none on the way or lost. -/
theorem full (h : l.Balanced messages onMessage book) (hfull : messages.length ≤ l.feed.state.consumed.toNat) :
    l.accepted = messages ∧ l.feed.underway ++ l.lost = [] := by
  have hle := h.accepted_sublist.length_le
  have hlength := h.length_sent
  rw [← h.each] at hlength
  have happlied : l.feed.state.appliedMessages.length = l.feed.state.consumed.toNat := by
    have hlt := l.feed.state.consumed.toNat_lt
    rw [h.consumed, UInt64.toNat_ofNat', Nat.mod_eq_of_lt (by omega)]
  exact ⟨h.accepted_sublist.eq_of_length (by omega), List.length_eq_zero_iff.mp (by omega)⟩

end Balanced

/-- **Every datagram is accounted for**, in every state of every run, each sent with the
reading of the clock for it, and what the report calls "Dropped/Unreceived" is the number
of the messages that are lost or still underway. -/
theorem accounts_of_run {s : UdpFeed B} {events : List UdpEvent}
    (hrun : exec (UdpFeed.step onMessage) (UdpFeed.make messages numMessages book) events = some s) :
    ∃ l, exec (step onMessage) (make messages numMessages book) events = some l ∧ l.feed = s ∧
      l.Balanced messages onMessage book ∧ l.Timed events ∧
      s.produced - s.state.consumed = UInt64.ofNat (s.underway ++ l.lost).length := by
  obtain ⟨l, hl, rfl, h, htimed⟩ := exists_balanced hrun
  refine ⟨l, hl, rfl, h, htimed, ?_⟩
  rw [h.produced, h.consumed, h.length_sent, UInt64.ofNat_add, add_sub_cancel_left]

/-- One message taken, one refused, one dropped. -/
def lossyRun : List UdpEvent :=
  [.sendto 5 true, .sendto 6 false, .sendto 7 true, .testCount, .deliver 1, .recv, .drop 0,
    .messageReceived ⟨8, 9, 10⟩, .testCount, .recvTimeout]

theorem accounts_of_run_lossyRun :
    ∃ l : UdpLedger ℕ,
      exec (step fun n _ => n + 1)
        (make [orderMessage .add 1 .buy 100 10, orderMessage .add 2 .buy 100 10, orderMessage .add 3 .buy 100 10]
          3 0) lossyRun = some l ∧
      l.sent.Perm (l.feed.state.appliedMessages ++ l.feed.underway ++ l.lost) ∧ l.sent = sentAt l.accepted [5, 7] ∧
      1 = UInt64.ofNat l.lost.length := by
  have hends : (exec (UdpFeed.step fun (n : ℕ) _ => n + 1)
      (UdpFeed.make [orderMessage .add 1 .buy 100 10, orderMessage .add 2 .buy 100 10,
        orderMessage .add 3 .buy 100 10] 3 0) lossyRun).map
      (fun s => (s.produced - s.state.consumed, s.underway)) = some (1, []) := by decide
  obtain ⟨s, hrun, hview⟩ := Option.map_eq_some_iff.mp hends
  obtain ⟨hreport, hunderway⟩ := Prod.mk.inj hview
  obtain ⟨l, hl, rfl, hbalanced, htimed, hlost⟩ := accounts_of_run hrun
  rw [hreport, hunderway] at hlost
  exact ⟨l, hl, hbalanced.accounts, htimed.sent, hlost⟩

end UdpLedger

/-! ### A full count -/

/-- The book does not look at the timestamp. -/
theorem ReferenceBook.run_unstamped (r : ReferenceBook) (messages : List MarketMessage) :
    r.run (unstamped messages) = r.run messages := by
  induction messages generalizing r with
  | nil => rfl
  | cons m messages ih => exact ih (r.apply m)

namespace UdpFeed

open Keyed in
/-- **A full count certifies the book.** Where the consumer has counted as many messages
as were generated, each generated message has been applied exactly once; where moreover
the network has not turned the messages about one order round, the book is the one that
the feed makes without a network, up to the arrival order within its levels. -/
theorem full_count {messages : List MarketMessage} {numMessages : UInt64} {events : List UdpEvent}
    {s : UdpFeed OrderBook}
    (hrun : exec (step OrderBook.onMessage) (make messages numMessages OrderBook.empty) events = some s)
    (hcount : s.state.consumed.toNat = messages.length) :
    (unstamped s.state.appliedMessages).Perm (unstamped messages) ∧
      ((∀ id, (streamOf MarketMessage.orderId id (unstamped s.state.appliedMessages)).Sublist
          (streamOf MarketMessage.orderId id (unstamped messages))) →
        SameUpToOrder s.state.book (bookAfter messages)) := by
  obtain ⟨l, -, rfl, h, htimed⟩ := UdpLedger.exists_balanced hrun
  obtain ⟨hall, hnone⟩ := h.full hcount.ge
  have haccounts := h.accounts
  rw [List.append_assoc, hnone, List.append_nil] at haccounts
  have hperm : (unstamped l.feed.state.appliedMessages).Perm (unstamped messages) := by
    have hreadings := htimed.each
    rw [hall] at hreadings
    rw [← unstamped_sentAt hreadings.le, ← hall, ← htimed.sent]
    exact (haccounts.map _).symm
  refine ⟨hperm, fun horder => ?_⟩
  have hstreams : SameStreams MarketMessage.orderId (unstamped l.feed.state.appliedMessages) (unstamped messages) :=
    fun id => (horder id).eq_of_length (hperm.filter _).length_eq
  rw [h.book]
  refine (Represents.empty.run _).sameUpToOrder (bookAfter_represents messages) fun id => ?_
  have hlook := ReferenceBook.independent.look_congr hstreams KeyedList.empty id
  rw [← ReferenceBook.run, ← ReferenceBook.run, ReferenceBook.run_unstamped,
    ReferenceBook.run_unstamped] at hlook
  exact hlook

/-- Two orders that overtake one another. -/
def overtakingRun : List UdpEvent :=
  [.sendto 5 true, .sendto 6 true, .setDone, .deliver 1, .deliver 0, .testCount, .recv, .messageReceived ⟨7, 8, 9⟩,
    .testCount, .recv, .messageReceived ⟨10, 11, 12⟩, .testCount]

open Keyed in
theorem full_count_overtakingRun :
    ∃ s, exec (step OrderBook.onMessage)
        (make [orderMessage .add 1 .buy 100 10, orderMessage .add 2 .buy 100 20] 2 OrderBook.empty) overtakingRun =
          some s ∧
      SameUpToOrder s.state.book
        (bookAfter [orderMessage .add 1 .buy 100 10, orderMessage .add 2 .buy 100 20]) := by
  have hends : (exec (step OrderBook.onMessage)
      (make [orderMessage .add 1 .buy 100 10, orderMessage .add 2 .buy 100 20] 2 OrderBook.empty) overtakingRun).map
        (fun s => (s.state.consumed, unstamped s.state.appliedMessages)) =
      some (2, [orderMessage .add 2 .buy 100 20, orderMessage .add 1 .buy 100 10]) := by decide
  obtain ⟨s, hrun, hview⟩ := Option.map_eq_some_iff.mp hends
  obtain ⟨hcount, happlied⟩ := Prod.mk.inj hview
  refine ⟨s, hrun, (full_count hrun (by rw [hcount]; rfl)).2 fun id => ?_⟩
  rw [happlied]
  have hswap : SameStreams MarketMessage.orderId
      [orderMessage .add 2 .buy 100 20, orderMessage .add 1 .buy 100 10]
      (unstamped [orderMessage .add 1 .buy 100 10, orderMessage .add 2 .buy 100 20]) :=
    SameStreams.swap (by decide) [] []
  rw [hswap id]

end UdpFeed

end LatencyLab
