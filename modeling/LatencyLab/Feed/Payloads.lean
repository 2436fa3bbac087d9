import LatencyLab.Feed.Datagrams
import LatencyLab.Market.Decoding

/-! The UDP consumer as a reader of bytes, when the socket takes datagrams from anyone.
A datagram of at least the size of a message counts with its first 64 bytes, whatever
they are, and a shorter one not at all. The consumer loses and invents no byte of
these: its messages, written out again, are exactly what counts of the datagrams that
it has handled, and no other messages are. -/

namespace LatencyLab.OpenUdpFeed

open Bytes Transition

variable {B : Type*} {onMessage : B → MarketMessage → B} {messages : List MarketMessage} {numMessages : UInt64}
  {book : B} {s : OpenUdpFeed B}

/-- What counts of a datagram. -/
def payload (datagram : List UInt8) : List UInt8 :=
  if MarketMessage.size ≤ datagram.length then datagram.take MarketMessage.size else []

/-- What counts of the datagrams that the loop is done with. -/
def payloads (s : OpenUdpFeed B) : List UInt8 := (s.handled.map Prod.fst).flatMap payload

/-- The messages applied are the bytes that count. -/
structure AppliesPayloads (onMessage : B → MarketMessage → B) (book : B) (s : OpenUdpFeed B) : Prop where
  inOrder : s.arrived = s.handled.map Prod.fst ++ s.inHand.toList ++ s.feed.receiveQueue
  bytes : stream MarketMessage.image s.feed.state.appliedMessages = s.payloads
  only : ∀ others, stream MarketMessage.image others = s.payloads → others = s.feed.state.appliedMessages
  book : s.feed.state.book = s.feed.state.appliedMessages.foldl onMessage book
  consumed : s.feed.state.consumed = UInt64.ofNat (s.payloads.length / MarketMessage.size)

theorem payload_of_fills {datagram : List UInt8} (h : fills datagram) :
    payload datagram = datagram.take MarketMessage.size := if_pos (of_decide_eq_true h)

theorem payload_of_not_fills {datagram : List UInt8} (h : ¬ fills datagram) : payload datagram = [] :=
  if_neg (by simpa [fills] using h)

theorem letThrough_cons_of_fills {x : List UInt8 × ConsumeClock} {handled : List (List UInt8 × ConsumeClock)}
    (h : fills x.1) : letThrough (x :: handled) = truncate x :: letThrough handled := by
  simp [letThrough, h]

theorem letThrough_cons_of_not_fills {x : List UInt8 × ConsumeClock}
    {handled : List (List UInt8 × ConsumeClock)} (h : ¬ fills x.1) :
    letThrough (x :: handled) = letThrough handled := by
  simp [letThrough, h]

/-- The messages of some rounds, written out. -/
theorem stream_letThrough (handled : List (List UInt8 × ConsumeClock)) :
    stream MarketMessage.image ((letThrough handled).map fun x => MarketMessage.ofImage x.1) =
      (handled.map Prod.fst).flatMap payload := by
  induction handled with
  | nil => rfl
  | cons x handled ih =>
    rw [List.map_cons, List.flatMap_cons, ← ih]
    by_cases h : fills x.1
    · have hlength : (x.1.take MarketMessage.size).length = MarketMessage.size := by
        rw [List.length_take, Nat.min_eq_left (of_decide_eq_true h)]
      rw [letThrough_cons_of_fills h, List.map_cons, stream, List.flatMap_cons, truncate,
        MarketMessage.image_ofImage hlength, payload_of_fills h, stream]
    · rw [letThrough_cons_of_not_fills h, payload_of_not_fills h, List.nil_append]

theorem Inv.appliesPayloads (h : s.Inv onMessage book) : s.AppliesPayloads onMessage book := by
  have hbytes : stream MarketMessage.image s.feed.state.appliedMessages = s.payloads := by
    rw [h.reflects.applied]
    exact stream_letThrough s.handled
  refine ⟨h.inOrder, hbytes, fun others hothers => ?_, h.reflects.book, ?_⟩
  · exact stream_injective MarketMessage.image_injective MarketMessage.length_image (by decide)
      (hothers.trans hbytes.symm)
  · have hcount : s.feed.state.appliedMessages.length = (letThrough s.handled).length := by
      rw [h.reflects.applied, List.length_map]
    rw [h.reflects.consumed, ← hbytes, length_stream MarketMessage.length_image,
      Nat.mul_div_cancel _ (by decide : 0 < MarketMessage.size), hcount]

/-- **Every byte that counts**, in every state of every run. -/
theorem appliesPayloads_of_run {events : List OpenUdpEvent} (h : After onMessage messages numMessages book events s) :
    s.AppliesPayloads onMessage book := (inv_of_run h).appliesPayloads

/-- A datagram too long, one too short, and the message that the program sent. -/
def strangersRun : List OpenUdpEvent :=
  [.arrive longDatagram, .arrive [1, 2, 3], .own .testCount, .own .recv, .own (.messageReceived ⟨5, 6, 7⟩),
    .own .testCount, .own .recv, .own (.messageReceived ⟨8, 9, 10⟩)]

theorem appliesPayloads_strangersRun :
    ∃ s, After OrderBook.onMessage [] 3 OrderBook.empty strangersRun s ∧
      s.AppliesPayloads OrderBook.onMessage OrderBook.empty := by
  obtain ⟨s, hs⟩ : ∃ s, After OrderBook.onMessage [] 3 OrderBook.empty strangersRun s :=
    Option.isSome_iff_exists.mp (by decide)
  exact ⟨s, hs, appliesPayloads_of_run hs⟩

end LatencyLab.OpenUdpFeed
