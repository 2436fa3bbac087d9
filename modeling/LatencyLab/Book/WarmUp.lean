import LatencyLab.Book.Streams
import LatencyLab.Market.GeneratedFeed

/-! The warm-up of the single-thread benchmark, which applies the first messages
twice. With one message for each order id, an Add of the warm-up finds its order
live when it comes again, and any other message found none and finds none again. -/

namespace LatencyLab

open Keyed

/-- The book of `benchmark_single_thread.cpp`: the warm-up loop, then all messages. -/
def singleThread (warmupCount : ℕ) (messages : List MarketMessage) : OrderBook :=
  (OrderBook.empty.run (messages.take warmupCount)).run messages

namespace ReferenceBook

/-- A message whose order is as the message alone leaves it does nothing. -/
theorem apply_again {r : ReferenceBook} {msg : MarketMessage}
    (h : r.lookup msg.orderId = Order.react msg none) : r.apply msg = r := by
  unfold Order.react at h
  unfold apply
  split_ifs at h ⊢
  · exact add_of_live h
  · exact edit_of_unknown h _
  · exact edit_of_unknown h _
  · exact edit_of_unknown h _
  · rfl

theorem run_of_apply {r : ReferenceBook} {msgs : List MarketMessage}
    (h : ∀ msg ∈ msgs, r.apply msg = r) : r.run msgs = r := by
  induction msgs with
  | nil => rfl
  | cons msg msgs ih =>
    rw [List.forall_mem_cons] at h
    show (r.apply msg).run msgs = r
    rw [h.1]
    exact ih h.2

theorem run_append (r : ReferenceBook) (msgs msgs' : List MarketMessage) :
    r.run (msgs ++ msgs') = (r.run msgs).run msgs' := List.foldl_append

/-- Messages about different orders, run twice from nothing. -/
theorem run_again {msgs : List MarketMessage} (h : (msgs.map MarketMessage.orderId).Nodup) :
    (refAfter msgs).run msgs = refAfter msgs := by
  refine run_of_apply fun msg hm => apply_again ?_
  have hlook := independent.look_foldl msgs KeyedList.empty msg.orderId
  rw [streamOf_of_nodup h hm] at hlook
  exact hlook

end ReferenceBook

/-- **The warm-up does not show**: over distinct order ids it leaves the final book as
it is, and the first thousand messages of a generator have distinct order ids. -/
theorem singleThread_eq :
    (∀ (msgs : List MarketMessage) (k : ℕ), ((msgs.take k).map MarketMessage.orderId).Nodup →
      singleThread k msgs = bookAfter msgs) ∧
    ∀ (n : UInt64) (symbol : List UInt8) (seed : UInt64) (clock : ℕ → UInt64),
      ((({ MarketDataGenerator.make n symbol with seed_ := seed }.generate clock).messages_.take
        1000).map MarketMessage.orderId).Nodup := by
  constructor
  · intro msgs k hdistinct
    have hrun : (refAfter (msgs.take k)).run (msgs.take k ++ msgs.drop k) =
        refAfter (msgs.take k ++ msgs.drop k) := by
      rw [ReferenceBook.run_append, ReferenceBook.run_again hdistinct, ← ReferenceBook.run_append]
    rw [List.take_append_drop] at hrun
    have hwarm := (bookAfter_represents (msgs.take k)).run msgs
    rw [hrun] at hwarm
    exact hwarm.unique (bookAfter_represents msgs)
  · intro n symbol seed clock
    obtain ⟨batch, h⟩ := Batch.generate { MarketDataGenerator.make n symbol with seed_ := seed } clock
    rw [h.messages]
    exact h.nodup_take (by decide)

/-- An Add, then a Trade of an order that comes later. -/
theorem singleThread_eq_two :
    singleThread 2 [orderMessage .add 1 .buy 100 10, orderMessage .trade 2 .sell 101 5,
        orderMessage .add 2 .sell 101 7] =
      bookAfter [orderMessage .add 1 .buy 100 10, orderMessage .trade 2 .sell 101 5,
        orderMessage .add 2 .sell 101 7] :=
  singleThread_eq.1 _ 2 (by decide)

end LatencyLab
