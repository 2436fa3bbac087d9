import LatencyLab.Book.WarmUp
import LatencyLab.Feed.Ledger
import LatencyLab.Feed.TcpTermination
import LatencyLab.Mutex.Termination
import LatencyLab.Pool.GeneratedRuns
import LatencyLab.Spsc.Termination

/-! What the benchmarks have in common. They take one generated feed through different
machinery: a warm-up, two threads around a mutex or a ring, a TCP connection, a pooled
book. The books they can end with are one book, or the pooled book that agrees with it,
whatever the schedule, the capacities and the bytes that a call moves. -/

namespace LatencyLab

open Transition

/-- The feed of a benchmark: one call of `generate`. -/
def benchmarkFeed (n : UInt64) (symbol : List UInt8) (seed : UInt64) (clock : ℕ → UInt64) : List MarketMessage :=
  generatedFeed n symbol seed [clock]

/-- The books in which the benchmarks of `OrderBook` can end on some messages. -/
inductive FinalBook (messages : List MarketMessage) : OrderBook → Prop
  | singleThread : FinalBook messages (singleThread 1000 messages)
  | producerConsumer {capacity : ℕ} {events : List MutexPipelineEvent} {s : MutexPipeline}
      (run : exec MutexPipeline.step (MutexPipeline.make capacity messages) events = some s) (ends : s.Finished) :
      FinalBook messages s.book
  | spscQueue {capacity : ℕ} (fits : capacity + 1 < sizeMod) {events : List PipelineEvent} {s : Pipeline OrderBook}
      (run : exec (Pipeline.step OrderBook.onMessage) (Pipeline.make capacity messages OrderBook.empty) events = some s)
      (ends : s.Finished) : FinalBook messages s.book
  | tcpFeed {numMessages : UInt64} (all : messages.length = numMessages.toNat) {events : List TcpEvent}
      {s : TcpFeed OrderBook}
      (run : exec (TcpFeed.step OrderBook.onMessage) (TcpFeed.make messages numMessages OrderBook.empty) events = some s)
      (ends : s.Finished) (sendOk : s.sendFailed = false) (recvOk : s.recvFailed = false) :
      FinalBook messages s.state.book

/-- The books in which the benchmarks of `PooledOrderBook` can end. -/
inductive FinalPooledBook (data : ℕ) (capacity : UInt64) (messages : List MarketMessage) : PooledOrderBook → Prop
  | memoryPool {b : PooledOrderBook} (run : PooledAfter data capacity messages b) :
      FinalPooledBook data capacity messages b
  | spscQueuePooled {queueCapacity : ℕ} (fits : queueCapacity + 1 < sizeMod) {events : List PipelineEvent}
      {s : Pipeline (Option PooledOrderBook)} {b : PooledOrderBook}
      (run : exec (Pipeline.step fun book msg => book.bind (·.onMessage msg))
        (Pipeline.make queueCapacity messages (some (PooledOrderBook.make data capacity))) events = some s)
      (ends : s.Finished) (book : s.book = some b) : FinalPooledBook data capacity messages b

/-! ### Each of them -/

theorem singleThread_of_distinct {messages : List MarketMessage} {k : ℕ}
    (h : ((messages.take k).map MarketMessage.orderId).Nodup) : singleThread k messages = bookAfter messages := by
  have hsplit : ∀ r : ReferenceBook, r.run messages = (r.run (messages.take k)).run (messages.drop k) := by
    intro r
    rw [← ReferenceBook.run_append, List.take_append_drop]
  have hrun : (refAfter (messages.take k)).run messages = refAfter messages := by
    rw [hsplit, ReferenceBook.run_again h, ← hsplit]
  have hwarm := (bookAfter_represents (messages.take k)).run messages
  rw [hrun] at hwarm
  exact hwarm.unique (bookAfter_represents messages)

theorem nodup_benchmarkFeed (n : UInt64) (symbol : List UInt8) (seed : UInt64) (clock : ℕ → UInt64) :
    (((benchmarkFeed n symbol seed clock).take 1000).map MarketMessage.orderId).Nodup := by
  obtain ⟨batch, h⟩ := Batch.generate { MarketDataGenerator.make n symbol with seed_ := seed } clock
  have hfeed : benchmarkFeed n symbol seed clock = batch := h.messages
  rw [hfeed]
  exact h.nodup_take (by decide)

/-- Two feeds that differ in their timestamps make one book. -/
theorem bookAfter_sentAt {messages : List MarketMessage} {readings : List UInt64}
    (h : messages.length ≤ readings.length) : bookAfter (sentAt messages readings) = bookAfter messages := by
  have hrefs : refAfter (sentAt messages readings) = refAfter messages := by
    rw [refAfter, ← ReferenceBook.run_unstamped, unstamped_sentAt h, ReferenceBook.run_unstamped]
  exact (hrefs ▸ bookAfter_represents _).unique (bookAfter_represents messages)

theorem TcpFeed.live_of_run {B : Type*} {onMessage : B → MarketMessage → B} {messages : List MarketMessage}
    {numMessages : UInt64} {book : B} {events : List TcpEvent} {s : TcpFeed B}
    (hnum : messages.length ≤ numMessages.toNat)
    (hrun : exec (TcpFeed.step onMessage) (TcpFeed.make messages numMessages book) events = some s)
    (hsend : s.sendFailed = false) (hrecv : s.recvFailed = false) : s.Live messages onMessage book := by
  have hstep : ∀ s e s', (s.sendFailed = false → s.recvFailed = false → s.Live messages onMessage book) →
      TcpFeed.step onMessage s e = some s' →
      s'.sendFailed = false → s'.recvFailed = false → s'.Live messages onMessage book :=
    fun s e s' h hs hsend hrecv => (h ((ok_of_step hs).1 hsend) ((ok_of_step hs).2 hrecv)).step hs hsend hrecv
  exact exec_invariant hstep (fun _ _ => live_make hnum onMessage book) hrun hsend hrecv

/-- Each of these is the book of a plain loop over the messages. -/
theorem FinalBook.eq_bookAfter {messages : List MarketMessage} {b : OrderBook} (h : FinalBook messages b)
    (hdistinct : ((messages.take 1000).map MarketMessage.orderId).Nodup) : b = bookAfter messages := by
  cases h with
  | singleThread => exact singleThread_of_distinct hdistinct
  | producerConsumer run ends => exact ((MutexPipeline.inv_of_run run).lossless ends.1 ends.2).book
  | spscQueue fits run ends =>
    exact ((exec_invariant (fun _ _ _ h hs => h.step hs) (Pipeline.inv_make fits OrderBook.onMessage) run).lossless
      ends.1 ends.2).book
  | tcpFeed all run ends sendOk recvOk =>
    obtain ⟨-, htimed, -⟩ := TcpFeed.timed_of_run run
    have hcomplete := (TcpFeed.live_of_run all.le run sendOk recvOk).complete htimed ends
    rw [hcomplete.book, hcomplete.applied]
    exact bookAfter_sentAt hcomplete.each.ge

theorem FinalPooledBook.pooledAfter {data : ℕ} {capacity : UInt64} {messages : List MarketMessage}
    {b : PooledOrderBook} (h : FinalPooledBook data capacity messages b) : PooledAfter data capacity messages b := by
  cases h with
  | memoryPool run => exact run
  | spscQueuePooled fits run ends book =>
    have hinv := exec_invariant (fun _ _ _ h hs => h.step hs) (Pipeline.inv_make fits _) run
    have hlossless := hinv.lossless ends.1 ends.2
    rw [PooledAfter, PooledOrderBook.run, ← book, hlossless.book, foldl_bind, Option.bind_some]

/-! ### All of them -/

/-- **The benchmarks agree**: on the feed of one generator, from any seed, every schedule
of every benchmark ends with one book, and with enough room in the pool the pooled books
agree with it. -/
theorem benchmarks_agree (n : UInt64) (symbol : List UInt8) (seed : UInt64) (clock : ℕ → UInt64) {b : OrderBook}
    (h : FinalBook (benchmarkFeed n symbol seed clock) b) :
    b = bookAfter (benchmarkFeed n symbol seed clock) ∧
      ∀ (data : ℕ) (capacity : UInt64), min 10000 n.toNat ≤ capacity.toNat →
        ∀ p, FinalPooledBook data capacity (benchmarkFeed n symbol seed clock) p →
          p.poolExhaustions = 0 ∧ Agrees p b := by
  have hb := h.eq_bookAfter (nodup_benchmarkFeed n symbol seed clock)
  refine ⟨hb, fun data capacity hcapacity p hp => ?_⟩
  have hfeed : GeneratedFeed n (benchmarkFeed n symbol seed clock) :=
    ((Between.start n symbol seed).generateAll [clock]).feed
  have hids : (distinctIds (benchmarkFeed n symbol seed clock)).card ≤ min 10000 n.toNat :=
    hfeed.card_distinctIds_le.trans (min_le_min_left _ (min_le_left _ _))
  obtain ⟨p', hp', hzero, hagrees⟩ := hfeed.neverExhausted data (hids.trans hcapacity) _ List.prefix_rfl
  cases hp.pooledAfter.symm.trans hp'
  exact ⟨hzero, hb ▸ hagrees⟩

/-- The single-thread and the memory pool benchmark on three messages. -/
theorem benchmarks_agree_three :
    ∃ p, FinalPooledBook 0 3 (benchmarkFeed 3 [65] 12345 fun _ => 0) p ∧ p.poolExhaustions = 0 ∧
      Agrees p (singleThread 1000 (benchmarkFeed 3 [65] 12345 fun _ => 0)) := by
  obtain ⟨p, hp, -⟩ := (Holds.make 0 3).run (benchmarkFeed 3 [65] 12345 fun _ => 0)
  have hpool : FinalPooledBook 0 3 (benchmarkFeed 3 [65] 12345 fun _ => 0) p := .memoryPool hp
  exact ⟨p, hpool, (benchmarks_agree 3 [65] 12345 (fun _ => 0) .singleThread).2 0 3 (by decide) p hpool⟩

end LatencyLab
