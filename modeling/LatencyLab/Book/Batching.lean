import LatencyLab.Book.OrderBook
import LatencyLab.Metrics.LatencyRecorder
import LatencyLab.Transition.Loops

/-! One batch size of the batching benchmark. The outer loop steps through the messages
by whole batches and cuts the last one off at their end, the inner loop passes a batch
to the book, and a third one records the batch's time once for each message of it. The
batches tile the messages, so the book is the one of a plain loop over them. -/

namespace LatencyLab

open Transition

/-- The locals for one batch size, with the messages passed to `on_message` so far. -/
structure BatchBenchmark where
  book : OrderBook
  amortizedLatencyRecorder : LatencyRecorder
  passed : List MarketMessage
  deriving DecidableEq

namespace BatchBenchmark

def start : BatchBenchmark := ⟨.empty, .empty, []⟩

/-- `book.on_message(messages[message_index])`, without result outside `messages`. -/
def passMessage (messages : List MarketMessage) (messageIndex : UInt64) (s : BatchBenchmark) :
    Option BatchBenchmark :=
  messages[messageIndex.toNat]?.map fun msg =>
    { s with book := s.book.onMessage msg, passed := s.passed ++ [msg] }

def recordSample (amortizedLatencyNs : UInt64) (s : BatchBenchmark) : BatchBenchmark :=
  { s with amortizedLatencyRecorder := s.amortizedLatencyRecorder.record amortizedLatencyNs }

/-- The body of the outer loop. `clock` are the two readings around a batch. -/
def processBatch (messages : List MarketMessage) (batchSize : UInt64) (clock : UInt64 → UInt64 × UInt64)
    (fuel : ℕ) (batchStart : UInt64) (s : BatchBenchmark) : Option BatchBenchmark :=
  let batchEnd := min (batchStart + batchSize) (UInt64.ofNat messages.length)
  let (batchTimerStart, batchTimerEnd) := clock batchStart
  (upTo batchEnd 1 (passMessage messages) fuel batchStart s).bind fun s =>
    let batchDurationNs := batchTimerEnd - batchTimerStart
    let processedInBatch := batchEnd - batchStart
    let amortizedLatencyNs := batchDurationNs / max processedInBatch 1
    upTo processedInBatch 1 (fun _ s => some (s.recordSample amortizedLatencyNs)) fuel 0 s

/-- The whole loop, where no loop takes more than `fuel` rounds. -/
def run (messages : List MarketMessage) (batchSize : UInt64) (clock : UInt64 → UInt64 × UInt64) (fuel : ℕ) :
    Option BatchBenchmark :=
  upTo (UInt64.ofNat messages.length) batchSize (processBatch messages batchSize clock fuel) fuel 0 start

/-! ### Progress -/

/-- The first `k` messages are passed, and `n` samples recorded. -/
structure Progress (messages : List MarketMessage) (k n : ℕ) (s : BatchBenchmark) : Prop where
  passed : s.passed = messages.take k
  book : s.book = OrderBook.empty.run (messages.take k)
  samples : s.amortizedLatencyRecorder.samples_.length = n

namespace Progress

variable {messages : List MarketMessage} {k n N : ℕ} {s : BatchBenchmark} {i : UInt64}

theorem start (messages : List MarketMessage) : Progress messages 0 0 start := ⟨rfl, rfl, rfl⟩

theorem passMessage (h : Progress messages i.toNat n s) (hi : i.toNat < messages.length) :
    ∃ s', BatchBenchmark.passMessage messages i s = some s' ∧ Progress messages (i.toNat + 1) n s' := by
  have hget := List.getElem?_eq_getElem hi
  have htake : messages.take (i.toNat + 1) = messages.take i.toNat ++ [messages[i.toNat]] := by
    rw [List.take_add_one, hget, Option.toList_some]
  have hpass : BatchBenchmark.passMessage messages i s = some { s with
      book := s.book.onMessage messages[i.toNat]
      passed := s.passed ++ [messages[i.toNat]] } := by
    rw [BatchBenchmark.passMessage, hget, Option.map_some]
  refine ⟨_, hpass, ?_, ?_, h.samples⟩
  · rw [htake, h.passed]
  · rw [htake, h.book, OrderBook.run, OrderBook.run, List.foldl_append, List.foldl_cons, List.foldl_nil]

theorem recordSample (h : Progress messages k n s) (x : UInt64) :
    Progress messages k (n + 1) (s.recordSample x) := by
  refine ⟨h.passed, h.book, ?_⟩
  rw [BatchBenchmark.recordSample, LatencyRecorder.record, List.length_append, h.samples, List.length_singleton]

/-- The inner loop passes a batch. -/
theorem passBatch (h : Progress messages i.toNat n s) {batchEnd : UInt64} (hi : i ≤ batchEnd)
    (hend : batchEnd.toNat ≤ messages.length) (hN : messages.length ≤ N) :
    Yields N (fun fuel => upTo batchEnd 1 (BatchBenchmark.passMessage messages) fuel i s)
      (Progress messages batchEnd.toNat n) := by
  refine Yields.countByOne (fun k => Progress messages k n) (hend.trans hN) (fun j t hj ht => ?_) hi h
  obtain ⟨t', hpass, ht'⟩ := ht.passMessage ((UInt64.lt_iff_toNat_lt.mp hj).trans_le hend)
  rw [hpass]
  exact Yields.const ht'

/-- The third loop records as many samples as it counts. -/
theorem recordSamples (h : Progress messages k n s) (x : UInt64) {processedInBatch : UInt64}
    (hN : processedInBatch.toNat ≤ N) :
    Yields N (fun fuel => upTo processedInBatch 1 (fun _ s => some (s.recordSample x)) fuel 0 s)
      (Progress messages k (n + processedInBatch.toNat)) :=
  Yields.countByOne (fun j => Progress messages k (n + j)) hN
    (fun _ _ _ ht => Yields.const (ht.recordSample x)) UInt64.zero_le h

variable {batchSize : UInt64}

theorem toNat_batchEnd (hsize : messages.length + batchSize.toNat < 2 ^ 64) (hi : i.toNat < messages.length) :
    (min (i + batchSize) (UInt64.ofNat messages.length)).toNat =
      min (i.toNat + batchSize.toNat) messages.length := by
  have hsum : (i + batchSize).toNat = i.toNat + batchSize.toNat := by
    rw [UInt64.toNat_add, Nat.mod_eq_of_lt (by omega)]
  have hlen : (UInt64.ofNat messages.length).toNat = messages.length :=
    UInt64.toNat_ofNat_of_lt' (show messages.length < 2 ^ 64 by omega)
  rw [UInt64.toNat_min, hsum, hlen]

/-- A round of the outer loop ends where the next one starts, or at the last message. -/
theorem processBatch (h : Progress messages i.toNat i.toNat s) (hb : 1 ≤ batchSize)
    (hsize : messages.length + batchSize.toNat < 2 ^ 64) (hi : i.toNat < messages.length)
    (hN : messages.length ≤ N) (clock : UInt64 → UInt64 × UInt64) :
    Yields N (fun fuel => BatchBenchmark.processBatch messages batchSize clock fuel i s)
      (Progress messages (min (i.toNat + batchSize.toNat) messages.length)
        (min (i.toNat + batchSize.toNat) messages.length)) := by
  have hend := toNat_batchEnd hsize hi
  have hpos := UInt64.le_iff_toNat_le.mp hb
  have hle : i ≤ min (i + batchSize) (UInt64.ofNat messages.length) := by
    rw [UInt64.le_iff_toNat_le, hend]
    omega
  have hsub := UInt64.toNat_sub_of_le _ _ hle
  have hprocessed : (min (i + batchSize) (UInt64.ofNat messages.length) - i).toNat ≤ N := by omega
  refine Yields.bind (h.passBatch hle (by omega) hN) fun t ht => ?_
  refine (ht.recordSamples _ hprocessed).imp fun t' ht' => ?_
  rwa [hsub, hend, Nat.add_sub_cancel' (by omega)] at ht'

end Progress

/-! ### The plain loop -/

/-- What a plain loop over the messages leaves behind: each of them is passed once, in
order, and has its sample. -/
structure EqualsPlain (messages : List MarketMessage) (s : BatchBenchmark) : Prop where
  passed : s.passed = messages
  book : s.book = OrderBook.empty.run messages
  samples : s.amortizedLatencyRecorder.samples_.length = messages.length

variable {messages : List MarketMessage} {batchSize : UInt64}

theorem Progress.equalsPlain {s : BatchBenchmark} (h : Progress messages messages.length messages.length s) :
    EqualsPlain messages s where
  passed := h.passed.trans List.take_length
  book := by rw [h.book, List.take_length]
  samples := h.samples

/-- `count()` tells it, for as many samples as `std::uint64_t` can hold. -/
theorem EqualsPlain.toNat_count {s : BatchBenchmark} (h : EqualsPlain messages s)
    (hlen : messages.length < 2 ^ 64) : s.amortizedLatencyRecorder.count.toNat = messages.length := by
  rw [LatencyRecorder.count, h.samples, UInt64.toNat_ofNat_of_lt' (show messages.length < 2 ^ 64 from hlen)]

/-- With as many rounds as messages the batched loop ends, without an index outside the
messages, and equals the plain one. -/
theorem run_equalsPlain (hb : 1 ≤ batchSize) (hsize : messages.length + batchSize.toNat < 2 ^ 64)
    (clock : UInt64 → UInt64 × UInt64) :
    ∃ s, EqualsPlain messages s ∧
      ∀ fuel, messages.length ≤ fuel → run messages batchSize clock fuel = some s := by
  have hlen : (UInt64.ofNat messages.length).toNat = messages.length :=
    UInt64.toNat_ofNat_of_lt' (show messages.length < 2 ^ 64 by omega)
  have hround : ∀ i s, i < UInt64.ofNat messages.length → Progress messages i.toNat i.toNat s →
      Yields messages.length (fun fuel => processBatch messages batchSize clock fuel i s)
        (Progress messages (min (i.toNat + batchSize.toNat) (UInt64.ofNat messages.length).toNat)
          (min (i.toNat + batchSize.toNat) (UInt64.ofNat messages.length).toNat)) := by
    intro i s hi h
    rw [UInt64.lt_iff_toNat_lt, hlen] at hi
    rw [hlen]
    exact h.processBatch hb hsize hi le_rfl clock
  have hrun := Yields.countUp (fun k => Progress messages k k) (UInt64.le_iff_toNat_le.mp hb) (by omega)
    (by omega) hround UInt64.zero_le (Progress.start messages)
  rw [hlen] at hrun
  exact hrun.imp fun s hs => hs.equalsPlain

/-- Three orders, where the second batch of two is cut off. -/
def cutOffFeed : List MarketMessage :=
  [{ MarketMessage.zero with orderId := 1, quantity := 5, side := .buy, type := .add },
    { MarketMessage.zero with orderId := 2, quantity := 7, side := .sell, type := .add },
    { MarketMessage.zero with orderId := 1, type := .cancel }]

theorem run_cutOffFeed :
    ∃ s, EqualsPlain cutOffFeed s ∧
      ∀ fuel, 3 ≤ fuel → run cutOffFeed 2 (fun i => (i, i + 9)) fuel = some s :=
  run_equalsPlain (by decide) (by decide) _

end BatchBenchmark

end LatencyLab
