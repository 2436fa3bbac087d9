import LatencyLab.Latency.Relay

/-! Along a monotone clock a relay's timestamps are ordered. Every reading is at least
the earlier ones, and each timestamp of a message is read after the one before it: the
push after the producer's, the pop after the push that published the envelope, the end
after the pop. So no recorded difference wraps, and the wait is within the latency. -/

namespace LatencyLab

open Transition

/-- A message that went the whole way, with the consumer's readings. -/
structure Trip where
  envelope : MarketMessageEnvelope
  pop : UInt64
  finish : UInt64

namespace MarketMessageEnvelope

/-- The two timestamps are in order, and not ahead of `now`. -/
structure OrderedUpTo (envelope : MarketMessageEnvelope) (now : UInt64) : Prop where
  producer_le_push : envelope.producerTimestampNs ≤ envelope.queuePushTimestampNs
  push_le : envelope.queuePushTimestampNs ≤ now

end MarketMessageEnvelope

namespace Relay

/-- What the readings so far have made of the messages: the trips that are over, and the
one under way with the reading of its pop. -/
structure Journal (messages : List MarketMessage) (reads : List ClockRead) (r : Relay) (trips : List Trip)
    (underway : List (MarketMessageEnvelope × UInt64)) : Prop where
  messages : (r.published ++ r.carried.envelopes).map MarketMessageEnvelope.message ++ r.rest = messages
  stamps : (ClockLog.ofReads reads).stamps =
    (r.published ++ r.carried.envelopes).map MarketMessageEnvelope.stamps
  fifo : r.returned <+: r.published
  returned : r.returned = trips.map Trip.envelope ++ r.held.envelopes
  inHand : underway.map Prod.fst = r.held.timed
  pops : (ClockLog.ofReads reads).pops = trips.map Trip.pop ++ underway.map Prod.snd
  ends : (ClockLog.ofReads reads).ends = trips.map Trip.finish
  waits : r.waits = trips.map (fun trip => trip.pop - trip.envelope.queuePushTimestampNs) ++
    underway.map fun timed => timed.2 - timed.1.queuePushTimestampNs
  latencies : r.latencies = trips.map fun trip => trip.finish - trip.envelope.producerTimestampNs
  applied : r.applied = trips.map (fun trip => trip.envelope.message) ++
    r.held.consumed.map MarketMessageEnvelope.message
  carried : ∀ envelope ∈ r.carried.envelopes, envelope.producerTimestampNs ∈ reads.map ClockRead.now
  pushed : ∀ envelope ∈ r.published ++ r.carried.pushed,
    envelope.producerTimestampNs ≤ envelope.queuePushTimestampNs ∧
      envelope.queuePushTimestampNs ∈ reads.map ClockRead.now
  passed : ∀ timed ∈ underway, timed.1.OrderedUpTo timed.2 ∧ timed.2 ∈ reads.map ClockRead.now
  finished : ∀ trip ∈ trips, trip.envelope.OrderedUpTo trip.pop ∧ trip.pop ≤ trip.finish

variable {messages : List MarketMessage} {reads : List ClockRead} {r r' : Relay} {trips : List Trip}
  {underway : List (MarketMessageEnvelope × UInt64)}

theorem journal_make (messages : List MarketMessage) : (make messages).Journal messages [] [] [] where
  messages := rfl
  stamps := rfl
  fifo := List.prefix_rfl
  returned := rfl
  inHand := rfl
  pops := rfl
  ends := rfl
  waits := rfl
  latencies := rfl
  applied := rfl
  carried := by simp [make, Carried.envelopes]
  pushed := by simp [make, Carried.pushed]
  passed := by simp
  finished := by simp

/-- What has been read has been read. -/
theorem mem_reads {read : ClockRead} {now : UInt64} (h : now ∈ reads.map ClockRead.now) :
    now ∈ (reads ++ [read]).map ClockRead.now := by
  rw [List.map_append]
  exact List.mem_append_left _ h

theorem mem_reads_self {read : ClockRead} : read.now ∈ (reads ++ [read]).map ClockRead.now := by
  rw [List.map_append]
  exact List.mem_append_right _ List.mem_cons_self

theorem getElem?_of_isPrefix {α : Type*} {l l' : List α} (h : l <+: l') {i : ℕ} {a : α} (hi : l[i]? = some a) :
    l'[i]? = some a := by
  obtain ⟨rest, rfl⟩ := h
  obtain ⟨hlt, -⟩ := List.getElem?_eq_some_iff.mp hi
  rw [List.getElem?_append_left hlt]
  exact hi

theorem getElem?_of_concat_isPrefix {α : Type*} {l l' : List α} {a : α} (h : l ++ [a] <+: l') :
    l'[l.length]? = some a := by
  refine getElem?_of_isPrefix h ?_
  rw [List.getElem?_append_right le_rfl, Nat.sub_self]
  rfl

namespace Journal

/-! ### The producer -/

theorem stampMessage (h : r.Journal messages reads trips underway) {now : UInt64}
    (hs : r.step (.stampMessage now) = some r') :
    r'.Journal messages (reads ++ [.message now]) trips underway := by
  simp only [step] at hs
  split at hs
  · rename_i message rest hrest hcarried
    cases hs
    have hmessages := h.messages
    have hstamps := h.stamps
    have hpushed := h.pushed
    rw [hrest, hcarried, Carried.envelopes, List.append_nil] at hmessages
    rw [hcarried, Carried.envelopes, List.append_nil] at hstamps
    rw [hcarried, Carried.pushed] at hpushed
    exact { h with
      messages := by rw [← hmessages, Carried.envelopes, List.map_append, List.append_assoc]; rfl
      stamps := by rw [ClockLog.ofReads_concat, ClockLog.record, hstamps, Carried.envelopes, List.map_append]; rfl
      pops := by rw [ClockLog.ofReads_concat]; exact h.pops
      ends := by rw [ClockLog.ofReads_concat]; exact h.ends
      carried := List.forall_mem_singleton.mpr mem_reads_self
      pushed := fun envelope he => ⟨(hpushed envelope he).1, mem_reads (hpushed envelope he).2⟩
      passed := fun timed ht => ⟨(h.passed timed ht).1, mem_reads (h.passed timed ht).2⟩ }
  · cases hs

/-- The clock has not gone back since the message was stamped. -/
theorem stampPush (h : r.Journal messages reads trips underway) {now : UInt64}
    (hnow : ∀ past ∈ reads.map ClockRead.now, past ≤ now) (hs : r.step (.stampPush now) = some r') :
    r'.Journal messages (reads ++ [.push now]) trips underway := by
  simp only [step] at hs
  split at hs
  · rename_i envelope hcarried
    cases hs
    have hmessages := h.messages
    have hstamps := h.stamps
    have hpushed := h.pushed
    have hstamped := h.carried envelope (by rw [hcarried]; exact List.mem_cons_self)
    rw [hcarried, Carried.envelopes] at hmessages hstamps
    rw [hcarried, Carried.pushed, List.append_nil] at hpushed
    refine { h with
      messages := by rw [← hmessages, List.map_append, List.map_append]; rfl
      stamps := ?_
      pops := by rw [ClockLog.ofReads_concat]; exact h.pops
      ends := by rw [ClockLog.ofReads_concat]; exact h.ends
      carried := List.forall_mem_singleton.mpr (mem_reads hstamped)
      pushed := ?_
      passed := fun timed ht => ⟨(h.passed timed ht).1, mem_reads (h.passed timed ht).2⟩ }
    · rw [ClockLog.ofReads_concat, ClockLog.record, hstamps, List.map_append, List.map_append]
      exact List.modifyLast_concat _ _ _
    · intro published he
      rcases List.mem_append.mp he with he | he
      · exact ⟨(hpushed published he).1, mem_reads (hpushed published he).2⟩
      · rw [List.mem_singleton.mp he]
        exact ⟨hnow _ hstamped, mem_reads_self⟩
  · cases hs

/-- The next attempt carries the same envelope. -/
theorem pushFails (h : r.Journal messages reads trips underway) (hs : r.step .pushFails = some r') :
    r'.Journal messages reads trips underway := by
  simp only [step] at hs
  split at hs
  · rename_i envelope hcarried
    cases hs
    have hmessages := h.messages
    have hstamps := h.stamps
    have hcarriedRead := h.carried
    rw [hcarried] at hmessages hstamps hcarriedRead
    exact { h with
      messages := hmessages
      stamps := hstamps
      carried := hcarriedRead
      pushed := fun published he => h.pushed published
        (List.mem_append_left _ (by rw [Carried.pushed, List.append_nil] at he; exact he)) }
  · cases hs

theorem publish (h : r.Journal messages reads trips underway) (hs : r.step .publish = some r') :
    r'.Journal messages reads trips underway := by
  simp only [step] at hs
  split at hs
  · rename_i envelope hcarried
    cases hs
    have hmessages := h.messages
    have hstamps := h.stamps
    have hpushed := h.pushed
    rw [hcarried, Carried.envelopes] at hmessages hstamps
    rw [hcarried, Carried.pushed] at hpushed
    exact { h with
      messages := by rw [Carried.envelopes, List.append_nil]; exact hmessages
      stamps := by rw [Carried.envelopes, List.append_nil]; exact hstamps
      fifo := h.fifo.trans (List.prefix_append _ _)
      carried := fun _ he => by cases he
      pushed := by rw [Carried.pushed, List.append_nil]; exact hpushed }
  · cases hs

/-! ### The consumer -/

theorem hand (h : r.Journal messages reads trips underway) (hs : r.step .hand = some r') :
    r'.Journal messages reads trips underway := by
  simp only [step] at hs
  split at hs
  · rename_i envelope hheld hnext
    cases hs
    have hreturned := h.returned
    have hunderway := h.inHand
    have happlied := h.applied
    rw [hheld, Held.envelopes, List.append_nil] at hreturned
    rw [hheld] at hunderway happlied
    exact { h with
      fifo := by
        rw [List.prefix_iff_eq_take, List.length_append, List.length_singleton, List.take_add_one, hnext,
          ← List.prefix_iff_eq_take.mp h.fifo]
        rfl
      returned := by rw [← hreturned]; rfl
      inHand := hunderway
      applied := happlied }
  · cases hs

/-- The clock has not gone back since the envelope was pushed. -/
theorem stampPop (h : r.Journal messages reads trips underway) {now : UInt64}
    (hnow : ∀ past ∈ reads.map ClockRead.now, past ≤ now) (hs : r.step (.stampPop now) = some r') :
    ∃ underway', r'.Journal messages (reads ++ [.pop now]) trips underway' := by
  simp only [step] at hs
  split at hs
  · rename_i envelope hheld
    cases hs
    have hreturned := h.returned
    have hunderway := h.inHand
    have happlied := h.applied
    rw [hheld] at hreturned happlied
    rw [hheld, Held.timed, List.map_eq_nil_iff] at hunderway
    subst hunderway
    have hmem : envelope ∈ r.published ++ r.carried.pushed := by
      refine List.mem_append_left _ (h.fifo.subset ?_)
      rw [hreturned]
      exact List.mem_append_right _ List.mem_cons_self
    obtain ⟨hordered, hpush⟩ := h.pushed envelope hmem
    refine ⟨[(envelope, now)], { h with
      stamps := by rw [ClockLog.ofReads_concat]; exact h.stamps
      returned := hreturned
      inHand := rfl
      pops := ?_
      ends := by rw [ClockLog.ofReads_concat]; exact h.ends
      waits := ?_
      applied := happlied
      carried := fun e he => mem_reads (h.carried e he)
      pushed := fun e he => ⟨(h.pushed e he).1, mem_reads (h.pushed e he).2⟩
      passed := List.forall_mem_singleton.mpr ⟨⟨hordered, hnow _ hpush⟩, mem_reads_self⟩ }⟩
    · rw [ClockLog.ofReads_concat, ClockLog.record, h.pops, List.map_nil, List.append_nil]
      rfl
    · rw [h.waits, List.map_nil, List.append_nil]
      rfl
  · cases hs

theorem applyMessage (h : r.Journal messages reads trips underway) (hs : r.step .applyMessage = some r') :
    r'.Journal messages reads trips underway := by
  simp only [step] at hs
  split at hs
  · rename_i envelope hheld
    cases hs
    have hreturned := h.returned
    have hunderway := h.inHand
    have happlied := h.applied
    rw [hheld] at hreturned hunderway
    rw [hheld, Held.consumed, List.map_nil, List.append_nil] at happlied
    exact { h with
      returned := hreturned
      inHand := hunderway
      applied := by rw [happlied]; rfl }
  · cases hs

/-- The clock has not gone back since the pop. -/
theorem stampEnd (h : r.Journal messages reads trips underway) {now : UInt64}
    (hnow : ∀ past ∈ reads.map ClockRead.now, past ≤ now) (hs : r.step (.stampEnd now) = some r') :
    ∃ trips', r'.Journal messages (reads ++ [.finish now]) trips' [] := by
  simp only [step] at hs
  split at hs
  · rename_i envelope hheld
    cases hs
    have hreturned := h.returned
    have hunderway := h.inHand
    have happlied := h.applied
    rw [hheld] at hreturned hunderway happlied
    obtain ⟨⟨timed, pop⟩, rfl, rfl⟩ := List.map_eq_singleton_iff.mp hunderway
    obtain ⟨hordered, hpop⟩ := h.passed _ List.mem_cons_self
    refine ⟨trips ++ [⟨timed, pop, now⟩], { h with
      stamps := by rw [ClockLog.ofReads_concat]; exact h.stamps
      returned := ?_
      inHand := rfl
      pops := ?_
      ends := ?_
      waits := ?_
      latencies := ?_
      applied := ?_
      carried := fun e he => mem_reads (h.carried e he)
      pushed := fun e he => ⟨(h.pushed e he).1, mem_reads (h.pushed e he).2⟩
      passed := fun _ ht => by cases ht
      finished := ?_ }⟩
    · rw [hreturned, List.map_append, Held.envelopes, List.append_nil]
      rfl
    · rw [ClockLog.ofReads_concat, ClockLog.record, h.pops, List.map_append, List.map_nil, List.append_nil]
      rfl
    · rw [ClockLog.ofReads_concat, ClockLog.record, h.ends, List.map_append]
      rfl
    · rw [h.waits, List.map_append, List.map_nil, List.append_nil]
      rfl
    · rw [h.latencies, List.map_append]
      rfl
    · rw [happlied, List.map_append, Held.consumed, List.map_nil, List.append_nil]
      rfl
    · intro trip ht
      rcases List.mem_append.mp ht with ht | ht
      · exact h.finished trip ht
      · rw [List.mem_singleton.mp ht]
        exact ⟨hordered, hnow _ hpop⟩
  · cases hs

theorem step (h : r.Journal messages reads trips underway) {e : RelayEvent}
    (hnow : ∀ read, e.clock? = some read → ∀ past ∈ reads.map ClockRead.now, past ≤ read.now)
    (hs : r.step e = some r') :
    ∃ trips' underway', r'.Journal messages (reads ++ e.clock?.toList) trips' underway' := by
  have hsilent : reads ++ [] = reads := List.append_nil reads
  cases e with
  | stampMessage now => exact ⟨trips, underway, h.stampMessage hs⟩
  | stampPush now => exact ⟨trips, underway, h.stampPush (hnow _ rfl) hs⟩
  | pushFails => exact ⟨trips, underway, hsilent.symm ▸ h.pushFails hs⟩
  | publish => exact ⟨trips, underway, hsilent.symm ▸ h.publish hs⟩
  | hand => exact ⟨trips, underway, hsilent.symm ▸ h.hand hs⟩
  | stampPop now =>
    obtain ⟨underway', h'⟩ := h.stampPop (hnow _ rfl) hs
    exact ⟨trips, underway', h'⟩
  | applyMessage => exact ⟨trips, underway, hsilent.symm ▸ h.applyMessage hs⟩
  | stampEnd now =>
    obtain ⟨trips', h'⟩ := h.stampEnd (hnow _ rfl) hs
    exact ⟨trips', [], h'⟩

/-! ### One message -/

/-- The messages whose pop is stamped, with the reading. -/
def popped (trips : List Trip) (underway : List (MarketMessageEnvelope × UInt64)) :
    List (MarketMessageEnvelope × UInt64) := trips.map (fun trip => (trip.envelope, trip.pop)) ++ underway

theorem popped_isPrefix (h : r.Journal messages reads trips underway) :
    (popped trips underway).map Prod.fst <+: r.published ++ r.carried.envelopes := by
  have hheld : r.held.timed <+: r.held.envelopes := by
    cases r.held with
    | nothing | popped => exact List.nil_prefix
    | waited | applied => exact List.prefix_rfl
  have hreturned : (popped trips underway).map Prod.fst <+: r.returned := by
    rw [popped, List.map_append, List.map_map, h.inHand, h.returned]
    exact (List.prefix_append_right_inj _).mpr hheld
  exact (hreturned.trans h.fifo).trans (List.prefix_append _ _)

theorem pops_eq (h : r.Journal messages reads trips underway) :
    (ClockLog.ofReads reads).pops = (popped trips underway).map Prod.snd := by
  rw [h.pops, popped, List.map_append, List.map_map]
  rfl

theorem waits_eq (h : r.Journal messages reads trips underway) :
    r.waits = (popped trips underway).map fun p => p.2 - p.1.queuePushTimestampNs := by
  rw [h.waits, popped, List.map_append, List.map_map]
  rfl

/-- Message number `i`, once its pop is stamped. -/
theorem popped_at (h : r.Journal messages reads trips underway) {i : ℕ} {envelope : MarketMessageEnvelope}
    {pop : UInt64} (hi : (popped trips underway)[i]? = some (envelope, pop)) :
    messages[i]? = some envelope.message ∧ (ClockLog.ofReads reads).stamps[i]? = some envelope.stamps ∧
      (ClockLog.ofReads reads).pops[i]? = some pop ∧
      r.waits[i]? = some (pop - envelope.queuePushTimestampNs) ∧ envelope.OrderedUpTo pop := by
  have hfst : ((popped trips underway).map Prod.fst)[i]? = some envelope := by rw [List.getElem?_map, hi]; rfl
  have hcarried := getElem?_of_isPrefix h.popped_isPrefix hfst
  have hmessages : (r.published ++ r.carried.envelopes).map MarketMessageEnvelope.message <+: messages :=
    ⟨r.rest, h.messages⟩
  refine ⟨getElem?_of_isPrefix hmessages ?_, ?_, ?_, ?_, ?_⟩
  · rw [List.getElem?_map, hcarried]
    rfl
  · rw [h.stamps, List.getElem?_map, hcarried]
    rfl
  · rw [h.pops_eq, List.getElem?_map, hi]
    rfl
  · rw [h.waits_eq, List.getElem?_map, hi]
    rfl
  · rcases List.mem_append.mp (List.mem_of_getElem? hi) with hfinished | hunder
    · obtain ⟨trip, htrip, hsame⟩ := List.mem_map.mp hfinished
      cases hsame
      exact (h.finished trip htrip).1
    · exact (h.passed _ hunder).1

theorem finished_at (h : r.Journal messages reads trips underway) {i : ℕ} {trip : Trip}
    (hi : trips[i]? = some trip) :
    r.applied[i]? = some trip.envelope.message ∧
      r.latencies[i]? = some (trip.finish - trip.envelope.producerTimestampNs) ∧ trip.pop ≤ trip.finish := by
  have happlied : trips.map (fun trip => trip.envelope.message) <+: r.applied := by
    rw [h.applied]
    exact List.prefix_append _ _
  refine ⟨getElem?_of_isPrefix happlied ?_, ?_, (h.finished trip (List.mem_of_getElem? hi)).2⟩
  · rw [List.getElem?_map, hi]
    rfl
  · rw [h.latencies, List.getElem?_map, hi]
    rfl

end Journal

end Relay

/-! ### What is recorded -/

/-- The timestamps of one message in order, and its two samples: the exact differences. -/
structure Decomposed (producer push pop finish wait latency : UInt64) : Prop where
  producer_le_push : producer ≤ push
  push_le_pop : push ≤ pop
  pop_le_finish : pop ≤ finish
  wait_exact : wait.toNat = pop.toNat - push.toNat
  latency_exact : latency.toNat = finish.toNat - producer.toNat
  wait_le_latency : wait ≤ latency

theorem decomposed_of_ordered {envelope : MarketMessageEnvelope} {pop finish : UInt64}
    (h : envelope.OrderedUpTo pop) (hfinish : pop ≤ finish) :
    Decomposed envelope.producerTimestampNs envelope.queuePushTimestampNs pop finish
      (pop - envelope.queuePushTimestampNs) (finish - envelope.producerTimestampNs) := by
  have h1 := h.producer_le_push
  have h2 := h.push_le
  have hwait := UInt64.toNat_sub_of_le _ _ h2
  have hlatency := UInt64.toNat_sub_of_le _ _ (UInt64.le_trans (UInt64.le_trans h1 h2) hfinish)
  refine ⟨h1, h2, hfinish, hwait, hlatency, ?_⟩
  rw [UInt64.le_iff_toNat_le] at h1 h2 hfinish ⊢
  omega

/-- What a pipeline has recorded, against its clock readings: message number `i` is the
`i`-th generated and the `i`-th applied, and its samples are of its own readings. -/
structure Recorded (messages : List MarketMessage) (log : ClockLog) (waits latencies : List UInt64)
    (applied : List MarketMessage) : Prop where
  waits_length : waits.length = log.pops.length
  latencies_length : latencies.length = log.ends.length
  popped : ∀ (i : ℕ) (pop : UInt64), log.pops[i]? = some pop → ∃ producer push wait : UInt64,
    log.stamps[i]? = some (producer, push) ∧ waits[i]? = some wait ∧
      producer ≤ push ∧ push ≤ pop ∧ wait.toNat = pop.toNat - push.toNat
  consumed : ∀ (i : ℕ) (finish : UInt64), log.ends[i]? = some finish → ∃ message producer push pop wait latency,
    messages[i]? = some message ∧ applied[i]? = some message ∧ log.stamps[i]? = some (producer, push) ∧
      log.pops[i]? = some pop ∧ waits[i]? = some wait ∧ latencies[i]? = some latency ∧
      Decomposed producer push pop finish wait latency

namespace Relay

variable {messages : List MarketMessage} {r : Relay}

theorem Journal.recorded {reads : List ClockRead} {trips : List Trip}
    {underway : List (MarketMessageEnvelope × UInt64)} (h : r.Journal messages reads trips underway) :
    Recorded messages (ClockLog.ofReads reads) r.waits r.latencies r.applied where
  waits_length := by simp [h.waits, h.pops]
  latencies_length := by simp [h.latencies, h.ends]
  popped i pop hi := by
    rw [h.pops_eq, List.getElem?_map] at hi
    obtain ⟨⟨envelope, pop⟩, hpopped, rfl⟩ := Option.map_eq_some_iff.mp hi
    obtain ⟨-, hstamps, -, hwait, hordered⟩ := h.popped_at hpopped
    exact ⟨_, _, _, hstamps, hwait, hordered.producer_le_push, hordered.push_le,
      UInt64.toNat_sub_of_le _ _ hordered.push_le⟩
  consumed i finish hi := by
    rw [h.ends, List.getElem?_map] at hi
    obtain ⟨trip, htrip, rfl⟩ := Option.map_eq_some_iff.mp hi
    have hpopped : (Journal.popped trips underway)[i]? = some (trip.envelope, trip.pop) := by
      refine getElem?_of_isPrefix (List.prefix_append _ _) ?_
      rw [List.getElem?_map, htrip]
      rfl
    obtain ⟨hmessage, hstamps, hpop, hwait, hordered⟩ := h.popped_at hpopped
    obtain ⟨happlied, hlatency, hfinish⟩ := h.finished_at htrip
    exact ⟨_, _, _, _, _, _, hmessage, happlied, hstamps, hpop, hwait, hlatency,
      decomposed_of_ordered hordered hfinish⟩

/-- A journal exists as long as the clock has not gone back. -/
def Kept (messages : List MarketMessage) (events : List RelayEvent) (r : Relay) : Prop :=
  NeverDecreases (events.filterMap RelayEvent.clock?) →
    ∃ trips underway, r.Journal messages (events.filterMap RelayEvent.clock?) trips underway

theorem Kept.step {events : List RelayEvent} {e : RelayEvent} {r' : Relay} (h : Kept messages events r)
    (hs : r.step e = some r') : Kept messages (events ++ [e]) r' := by
  intro hclock
  rw [filterMap_snoc, NeverDecreases, List.map_append, List.pairwise_append] at hclock
  rw [filterMap_snoc]
  obtain ⟨trips, underway, hjournal⟩ := h hclock.1
  refine hjournal.step ?_ hs
  intro read hread past hpast
  refine hclock.2.2 past hpast read.now ?_
  rw [hread]
  exact List.mem_cons_self

theorem recorded_of_run {events : List RelayEvent} (hrun : exec step (make messages) events = some r)
    (hclock : NeverDecreases (events.filterMap RelayEvent.clock?)) :
    Recorded messages (ClockLog.ofReads (events.filterMap RelayEvent.clock?)) r.waits r.latencies r.applied := by
  have hstep : ∀ events r e r', Kept messages events r → step r e = some r' → Kept messages (events ++ [e]) r' :=
    fun _ _ _ _ h hs => h.step hs
  have hmake : Kept messages [] (make messages) := fun _ => ⟨[], [], journal_make messages⟩
  obtain ⟨trips, underway, hjournal⟩ := exec_history hstep hmake hrun hclock
  exact hjournal.recorded

/-- What a system records whose steps are a relay's. -/
theorem recorded_of_follows {S E : Type*} {next : S → E → Option S} {clock? : E → Option ClockRead}
    {P : S → Prop} {relay : S → Relay} {s s' : S} {events : List E}
    (hstep : ∀ s e s', P s → next s e = some s' → P s' ∧ (relay s).Follows (clock? e) (relay s'))
    (h : P s) (hmake : relay s = make messages) (hrun : exec next s events = some s')
    (hclock : NeverDecreases (events.filterMap clock?)) :
    Recorded messages (ClockLog.ofReads (events.filterMap clock?)) (relay s').waits (relay s').latencies
      (relay s').applied := by
  have hmatched : ∀ s r e s', P s ∧ relay s = r → next s e = some s' →
      ∃ fs r', exec step r fs = some r' ∧ fs.filterMap RelayEvent.clock? = (clock? e).toList ∧
        P s' ∧ relay s' = r' := by
    rintro s _ e s' ⟨h, rfl⟩ hs
    obtain ⟨h', fs, hfs, hreads⟩ := hstep s e s' h hs
    exact ⟨fs, _, hfs, hreads, h', rfl⟩
  obtain ⟨fs, _, hfs, hreads, -, rfl⟩ :=
    exec_simulates (R := fun s r => P s ∧ relay s = r) hmatched ⟨h, hmake⟩ hrun
  rw [← hreads] at hclock ⊢
  exact recorded_of_run hfs hclock

end Relay

end LatencyLab
