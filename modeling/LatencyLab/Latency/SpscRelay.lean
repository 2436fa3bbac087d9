import LatencyLab.Latency.Journal
import LatencyLab.Spsc.Shutdown

/-! The SPSC pipeline is a relay: each of its steps is a relay's step with the same
reading of the clock, or none. What the relay needs of the ring is that items come out
in order and are the ones pushed. A ring whose capacity wraps to zero has no cells, and
nothing comes out of it. -/

namespace LatencyLab

open Transition

namespace Channel

variable {T : Type*} {c c' : Channel T}

/-- A ring without cells, of which nothing has been read. -/
structure Barren (c : Channel T) : Prop where
  cells : c.ring.buffer_ = []
  returned : c.returned = []
  pop : ∀ item tail, c.pop ≠ .read item tail

theorem Barren.step (h : c.Barren) {e : ChannelEvent T} (hs : c.step e = some c') : c'.Barren := by
  cases e with
  | pushCall item => obtain ⟨-, rfl⟩ := of_pushCall hs; exact { h with }
  | pushLoadHead => obtain ⟨_, _, -, -, rfl⟩ := of_pushLoadHead hs; exact { h with }
  | pushLoadTail k => obtain ⟨_, _, _, _, -, -, -, rfl⟩ := of_pushLoadTail hs; exact { h with }
  | pushPartialWrite junk =>
    obtain ⟨_, head, _, -, rfl⟩ := of_pushPartialWrite hs
    exact { h with cells := by rw [h.cells]; rfl }
  | pushWrite =>
    obtain ⟨_, head, _, -, rfl⟩ := of_pushWrite hs
    exact { h with cells := by rw [h.cells]; rfl }
  | pushStoreHead => obtain ⟨_, _, -, rfl⟩ := of_pushStoreHead hs; exact { h with }
  | popCall => obtain ⟨-, rfl⟩ := of_popCall hs; exact { h with pop := by simp }
  | popLoadTail => obtain ⟨_, -, -, rfl⟩ := of_popLoadTail hs; exact { h with pop := by simp }
  | popLoadHead k =>
    obtain ⟨_, _, -, -, -, rfl⟩ := of_popLoadHead hs
    exact { h with pop := fun item tail => by split_ifs <;> simp }
  | popRead =>
    obtain ⟨tail, item, -, hitem, -⟩ := of_popRead hs
    rw [h.cells] at hitem
    cases hitem
  | popStoreTail =>
    obtain ⟨item, tail, hpc, -⟩ := of_popStoreTail hs
    exact absurd hpc (h.pop item tail)

/-- Items come out in order, whatever the capacity. -/
def InOrder (c : Channel T) : Prop := c.Inv ∨ c.Barren

theorem InOrder.step (h : c.InOrder) {e : ChannelEvent T} (hs : c.step e = some c') : c'.InOrder :=
  h.imp (fun h => h.step hs) fun h => h.step hs

theorem InOrder.fifo (h : c.InOrder) : c.returned <+: c.published := by
  rcases h with h | h
  · exact h.fifo
  · rw [h.returned]
    exact List.nil_prefix

theorem inOrder_make [Inhabited T] (capacity : ℕ) : (make capacity : Channel T).InOrder := by
  by_cases hzero : (capacity + 1) % sizeMod = 0
  · exact .inr ⟨by simp [make, SpscRingBuffer.make, hzero], rfl, by simp [make]⟩
  · have hlt : (capacity + 1) % sizeMod < sizeMod := Nat.mod_lt _ (by decide)
    -- a capacity that has wrapped is the smaller one
    have hcap : (capacity + 1) % sizeMod - 1 + 1 = (capacity + 1) % sizeMod := by omega
    have hmake : (make capacity : Channel T) = make ((capacity + 1) % sizeMod - 1) := by
      simp only [make, SpscRingBuffer.make, hcap, Nat.mod_mod]
    rw [hmake]
    exact .inl (inv_make (by rw [hcap]; exact hlt))

end Channel

def PipelineEvent.clock? : PipelineEvent → Option ClockRead
  | .stampMessage now => some (.message now)
  | .stampPush now => some (.push now)
  | .stampPop now => some (.pop now)
  | .stampEnd now => some (.finish now)
  | _ => none

namespace Pipeline

/-! ### The relay -/

def rest : ProducerPc → List MarketMessage
  | .nextMessage rest | .stamped _ rest | .pushing _ rest | .pushed rest => rest
  | .finished => []

/-- A push that has returned `true` has published. -/
def carried : ProducerPc → PushPc MarketMessageEnvelope → Carried
  | .stamped envelope _, _ => .stamped envelope
  | .pushing _ _, .idle true => .nothing
  | .pushing envelope _, _ => .pushing envelope
  | .nextMessage _, _ | .pushed _, _ | .finished, _ => .nothing

theorem carried_pushing {envelope : MarketMessageEnvelope} {rest : List MarketMessage}
    {pc : PushPc MarketMessageEnvelope} (h : pc ≠ .idle true) :
    carried (.pushing envelope rest) pc = .pushing envelope := by
  cases pc with
  | idle result =>
    cases result with
    | false => rfl
    | true => exact absurd rfl h
  | _ => rfl

def held : ConsumerPc → PopPc MarketMessageEnvelope → Held
  | .popping, pc => pc.handed.elim .nothing .popped
  | .popped envelope, _ => .popped envelope
  | .waited envelope, _ | .timing envelope _, _ => .waited envelope
  | .applied envelope _, _ | .timed envelope, _ => .applied envelope
  | .testDone, _ | .testHead, _ | .testTail _, _ | .recorded, _ | .finished, _ => .nothing

variable {B : Type*}

def relay (s : Pipeline B) : Relay where
  rest := rest s.producer
  carried := carried s.producer s.queue.push
  published := s.queue.published
  returned := s.queue.returned
  held := held s.consumer s.queue.pop
  waits := s.queueWaitRecorder
  latencies := s.pipelineLatencyRecorder
  applied := s.appliedMessages

/-- The ring is in order, and what is being pushed is what the producer carries. -/
structure Sound (s : Pipeline B) : Prop where
  queue : s.queue.InOrder
  item : ∀ envelope rest item, s.producer = .pushing envelope rest →
    s.queue.push.item? = some item → item = envelope

variable {onMessage : B → MarketMessage → B} {s s' : Pipeline B}

theorem sound_make (capacity : ℕ) (messages : List MarketMessage) (book : B) :
    (make capacity messages book).Sound where
  queue := Channel.inOrder_make capacity
  item := by simp [make]

namespace Sound

theorem stampMessage (h : s.Sound) {now : UInt64} (hs : s.step onMessage (.stampMessage now) = some s') :
    s'.Sound ∧ s.relay.Follows (some (.message now)) s'.relay := by
  simp only [step] at hs
  split at hs
  · rename_i message rest hpc
    cases hs
    refine ⟨⟨h.queue, by simp⟩, Relay.follows_of_step (.stampMessage now) rfl ?_⟩
    simp only [Relay.step, relay, hpc]
    rfl
  · cases hs

theorem stampPush (h : s.Sound) {now : UInt64} (hs : s.step onMessage (.stampPush now) = some s') :
    s'.Sound ∧ s.relay.Follows (some (.push now)) s'.relay := by
  simp only [step] at hs
  split at hs
  · rename_i envelope rest hpc
    obtain ⟨queue, hq, heq⟩ := Option.map_eq_some_iff.mp hs
    cases heq
    have hqueue := h.queue.step hq
    obtain ⟨-, rfl⟩ := Channel.of_pushCall hq
    refine ⟨⟨hqueue, ?_⟩, Relay.follows_of_step (.stampPush now) rfl ?_⟩
    · rintro envelope' rest' item' ⟨rfl, rfl⟩ ⟨rfl⟩
      rfl
    · simp only [Relay.step, relay, hpc]
      rfl
  · cases hs

/-- A step inside `push`: the store of the head publishes the envelope. -/
theorem inPush (h : s.Sound) {e : ChannelEvent MarketMessageEnvelope}
    (hs : s.step onMessage (.inPush e) = some s') : s'.Sound ∧ s.relay.Follows none s'.relay := by
  simp only [step] at hs
  split at hs
  · rename_i envelope rest hpc
    split_ifs at hs with he
    obtain ⟨queue, hq, heq⟩ := Option.map_eq_some_iff.mp hs
    cases heq
    obtain ⟨hpop, hret, item, hitem, hcall⟩ := pushStep_of_step he hq
    obtain rfl : item = envelope := h.item envelope rest item hpc hitem
    have hbusy := ne_idle_true (.inl hitem)
    refine ⟨⟨h.queue.step hq, ?_⟩, ?_⟩
    · intro envelope' rest' item' hpc' hitem'
      cases hpc.symm.trans hpc'
      rcases hcall with ⟨-, hgo | hfail⟩ | ⟨-, hok⟩
      · exact Option.some.inj (hitem'.symm.trans hgo)
      · rw [hfail] at hitem'
        cases hitem'
      · rw [hok] at hitem'
        cases hitem'
    · rcases hcall with ⟨hpub, hgoes⟩ | ⟨hpub, hok⟩
      · refine Relay.follows_of_eq rfl ?_
        simp only [relay, hpc, carried_pushing hbusy, carried_pushing (ne_idle_true hgoes), hpub, hret, hpop]
      · refine Relay.follows_of_step .publish rfl ?_
        simp only [Relay.step, relay, hpc, carried_pushing hbusy, hpub, hret, hpop, hok]
        rfl
  · cases hs

theorem pushReturns (h : s.Sound) (hs : s.step onMessage .pushReturns = some s') :
    s'.Sound ∧ s.relay.Follows none s'.relay := by
  simp only [step] at hs
  split at hs
  · rename_i envelope rest hpc hpush
    cases hs
    refine ⟨⟨h.queue, by simp⟩, Relay.follows_of_eq rfl ?_⟩
    simp only [relay, hpc, hpush]
    rfl
  · rename_i envelope rest hpc hpush
    cases hs
    refine ⟨⟨h.queue, by simp⟩, Relay.follows_of_step .pushFails rfl ?_⟩
    simp only [Relay.step, relay, hpc, hpush]
    rfl
  · cases hs

theorem countProduced (h : s.Sound) (hs : s.step onMessage .countProduced = some s') :
    s'.Sound ∧ s.relay.Follows none s'.relay := by
  simp only [step] at hs
  split at hs
  · rename_i rest hpc
    cases hs
    refine ⟨⟨h.queue, by simp⟩, Relay.follows_of_eq rfl ?_⟩
    simp only [relay, hpc]
    rfl
  · cases hs

theorem storeDone (h : s.Sound) (hs : s.step onMessage .storeDone = some s') :
    s'.Sound ∧ s.relay.Follows none s'.relay := by
  simp only [step] at hs
  split at hs
  · rename_i hpc
    cases hs
    refine ⟨⟨h.queue, by simp⟩, Relay.follows_of_eq rfl ?_⟩
    simp only [relay, hpc]
    rfl
  · cases hs

/-! ### The consumer -/

/-- Entering `pop` from a test, which holds nothing. -/
theorem callPop (h : s.Sound) (hheld : held s.consumer s.queue.pop = .nothing) (hs : s.callPop = some s') :
    s'.Sound ∧ s.relay.Follows none s'.relay := by
  obtain ⟨queue, hq, heq⟩ := Option.map_eq_some_iff.mp hs
  cases heq
  have hqueue := h.queue.step hq
  obtain ⟨-, rfl⟩ := Channel.of_popCall hq
  refine ⟨⟨hqueue, h.item⟩, Relay.follows_of_eq rfl ?_⟩
  simp only [relay, hheld]
  rfl

theorem loadDone (h : s.Sound) (hs : s.step onMessage .loadDone = some s') :
    s'.Sound ∧ s.relay.Follows none s'.relay := by
  simp only [step] at hs
  split at hs
  · rename_i hpc
    split_ifs at hs
    · cases hs
      refine ⟨⟨h.queue, h.item⟩, Relay.follows_of_eq rfl ?_⟩
      simp only [relay, hpc]
      rfl
    · exact h.callPop (by rw [hpc]; rfl) hs
  · cases hs

theorem loadHead (h : s.Sound) (hs : s.step onMessage .loadHead = some s') :
    s'.Sound ∧ s.relay.Follows none s'.relay := by
  simp only [step] at hs
  split at hs
  · rename_i head hpc hhead
    cases hs
    refine ⟨⟨h.queue, h.item⟩, Relay.follows_of_eq rfl ?_⟩
    simp only [relay, hpc]
    rfl
  · cases hs

theorem loadTail (h : s.Sound) (hs : s.step onMessage .loadTail = some s') :
    s'.Sound ∧ s.relay.Follows none s'.relay := by
  simp only [step] at hs
  split at hs
  · rename_i head tail hpc htail
    split_ifs at hs
    · cases hs
      refine ⟨⟨h.queue, h.item⟩, Relay.follows_of_eq rfl ?_⟩
      simp only [relay, hpc]
      rfl
    · exact h.callPop (by rw [hpc]; rfl) hs
  · cases hs

/-- A step inside `pop`: the store of the tail hands out the next published envelope. -/
theorem inPop (h : s.Sound) {e : ChannelEvent MarketMessageEnvelope}
    (hs : s.step onMessage (.inPop e) = some s') : s'.Sound ∧ s.relay.Follows none s'.relay := by
  simp only [step] at hs
  split at hs
  · rename_i hpc
    split_ifs at hs with he
    obtain ⟨queue, hq, heq⟩ := Option.map_eq_some_iff.mp hs
    cases heq
    obtain ⟨hbusy, hpush, hpub, hcall⟩ := popStep_of_step he hq
    have hqueue := h.queue.step hq
    refine ⟨⟨hqueue, by rw [hpush]; exact h.item⟩, ?_⟩
    rcases hcall with ⟨hret, hnone⟩ | ⟨envelope, hret, hok⟩
    · refine Relay.follows_of_eq rfl ?_
      simp only [relay, hpc, held, hpush, hpub, hret, hbusy, hnone]
    · have hfifo := hqueue.fifo
      rw [hret, hpub] at hfifo
      have hnext := Relay.getElem?_of_concat_isPrefix hfifo
      refine Relay.follows_of_step .hand rfl ?_
      simp only [Relay.step, relay, hpc, held, hpush, hpub, hret, hbusy, hok, hnext]
      rfl
  · cases hs

theorem popReturns (h : s.Sound) (hs : s.step onMessage .popReturns = some s') :
    s'.Sound ∧ s.relay.Follows none s'.relay := by
  simp only [step] at hs
  split at hs
  · rename_i envelope hpc hpop
    cases hs
    refine ⟨⟨h.queue, h.item⟩, Relay.follows_of_eq rfl ?_⟩
    simp only [relay, hpc, hpop]
    rfl
  · rename_i hpc hpop
    cases hs
    refine ⟨⟨h.queue, h.item⟩, Relay.follows_of_eq rfl ?_⟩
    simp only [relay, hpc, hpop]
    rfl
  · cases hs

theorem stampPop (h : s.Sound) {now : UInt64} (hs : s.step onMessage (.stampPop now) = some s') :
    s'.Sound ∧ s.relay.Follows (some (.pop now)) s'.relay := by
  simp only [step] at hs
  split at hs
  · rename_i envelope hpc
    cases hs
    refine ⟨⟨h.queue, h.item⟩, Relay.follows_of_step (.stampPop now) rfl ?_⟩
    simp only [Relay.step, relay, hpc]
    rfl
  · cases hs

theorem startBook (h : s.Sound) {now : UInt64} (hs : s.step onMessage (.startBook now) = some s') :
    s'.Sound ∧ s.relay.Follows none s'.relay := by
  simp only [step] at hs
  split at hs
  · rename_i envelope hpc
    cases hs
    refine ⟨⟨h.queue, h.item⟩, Relay.follows_of_eq rfl ?_⟩
    simp only [relay, hpc]
    rfl
  · cases hs

theorem applyMessage (h : s.Sound) (hs : s.step onMessage .applyMessage = some s') :
    s'.Sound ∧ s.relay.Follows none s'.relay := by
  simp only [step] at hs
  split at hs
  · rename_i envelope bookStart hpc
    cases hs
    refine ⟨⟨h.queue, h.item⟩, Relay.follows_of_step .applyMessage rfl ?_⟩
    simp only [Relay.step, relay, hpc]
    rfl
  · cases hs

theorem endBook (h : s.Sound) {now : UInt64} (hs : s.step onMessage (.endBook now) = some s') :
    s'.Sound ∧ s.relay.Follows none s'.relay := by
  simp only [step] at hs
  split at hs
  · rename_i envelope bookStart hpc
    cases hs
    refine ⟨⟨h.queue, h.item⟩, Relay.follows_of_eq rfl ?_⟩
    simp only [relay, hpc]
    rfl
  · cases hs

theorem stampEnd (h : s.Sound) {now : UInt64} (hs : s.step onMessage (.stampEnd now) = some s') :
    s'.Sound ∧ s.relay.Follows (some (.finish now)) s'.relay := by
  simp only [step] at hs
  split at hs
  · rename_i envelope hpc
    cases hs
    refine ⟨⟨h.queue, h.item⟩, Relay.follows_of_step (.stampEnd now) rfl ?_⟩
    simp only [Relay.step, relay, hpc]
    rfl
  · cases hs

theorem countConsumed (h : s.Sound) (hs : s.step onMessage .countConsumed = some s') :
    s'.Sound ∧ s.relay.Follows none s'.relay := by
  simp only [step] at hs
  split at hs
  · rename_i hpc
    cases hs
    refine ⟨⟨h.queue, h.item⟩, Relay.follows_of_eq rfl ?_⟩
    simp only [relay, hpc]
    rfl
  · cases hs

theorem step (h : s.Sound) {e : PipelineEvent} (hs : s.step onMessage e = some s') :
    s'.Sound ∧ s.relay.Follows e.clock? s'.relay := by
  cases e with
  | stampMessage now => exact h.stampMessage hs
  | stampPush now => exact h.stampPush hs
  | inPush e => exact h.inPush hs
  | pushReturns => exact h.pushReturns hs
  | countProduced => exact h.countProduced hs
  | storeDone => exact h.storeDone hs
  | loadDone => exact h.loadDone hs
  | loadHead => exact h.loadHead hs
  | loadTail => exact h.loadTail hs
  | inPop e => exact h.inPop hs
  | popReturns => exact h.popReturns hs
  | stampPop now => exact h.stampPop hs
  | startBook now => exact h.startBook hs
  | applyMessage => exact h.applyMessage hs
  | endBook now => exact h.endBook hs
  | stampEnd now => exact h.stampEnd hs
  | countConsumed => exact h.countConsumed hs

end Sound

theorem recorded_of_run {capacity : ℕ} {messages : List MarketMessage} {book : B} {events : List PipelineEvent}
    (hrun : exec (step onMessage) (make capacity messages book) events = some s)
    (hclock : NeverDecreases (events.filterMap PipelineEvent.clock?)) :
    Recorded messages (ClockLog.ofReads (events.filterMap PipelineEvent.clock?)) s.queueWaitRecorder
      s.pipelineLatencyRecorder s.appliedMessages :=
  Relay.recorded_of_follows (fun _ _ _ h hs => Sound.step h hs) (sound_make capacity messages book) rfl hrun hclock

end Pipeline

end LatencyLab
