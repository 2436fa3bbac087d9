import LatencyLab.Spsc.MemoryOrders
import LatencyLab.Spsc.Shutdown

/-! The SPSC pipeline with the memory orders that it asks for. `producer_done` is a
releasing store and an acquiring load, `empty` acquires both indices, and any of these
loads may be stale as far as coherence allows. What makes the exit safe is not the order
of the tests alone: a consumer that has read the flag knows what the producer knew when
it stored it, so it cannot read an old head any more. -/

namespace LatencyLab

open HappensBefore Transition

/-- The threads of the pipeline with the memory they share. -/
structure SharedPipeline (B : Type*) where
  pipeline : Pipeline B
  sharing : Sharing

/-- The steps of the pipeline. A load comes with the position that it reads from. -/
inductive SharedPipelineEvent
  | program (e : PipelineEvent)
  | inPush (e : SharedEvent MarketMessageEnvelope)
  | inPop (e : SharedEvent MarketMessageEnvelope)
  | storeDone
  | loadDone (position : ℕ)
  | loadHead (position : ℕ)
  | loadTail (position : ℕ)
  deriving DecidableEq

/-- The steps that touch neither an atomic location nor a slot. -/
def PipelineEvent.isLocal : PipelineEvent → Bool
  | .inPush _ | .inPop _ | .storeDone | .loadDone | .loadHead | .loadTail => false
  | _ => true

def SharedEvent.inPush {T : Type*} : SharedEvent T → Bool
  | .pushLoadHead _ | .pushLoadTail _ | .pushPartialWrite _ | .pushWrite | .pushStoreHead => true
  | _ => false

def SharedEvent.inPop {T : Type*} : SharedEvent T → Bool
  | .popLoadTail _ | .popLoadHead _ | .popRead | .popStoreTail => true
  | _ => false

namespace SharedPipeline

variable {B : Type*}

def make (capacity : ℕ) (messages : List MarketMessage) (book : B) : SharedPipeline B :=
  ⟨Pipeline.make capacity messages book, .initial⟩

/-- The queue with the memory. -/
def shared (s : SharedPipeline B) : SharedChannel MarketMessageEnvelope := ⟨s.pipeline.queue, s.sharing⟩

/-- A step on the queue. -/
def onQueue (s : SharedPipeline B) (e : SharedEvent MarketMessageEnvelope) : Option (SharedPipeline B) :=
  (s.shared.step e).map fun queue => ⟨{ s.pipeline with queue := queue.channel }, queue.sharing⟩

/-- The values of `producer_done` in its modification order. -/
def doneValues : List Bool := [false, true]

def step (onMessage : B → MarketMessage → B) (s : SharedPipeline B) :
    SharedPipelineEvent → Option (SharedPipeline B)
  | .program e =>
    if e.isLocal then (s.pipeline.step onMessage e).map fun pipeline => { s with pipeline := pipeline } else none
  | .inPush e =>
    match s.pipeline.producer with
    | .pushing _ _ => if e.inPush then s.onQueue e else none
    | _ => none
  | .inPop e =>
    match s.pipeline.consumer with
    | .popping => if e.inPop then s.onQueue e else none
    | _ => none
  | .storeDone =>
    (s.pipeline.step onMessage .storeDone).map fun pipeline => ⟨pipeline, s.sharing.release .producer .flag⟩
  | .loadDone position =>
    match s.pipeline.consumer, doneValues[position]? with
    | .testDone, some done =>
      (s.sharing.acquire .consumer .flag position).bind fun sharing =>
        if done then some ⟨{ s.pipeline with consumer := .testHead }, sharing⟩
        else s.pipeline.callPop.map fun pipeline => ⟨pipeline, sharing⟩
    | _, _ => none
  | .loadHead position =>
    match s.pipeline.consumer, s.pipeline.queue.ring.head_[position]? with
    | .testHead, some head =>
      (s.sharing.acquire .consumer .head position).map fun sharing =>
        ⟨{ s.pipeline with consumer := .testTail head }, sharing⟩
    | _, _ => none
  | .loadTail position =>
    match s.pipeline.consumer, s.pipeline.queue.ring.tail_[position]? with
    | .testTail head, some tail =>
      (s.sharing.acquire .consumer .tail position).bind fun sharing =>
        if head = tail then some ⟨{ s.pipeline with consumer := .finished }, sharing⟩
        else s.pipeline.callPop.map fun pipeline => ⟨pipeline, sharing⟩
    | _, _ => none

end SharedPipeline

/-! ### Steps with stale loads -/

namespace Pipeline.Inv

variable {B : Type*} {capacity : ℕ} {messages : List MarketMessage} {onMessage : B → MarketMessage → B} {book : B}
  {s : Pipeline B} {queue : Channel MarketMessageEnvelope}

theorem queuePush (h : s.Inv capacity messages onMessage book) {envelope : MarketMessageEnvelope}
    {rest : List MarketMessage} (hpc : s.producer = .pushing envelope rest) {e : ChannelEvent MarketMessageEnvelope}
    (he : e.inPush s.queue.ring = true) (hq : s.queue.step e = some queue) :
    Inv capacity messages onMessage book { s with queue := queue } := by
  refine h.inPush (e := e) ?_
  simp only [Pipeline.step, hpc, if_pos he, hq, Option.map_some]

theorem queuePop (h : s.Inv capacity messages onMessage book) (hpc : s.consumer = .popping)
    {e : ChannelEvent MarketMessageEnvelope} (he : e.inPop s.queue.ring = true) (hq : s.queue.step e = some queue) :
    Inv capacity messages onMessage book { s with queue := queue } := by
  refine h.inPop (e := e) ?_
  simp only [Pipeline.step, hpc, if_pos he, hq, Option.map_some]

/-- However old the tail that `push` reads, the call goes on or gives up. -/
theorem pushLoadTail (h : s.Inv capacity messages onMessage book) {envelope : MarketMessageEnvelope}
    {rest : List MarketMessage} (hpc : s.producer = .pushing envelope rest) {position : ℕ}
    (hq : s.queue.step (.pushLoadTail position) = some queue) :
    Inv capacity messages onMessage book { s with queue := queue } := by
  have hqueue := h.queue.step hq
  obtain ⟨item, head, nextHead, tail, hpush, -, -, rfl⟩ := Channel.of_pushLoadTail hq
  have hsame : item = envelope := h.item envelope rest item hpc (by rw [hpush]; rfl)
  have hsent := h.sent
  have hproduced := h.produced
  rw [hpush, hpc] at hsent hproduced
  refine { h with queue := hqueue, item := ?_, sent := ?_, produced := ?_ }
  · intro envelope' rest' item' hpc' hitem
    cases hpc.symm.trans hpc'
    dsimp only at hitem
    split_ifs at hitem with hfull
    · cases hitem
    · cases hitem
      exact hsame
  · rw [hpc]
    dsimp only
    split_ifs
    · exact hsent
    · exact hsent
  · rw [hpc]
    dsimp only
    split_ifs
    · exact hproduced
    · exact hproduced

/-- However old the head that `pop` reads, the call goes on or gives up. -/
theorem popLoadHead (h : s.Inv capacity messages onMessage book) (hpc : s.consumer = .popping) {position : ℕ}
    (hq : s.queue.step (.popLoadHead position) = some queue) :
    Inv capacity messages onMessage book { s with queue := queue } := by
  have hqueue := h.queue.step hq
  obtain ⟨tail, head, hpop, -, -, rfl⟩ := Channel.of_popLoadHead hq
  have hreceived := h.received
  rw [hpop, hpc] at hreceived
  refine { h with queue := hqueue, received := ?_ }
  rw [hpc]
  dsimp only
  split_ifs
  · exact hreceived
  · exact hreceived

end Pipeline.Inv

namespace SharedPipeline

variable {B : Type*} {capacity : ℕ} {messages : List MarketMessage} {onMessage : B → MarketMessage → B} {book : B}
  {s s' : SharedPipeline B}

/-! ### The invariant -/

/-- The pipeline's invariant and the queue's. Who reads the flag stored knows of the
last head, and knows it still while it tests the indices. -/
structure Inv (capacity : ℕ) (messages : List MarketMessage) (onMessage : B → MarketMessage → B) (book : B)
    (s : SharedPipeline B) : Prop where
  pipeline : Pipeline.Inv capacity messages onMessage book s.pipeline
  shared : SharedChannel.Inv capacity s.shared
  flag : (s.sharing.memory.stores .flag).length = if s.pipeline.producerDone then 2 else 1
  done : ∀ k, (s.sharing.memory.stores .flag)[1]? = some k → k.seen .head + 1 = s.pipeline.queue.ring.head_.length
  testHead : s.pipeline.consumer = .testHead →
    (s.sharing.memory.known .consumer).seen .head + 1 = s.pipeline.queue.ring.head_.length

theorem inv_make (hcap : capacity + 1 < sizeMod) (onMessage : B → MarketMessage → B) :
    (make capacity messages book).Inv capacity messages onMessage book where
  pipeline := Pipeline.inv_make hcap onMessage
  shared := SharedChannel.inv_make hcap
  flag := rfl
  done _ hk := by cases hk
  testHead hc := by cases hc

namespace Inv

/-- The flag is stored when there is a store behind its initial value. -/
theorem producerDone (h : s.Inv capacity messages onMessage book) {k : Knowledge Role Location}
    (hk : (s.sharing.memory.stores .flag)[1]? = some k) : s.pipeline.producerDone = true := by
  have hlt := (List.getElem?_eq_some_iff.mp hk).1
  rw [h.flag] at hlt
  split_ifs at hlt with hdone
  · exact hdone
  · exact absurd hlt (by decide)

/-! #### Local steps -/

/-- What a local step leaves alone. -/
structure LocalStep (p p' : Pipeline B) : Prop where
  queue : p'.queue = p.queue ∨ ∃ item, p.queue.step (.pushCall item) = some p'.queue
  producerDone : p'.producerDone = p.producerDone
  consumer : p'.consumer = .testHead → p.consumer = .testHead

theorem localStep {p p' : Pipeline B} {e : PipelineEvent} (he : e.isLocal = true)
    (hs : p.step onMessage e = some p') : LocalStep p p' := by
  cases e with
  | inPush e => cases he
  | inPop e => cases he
  | storeDone => cases he
  | loadDone => cases he
  | loadHead => cases he
  | loadTail => cases he
  | stampPush now =>
    simp only [Pipeline.step] at hs
    split at hs
    · obtain ⟨queue, hq, rfl⟩ := Option.map_eq_some_iff.mp hs
      exact ⟨.inr ⟨_, hq⟩, rfl, fun hc => hc⟩
    · cases hs
  | pushReturns =>
    simp only [Pipeline.step] at hs
    split at hs
    · cases hs
      exact ⟨.inl rfl, rfl, fun hc => hc⟩
    · cases hs
      exact ⟨.inl rfl, rfl, fun hc => hc⟩
    · cases hs
  | popReturns =>
    simp only [Pipeline.step] at hs
    split at hs
    · cases hs
      exact ⟨.inl rfl, rfl, by simp⟩
    · cases hs
      exact ⟨.inl rfl, rfl, by simp⟩
    · cases hs
  | _ =>
    simp only [Pipeline.step] at hs
    split at hs
    · cases hs
      exact ⟨.inl rfl, rfl, by simp⟩
    · cases hs

theorem program (h : s.Inv capacity messages onMessage book) {e : PipelineEvent}
    (hs : s.step onMessage (.program e) = some s') : s'.Inv capacity messages onMessage book := by
  simp only [step] at hs
  split_ifs at hs with he
  obtain ⟨pipeline, hp, rfl⟩ := Option.map_eq_some_iff.mp hs
  obtain ⟨hqueue, hdone, hconsumer⟩ := localStep he hp
  have hring : pipeline.queue.ring = s.pipeline.queue.ring := by
    rcases hqueue with heq | ⟨item, hcall⟩
    · rw [heq]
    · rw [(Channel.of_pushCall hcall).2]
  have hshared : SharedChannel.Inv capacity ⟨pipeline.queue, s.sharing⟩ := by
    rcases hqueue with heq | ⟨item, hcall⟩
    · rw [heq]
      exact h.shared
    · have hstep : s.shared.step (.pushCall item) = some ⟨pipeline.queue, s.sharing⟩ :=
        Option.map_eq_some_iff.mpr ⟨_, hcall, rfl⟩
      exact h.shared.step hstep
  exact {
    pipeline := h.pipeline.step hp
    shared := hshared
    flag := by rw [hdone]; exact h.flag
    done := by rw [hring]; exact h.done
    testHead := by
      rw [hring]
      exact fun hc => h.testHead (hconsumer hc) }

/-! #### The producer -/

/-- While the producer runs, the consumer does not test the indices. -/
theorem running (h : s.Inv capacity messages onMessage book) (hp : s.pipeline.producer ≠ .finished) :
    s.pipeline.producerDone = false ∧ s.pipeline.consumer ≠ .testHead :=
  ⟨Bool.eq_false_iff.mpr (h.pipeline.running hp), (h.pipeline.before_exit hp).1⟩

theorem inPush (h : s.Inv capacity messages onMessage book) {e : SharedEvent MarketMessageEnvelope}
    (hs : s.step onMessage (.inPush e) = some s') : s'.Inv capacity messages onMessage book := by
  simp only [step] at hs
  split at hs
  · rename_i envelope rest hpc
    split_ifs at hs with he
    obtain ⟨queue, hq, rfl⟩ := Option.map_eq_some_iff.mp hs
    have hpipeline : Pipeline.Inv capacity messages onMessage book
        { s.pipeline with queue := queue.channel } := by
      cases e with
      | pushLoadHead position => exact h.pipeline.queuePush hpc rfl (h.shared.pushLoadHead_eq hq).2.1
      | pushLoadTail position =>
        obtain ⟨sharing, -, hstep⟩ := Option.bind_eq_some_iff.mp hq
        obtain ⟨channel, hc, rfl⟩ := Option.map_eq_some_iff.mp hstep
        exact h.pipeline.pushLoadTail hpc hc
      | pushPartialWrite junk =>
        obtain ⟨channel, hc, rfl⟩ := Option.map_eq_some_iff.mp hq
        exact h.pipeline.queuePush hpc rfl hc
      | pushWrite =>
        obtain ⟨channel, hc, rfl⟩ := Option.map_eq_some_iff.mp hq
        exact h.pipeline.queuePush hpc rfl hc
      | pushStoreHead =>
        obtain ⟨channel, hc, rfl⟩ := Option.map_eq_some_iff.mp hq
        exact h.pipeline.queuePush hpc rfl hc
      | _ => cases he
    have hflag := SharedChannel.flag_step h.shared hq (by rintro rfl; cases he)
    obtain ⟨hdone, hconsumer⟩ := h.running (by rw [hpc]; simp)
    exact {
      pipeline := hpipeline
      shared := h.shared.step hq
      flag := by
        rw [hflag]
        exact h.flag
      done := fun k hk => by
        rw [hflag] at hk
        exact absurd (h.producerDone hk) (by rw [hdone]; simp)
      testHead := fun hc => absurd hc hconsumer }
  · cases hs

/-- The flag releases the last head. -/
theorem storeDone (h : s.Inv capacity messages onMessage book)
    (hs : s.step onMessage .storeDone = some s') : s'.Inv capacity messages onMessage book := by
  obtain ⟨pipeline, hp, rfl⟩ := Option.map_eq_some_iff.mp hs
  have hinv := h.pipeline.storeDone hp
  simp only [Pipeline.step] at hp
  split at hp
  · rename_i hpc
    cases hp
    obtain ⟨hdone, hconsumer⟩ := h.running (by rw [hpc]; simp)
    have hshared := h.shared.step (e := .releaseFlag) rfl
    have hlength : (s.sharing.memory.stores .flag).length = 1 := by
      rw [h.flag, hdone]
      rfl
    have hstores : (s.sharing.release .producer .flag).memory.stores .flag =
        s.sharing.memory.stores .flag ++ [s.sharing.memory.released .producer .flag] :=
      Memory.release_stores_self ..
    exact {
      pipeline := hinv
      shared := hshared
      flag := by
        rw [hstores, List.length_append, hlength]
        rfl
      done := fun k hk => by
        rw [hstores, List.getElem?_append_right hlength.le, hlength] at hk
        obtain rfl := Option.some.inj hk
        rw [Memory.released, Knowledge.see_seen_of_ne _ _ (by decide)]
        exact h.shared.aware.ownsHead.trans h.shared.head
      testHead := fun hc => absurd hc hconsumer }
  · cases hp

/-! #### The consumer -/

theorem inPop (h : s.Inv capacity messages onMessage book) {e : SharedEvent MarketMessageEnvelope}
    (hs : s.step onMessage (.inPop e) = some s') : s'.Inv capacity messages onMessage book := by
  simp only [step] at hs
  split at hs
  · rename_i hpc
    split_ifs at hs with he
    obtain ⟨queue, hq, rfl⟩ := Option.map_eq_some_iff.mp hs
    have hpipeline : Pipeline.Inv capacity messages onMessage book { s.pipeline with queue := queue.channel } ∧
        queue.channel.ring.head_ = s.pipeline.queue.ring.head_ := by
      cases e with
      | popLoadTail position =>
        have hc := (h.shared.popLoadTail_eq hq).2.1
        obtain ⟨tail, -, -, hchannel⟩ := Channel.of_popLoadTail hc
        exact ⟨h.pipeline.queuePop hpc rfl hc, by rw [hchannel]; rfl⟩
      | popLoadHead position =>
        obtain ⟨sharing, -, hstep⟩ := Option.bind_eq_some_iff.mp hq
        obtain ⟨channel, hc, rfl⟩ := Option.map_eq_some_iff.mp hstep
        obtain ⟨tail, head, -, -, -, hchannel⟩ := Channel.of_popLoadHead hc
        exact ⟨h.pipeline.popLoadHead hpc hc, by rw [hchannel]; rfl⟩
      | popRead =>
        obtain ⟨channel, hc, rfl⟩ := Option.map_eq_some_iff.mp hq
        obtain ⟨tail, item, -, -, hchannel⟩ := Channel.of_popRead hc
        exact ⟨h.pipeline.queuePop hpc rfl hc, by rw [hchannel]; rfl⟩
      | popStoreTail =>
        obtain ⟨channel, hc, rfl⟩ := Option.map_eq_some_iff.mp hq
        obtain ⟨item, tail, -, hchannel⟩ := Channel.of_popStoreTail hc
        exact ⟨h.pipeline.queuePop hpc rfl hc, by rw [hchannel]; rfl⟩
      | _ => cases he
    have hflag := SharedChannel.flag_step h.shared hq (by rintro rfl; cases he)
    exact {
      pipeline := hpipeline.1
      shared := h.shared.step hq
      flag := by
        rw [hflag]
        exact h.flag
      done := fun k hk => by
        rw [hflag] at hk
        exact (h.done k hk).trans (congrArg List.length hpipeline.2).symm
      testHead := fun hc => by
        rw [hpc] at hc
        cases hc }
  · cases hs

/-- A load of the consumer outside of `pop`. -/
theorem sharedAcquire (h : s.Inv capacity messages onMessage book) {ℓ : Location} {position : ℕ} {sharing : Sharing}
    (hload : s.sharing.acquire .consumer ℓ position = some sharing) :
    SharedChannel.Inv capacity ⟨s.pipeline.queue, sharing⟩ := by
  have hstep : s.shared.step (.acquire ℓ position) = some ⟨s.pipeline.queue, sharing⟩ :=
    Option.map_eq_some_iff.mpr ⟨_, hload, rfl⟩
  exact h.shared.step hstep

/-- Going into `pop` from a test. -/
theorem callPop (h : s.Inv capacity messages onMessage book) {ℓ : Location} {position : ℕ} {sharing : Sharing}
    (hload : s.sharing.acquire .consumer ℓ position = some sharing)
    (hun : Pipeline.unapplied s.pipeline.consumer s.pipeline.queue.pop = [])
    (hcount : Pipeline.unconsumed s.pipeline.consumer = 0) {pipeline : Pipeline B}
    (hcall : s.pipeline.callPop = some pipeline) : Inv capacity messages onMessage book ⟨pipeline, sharing⟩ := by
  have hpipeline := h.pipeline.callPop hun hcount hcall
  obtain ⟨queue, hq, rfl⟩ := Option.map_eq_some_iff.mp hcall
  have hstep : SharedChannel.step ⟨s.pipeline.queue, sharing⟩ .popCall = some ⟨queue, sharing⟩ :=
    Option.map_eq_some_iff.mpr ⟨_, hq, rfl⟩
  have hring : queue.ring = s.pipeline.queue.ring := by rw [(Channel.of_popCall hq).2]
  have hflag := congrFun (Sharing.of_acquire hload).1 .flag
  exact {
    pipeline := hpipeline
    shared := (h.sharedAcquire hload).step hstep
    flag := by
      rw [hflag]
      exact h.flag
    done := fun k hk => by
      rw [hflag] at hk
      exact (h.done k hk).trans (by rw [hring])
    testHead := fun hc => by cases hc }

/-- Going on to another test, or out of the loop. -/
theorem tests (h : s.Inv capacity messages onMessage book) {ℓ : Location} {position : ℕ} {sharing : Sharing}
    (hload : s.sharing.acquire .consumer ℓ position = some sharing) {pc : ConsumerPc}
    (hpipeline : Pipeline.Inv capacity messages onMessage book { s.pipeline with consumer := pc })
    (htest : pc = .testHead → (sharing.memory.known .consumer).seen .head + 1 = s.pipeline.queue.ring.head_.length) :
    Inv capacity messages onMessage book ⟨{ s.pipeline with consumer := pc }, sharing⟩ := by
  have hflag := congrFun (Sharing.of_acquire hload).1 .flag
  exact {
    pipeline := hpipeline
    shared := h.sharedAcquire hload
    flag := by
      rw [hflag]
      exact h.flag
    done := fun k hk => by
      rw [hflag] at hk
      exact h.done k hk
    testHead := htest }

/-- Who reads the flag stored takes over that the head is the last one. -/
theorem loadDone (h : s.Inv capacity messages onMessage book) {position : ℕ}
    (hs : s.step onMessage (.loadDone position) = some s') : s'.Inv capacity messages onMessage book := by
  simp only [step] at hs
  split at hs
  · rename_i done hpc hvalue
    obtain ⟨sharing, hload, hs⟩ := Option.bind_eq_some_iff.mp hs
    cases done with
    | false =>
      obtain ⟨pipeline, hcall, rfl⟩ := Option.map_eq_some_iff.mp hs
      exact h.callPop hload (by rw [hpc]; rfl) (by rw [hpc]; rfl) hcall
    | true =>
      obtain rfl := Option.some.inj hs
      have hposition : position = 1 := by
        rcases position with _ | _ | position
        · cases hvalue
        · rfl
        · cases hvalue
      subst hposition
      obtain ⟨memory, hm, rfl⟩ := Option.map_eq_some_iff.mp hload
      obtain ⟨k, hk, -, hlearn⟩ := Memory.of_acquire hm
      have hdone := h.producerDone hk
      refine h.tests hload (h.pipeline.loadDone (by simp only [Pipeline.step, hpc, hdone, if_true])) fun _ => ?_
      have hlast := h.done k hk
      have hbound := h.shared.aware.wellFormed.seen_lt.known .consumer .head
      have hlength := h.shared.head
      rw [hlearn, Memory.learn_self, Knowledge.join_seen, max_eq_right]
      · exact hlast
      · exact Nat.le_of_lt_succ (hbound.trans_eq (hlength.trans hlast.symm))
  · cases hs

/-- The head that the exit test reads is the last one. -/
theorem loadHead (h : s.Inv capacity messages onMessage book) {position : ℕ}
    (hs : s.step onMessage (.loadHead position) = some s') : s'.Inv capacity messages onMessage book := by
  simp only [step] at hs
  split at hs
  · rename_i head hpc hvalue
    obtain ⟨sharing, hload, rfl⟩ := Option.map_eq_some_iff.mp hs
    have hknown := h.testHead hpc
    have hle : (s.sharing.memory.known .consumer).seen .head ≤ position := by
      obtain ⟨memory, hm, rfl⟩ := Option.map_eq_some_iff.mp hload
      obtain ⟨k, -, hle, -⟩ := Memory.of_acquire hm
      exact hle
    have hlt := (List.getElem?_eq_some_iff.mp hvalue).1
    have hlast := SharedChannel.Inv.getLast?_of_last hvalue (by omega)
    exact h.tests hload (h.pipeline.loadHead (by simp only [Pipeline.step, hpc, hlast])) fun hc => by cases hc
  · cases hs

theorem loadTail (h : s.Inv capacity messages onMessage book) {position : ℕ}
    (hs : s.step onMessage (.loadTail position) = some s') : s'.Inv capacity messages onMessage book := by
  simp only [step] at hs
  split at hs
  · rename_i head tail hpc hvalue
    obtain ⟨sharing, hload, hs⟩ := Option.bind_eq_some_iff.mp hs
    have hposition : position + 1 = (s.sharing.memory.stores .tail).length := by
      obtain ⟨memory, hm, rfl⟩ := Option.map_eq_some_iff.mp hload
      exact h.shared.aware.ownsTail.acquire_last hm
    have hlast := SharedChannel.Inv.getLast?_of_last hvalue (hposition.trans h.shared.tail)
    split_ifs at hs with heq
    · obtain rfl := Option.some.inj hs
      exact h.tests hload (h.pipeline.loadTail (by simp only [Pipeline.step, hpc, hlast, if_pos heq]))
        fun hc => by cases hc
    · obtain ⟨pipeline, hcall, rfl⟩ := Option.map_eq_some_iff.mp hs
      exact h.callPop hload (by rw [hpc]; rfl) (by rw [hpc]; rfl) hcall
  · cases hs

theorem step (h : s.Inv capacity messages onMessage book) {e : SharedPipelineEvent}
    (hs : s.step onMessage e = some s') : s'.Inv capacity messages onMessage book := by
  cases e with
  | program e => exact h.program hs
  | inPush e => exact h.inPush hs
  | inPop e => exact h.inPop hs
  | storeDone => exact h.storeDone hs
  | loadDone position => exact h.loadDone hs
  | loadHead position => exact h.loadHead hs
  | loadTail position => exact h.loadTail hs

end Inv

/-! ### Runs -/

/-- No race, nothing applied out of order, and nothing lost when both threads have finished. -/
structure Sound (messages : List MarketMessage) (onMessage : B → MarketMessage → B) (book : B)
    (s : SharedPipeline B) : Prop where
  raceFree : s.sharing.memory.raced = false
  inOrder : s.pipeline.appliedMessages <+: messages
  exits : s.pipeline.consumer = .finished → s.pipeline.producer = .finished
  lossless : s.pipeline.producer = .finished → s.pipeline.consumer = .finished →
    s.pipeline.Lossless messages onMessage book
  book : s.pipeline.book = s.pipeline.appliedMessages.foldl onMessage book

theorem Inv.sound (h : s.Inv capacity messages onMessage book) : s.Sound messages onMessage book where
  raceFree := h.shared.raceFree
  inOrder := by
    have happlied : s.pipeline.appliedMessages <+:
        s.pipeline.queue.returned.map MarketMessageEnvelope.message := by
      rw [h.pipeline.received]
      exact List.prefix_append _ _
    have hreturned := h.pipeline.queue.inv.fifo.map MarketMessageEnvelope.message
    have hpublished : s.pipeline.queue.published.map MarketMessageEnvelope.message <+: messages :=
      ⟨_, h.pipeline.sent⟩
    exact (happlied.trans hreturned).trans hpublished
  book := h.pipeline.book
  exits hc := h.pipeline.done (h.pipeline.drained hc).1
  lossless := h.pipeline.lossless

/-- **The memory orders of the pipeline suffice**, in every run that they allow. -/
theorem exitsLosslessly_of_run (hcap : capacity + 1 < sizeMod) {events : List SharedPipelineEvent}
    (hrun : exec (step onMessage) (make capacity messages book) events = some s) :
    s.Sound messages onMessage book :=
  (exec_invariant (fun _ _ _ h hs => h.step hs) (inv_make hcap onMessage) hrun).sound

/-- Two messages through a ring with one slot: the consumer reads an old head and then an
old flag, the producer an old tail. -/
def staleRun : List SharedPipelineEvent :=
  [.program (.stampMessage 5), .program (.stampPush 6), .inPush (.pushLoadHead 0), .inPush (.pushLoadTail 0),
    .inPush .pushWrite, .inPush .pushStoreHead, .program .pushReturns, .program .countProduced,
    .loadDone 0, .inPop (.popLoadTail 0), .inPop (.popLoadHead 0), .program .popReturns,
    .loadDone 0, .inPop (.popLoadTail 0), .inPop (.popLoadHead 1), .inPop .popRead, .inPop .popStoreTail,
    .program .popReturns, .program (.stampMessage 7), .program (.stampPush 8), .inPush (.pushLoadHead 1),
    .inPush (.pushLoadTail 0), .program .pushReturns, .program (.stampPush 9), .inPush (.pushLoadHead 1),
    .inPush (.pushLoadTail 1), .inPush .pushWrite, .inPush .pushStoreHead, .program .pushReturns,
    .program .countProduced, .storeDone, .program (.stampPop 10), .program (.startBook 11), .program .applyMessage,
    .program (.endBook 12), .program (.stampEnd 13), .program .countConsumed,
    .loadDone 0, .inPop (.popLoadTail 1), .inPop (.popLoadHead 1), .program .popReturns,
    .loadDone 1, .loadHead 2, .loadTail 1, .inPop (.popLoadTail 1), .inPop (.popLoadHead 2), .inPop .popRead,
    .inPop .popStoreTail, .program .popReturns, .program (.stampPop 14), .program (.startBook 15),
    .program .applyMessage, .program (.endBook 16), .program (.stampEnd 17), .program .countConsumed,
    .loadDone 1, .loadHead 2, .loadTail 2]

theorem exitsLosslessly_staleRun :
    ∃ s, exec (step OrderBook.onMessage) (make 1 addThenModify OrderBook.empty) staleRun = some s ∧
      s.pipeline.consumer = .finished ∧ s.Sound addThenModify OrderBook.onMessage OrderBook.empty := by
  have hends : (exec (step OrderBook.onMessage) (make 1 addThenModify OrderBook.empty) staleRun).map
      (fun s => s.pipeline.consumer) = some .finished := by decide +kernel
  obtain ⟨s, hrun, hconsumer⟩ := Option.map_eq_some_iff.mp hends
  exact ⟨s, hrun, hconsumer, exitsLosslessly_of_run (by decide) hrun⟩

end SharedPipeline

end LatencyLab
