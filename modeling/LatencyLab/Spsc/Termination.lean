import LatencyLab.Mutex.Pipeline
import LatencyLab.Spsc.Shutdown
import LatencyLab.Transition.Progress

/-! The SPSC pipeline ends under every fair scheduler. Either thread may spin: the
producer at a full ring, the consumer at an empty one. But while there is something in
the ring, or nothing more to come, the consumer gets to its next item or to its end in
a bounded number of its own steps, whatever the producer does; and otherwise the
producer gets to its next item or to its end. No thread ever has to wait for a step. -/

namespace LatencyLab

open Cyclic Transition

/-- The thread that takes a step, if the step gets it anywhere; a torn write does not. -/
def PipelineEvent.agent : PipelineEvent → Option Party
  | .inPush (.pushPartialWrite _) => none
  | .stampMessage _ | .stampPush _ | .inPush _ | .pushReturns | .countProduced | .storeDone => some .producer
  | _ => some .consumer

/-! ### Ranks -/

/-- How far a `push` into a ring with room is from publishing. -/
def PushPc.rank {T : Type*} : PushPc T → ℕ
  | .idle true => 9
  | .idle false => 7
  | .entered _ => 5
  | .loaded _ _ _ => 4
  | .admitted _ _ _ => 3
  | .written _ _ => 2

/-- How far a `pop` is from an item, or from having found the ring empty. -/
def PopPc.rank {T : Type*} (empty : Bool) : PopPc T → ℕ
  | .idle (some _) => 17
  | .idle none => 11
  | .entered => if empty then 13 else 7
  | .loaded _ => if empty then 12 else 6
  | .admitted _ => 5
  | .read _ _ => 4

def ProducerPc.rank : ProducerPc → PushPc MarketMessageEnvelope → ℕ
  | .pushing _ _, pc => pc.rank
  | .pushed _, _ => 8
  | .nextMessage _, _ => 7
  | .stamped _ _, _ => 6
  | .finished, _ => 0

def ConsumerPc.rank (empty : Bool) : ConsumerPc → PopPc MarketMessageEnvelope → ℕ
  | .popping, pc => pc.rank empty
  | .popped _, _ => 16
  | .waited _, _ => 15
  | .timing _ _, _ => 14
  | .applied _ _, _ => 13
  | .timed _, _ => 12
  | .recorded, _ => 11
  | .testDone, _ => 10
  | .testHead, _ => 9
  | .testTail _, _ => 8
  | .finished, _ => 0

theorem ProducerPc.rank_lt (pc : ProducerPc) (push : PushPc MarketMessageEnvelope) : pc.rank push < 18 := by
  cases pc with
  | pushing envelope rest =>
    cases push with
    | idle result => cases result <;> simp [rank, PushPc.rank]
    | _ => simp [rank, PushPc.rank]
  | _ => simp [rank]

theorem ConsumerPc.rank_lt (empty : Bool) (pc : ConsumerPc) (pop : PopPc MarketMessageEnvelope) :
    pc.rank empty pop < 18 := by
  cases pc with
  | popping =>
    cases pop with
    | idle result => cases result <;> simp [rank, PopPc.rank]
    | _ => cases empty <;> simp [rank, PopPc.rank]
  | _ => simp [rank]

namespace Channel

variable {T : Type*} {c c' : Channel T} {capacity : ℕ} {e : ChannelEvent T}

/-- A `push` that sees the last tail is refused only by a full ring. -/
theorem full_of_refused (h : InvFor capacity c) {k : ℕ} (hfresh : k + 1 = c.ring.tail_.length)
    {item : T} {head nextHead tail : ℕ} (hpc : c.push = .loaded item head nextHead)
    (htail : c.ring.tail_[k]? = some tail) (heq : nextHead = tail) :
    c.published.length = c.returned.length + capacity := by
  have hknows := h.inv.pushKnows
  rw [hpc] at hknows
  have hwindow := h.inv.window
  have hle := h.inv.returned_le_published
  rw [h.inv.tail] at hfresh htail
  obtain ⟨-, rfl⟩ := getElem?_laps htail
  have hk : k = c.returned.length := by
    rw [laps, List.length_map, List.length_range] at hfresh
    omega
  rw [hknows.2, hk] at heq
  by_contra hne
  have hlt : c.published.length + 1 < c.returned.length + c.ring.capacity_ := by
    rw [h.capacity_eq] at hwindow ⊢
    omega
  have hsame := eq_of_mod_eq (by omega) hlt heq.symm
  omega

/-- A `pop` that sees the last head fails only at an empty ring. -/
theorem empty_of_failed (h : InvFor capacity c) {k : ℕ} (hfresh : k + 1 = c.ring.head_.length)
    {tail head : ℕ} (hpc : c.pop = .loaded tail) (hhead : c.ring.head_[k]? = some head) (heq : tail = head) :
    c.published.length = c.returned.length := by
  have hknows := h.inv.popKnows
  rw [hpc] at hknows
  rw [h.inv.head] at hfresh hhead
  obtain ⟨-, rfl⟩ := getElem?_laps hhead
  have hk : k = c.published.length := by
    rw [laps, List.length_map, List.length_range] at hfresh
    omega
  have htail : tail = c.returned.length % c.ring.capacity_ := hknows
  rw [htail, hk] at heq
  exact (eq_of_mod_eq h.inv.returned_le_published h.inv.window heq).symm

/-- A step of a `push` into a ring with room publishes or gets nearer to it. -/
theorem pushRank_of_step (h : InvFor capacity c) (he : e.inPush c.ring = true) (hs : c.step e = some c') :
    c'.published.length = c.published.length + 1 ∨
      c'.published = c.published ∧
        ((∃ junk, e = .pushPartialWrite junk) ∧ c'.push = c.push ∨
          (∀ junk, e ≠ .pushPartialWrite junk) ∧
            (c.published.length < c.returned.length + capacity → c'.push.rank < c.push.rank)) := by
  cases e with
  | pushLoadHead =>
    obtain ⟨item, head, hpc, -, rfl⟩ := of_pushLoadHead hs
    exact .inr ⟨rfl, .inr ⟨by simp, fun _ => by rw [hpc]; simp [PushPc.rank]⟩⟩
  | pushLoadTail k =>
    obtain ⟨item, head, nextHead, tail, hpc, htail, -, rfl⟩ := of_pushLoadTail hs
    have hfresh : k + 1 = c.ring.tail_.length := of_decide_eq_true he
    refine .inr ⟨rfl, .inr ⟨by simp, fun hroom => ?_⟩⟩
    split_ifs with heq
    · have hfull := full_of_refused h hfresh hpc htail heq
      omega
    · rw [hpc]
      simp [PushPc.rank]
  | pushPartialWrite junk =>
    obtain ⟨item, head, nextHead, hpc, rfl⟩ := of_pushPartialWrite hs
    exact .inr ⟨rfl, .inl ⟨⟨junk, rfl⟩, rfl⟩⟩
  | pushWrite =>
    obtain ⟨item, head, nextHead, hpc, rfl⟩ := of_pushWrite hs
    exact .inr ⟨rfl, .inr ⟨by simp, fun _ => by rw [hpc]; simp [PushPc.rank]⟩⟩
  | pushStoreHead =>
    obtain ⟨item, nextHead, hpc, rfl⟩ := of_pushStoreHead hs
    exact .inl (by simp)
  | _ => simp [ChannelEvent.inPush] at he

/-- A step of a `pop` hands out an item or gets nearer to what it will find. -/
theorem popRank_of_step (h : InvFor capacity c) (he : e.inPop c.ring = true) (hs : c.step e = some c')
    {empty : Bool} (hempty : empty = true ↔ c.published.length = c.returned.length) :
    c'.returned.length = c.returned.length + 1 ∨
      c'.returned = c.returned ∧ c'.pop.rank empty < c.pop.rank empty := by
  cases e with
  | popLoadTail =>
    obtain ⟨tail, hpc, -, rfl⟩ := of_popLoadTail hs
    refine .inr ⟨rfl, ?_⟩
    rw [hpc]
    cases empty <;> simp [PopPc.rank]
  | popLoadHead k =>
    obtain ⟨tail, head, hpc, hhead, -, rfl⟩ := of_popLoadHead hs
    have hfresh : k + 1 = c.ring.head_.length := of_decide_eq_true he
    refine .inr ⟨rfl, ?_⟩
    rw [hpc]
    split_ifs with heq
    · rw [hempty.mpr (empty_of_failed h hfresh hpc hhead heq)]
      simp [PopPc.rank]
    · cases empty <;> simp [PopPc.rank]
  | popRead =>
    obtain ⟨tail, item, hpc, -, rfl⟩ := of_popRead hs
    refine .inr ⟨rfl, ?_⟩
    rw [hpc]
    simp [PopPc.rank]
  | popStoreTail =>
    obtain ⟨item, tail, hpc, rfl⟩ := of_popStoreTail hs
    exact .inl (by simp)
  | _ => simp [ChannelEvent.inPop] at he

/-- With capacity zero a `push` is never admitted. -/
theorem published_of_useless (h : InvFor 0 c) (hs : c.step e = some c') : c'.published = c.published := by
  cases e with
  | pushCall item => obtain ⟨-, rfl⟩ := of_pushCall hs; rfl
  | pushLoadHead => obtain ⟨_, _, -, -, rfl⟩ := of_pushLoadHead hs; rfl
  | pushLoadTail k => obtain ⟨_, _, _, _, -, -, -, rfl⟩ := of_pushLoadTail hs; rfl
  | pushPartialWrite junk => obtain ⟨_, _, _, -, rfl⟩ := of_pushPartialWrite hs; rfl
  | pushWrite => obtain ⟨_, _, _, -, rfl⟩ := of_pushWrite hs; rfl
  | pushStoreHead =>
    obtain ⟨item, nextHead, hpc, rfl⟩ := of_pushStoreHead hs
    have hknows := h.inv.pushKnows
    have hseen := h.inv.tailSeen_le.trans h.inv.returned_le_published
    rw [hpc] at hknows
    obtain ⟨-, hroom, -⟩ := hknows
    rw [h.capacity_eq] at hroom
    omega
  | popCall => obtain ⟨-, rfl⟩ := of_popCall hs; rfl
  | popLoadTail => obtain ⟨_, -, -, rfl⟩ := of_popLoadTail hs; rfl
  | popLoadHead k => obtain ⟨_, _, -, -, -, rfl⟩ := of_popLoadHead hs; rfl
  | popRead => obtain ⟨_, _, -, -, rfl⟩ := of_popRead hs; rfl
  | popStoreTail => obtain ⟨_, _, -, rfl⟩ := of_popStoreTail hs; rfl

end Channel

namespace Pipeline

variable {B : Type*} {capacity : ℕ} {messages : List MarketMessage} {onMessage : B → MarketMessage → B} {book : B}
  {s s' : Pipeline B} {e : PipelineEvent}

/-! ### What a step comes to -/

/-- The invariant, with where the threads stand in the queue between their calls. -/
structure Live (capacity : ℕ) (messages : List MarketMessage) (onMessage : B → MarketMessage → B) (book : B)
    (s : Pipeline B) : Prop where
  inv : s.Inv capacity messages onMessage book
  done : s.producer = .finished → s.producerDone = true
  pushIdle : (∀ envelope rest, s.producer ≠ .pushing envelope rest) → ∃ result, s.queue.push = .idle result
  popIdle : s.consumer ≠ .popping → ∃ result, s.queue.pop = .idle result

theorem live_make (hcap : capacity + 1 < sizeMod) (onMessage : B → MarketMessage → B) :
    (make capacity messages book).Live capacity messages onMessage book where
  inv := inv_make hcap onMessage
  done hpc := by cases hpc
  pushIdle _ := ⟨false, rfl⟩
  popIdle _ := ⟨none, rfl⟩

/-- What the producer gets to, if there is `room`. -/
inductive ProducerGets (room : Prop) (s s' : Pipeline B) : Option Party → Prop
  | publishes (published : s'.queue.published.length = s.queue.published.length + 1)
      (producer : s'.producer = s.producer) : ProducerGets room s s' (some .producer)
  | finishes (published : s'.queue.published = s.queue.published) (before : s.producer ≠ .finished)
      (after : s'.producer = .finished) : ProducerGets room s s' (some .producer)
  | tears (published : s'.queue.published = s.queue.published) (producer : s'.producer = s.producer)
      (push : s'.queue.push = s.queue.push) : ProducerGets room s s' none
  | nears (published : s'.queue.published = s.queue.published) (before : s.producer ≠ .finished)
      (after : s'.producer ≠ .finished)
      (nearer : room → s'.producer.rank s'.queue.push < s.producer.rank s.queue.push) :
      ProducerGets room s s' (some .producer)

/-- What a step of the producer leaves alone, and what it comes to. -/
structure Produces (capacity : ℕ) (s s' : Pipeline B) (agent : Option Party) : Prop where
  consumer : s'.consumer = s.consumer
  pop : s'.queue.pop = s.queue.pop
  returned : s'.queue.returned = s.queue.returned
  done : s'.producer = .finished → s'.producerDone = true
  pushIdle : (∀ envelope rest, s'.producer ≠ .pushing envelope rest) → ∃ result, s'.queue.push = .idle result
  gets : ProducerGets (s.queue.published.length < s.queue.returned.length + capacity) s s' agent

theorem produces_of_step (h : s.Live capacity messages onMessage book) (he : e.agent ≠ some .consumer)
    (hs : s.step onMessage e = some s') : Produces capacity s s' e.agent := by
  cases e with
  | stampMessage now =>
    simp only [step] at hs
    split at hs
    · rename_i message rest hpc
      cases hs
      exact ⟨rfl, rfl, rfl, by simp, fun _ => h.pushIdle (by simp [hpc]),
        .nears rfl (by simp [hpc]) (by simp) fun _ => by simp [hpc, ProducerPc.rank]⟩
    · cases hs
  | stampPush now =>
    simp only [step] at hs
    split at hs
    · rename_i envelope rest hpc
      obtain ⟨queue, hq, heq⟩ := Option.map_eq_some_iff.mp hs
      cases heq
      obtain ⟨-, rfl⟩ := Channel.of_pushCall hq
      exact ⟨rfl, rfl, rfl, by simp, by simp,
        .nears rfl (by simp [hpc]) (by simp) fun _ => by simp [hpc, ProducerPc.rank, PushPc.rank]⟩
    · cases hs
  | inPush e =>
    simp only [step] at hs
    split at hs
    · rename_i envelope rest hpc
      split_ifs at hs with hin
      obtain ⟨queue, hq, heq⟩ := Option.map_eq_some_iff.mp hs
      cases heq
      obtain ⟨hpop, hret, -⟩ := pushStep_of_step hin hq
      refine ⟨rfl, hpop, hret, by simp [hpc], by simp [hpc], ?_⟩
      rcases Channel.pushRank_of_step h.inv.queue hin hq with hpub | ⟨hpub, ⟨⟨junk, rfl⟩, hpush⟩ | ⟨htorn, hnearer⟩⟩
      · have hagent : (PipelineEvent.inPush e).agent = some .producer := by
          cases e with
          | pushPartialWrite junk =>
            obtain ⟨_, _, _, -, rfl⟩ := Channel.of_pushPartialWrite hq
            simp at hpub
          | _ => rfl
        rw [hagent]
        exact .publishes hpub rfl
      · exact .tears hpub rfl hpush
      · have hagent : (PipelineEvent.inPush e).agent = some .producer := by
          cases e with
          | pushPartialWrite junk => exact absurd rfl (htorn junk)
          | _ => rfl
        rw [hagent]
        refine .nears hpub (by simp [hpc]) (by simp [hpc]) fun hroom => ?_
        simpa [hpc, ProducerPc.rank] using hnearer hroom
    · cases hs
  | pushReturns =>
    simp only [step] at hs
    split at hs
    · rename_i envelope rest hpc hpush
      cases hs
      exact ⟨rfl, rfl, rfl, by simp, fun _ => ⟨true, hpush⟩,
        .nears rfl (by simp [hpc]) (by simp) fun _ => by simp [hpc, hpush, ProducerPc.rank, PushPc.rank]⟩
    · rename_i envelope rest hpc hpush
      cases hs
      exact ⟨rfl, rfl, rfl, by simp, fun _ => ⟨false, hpush⟩,
        .nears rfl (by simp [hpc]) (by simp) fun _ => by simp [hpc, hpush, ProducerPc.rank, PushPc.rank]⟩
    · cases hs
  | countProduced =>
    simp only [step] at hs
    split at hs
    · rename_i rest hpc
      cases hs
      exact ⟨rfl, rfl, rfl, by simp, fun _ => h.pushIdle (by simp [hpc]),
        .nears rfl (by simp [hpc]) (by simp) fun _ => by simp [hpc, ProducerPc.rank]⟩
    · cases hs
  | storeDone =>
    simp only [step] at hs
    split at hs
    · rename_i hpc
      cases hs
      exact ⟨rfl, rfl, rfl, fun _ => rfl, fun _ => h.pushIdle (by simp [hpc]), .finishes rfl (by simp [hpc]) rfl⟩
    · cases hs
  | _ => exact absurd rfl he

/-- What the consumer gets to, if it is its turn. -/
inductive ConsumerGets (turn : Prop) (empty : Bool) (s s' : Pipeline B) : Prop
  | takes (returned : s'.queue.returned.length = s.queue.returned.length + 1)
      (consumer : s'.consumer = s.consumer)
  | finishes (returned : s'.queue.returned = s.queue.returned) (before : s.consumer ≠ .finished)
      (after : s'.consumer = .finished)
  | nears (returned : s'.queue.returned = s.queue.returned) (before : s.consumer ≠ .finished)
      (after : s'.consumer ≠ .finished)
      (nearer : turn → s'.consumer.rank empty s'.queue.pop < s.consumer.rank empty s.queue.pop)

/-- What a step of the consumer leaves alone, and what it comes to. -/
structure Consumes (empty : Bool) (s s' : Pipeline B) : Prop where
  producer : s'.producer = s.producer
  producerDone : s'.producerDone = s.producerDone
  push : s'.queue.push = s.queue.push
  published : s'.queue.published = s.queue.published
  popIdle : s'.consumer ≠ .popping → ∃ result, s'.queue.pop = .idle result
  gets : ConsumerGets (empty = true → s.producer = .finished) empty s s'

theorem consumes_of_callPop {empty : Bool} (hfinished : s.consumer ≠ .finished)
    (hrank : (empty = true → s.producer = .finished) →
      ConsumerPc.popping.rank empty .entered < s.consumer.rank empty s.queue.pop)
    (hs : s.callPop = some s') : Consumes empty s s' := by
  obtain ⟨queue, hq, heq⟩ := Option.map_eq_some_iff.mp hs
  cases heq
  obtain ⟨-, rfl⟩ := Channel.of_popCall hq
  exact ⟨rfl, rfl, rfl, rfl, by simp, .nears rfl hfinished (by simp) hrank⟩

theorem consumes_of_step (h : s.Live capacity messages onMessage book) (he : e.agent = some .consumer)
    {empty : Bool} (hempty : empty = true ↔ s.queue.published.length = s.queue.returned.length)
    (hs : s.step onMessage e = some s') : Consumes empty s s' := by
  cases e with
  | stampMessage | stampPush | pushReturns | countProduced | storeDone => cases he
  | inPush e => cases e <;> cases he
  | loadDone =>
    simp only [step] at hs
    split at hs
    · rename_i hpc
      split_ifs at hs with hd
      · cases hs
        exact ⟨rfl, rfl, rfl, rfl, fun _ => h.popIdle (by simp [hpc]),
          .nears rfl (by simp [hpc]) (by simp) fun _ => by simp [hpc, ConsumerPc.rank]⟩
      · refine consumes_of_callPop (by simp [hpc]) (fun hturn => ?_) hs
        have hfull : empty = false := by
          by_contra hne
          exact hd (h.done (hturn (Bool.not_eq_false _ ▸ hne)))
        rw [hpc, hfull]
        simp [ConsumerPc.rank, PopPc.rank]
    · cases hs
  | loadHead =>
    simp only [step] at hs
    split at hs
    · rename_i head hpc hhead
      cases hs
      exact ⟨rfl, rfl, rfl, rfl, fun _ => h.popIdle (by simp [hpc]),
        .nears rfl (by simp [hpc]) (by simp) fun _ => by simp [hpc, ConsumerPc.rank]⟩
    · cases hs
  | loadTail =>
    simp only [step] at hs
    split at hs
    · rename_i head tail hpc htail
      split_ifs at hs with heq
      · cases hs
        exact ⟨rfl, rfl, rfl, rfl, fun _ => h.popIdle (by simp [hpc]), .finishes rfl (by simp [hpc]) rfl⟩
      · refine consumes_of_callPop (by simp [hpc]) (fun _ => ?_) hs
        have hfull : empty = false := by
          by_contra hne
          have hlen := hempty.mp (Bool.not_eq_false _ ▸ hne)
          have hhead := (h.inv.testTail head hpc).2
          rw [h.inv.queue.inv.head, getLast?_laps, Option.some.injEq] at hhead
          rw [h.inv.queue.inv.tail, getLast?_laps, Option.some.injEq] at htail
          exact heq (by rw [← hhead, ← htail, hlen])
        rw [hpc, hfull]
        simp [ConsumerPc.rank, PopPc.rank]
    · cases hs
  | inPop e =>
    simp only [step] at hs
    split at hs
    · rename_i hpc
      split_ifs at hs with hin
      obtain ⟨queue, hq, heq⟩ := Option.map_eq_some_iff.mp hs
      cases heq
      obtain ⟨-, hpush, hpub, -⟩ := popStep_of_step hin hq
      refine ⟨rfl, rfl, hpush, hpub, by simp [hpc], ?_⟩
      rcases Channel.popRank_of_step h.inv.queue hin hq hempty with hret | ⟨hret, hnearer⟩
      · exact .takes hret rfl
      · exact .nears hret (by simp [hpc]) (by simp [hpc]) fun _ => by simpa [hpc, ConsumerPc.rank] using hnearer
    · cases hs
  | popReturns =>
    simp only [step] at hs
    split at hs
    · rename_i envelope hpc hpop
      cases hs
      exact ⟨rfl, rfl, rfl, rfl, fun _ => ⟨some envelope, hpop⟩,
        .nears rfl (by simp [hpc]) (by simp) fun _ => by simp [hpc, hpop, ConsumerPc.rank, PopPc.rank]⟩
    · rename_i hpc hpop
      cases hs
      exact ⟨rfl, rfl, rfl, rfl, fun _ => ⟨none, hpop⟩,
        .nears rfl (by simp [hpc]) (by simp) fun _ => by simp [hpc, hpop, ConsumerPc.rank, PopPc.rank]⟩
    · cases hs
  | _ =>
    simp only [step] at hs
    split at hs
    · rename_i hpc
      cases hs
      exact ⟨rfl, rfl, rfl, rfl, fun _ => h.popIdle (by simp [hpc]),
        .nears rfl (by simp [hpc]) (by simp) fun _ => by simp [hpc, ConsumerPc.rank]⟩
    · cases hs

theorem Live.step (h : s.Live capacity messages onMessage book) (hs : s.step onMessage e = some s') :
    s'.Live capacity messages onMessage book := by
  by_cases he : e.agent = some .consumer
  · have hempty : decide (s.queue.published.length = s.queue.returned.length) = true ↔
        s.queue.published.length = s.queue.returned.length := decide_eq_true_iff
    have hc := consumes_of_step h he hempty hs
    refine ⟨h.inv.step hs, ?_, ?_, hc.popIdle⟩
    · rw [hc.producer, hc.producerDone]
      exact h.done
    · rw [hc.producer, hc.push]
      exact h.pushIdle
  · have hp := produces_of_step h he hs
    refine ⟨h.inv.step hs, hp.done, hp.pushIdle, ?_⟩
    rw [hp.consumer, hp.pop]
    exact h.popIdle

/-! ### Whose turn it is -/

/-- Nothing is in the ring. -/
def drained (s : Pipeline B) : Bool := s.queue.published.length = s.queue.returned.length

theorem drained_iff : s.drained = true ↔ s.queue.published.length = s.queue.returned.length := decide_eq_true_iff

/-- The thread that can get something done whatever the other one does. -/
def helper (s : Pipeline B) : Party :=
  if s.drained = true ∧ s.producer ≠ .finished then .producer else .consumer

/-- The messages to be published and to be popped, and the threads to finish. -/
def todo (messages : List MarketMessage) (s : Pipeline B) : ℕ :=
  (messages.length - s.queue.published.length) + (messages.length - s.queue.returned.length) +
    (if s.producer = .finished then 0 else 1) + if s.consumer = .finished then 0 else 1

/-- How far the helper is from getting something done. -/
def helperRank (s : Pipeline B) : ℕ :=
  match s.helper with
  | .producer => s.producer.rank s.queue.push
  | .consumer => s.consumer.rank s.drained s.queue.pop

def rank (messages : List MarketMessage) (s : Pipeline B) : ℕ := 18 * s.todo messages + s.helperRank

theorem helperRank_lt (s : Pipeline B) : s.helperRank < 18 := by
  unfold helperRank
  split
  · exact ProducerPc.rank_lt _ _
  · exact ConsumerPc.rank_lt _ _ _

theorem helper_eq_producer : s.helper = .producer ↔ s.drained = true ∧ s.producer ≠ .finished := by
  unfold helper
  split_ifs with h <;> simp [h]

theorem helper_eq_consumer : s.helper = .consumer ↔ (s.drained = true → s.producer = .finished) := by
  unfold helper
  split_ifs with h
  · simp [h]
  · simpa using h

/-- Where something gets done the rank falls. -/
theorem rank_lt_of_todo (h : s'.todo messages < s.todo messages) : s'.rank messages < s.rank messages := by
  have hlt := s'.helperRank_lt
  unfold rank
  omega

theorem Inv.published_le (h : s.Inv capacity messages onMessage book) :
    s.queue.published.length ≤ messages.length := by
  have hsent := congrArg List.length h.sent
  rw [List.length_append, List.length_map] at hsent
  omega

/-- A step that publishes, takes or finishes nothing leaves to the helper what it was. -/
theorem lowers_of_same (hpub : s'.queue.published = s.queue.published) (hret : s'.queue.returned = s.queue.returned)
    (hp : s'.producer = .finished ↔ s.producer = .finished) (hc : s'.consumer = .finished ↔ s.consumer = .finished)
    {agent : Option Party}
    (hrank : s'.helper = s.helper → agent = some s.helper ∧ s'.helperRank < s.helperRank ∨
      agent ≠ some s.helper ∧ s'.helperRank = s.helperRank) :
    s'.rank messages < s.rank messages ∨
      s'.rank messages = s.rank messages ∧ s'.helper = s.helper ∧ agent ≠ some s.helper := by
  have htodo : s'.todo messages = s.todo messages := by simp only [todo, hpub, hret, hp, hc]
  have hdrained : s'.drained = s.drained := by simp only [drained, hpub, hret]
  have hhelper : s'.helper = s.helper := if_congr (by rw [hdrained, Ne, Ne, hp]) rfl rfl
  rcases hrank hhelper with ⟨-, hlt⟩ | ⟨hagent, heq⟩
  · left
    unfold rank
    omega
  · right
    exact ⟨by rw [rank, rank, htodo, heq], hhelper, hagent⟩

theorem lowers_of_producer (hcap : 0 < capacity) (h' : s'.Live capacity messages onMessage book)
    {agent : Option Party} (hagent : agent ≠ some .consumer) (hp : Produces capacity s s' agent) :
    s'.rank messages < s.rank messages ∨
      s'.rank messages = s.rank messages ∧ s'.helper = s.helper ∧ agent ≠ some s.helper := by
  have hle := h'.inv.published_le
  have hdrained : s'.queue.published = s.queue.published → s'.drained = s.drained := by
    intro hpub
    simp only [drained, hpub, hp.returned]
  obtain ⟨hconsumer, hpop, hret, -, -, hgets⟩ := hp
  cases hgets with
  | publishes hpub hproducer =>
    refine .inl (rank_lt_of_todo ?_)
    simp only [todo, hconsumer, hret, hproducer]
    omega
  | finishes hpub before after =>
    refine .inl (rank_lt_of_todo ?_)
    simp only [todo, hconsumer, hret, hpub, if_neg before, if_pos after]
    omega
  | tears hpub hproducer hpush =>
    refine lowers_of_same hpub hret (by rw [hproducer]) (by rw [hconsumer]) fun hhelper => .inr ⟨by simp, ?_⟩
    unfold helperRank
    rw [hhelper, hproducer, hpush, hconsumer, hpop, hdrained hpub]
  | nears hpub before after nearer =>
    refine lowers_of_same hpub hret (by simp [before, after]) (by rw [hconsumer]) fun hhelper => ?_
    unfold helperRank
    rw [hhelper]
    cases hturn : s.helper with
    | producer =>
      have hempty := drained_iff.mp (helper_eq_producer.mp hturn).1
      exact .inl ⟨rfl, nearer (by omega)⟩
    | consumer => exact .inr ⟨by simp, by rw [hconsumer, hpop, hdrained hpub]⟩

theorem lowers_of_consumer (h' : s'.Live capacity messages onMessage book) (hc : Consumes s.drained s s') :
    s'.rank messages < s.rank messages ∨
      s'.rank messages = s.rank messages ∧ s'.helper = s.helper ∧ some Party.consumer ≠ some s.helper := by
  have hle := h'.inv.published_le
  have hle' := h'.inv.queue.inv.returned_le_published
  have hdrained : s'.queue.returned = s.queue.returned → s'.drained = s.drained := by
    intro hret
    simp only [drained, hret, hc.published]
  obtain ⟨hproducer, -, hpush, hpub, -, hgets⟩ := hc
  cases hgets with
  | takes hret hconsumer =>
    refine .inl (rank_lt_of_todo ?_)
    simp only [todo, hconsumer, hproducer, hpub]
    omega
  | finishes hret before after =>
    refine .inl (rank_lt_of_todo ?_)
    simp only [todo, hproducer, hret, hpub, if_neg before, if_pos after]
    omega
  | nears hret before after nearer =>
    refine lowers_of_same hpub hret (by rw [hproducer]) (by simp [before, after]) fun hhelper => ?_
    unfold helperRank
    rw [hhelper]
    cases hturn : s.helper with
    | producer => exact .inr ⟨by simp, by rw [hproducer, hpush]⟩
    | consumer =>
      refine .inl ⟨rfl, ?_⟩
      simp only
      rw [hdrained hret]
      exact nearer (helper_eq_consumer.mp hturn)

/-- Every state has a thread that gets something done, whatever the other one does. -/
theorem helps (hcap : 0 < capacity) (messages : List MarketMessage) (onMessage : B → MarketMessage → B) (book : B) :
    Helps (step onMessage) (Live capacity messages onMessage book) PipelineEvent.agent helper (rank messages) where
  keeps _ _ _ h hs := h.step hs
  lowers s e s' h hs := by
    by_cases he : e.agent = some .consumer
    · rw [he]
      exact lowers_of_consumer (h.step hs) (consumes_of_step h he drained_iff hs)
    · exact lowers_of_producer hcap (h.step hs) he (produces_of_step h he hs)

/-! ### Nobody has to wait -/

/-- The thread has not returned. -/
def Running (s : Pipeline B) : Party → Prop
  | .producer => s.producer ≠ .finished
  | .consumer => s.consumer ≠ .finished

theorem exists_inPush (h : Channel.InvFor capacity s.queue) {envelope : MarketMessageEnvelope}
    {rest : List MarketMessage} (hpc : s.producer = .pushing envelope rest) :
    ∃ e : PipelineEvent, e.agent = some .producer ∧ (s.step onMessage e).isSome := by
  cases hpush : s.queue.push with
  | idle result =>
    cases result <;> exact ⟨.pushReturns, rfl, by simp only [Pipeline.step, hpc, hpush, Option.isSome_some]⟩
  | entered item =>
    refine ⟨.inPush .pushLoadHead, rfl, ?_⟩
    simp [Pipeline.step, hpc, ChannelEvent.inPush, Channel.step, hpush, h.inv.head]
  | loaded item head nextHead =>
    refine ⟨.inPush (.pushLoadTail s.queue.returned.length), rfl, ?_⟩
    have hle := h.inv.tailSeen_le
    have htail : s.queue.ring.tail_[s.queue.returned.length]? =
        some (s.queue.returned.length % s.queue.ring.capacity_) := by
      rw [h.inv.tail, laps, List.getElem?_map, List.getElem?_range (Nat.lt_succ_self _)]
      rfl
    have hlast : s.queue.returned.length + 1 = s.queue.ring.tail_.length := by
      rw [h.inv.tail, laps, List.length_map, List.length_range]
    simp only [Pipeline.step, hpc, ChannelEvent.inPush, hlast, decide_true, if_true, Option.isSome_map, Channel.step,
      hpush, htail, if_neg (Nat.not_lt.mpr hle)]
    split_ifs <;> rfl
  | admitted item head nextHead =>
    exact ⟨.inPush .pushWrite, rfl, by simp [Pipeline.step, hpc, ChannelEvent.inPush, Channel.step, hpush]⟩
  | written item nextHead =>
    exact ⟨.inPush .pushStoreHead, rfl, by simp [Pipeline.step, hpc, ChannelEvent.inPush, Channel.step, hpush]⟩

theorem exists_inPop (h : Channel.InvFor capacity s.queue) (hpc : s.consumer = .popping) :
    ∃ e : PipelineEvent, e.agent = some .consumer ∧ (s.step onMessage e).isSome := by
  cases hpop : s.queue.pop with
  | idle result =>
    cases result <;> exact ⟨.popReturns, rfl, by simp only [Pipeline.step, hpc, hpop, Option.isSome_some]⟩
  | entered =>
    refine ⟨.inPop .popLoadTail, rfl, ?_⟩
    simp [Pipeline.step, hpc, ChannelEvent.inPop, Channel.step, hpop, h.inv.tail]
  | loaded tail =>
    refine ⟨.inPop (.popLoadHead s.queue.published.length), rfl, ?_⟩
    have hle := h.inv.headSeen_le
    have hhead : s.queue.ring.head_[s.queue.published.length]? =
        some (s.queue.published.length % s.queue.ring.capacity_) := by
      rw [h.inv.head, laps, List.getElem?_map, List.getElem?_range (Nat.lt_succ_self _)]
      rfl
    have hlast : s.queue.published.length + 1 = s.queue.ring.head_.length := by
      rw [h.inv.head, laps, List.length_map, List.length_range]
    simp only [Pipeline.step, hpc, ChannelEvent.inPop, hlast, decide_true, if_true, Option.isSome_map, Channel.step,
      hpop, hhead, if_neg (Nat.not_lt.mpr hle)]
    split_ifs <;> rfl
  | admitted tail =>
    refine ⟨.inPop .popRead, rfl, ?_⟩
    have hslot := h.fifo.read_inside tail hpop
    simp [Pipeline.step, hpc, ChannelEvent.inPop, Channel.step, hpop, hslot]
  | read item tail =>
    exact ⟨.inPop .popStoreTail, rfl, by simp [Pipeline.step, hpc, ChannelEvent.inPop, Channel.step, hpop]⟩

theorem Live.exists_producer (h : s.Live capacity messages onMessage book) (hrunning : s.Running .producer) :
    ∃ e : PipelineEvent, e.agent = some .producer ∧ (s.step onMessage e).isSome := by
  cases hpc : s.producer with
  | nextMessage rest =>
    cases rest with
    | nil => exact ⟨.storeDone, rfl, by simp only [Pipeline.step, hpc, Option.isSome_some]⟩
    | cons message rest => exact ⟨.stampMessage 0, rfl, by simp only [Pipeline.step, hpc, Option.isSome_some]⟩
  | stamped envelope rest =>
    obtain ⟨result, hidle⟩ := h.pushIdle (by simp [hpc])
    exact ⟨.stampPush 0, rfl, by simp [Pipeline.step, hpc, Channel.step, hidle]⟩
  | pushing envelope rest => exact exists_inPush h.inv.queue hpc
  | pushed rest => exact ⟨.countProduced, rfl, by simp only [Pipeline.step, hpc, Option.isSome_some]⟩
  | finished => exact absurd hpc hrunning

theorem Live.exists_consumer (h : s.Live capacity messages onMessage book) (hrunning : s.Running .consumer) :
    ∃ e : PipelineEvent, e.agent = some .consumer ∧ (s.step onMessage e).isSome := by
  cases hpc : s.consumer with
  | testDone =>
    obtain ⟨result, hidle⟩ := h.popIdle (by simp [hpc])
    refine ⟨.loadDone, rfl, ?_⟩
    simp only [Pipeline.step, hpc]
    split_ifs
    · rfl
    · simp [callPop, Channel.step, hidle]
  | testHead => exact ⟨.loadHead, rfl, by simp [Pipeline.step, hpc, h.inv.queue.inv.head]⟩
  | testTail head =>
    obtain ⟨result, hidle⟩ := h.popIdle (by simp [hpc])
    refine ⟨.loadTail, rfl, ?_⟩
    simp only [Pipeline.step, hpc, h.inv.queue.inv.tail, getLast?_laps]
    split_ifs
    · rfl
    · simp [callPop, Channel.step, hidle]
  | popping => exact exists_inPop h.inv.queue hpc
  | popped envelope => exact ⟨.stampPop 0, rfl, by simp only [Pipeline.step, hpc, Option.isSome_some]⟩
  | waited envelope => exact ⟨.startBook 0, rfl, by simp only [Pipeline.step, hpc, Option.isSome_some]⟩
  | timing envelope bookStart => exact ⟨.applyMessage, rfl, by simp only [Pipeline.step, hpc, Option.isSome_some]⟩
  | applied envelope bookStart => exact ⟨.endBook 0, rfl, by simp only [Pipeline.step, hpc, Option.isSome_some]⟩
  | timed envelope => exact ⟨.stampEnd 0, rfl, by simp only [Pipeline.step, hpc, Option.isSome_some]⟩
  | recorded => exact ⟨.countConsumed, rfl, by simp only [Pipeline.step, hpc, Option.isSome_some]⟩
  | finished => exact absurd hpc hrunning

theorem Live.exists_step (h : s.Live capacity messages onMessage book) {p : Party} (hrunning : s.Running p) :
    ∃ e : PipelineEvent, e.agent = some p ∧ (s.step onMessage e).isSome := by
  cases p with
  | producer => exact h.exists_producer hrunning
  | consumer => exact h.exists_consumer hrunning

/-- Both threads have returned. -/
def Finished (s : Pipeline B) : Prop := s.producer = .finished ∧ s.consumer = .finished

/-- Before both have returned the helper has not. -/
theorem Live.running_helper (h : s.Live capacity messages onMessage book) (hd : ¬s.Finished) :
    s.Running s.helper := by
  cases hturn : s.helper with
  | producer => exact (helper_eq_producer.mp hturn).2
  | consumer => exact fun hc => hd ⟨h.inv.done (h.inv.drained hc).1, hc⟩

theorem Finished.step_eq_none (h : s.Finished) (onMessage : B → MarketMessage → B) (e : PipelineEvent) :
    s.step onMessage e = none := by
  cases e <;> simp only [step, h.1, h.2]

/-! ### Runs -/

theorem Live.exists_finish (hcap : 0 < capacity) (h : s.Live capacity messages onMessage book) :
    ∃ events s', exec (Pipeline.step onMessage) s events = some s' ∧ s'.Finished ∧
      s'.Lossless messages onMessage book := by
  obtain ⟨events, s', hrun, h', hdone, -⟩ := (helps hcap messages onMessage book).exists_exec
    (fun s hs hd => hs.exists_step (hs.running_helper hd)) h
  exact ⟨events, s', hrun, hdone, h'.inv.lossless hdone.1 hdone.2⟩

/-- **The SPSC pipeline ends under every fair scheduler**: a run that goes on forever
starves a thread that has not returned, although no such thread ever has to wait for a
step; and every run goes on to an end with everything applied. -/
theorem ends_under_fairness (hcap : 0 < capacity) (hmod : capacity + 1 < sizeMod) (messages : List MarketMessage)
    (onMessage : B → MarketMessage → B) (book : B) :
    (∀ run : Forever (step onMessage), run.state 0 = make capacity messages book →
        ∃ p N, ∀ n, N ≤ n → (run.state n).Running p ∧ (run.event n).agent ≠ some p) ∧
      ∀ events s, exec (step onMessage) (make capacity messages book) events = some s →
        (∀ p, s.Running p → ∃ e : PipelineEvent, e.agent = some p ∧ (s.step onMessage e).isSome) ∧
          ∃ events' s', exec (step onMessage) s events' = some s' ∧ s'.Finished ∧
            s'.Lossless messages onMessage book := by
  have hhelps := helps hcap messages onMessage book
  constructor
  · intro run hstart
    have hlive : Live capacity messages onMessage book (run.state 0) := by
      rw [hstart]
      exact live_make hmod onMessage
    obtain ⟨p, N, hN⟩ := hhelps.starves run hlive
    refine ⟨p, N, fun n hn => ⟨?_, (hN n hn).2.1⟩⟩
    have hrunning := (run.inv hhelps.keeps hlive n).running_helper fun hd => by
      have hnext := run.next n
      rw [hd.step_eq_none] at hnext
      cases hnext
    rwa [(hN n hn).1] at hrunning
  · intro events s hrun
    have hlive := exec_invariant hhelps.keeps (live_make hmod onMessage) hrun
    exact ⟨fun p hrunning => hlive.exists_step hrunning, hlive.exists_finish hcap⟩

/-- A consumer that has begun to spin at an empty ring. -/
def spinRun : List PipelineEvent := [.loadDone, .inPop .popLoadTail, .inPop (.popLoadHead 0), .popReturns, .loadDone]

theorem ends_under_fairness_spinRun :
    ∃ s, exec (step OrderBook.onMessage) (make 1 [MarketMessage.zero] OrderBook.empty) spinRun = some s ∧
      ∃ events' s', exec (step OrderBook.onMessage) s events' = some s' ∧ s'.Finished ∧
        s'.Lossless [MarketMessage.zero] OrderBook.onMessage OrderBook.empty := by
  have hruns : (exec (step OrderBook.onMessage) (make 1 [MarketMessage.zero] OrderBook.empty) spinRun).isSome := by
    decide
  obtain ⟨s, hrun⟩ := Option.isSome_iff_exists.mp hruns
  exact ⟨s, hrun, ((ends_under_fairness Nat.one_pos (by decide) _ _ _).2 spinRun s hrun).2⟩

/-! ### A ring of capacity zero -/

/-- The ring takes a step of its own, or none. -/
theorem queue_of_step (hs : s.step onMessage e = some s') :
    s'.queue = s.queue ∨ ∃ e', s.queue.step e' = some s'.queue := by
  cases e <;> simp only [step] at hs <;> split at hs <;> (try split_ifs at hs)
  all_goals first
    | cases hs; exact .inl rfl
    | obtain ⟨queue, hq, heq⟩ := Option.map_eq_some_iff.mp hs; cases heq; exact .inr ⟨_, hq⟩
    | cases hs

/-- No item gets into a ring of one slot, the one that stays free. -/
theorem published_of_step (h : Channel.InvFor 0 s.queue) (hs : s.step onMessage e = some s') :
    s'.queue.published = s.queue.published := by
  rcases queue_of_step hs with hsame | ⟨e', hq⟩
  · rw [hsame]
  · exact Channel.published_of_useless h hq

/-- **The pipeline can finish exactly when its ring can hold something**, or there is
nothing to send. -/
theorem finishes_iff {capacity : ℕ} (hmod : capacity + 1 < sizeMod) (messages : List MarketMessage)
    (onMessage : B → MarketMessage → B) (book : B) :
    (∃ events s, exec (step onMessage) (make capacity messages book) events = some s ∧ s.Finished) ↔
      0 < capacity ∨ messages = [] := by
  constructor
  · rintro ⟨events, s, hrun, hdone⟩
    by_contra hne
    obtain ⟨hcap, hmessages⟩ := not_or.mp hne
    obtain rfl := Nat.eq_zero_of_not_pos hcap
    have hstep : ∀ (s : Pipeline B) e s', Inv 0 messages onMessage book s ∧ s.queue.published = [] →
        step onMessage s e = some s' → Inv 0 messages onMessage book s' ∧ s'.queue.published = [] :=
      fun _ _ _ h hs => ⟨h.1.step hs, (published_of_step h.1.queue hs).trans h.2⟩
    obtain ⟨hinv, hempty⟩ := exec_invariant hstep ⟨inv_make hmod onMessage, rfl⟩ hrun
    have hsent := hinv.sent
    rw [hempty, hdone.1] at hsent
    exact hmessages hsent.symm
  · rintro (hcap | rfl)
    · obtain ⟨events, s, hrun, hdone, -⟩ := (live_make hmod onMessage).exists_finish hcap
      exact ⟨events, s, hrun, hdone⟩
    · exact ⟨[.storeDone, .loadDone, .loadHead, .loadTail], _, rfl, rfl, rfl⟩

theorem finishes_iff_zero :
    ¬∃ events s, exec (step OrderBook.onMessage) (make 0 [MarketMessage.zero] OrderBook.empty) events = some s ∧
      s.Finished := by
  intro h
  have hpos := (finishes_iff (by decide) _ _ _).mp h
  simp at hpos

end Pipeline

end LatencyLab
