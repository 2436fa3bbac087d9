import LatencyLab.Feed.Framing
import LatencyLab.Transition.Progress

/-! The TCP feed comes to an end. A connection may hold few bytes, down to a single
one, so that either side has to wait for the other again and again. Every event but an
interruption spends effort: a byte is sent once and received once. And as long as
nothing has failed one of the threads can go on, because an empty pipe is one that the
sender can fill, or one that was shut down. -/

namespace LatencyLab

open Bytes Transition

namespace TcpEvent

/-- `EINTR`. -/
def interrupted : TcpEvent → Bool
  | .sendInterrupted | .recvInterrupted => true
  | _ => false

/-- Neither an interruption nor a failure. -/
def smooth : TcpEvent → Bool
  | .sendInterrupted | .recvInterrupted | .sendFails | .recvFails | .accept false => false
  | _ => true

end TcpEvent

namespace TcpFeed

variable {B : Type*}

/-- A connection that holds `limit` bytes at the most. -/
def stepWithin (limit : ℕ) (onMessage : B → MarketMessage → B) (s : TcpFeed B) (e : TcpEvent) :
    Option (TcpFeed B) :=
  (s.step onMessage e).filter fun s' => s'.pipe.length ≤ limit

variable {limit : ℕ} {onMessage : B → MarketMessage → B} {messages : List MarketMessage} {book : B}
variable {s s' : TcpFeed B} {e : TcpEvent}

theorem stepWithin_iff :
    s.stepWithin limit onMessage e = some s' ↔ s.step onMessage e = some s' ∧ s'.pipe.length ≤ limit := by
  rw [stepWithin, Option.filter_eq_some_iff, decide_eq_true_eq]

theorem run_of_within {events : List TcpEvent} (hrun : exec (stepWithin limit onMessage) s events = some s') :
    exec (step onMessage) s events = some s' := by
  have hstep : ∀ (s : TcpFeed B) e s', stepWithin limit onMessage (id s) e = some s' →
      ∃ a, s.step onMessage e = some a ∧ id a = s' := fun _ _ s' hs => ⟨s', (stepWithin_iff.mp hs).1, rfl⟩
  obtain ⟨s'', hs, rfl⟩ := exec_lift hstep hrun
  exact hs

/-! ### Effort -/

/-- What is left of the producer's loop: two steps and a `send` for every byte of a message. -/
def producerEffort : TcpProducerPc → ℕ
  | .nextMessage rest => (MarketMessage.size + 2) * rest.length + 1
  | .sending _ sent rest => (MarketMessage.size + 2) * rest.length + 2 + (MarketMessage.size - sent)
  | .finished => 0

/-- What is left of the consumer's loop, with so many messages to come. -/
def consumerEffort (remaining : ℕ) : TcpConsumerPc → ℕ
  | .accepting => (MarketMessage.size + 2) * remaining + 2
  | .testCount => (MarketMessage.size + 2) * remaining + 1
  | .receiving received => (MarketMessage.size + 2) * remaining - received
  | .finished => 0

def effort (s : TcpFeed B) : ℕ :=
  producerEffort s.producer + consumerEffort (s.numMessages.toNat - s.state.appliedMessages.length) s.consumer

theorem effort_make (messages : List MarketMessage) (numMessages : UInt64) (book : B) :
    (make messages numMessages book).effort =
      (MarketMessage.size + 2) * (messages.length + numMessages.toNat) + 3 := by
  show (MarketMessage.size + 2) * messages.length + 1 + ((MarketMessage.size + 2) * (numMessages.toNat - 0) + 2) = _
  rw [Nat.sub_zero, Nat.mul_add]
  omega

theorem eq_of_interrupted (he : e.interrupted = true) (hs : s.step onMessage e = some s') : s' = s := by
  cases e with
  | sendInterrupted | recvInterrupted =>
    simp only [step] at hs
    split at hs
    · split_ifs at hs
      exact (Option.some.inj hs).symm
    · cases hs
  | _ => cases he

/-- Every event but an interruption spends effort. -/
theorem effort_lt_of_step (h : s.Inv messages) (he : e.interrupted = false) (hs : s.step onMessage e = some s') :
    s'.effort < s.effort := by
  cases e with
  | sendInterrupted | recvInterrupted => cases he
  | startMessage now =>
    simp only [step] at hs
    split at hs
    · rename_i message rest hpc
      cases hs
      simp only [effort, producerEffort, hpc, List.length_cons, Nat.mul_succ]
      omega
    · cases hs
  | sendAccepts n =>
    simp only [step] at hs
    split at hs
    · rename_i message sent rest hpc
      split_ifs at hs with hn
      cases hs
      simp only [effort, producerEffort, hpc]
      omega
    · cases hs
  | sendFails =>
    simp only [step] at hs
    split at hs
    · rename_i message sent rest hpc
      split_ifs at hs
      cases hs
      simp only [effort, producerEffort, hpc]
      omega
    · cases hs
  | messageSent =>
    simp only [step] at hs
    split at hs
    · rename_i message sent rest hpc
      split_ifs at hs
      cases hs
      simp only [effort, producerEffort, hpc]
      omega
    · cases hs
  | shutdown =>
    simp only [step] at hs
    split at hs
    · rename_i hpc
      cases hs
      simp only [effort, producerEffort, hpc]
      omega
    · cases hs
  | accept ok =>
    simp only [step] at hs
    split at hs
    · rename_i hpc
      split_ifs at hs <;> cases hs <;> simp only [effort, consumerEffort, hpc] <;> omega
    · cases hs
  | testCount =>
    simp only [step] at hs
    split at hs
    · rename_i hpc
      split_ifs at hs <;> cases hs <;> simp only [effort, consumerEffort, hpc] <;> omega
    · cases hs
  | recvReturns n =>
    simp only [step] at hs
    split at hs
    · rename_i received hpc
      split_ifs at hs with hn
      cases hs
      obtain ⟨-, hlt⟩ := h.receiving received hpc
      simp only [effort, consumerEffort, hpc, MarketMessage.size] at hn ⊢
      omega
    · cases hs
  | recvEnd | recvFails =>
    simp only [step] at hs
    split at hs
    · rename_i received hpc
      split_ifs at hs
      cases hs
      obtain ⟨hle, hlt⟩ := h.receiving received hpc
      simp only [effort, consumerEffort, hpc, MarketMessage.size] at hle ⊢
      omega
    · cases hs
  | messageReceived clock =>
    simp only [step] at hs
    split at hs
    · rename_i received hpc
      split_ifs at hs with hfull
      cases hs
      obtain ⟨-, hlt⟩ := h.receiving received hpc
      have happlied : (s.state.consume onMessage clock).appliedMessages.length =
          s.state.appliedMessages.length + 1 := by simp [FeedConsumer.consume]
      simp only [effort, consumerEffort, hpc, happlied, hfull, MarketMessage.size]
      omega
    · cases hs

/-! ### What can happen next -/

/-- A consumer that has its count, when that is as long as the list, has everything. -/
theorem Inv.all_applied (h : s.Inv messages) (hnum : messages.length ≤ s.numMessages.toNat)
    (hcount : s.state.appliedMessages.length = s.numMessages.toNat) :
    s.state.appliedMessages = s.sentMessages ∧ messages.length = s.sentMessages.length := by
  have hsent := h.sent_le
  have hle := h.applied.length_le
  exact ⟨h.applied.eq_of_length (by omega), by omega⟩

/-- A message that is all applied is all sent. -/
theorem Inv.sent_of_applied (h : s.Inv messages) (hc : s.consumer = .testCount)
    (hall : s.state.appliedMessages = s.sentMessages) {message : MarketMessage} {sent : ℕ}
    {rest : List MarketMessage} (hp : s.producer = .sending message sent rest) : MarketMessage.size ≤ sent := by
  obtain ⟨tail, htail, hbytes⟩ := h.bytes (by simp [hc])
  rw [hp, Unaccepted] at htail
  rw [hall, List.append_assoc, List.append_assoc, List.append_right_eq_self] at hbytes
  have hnone : message.image.drop sent = [] :=
    htail ▸ (List.append_eq_nil_iff.mp (List.append_eq_nil_iff.mp hbytes).2).2
  rw [List.drop_eq_nil_iff, MarketMessage.length_image] at hnone
  exact hnone

/-- The invariant while nothing has failed, with what the threads leave behind. -/
structure Live (messages : List MarketMessage) (onMessage : B → MarketMessage → B) (book : B) (s : TcpFeed B) :
    Prop where
  inv : s.Inv messages
  enough : messages.length ≤ s.numMessages.toNat
  book : s.state.book = s.state.appliedMessages.foldl onMessage book
  sendOk : s.sendFailed = false
  recvOk : s.recvFailed = false
  shutDown : s.producer = .finished → s.shutDown = true
  behind : s.consumer = .finished → ∀ message sent rest, s.producer = .sending message sent rest →
    MarketMessage.size ≤ sent

theorem live_make {numMessages : UInt64} (hnum : messages.length ≤ numMessages.toNat)
    (onMessage : B → MarketMessage → B) (book : B) :
    (make messages numMessages book).Live messages onMessage book where
  inv := inv_make messages numMessages book
  enough := hnum
  book := rfl
  sendOk := rfl
  recvOk := rfl
  shutDown hpc := by cases hpc
  behind hpc := by cases hpc

theorem book_of_step (h : s.state.book = s.state.appliedMessages.foldl onMessage book)
    (hs : s.step onMessage e = some s') : s'.state.book = s'.state.appliedMessages.foldl onMessage book := by
  cases e with
  | messageReceived clock =>
    simp only [step] at hs
    split at hs
    · split_ifs at hs
      cases hs
      simp only [FeedConsumer.consume, List.foldl_append, ← h]
      rfl
    · cases hs
  | _ =>
    simp only [step] at hs
    split at hs
    · try split_ifs at hs
      all_goals
        cases hs
        exact h
    · cases hs

theorem shutDown_of_step (h : s.producer = .finished → s.shutDown = true) (hs : s.step onMessage e = some s')
    (hp : s'.producer = .finished) : s'.shutDown = true := by
  cases e <;> simp only [step] at hs <;> split at hs <;> (try split_ifs at hs) <;> cases hs
  all_goals first
    | exact h hp
    | rfl
    | cases hp

namespace Live

theorem behind_step (h : s.Live messages onMessage book) (hs : s.step onMessage e = some s')
    (hrecv : s'.recvFailed = false) (hc : s'.consumer = .finished) {message : MarketMessage} {sent : ℕ}
    {rest : List MarketMessage} (hp : s'.producer = .sending message sent rest) : MarketMessage.size ≤ sent := by
  cases e with
  | startMessage now =>
    simp only [TcpFeed.step] at hs
    split at hs
    · rename_i next rest' hpc
      cases hs
      have hcount := h.inv.counted_of_running (by simp [hpc]) hc h.recvOk
      have hunsent := h.inv.unsent
      rw [hpc, Unsent, ← (h.inv.all_applied h.enough hcount).2, List.drop_length] at hunsent
      cases hunsent
    · cases hs
  | sendAccepts n =>
    simp only [TcpFeed.step] at hs
    split at hs
    · rename_i next sent' rest' hpc
      split_ifs at hs with hn
      cases hs
      have hfull := h.behind hc next sent' rest' hpc
      omega
    · cases hs
  | testCount =>
    simp only [TcpFeed.step] at hs
    split at hs
    · rename_i hpc
      split_ifs at hs with hlt
      · cases hs
        cases hc
      · cases hs
        rw [UInt64.lt_iff_toNat_lt, h.inv.count] at hlt
        have hcount := h.inv.limit.antisymm (Nat.le_of_not_lt hlt)
        exact h.inv.sent_of_applied hpc (h.inv.all_applied h.enough hcount).1 hp
    · cases hs
  | recvEnd =>
    simp only [TcpFeed.step] at hs
    split at hs
    · split_ifs at hs with hend
      cases hs
      have hfinished := h.inv.shutDown hend.2.2
      cases hp.symm.trans hfinished
    · cases hs
  | sendFails | messageSent | shutdown =>
    simp only [TcpFeed.step] at hs
    split at hs
    · try split_ifs at hs
      all_goals
        cases hs
        cases hp
    · cases hs
  | accept ok =>
    simp only [TcpFeed.step] at hs
    split at hs
    · split_ifs at hs
      · cases hs
        cases hc
      · cases hs
        cases hrecv
    · cases hs
  | recvFails =>
    simp only [TcpFeed.step] at hs
    split at hs
    · split_ifs at hs
      cases hs
      cases hrecv
    · cases hs
  | recvReturns | messageReceived =>
    simp only [TcpFeed.step] at hs
    split at hs
    · split_ifs at hs
      cases hs
      cases hc
    · cases hs
  | sendInterrupted | recvInterrupted =>
    obtain rfl := eq_of_interrupted rfl hs
    exact h.behind hc message sent rest hp

theorem step (h : s.Live messages onMessage book) (hs : s.step onMessage e = some s')
    (hsend : s'.sendFailed = false) (hrecv : s'.recvFailed = false) : s'.Live messages onMessage book where
  inv := h.inv.step hs
  enough := by
    rw [numMessages_of_step hs]
    exact h.enough
  book := book_of_step h.book hs
  sendOk := hsend
  recvOk := hrecv
  shutDown := shutDown_of_step h.shutDown hs
  behind hc _ _ _ hp := h.behind_step hs hrecv hc hp

end Live

/-- A smooth event leaves failure out. -/
theorem ok_of_smooth (he : e.smooth = true) (hs : s.step onMessage e = some s') :
    s'.sendFailed = s.sendFailed ∧ s'.recvFailed = s.recvFailed := by
  cases e with
  | accept ok =>
    cases ok
    · cases he
    · simp only [step] at hs
      split at hs
      · cases hs
        exact ⟨rfl, rfl⟩
      · cases hs
  | sendFails | recvFails => cases he
  | _ =>
    simp only [step] at hs
    split at hs
    · try split_ifs at hs
      all_goals
        cases hs
        exact ⟨rfl, rfl⟩
    · cases hs

/-- Both threads have returned. -/
def Finished (s : TcpFeed B) : Prop := s.producer = .finished ∧ s.consumer = .finished

namespace Live

/-- The sender before its end, with an empty pipe or no `send` to make. -/
theorem exists_producer (hp : s.producer ≠ .finished) (hlimit : 0 < limit) (hwithin : s.pipe.length ≤ limit)
    (hroom : s.pipe = [] ∨ ∀ message sent rest, s.producer = .sending message sent rest → MarketMessage.size ≤ sent)
    (hle : ∀ message sent rest, s.producer = .sending message sent rest → sent ≤ MarketMessage.size) :
    ∃ e s', e.smooth = true ∧ s.step onMessage e = some s' ∧ s'.pipe.length ≤ limit := by
  cases hpc : s.producer with
  | nextMessage rest =>
    cases rest with
    | nil =>
      have hs : s.step onMessage .shutdown = some { s with producer := .finished, shutDown := true } := by
        simp only [TcpFeed.step, hpc]
      exact ⟨_, _, rfl, hs, hwithin⟩
    | cons message rest =>
      have hs : s.step onMessage (.startMessage 0) = some { s with
          producer := .sending (message.stamp 0) 0 rest
          sentMessages := s.sentMessages ++ [message.stamp 0] } := by
        simp only [TcpFeed.step, hpc]
      exact ⟨_, _, rfl, hs, hwithin⟩
  | sending message sent rest =>
    rcases Nat.lt_or_ge sent MarketMessage.size with hlt | hge
    · have hempty : s.pipe = [] := hroom.resolve_right fun hfull => absurd hlt (Nat.not_lt.mpr (hfull _ _ _ hpc))
      have hone : 0 < 1 ∧ sent + 1 ≤ MarketMessage.size := ⟨Nat.one_pos, hlt⟩
      have hs : s.step onMessage (.sendAccepts 1) = some { s with
          producer := .sending message (sent + 1) rest
          pipe := s.pipe ++ field message.image sent 1 } := by
        simp only [TcpFeed.step, hpc, if_pos hone]
      have hfield : (field message.image sent 1).length = 1 := by
        rw [field, List.length_take, List.length_drop, MarketMessage.length_image]
        omega
      refine ⟨_, _, rfl, hs, ?_⟩
      rw [hempty, List.nil_append, hfield]
      exact hlimit
    · have hs : s.step onMessage .messageSent =
          some { s with producer := .nextMessage rest, produced := s.produced + 1 } := by
        simp only [TcpFeed.step, hpc, if_pos ((hle message sent rest hpc).antisymm hge)]
      exact ⟨_, _, rfl, hs, hwithin⟩
  | finished => exact absurd hpc hp

/-- The receiver of a part of a message, unless it has to wait for the sender. -/
theorem exists_recv (h : s.Live messages onMessage book) {received : ℕ} (hpc : s.consumer = .receiving received)
    (hwithin : s.pipe.length ≤ limit) (hwait : s.pipe = [] → s.producer = .finished) :
    ∃ e s', e.smooth = true ∧ s.step onMessage e = some s' ∧ s'.pipe.length ≤ limit := by
  rcases Nat.lt_or_eq_of_le (h.inv.receiving received hpc).1 with hlt | hfull
  · by_cases hempty : s.pipe = []
    · have hend : received < MarketMessage.size ∧ s.pipe = [] ∧ s.shutDown = true :=
        ⟨hlt, hempty, h.shutDown (hwait hempty)⟩
      have hs : s.step onMessage .recvEnd = some { s with consumer := .finished } := by
        simp only [TcpFeed.step, hpc, if_pos hend]
      exact ⟨_, _, rfl, hs, hwithin⟩
    · have hone : 0 < 1 ∧ received + 1 ≤ MarketMessage.size ∧ 1 ≤ s.pipe.length :=
        ⟨Nat.one_pos, hlt, List.length_pos_iff.mpr hempty⟩
      have hs : s.step onMessage (.recvReturns 1) = some { s with
          consumer := .receiving (received + 1)
          pipe := s.pipe.drop 1
          state := { s.state with message := writeAt s.state.message received (s.pipe.take 1) } } := by
        simp only [TcpFeed.step, hpc, if_pos hone]
      refine ⟨_, _, rfl, hs, ?_⟩
      rw [List.length_drop]
      omega
  · have hs : s.step onMessage (.messageReceived ⟨0, 0, 0⟩) =
        some { s with consumer := .testCount, state := s.state.consume onMessage ⟨0, 0, 0⟩ } := by
      simp only [TcpFeed.step, hpc, if_pos hfull]
    exact ⟨_, _, rfl, hs, hwithin⟩

/-- Before both threads have returned one of them can go on. -/
theorem exists_step (h : s.Live messages onMessage book) (hlimit : 0 < limit) (hwithin : s.pipe.length ≤ limit)
    (hle : ∀ message sent rest, s.producer = .sending message sent rest → sent ≤ MarketMessage.size)
    (hd : ¬s.Finished) : ∃ e s', e.smooth = true ∧ s.step onMessage e = some s' ∧ s'.pipe.length ≤ limit := by
  cases hpc : s.consumer with
  | accepting =>
    have hs : s.step onMessage (.accept true) = some { s with consumer := .testCount } := by
      simp only [TcpFeed.step, hpc, if_true]
    exact ⟨_, _, rfl, hs, hwithin⟩
  | testCount =>
    by_cases hlt : s.state.consumed < s.numMessages
    · have hs : s.step onMessage .testCount = some { s with consumer := .receiving 0 } := by
        simp only [TcpFeed.step, hpc, if_pos hlt]
      exact ⟨_, _, rfl, hs, hwithin⟩
    · have hs : s.step onMessage .testCount = some { s with consumer := .finished } := by
        simp only [TcpFeed.step, hpc, if_neg hlt]
      exact ⟨_, _, rfl, hs, hwithin⟩
  | receiving received =>
    by_cases hwait : s.pipe = [] → s.producer = .finished
    · exact h.exists_recv hpc hwithin hwait
    · obtain ⟨hempty, hp⟩ := Classical.not_imp.mp hwait
      exact exists_producer hp hlimit hwithin (.inl hempty) hle
  | finished =>
    have hp : s.producer ≠ .finished := fun hp => hd ⟨hp, hpc⟩
    exact exists_producer hp hlimit hwithin (.inr (h.behind hpc)) hle

end Live

/-! ### Runs -/

/-- No more of an image is sent than there is. -/
def SendsOnly (s : TcpFeed B) : Prop :=
  ∀ message sent rest, s.producer = .sending message sent rest → sent ≤ MarketMessage.size

theorem SendsOnly.step (h : s.SendsOnly) (hs : s.step onMessage e = some s') : s'.SendsOnly := by
  intro message sent rest hp
  cases e with
  | startMessage now =>
    simp only [TcpFeed.step] at hs
    split at hs
    · cases hs
      cases hp
      exact Nat.zero_le _
    · cases hs
  | sendAccepts n =>
    simp only [TcpFeed.step] at hs
    split at hs
    · split_ifs at hs with hn
      cases hs
      cases hp
      exact hn.2
    · cases hs
  | sendFails | messageSent | shutdown =>
    simp only [TcpFeed.step] at hs
    split at hs
    · try split_ifs at hs
      all_goals
        cases hs
        cases hp
    · cases hs
  | sendInterrupted | recvInterrupted =>
    obtain rfl := eq_of_interrupted rfl hs
    exact h message sent rest hp
  | _ =>
    simp only [TcpFeed.step] at hs
    split at hs
    · try split_ifs at hs
      all_goals
        cases hs
        exact h message sent rest hp
    · cases hs

theorem spends (limit : ℕ) (onMessage : B → MarketMessage → B) (messages : List MarketMessage) :
    Spends (stepWithin limit onMessage) (Inv messages) TcpEvent.interrupted effort 0 where
  keeps _ _ _ h hs := h.step (stepWithin_iff.mp hs).1
  spends _ _ _ h hs he := effort_lt_of_step h he (stepWithin_iff.mp hs).1
  refunds s _ _ _ hs he := by
    rw [eq_of_interrupted he (stepWithin_iff.mp hs).1]
    exact Nat.le_add_right _ _

/-- What holds as long as nothing has failed. -/
def Fine (limit : ℕ) (messages : List MarketMessage) (onMessage : B → MarketMessage → B) (book : B)
    (s : TcpFeed B) : Prop :=
  s.Live messages onMessage book ∧ s.SendsOnly ∧ s.pipe.length ≤ limit

/-- A failure is never forgotten. -/
theorem ok_of_step (hs : s.step onMessage e = some s') :
    (s'.sendFailed = false → s.sendFailed = false) ∧ (s'.recvFailed = false → s.recvFailed = false) := by
  cases e <;> simp only [step] at hs <;> split at hs <;> (try split_ifs at hs) <;> cases hs
  all_goals first
    | exact ⟨id, id⟩
    | exact ⟨fun hf => absurd hf (by simp), id⟩
    | exact ⟨id, fun hf => absurd hf (by simp)⟩

theorem fine_of_run {numMessages : UInt64} (hnum : messages.length ≤ numMessages.toNat) {events : List TcpEvent}
    (hrun : exec (stepWithin limit onMessage) (make messages numMessages book) events = some s)
    (hsend : s.sendFailed = false) (hrecv : s.recvFailed = false) : s.Fine limit messages onMessage book := by
  have hstep : ∀ s e s', (s.sendFailed = false → s.recvFailed = false → s.Fine limit messages onMessage book) →
      stepWithin limit onMessage s e = some s' →
      s'.sendFailed = false → s'.recvFailed = false → s'.Fine limit messages onMessage book := by
    intro s e s' h hs hsend hrecv
    obtain ⟨hs, hwithin⟩ := stepWithin_iff.mp hs
    obtain ⟨hlive, honly, -⟩ := h ((ok_of_step hs).1 hsend) ((ok_of_step hs).2 hrecv)
    exact ⟨hlive.step hs hsend hrecv, honly.step hs, hwithin⟩
  have hmake : (make messages numMessages book).Fine limit messages onMessage book :=
    ⟨live_make hnum onMessage book, by simp [SendsOnly, make], Nat.zero_le _⟩
  exact exec_invariant hstep (fun _ _ => hmake) hrun hsend hrecv

/-- Everything was applied, each message under the reading of the clock that the run has
for it. -/
structure Complete (messages : List MarketMessage) (events : List TcpEvent)
    (onMessage : B → MarketMessage → B) (book : B) (s : TcpFeed B) : Prop where
  each : (sendReadings events).length = messages.length
  applied : s.state.appliedMessages = sentAt messages (sendReadings events)
  book : s.state.book = s.state.appliedMessages.foldl onMessage book

theorem Live.complete (h : s.Live messages onMessage book) {events : List TcpEvent} (ht : s.Timed messages events)
    (hd : s.Finished) : s.Complete messages events onMessage book := by
  obtain ⟨hall, hlen⟩ := h.inv.complete h.enough hd.1 hd.2 h.sendOk h.recvOk
  exact ⟨ht.each.symm.trans hlen, hall.trans ht.sent, h.book⟩

/-- **The TCP feed comes to an end**, over a connection that holds any number of bytes
from one on: the length of a run is bounded by the number of messages and of
interruptions, and a run in which nothing has failed goes on, without a failure or an
interruption, to an end with everything applied. -/
theorem completes (hlimit : 0 < limit) {numMessages : UInt64} (hnum : messages.length ≤ numMessages.toNat)
    {events : List TcpEvent}
    (hrun : exec (stepWithin limit onMessage) (make messages numMessages book) events = some s) :
    events.length ≤ (MarketMessage.size + 2) * (messages.length + numMessages.toNat) + 3 +
        events.countP TcpEvent.interrupted ∧
      (s.sendFailed = false → s.recvFailed = false →
        ∃ events' s', exec (stepWithin limit onMessage) s events' = some s' ∧ s'.Finished ∧
          s'.Complete messages (events ++ events') onMessage book ∧ ∀ e ∈ events', e.smooth = true) := by
  constructor
  · have hle := (spends limit onMessage messages).length_le (inv_make messages numMessages book) hrun
    rw [effort_make] at hle
    omega
  · intro hsend hrecv
    have hfine := fine_of_run hnum hrun hsend hrecv
    have hnext : ∀ s : TcpFeed B, s.Fine limit messages onMessage book → ¬s.Finished →
        ∃ e s', e.smooth = true ∧ stepWithin limit onMessage s e = some s' ∧
          s'.Fine limit messages onMessage book ∧ s'.effort < s.effort := by
      intro s hs hd
      obtain ⟨e, s', he, hstep, hwithin⟩ := hs.1.exists_step hlimit hs.2.2 hs.2.1 hd
      obtain ⟨hsend', hrecv'⟩ := ok_of_smooth he hstep
      have hlive := hs.1.step hstep (hsend'.trans hs.1.sendOk) (hrecv'.trans hs.1.recvOk)
      have hspends : e.interrupted = false := by cases e <;> first | rfl | cases he
      exact ⟨e, s', he, stepWithin_iff.mpr ⟨hstep, hwithin⟩, ⟨hlive, hs.2.1.step hstep, hwithin⟩,
        effort_lt_of_step hs.1.inv hspends hstep⟩
    obtain ⟨events', s', hrun', hfine', hdone, hevents⟩ := exists_exec_of_lt effort hnext hfine
    have hall : exec (stepWithin limit onMessage) (make messages numMessages book) (events ++ events') = some s' := by
      rw [exec_append, hrun]
      exact hrun'
    obtain ⟨-, htimed, -⟩ := timed_of_run (run_of_within hall)
    exact ⟨events', s', hrun', hdone, hfine'.1.complete htimed hdone, hevents⟩

/-- The first message and the first byte of the second, over a connection that holds no more. -/
def byteRun : List TcpEvent :=
  [.accept true, .testCount, .startMessage 5, .recvInterrupted, .sendAccepts 64, .messageSent, .startMessage 6,
    .recvReturns 60, .sendAccepts 1, .recvReturns 4, .messageReceived ⟨7, 8, 9⟩, .sendInterrupted]

theorem completes_byteRun :
    ∃ s, exec (stepWithin 64 fun (n : ℕ) _ => n + 1) (make addThenModify 2 0) byteRun = some s ∧
      ∃ events' s', exec (stepWithin 64 fun (n : ℕ) _ => n + 1) s events' = some s' ∧ s'.Finished ∧
        s'.Complete addThenModify (byteRun ++ events') (fun n _ => n + 1) 0 ∧
        ∀ e ∈ events', e.smooth = true := by
  have hends : (exec (stepWithin 64 fun (n : ℕ) _ => n + 1) (make addThenModify 2 0) byteRun).map
      (fun s => (s.sendFailed, s.recvFailed)) = some (false, false) := by decide
  obtain ⟨s, hrun, hok⟩ := Option.map_eq_some_iff.mp hends
  obtain ⟨hsend, hrecv⟩ := Prod.mk.inj hok
  exact ⟨s, hrun, (completes (by decide) (by decide) hrun).2 hsend hrecv⟩

end TcpFeed

end LatencyLab
