import LatencyLab.Feed.Udp
import Mathlib.Data.List.Induction

/-! Datagrams the UDP consumer abandons. The loop ends on a failed `recv` followed
by a look at `producer_done`. Between the two, datagrams can arrive, and an
interrupted `recv` says nothing about the queue; in both cases the consumer leaves
delivered datagrams unread, and in no other. -/

namespace LatencyLab

open Transition

/-- The events at which `recv` returns an error. -/
def UdpEvent.recvFails : UdpEvent → Bool
  | .recvTimeout | .recvInterrupted => true
  | _ => false

namespace UdpFeed

variable {B : Type*}

/-- A consumer that has left has consumed everything or has nothing unread. -/
def KeepsAll (s : UdpFeed B) : Prop :=
  s.consumer = .finished → s.state.consumed = s.numMessages ∨ s.receiveQueue = []

/-- The count never passes `numMessages`, and inside the loop it has not reached it. -/
structure Counted (s : UdpFeed B) : Prop where
  limit : s.state.consumed.toNat ≤ s.numMessages.toNat
  below : s.consumer = .receiving ∨ s.consumer = .failed ∨ (∃ bytes, s.consumer = .received bytes) →
    s.state.consumed.toNat < s.numMessages.toNat

variable {onMessage : B → MarketMessage → B} {s s' : UdpFeed B} {e : UdpEvent}

/-! ### Steps -/

theorem of_sendto {now : UInt64} {ok : Bool} (hs : s.step onMessage (.sendto now ok) = some s') :
    s'.consumer = s.consumer ∧ s'.receiveQueue = s.receiveQueue ∧ s'.state = s.state ∧
      s'.numMessages = s.numMessages := by
  simp only [step] at hs
  split at hs
  · split_ifs at hs <;> cases hs <;> exact ⟨rfl, rfl, rfl, rfl⟩
  · cases hs

theorem of_setDone (hs : s.step onMessage .setDone = some s') : s' = { s with producerDone := true } := by
  simp only [step] at hs
  split at hs
  · split_ifs at hs
    exact (Option.some.inj hs).symm
  · cases hs

theorem of_deliver {i : ℕ} (hs : s.step onMessage (.deliver i) = some s') :
    ∃ datagram, s' = { s with
      inFlight := s.inFlight.eraseIdx i
      receiveQueue := if s.consumer = .finished then s.receiveQueue else s.receiveQueue ++ [datagram] } := by
  obtain ⟨datagram, -, he⟩ := Option.map_eq_some_iff.mp hs
  exact ⟨datagram, he.symm⟩

theorem of_drop {i : ℕ} (hs : s.step onMessage (.drop i) = some s') :
    s' = { s with inFlight := s.inFlight.eraseIdx i } := by
  obtain ⟨_, -, he⟩ := Option.map_eq_some_iff.mp hs
  exact he.symm

theorem of_testCount (hs : s.step onMessage .testCount = some s') :
    s.consumer = .testCount ∧ ((s.state.consumed < s.numMessages ∧ s' = { s with consumer := .receiving }) ∨
      (¬s.state.consumed < s.numMessages ∧ s' = { s with consumer := .finished })) := by
  simp only [step] at hs
  split at hs
  · rename_i hpc
    split_ifs at hs with hlt
    · exact ⟨hpc, .inl ⟨hlt, (Option.some.inj hs).symm⟩⟩
    · exact ⟨hpc, .inr ⟨hlt, (Option.some.inj hs).symm⟩⟩
  · cases hs

theorem of_recv (hs : s.step onMessage .recv = some s') :
    s.consumer = .receiving ∧ (∃ bytes, s'.consumer = .received bytes) ∧
      s'.state.consumed = s.state.consumed ∧ s'.numMessages = s.numMessages := by
  simp only [step] at hs
  split at hs
  · rename_i datagram rest hpc hqueue
    cases hs
    exact ⟨hpc, ⟨_, rfl⟩, rfl, rfl⟩
  · cases hs

theorem of_recvTimeout (hs : s.step onMessage .recvTimeout = some s') :
    s.consumer = .receiving ∧ s.receiveQueue = [] ∧ s' = { s with consumer := .failed } := by
  simp only [step] at hs
  split at hs
  · rename_i hpc hqueue
    exact ⟨hpc, hqueue, (Option.some.inj hs).symm⟩
  · cases hs

theorem of_recvInterrupted (hs : s.step onMessage .recvInterrupted = some s') :
    s.consumer = .receiving ∧ s' = { s with consumer := .failed } := by
  simp only [step] at hs
  split at hs
  · rename_i hpc
    exact ⟨hpc, (Option.some.inj hs).symm⟩
  · cases hs

theorem of_testDone (hs : s.step onMessage .testDone = some s') :
    s.consumer = .failed ∧ s' = { s with consumer := if s.producerDone then .finished else .testCount } := by
  simp only [step] at hs
  split at hs
  · rename_i hpc
    exact ⟨hpc, (Option.some.inj hs).symm⟩
  · cases hs

theorem of_messageReceived {clock : ConsumeClock}
    (hs : s.step onMessage (.messageReceived clock) = some s') :
    (∃ bytes, s.consumer = .received bytes) ∧ s'.consumer = .testCount ∧ s'.numMessages = s.numMessages ∧
      (s'.state.consumed = s.state.consumed ∨ s'.state.consumed = s.state.consumed + 1) := by
  simp only [step] at hs
  split at hs
  · rename_i bytes hpc
    split_ifs at hs
    · cases hs
      exact ⟨⟨bytes, hpc⟩, rfl, rfl, .inr rfl⟩
    · cases hs
      exact ⟨⟨bytes, hpc⟩, rfl, rfl, .inl rfl⟩
  · cases hs

/-! ### The count -/

theorem counted_make (messages : List MarketMessage) (numMessages : UInt64) (book : B) :
    (make messages numMessages book).Counted :=
  ⟨Nat.zero_le _, by simp [make]⟩

theorem Counted.step (h : s.Counted) (hs : s.step onMessage e = some s') : s'.Counted := by
  cases e with
  | sendto now ok =>
    obtain ⟨hc, -, hstate, hnum⟩ := of_sendto hs
    exact ⟨by rw [hstate, hnum]; exact h.limit, by rw [hc, hstate, hnum]; exact h.below⟩
  | setDone =>
    rw [of_setDone hs]
    exact ⟨h.limit, h.below⟩
  | deliver i =>
    obtain ⟨datagram, rfl⟩ := of_deliver hs
    exact ⟨h.limit, h.below⟩
  | drop i =>
    rw [of_drop hs]
    exact ⟨h.limit, h.below⟩
  | testCount =>
    rcases of_testCount hs with ⟨-, ⟨hlt, rfl⟩ | ⟨-, rfl⟩⟩
    · exact ⟨h.limit, fun _ => UInt64.lt_iff_toNat_lt.mp hlt⟩
    · exact ⟨h.limit, by simp⟩
  | recv =>
    obtain ⟨hc, -, hcount, hnum⟩ := of_recv hs
    have hbelow := h.below (.inl hc)
    exact ⟨by rw [hcount, hnum]; exact h.limit, fun _ => by rw [hcount, hnum]; exact hbelow⟩
  | recvTimeout =>
    obtain ⟨hc, -, rfl⟩ := of_recvTimeout hs
    exact ⟨h.limit, fun _ => h.below (.inl hc)⟩
  | recvInterrupted =>
    obtain ⟨hc, rfl⟩ := of_recvInterrupted hs
    exact ⟨h.limit, fun _ => h.below (.inl hc)⟩
  | testDone =>
    obtain ⟨hc, rfl⟩ := of_testDone hs
    exact ⟨h.limit, fun _ => h.below (.inr (.inl hc))⟩
  | messageReceived clock =>
    obtain ⟨hc, hc', hnum, hcount⟩ := of_messageReceived hs
    have hbelow := h.below (.inr (.inr hc))
    have hmax := s.numMessages.toNat_lt
    refine ⟨?_, by simp [hc']⟩
    rcases hcount with hsame | hmore
    · rw [hsame, hnum]
      exact h.limit
    · rw [hmore, hnum, UInt64.toNat_add, UInt64.toNat_one, Nat.mod_eq_of_lt (by omega)]
      omega

/-! ### The test that ends the loop -/

/-- Only the look at `producer_done` can abandon datagrams, and it does exactly if
it ends the loop over a queue that is not empty. -/
theorem keepsAll_step_iff (h : s.Counted) (hk : s.KeepsAll) (hs : s.step onMessage e = some s') :
    s'.KeepsAll ↔ (e = .testDone → s.producerDone = true → s.receiveQueue = []) := by
  by_cases he : e = .testDone
  · subst he
    obtain ⟨hc, rfl⟩ := of_testDone hs
    have hne : s.state.consumed ≠ s.numMessages := fun heq => by
      have := h.below (.inr (.inl hc))
      rw [heq] at this
      exact lt_irrefl _ this
    cases hd : s.producerDone <;> simp [KeepsAll, hne]
  · refine iff_of_true ?_ fun h' => absurd h' he
    cases e with
    | sendto now ok =>
      obtain ⟨hc, hqueue, hstate, hnum⟩ := of_sendto hs
      rw [KeepsAll, hc, hqueue, hstate, hnum]
      exact hk
    | setDone =>
      rw [of_setDone hs]
      exact hk
    | deliver i =>
      obtain ⟨datagram, rfl⟩ := of_deliver hs
      intro hfin
      have hfin' : s.consumer = .finished := hfin
      simpa [hfin'] using hk hfin'
    | drop i =>
      rw [of_drop hs]
      exact hk
    | testCount =>
      rcases of_testCount hs with ⟨-, ⟨-, rfl⟩ | ⟨hlt, rfl⟩⟩
      · intro hfin
        cases hfin
      · intro _
        rw [UInt64.lt_iff_toNat_lt] at hlt
        exact .inl (UInt64.toNat_inj.mp (h.limit.antisymm (Nat.le_of_not_lt hlt)))
    | recv =>
      obtain ⟨-, ⟨bytes, hc⟩, -, -⟩ := of_recv hs
      intro hfin
      simp [hc] at hfin
    | recvTimeout =>
      obtain ⟨-, -, rfl⟩ := of_recvTimeout hs
      intro hfin
      cases hfin
    | recvInterrupted =>
      obtain ⟨-, rfl⟩ := of_recvInterrupted hs
      intro hfin
      cases hfin
    | testDone => exact absurd rfl he
    | messageReceived clock =>
      obtain ⟨-, hc, -, -⟩ := of_messageReceived hs
      intro hfin
      simp [hc] at hfin

/-- While the consumer stands behind a failed `recv`, the queue fills by deliveries only. -/
theorem failed_of_step (hf : e.recvFails = false) (hs : s.step onMessage e = some s')
    (hc : s'.consumer = .failed) :
    s.consumer = .failed ∧ (s'.receiveQueue = [] ↔ s.receiveQueue = [] ∧ ∀ i, e ≠ .deliver i) := by
  cases e with
  | sendto now ok =>
    obtain ⟨hc', hqueue, -, -⟩ := of_sendto hs
    exact ⟨hc' ▸ hc, by simp [hqueue]⟩
  | setDone =>
    rw [of_setDone hs] at hc ⊢
    exact ⟨hc, by simp⟩
  | deliver i =>
    obtain ⟨datagram, rfl⟩ := of_deliver hs
    have hc' : s.consumer = .failed := hc
    exact ⟨hc', by simp [hc']⟩
  | drop i =>
    rw [of_drop hs] at hc ⊢
    exact ⟨hc, by simp⟩
  | testCount => rcases of_testCount hs with ⟨-, ⟨-, rfl⟩ | ⟨-, rfl⟩⟩ <;> cases hc
  | recv =>
    obtain ⟨-, ⟨bytes, hc'⟩, -, -⟩ := of_recv hs
    simp [hc'] at hc
  | recvTimeout => cases hf
  | recvInterrupted => cases hf
  | testDone =>
    obtain ⟨-, rfl⟩ := of_testDone hs
    cases hd : s.producerDone <;> simp [hd] at hc
  | messageReceived clock =>
    obtain ⟨-, hc', -, -⟩ := of_messageReceived hs
    simp [hc'] at hc

/-! ### Runs -/

section Runs

variable {messages : List MarketMessage} {numMessages : UInt64} {book : B}

/-- `s` is the state after some events. -/
abbrev After (onMessage : B → MarketMessage → B) (messages : List MarketMessage) (numMessages : UInt64)
    (book : B) (events : List UdpEvent) (s : UdpFeed B) : Prop :=
  exec (step onMessage) (make messages numMessages book) events = some s

theorem counted_of_run {events : List UdpEvent} (h : After onMessage messages numMessages book events s) :
    s.Counted :=
  exec_invariant (fun _ _ _ hc hs => hc.step hs) (counted_make messages numMessages book) h

/-- Behind the last failed `recv` of a run nothing was delivered, and if that `recv`
was interrupted, nothing was waiting. -/
def NothingArrived (onMessage : B → MarketMessage → B) (messages : List MarketMessage)
    (numMessages : UInt64) (book : B) (events : List UdpEvent) : Prop :=
  ∀ before failure mid, events = before ++ failure :: mid → failure.recvFails = true →
    (∀ e ∈ mid, e.recvFails = false) →
      (∀ i, .deliver i ∉ mid) ∧ (failure = .recvInterrupted →
        ∀ s, After onMessage messages numMessages book before s → s.receiveQueue = [])

/-- A consumer behind a failed `recv` got there by the last failed `recv` of the run. -/
theorem exists_failure {events : List UdpEvent} (h : After onMessage messages numMessages book events s)
    (hc : s.consumer = .failed) :
    ∃ before failure mid, events = before ++ failure :: mid ∧ failure.recvFails = true ∧
      ∀ e ∈ mid, e.recvFails = false := by
  induction events using List.reverseRecOn generalizing s with
  | nil =>
    cases h
    cases hc
  | append_singleton events e ih =>
    obtain ⟨t, ht, hs⟩ := exists_last_step h
    cases hf : e.recvFails with
    | true => exact ⟨events, e, [], rfl, hf, by simp⟩
    | false =>
      obtain ⟨before, failure, mid, rfl, hfail, hmid⟩ := ih ht (failed_of_step hf hs hc).1
      refine ⟨before, failure, mid ++ [e], by simp, hfail, fun e' he' => ?_⟩
      rcases List.mem_append.mp he' with hm | hm
      · exact hmid e' hm
      · rwa [List.mem_singleton.mp hm]

/-- What the failed `recv` left in the queue. -/
theorem queue_at_failure {before : List UdpEvent} {failure : UdpEvent} (hf : failure.recvFails = true)
    (h : After onMessage messages numMessages book (before ++ [failure]) s) :
    s.receiveQueue = [] ↔ (failure = .recvInterrupted →
      ∀ s, After onMessage messages numMessages book before s → s.receiveQueue = []) := by
  obtain ⟨t, ht, hs⟩ := exists_last_step h
  cases failure with
  | recvTimeout =>
    obtain ⟨-, hqueue, rfl⟩ := of_recvTimeout hs
    exact iff_of_true hqueue (by simp)
  | recvInterrupted =>
    obtain ⟨-, rfl⟩ := of_recvInterrupted hs
    constructor
    · intro hqueue _ t' ht'
      cases ht.symm.trans ht'
      exact hqueue
    · intro hqueue
      exact hqueue rfl t ht
  | _ => cases hf

/-- The queue the consumer turns its back on, by what happened behind the failed `recv`. -/
theorem queue_behind_failure {before mid : List UdpEvent} {failure : UdpEvent} (hf : failure.recvFails = true)
    (hmid : ∀ e ∈ mid, e.recvFails = false)
    (h : After onMessage messages numMessages book (before ++ failure :: mid) s)
    (hc : s.consumer = .failed) :
    s.receiveQueue = [] ↔ (∀ i, .deliver i ∉ mid) ∧ (failure = .recvInterrupted →
      ∀ s, After onMessage messages numMessages book before s → s.receiveQueue = []) := by
  induction mid using List.reverseRecOn generalizing s with
  | nil => simpa using queue_at_failure hf h
  | append_singleton mid e ih =>
    rw [← List.cons_append, ← List.append_assoc] at h
    obtain ⟨t, ht, hs⟩ := exists_last_step h
    obtain ⟨hct, hqueue⟩ := failed_of_step (hmid e (by simp)) hs hc
    rw [hqueue, ih (fun e' he' => hmid e' (by simp [he'])) ht hct]
    simp only [List.mem_append, List.mem_singleton, not_or]
    constructor
    · rintro ⟨⟨hno, hbefore⟩, hne⟩
      exact ⟨fun i => ⟨hno i, fun hi => hne i hi.symm⟩, hbefore⟩
    · rintro ⟨hno, hbefore⟩
      exact ⟨⟨fun i => (hno i).1, hbefore⟩, fun i hi => (hno i).2 hi.symm⟩

theorem queue_eq_nil_iff {events : List UdpEvent} (h : After onMessage messages numMessages book events s)
    (hc : s.consumer = .failed) :
    s.receiveQueue = [] ↔ NothingArrived onMessage messages numMessages book events := by
  constructor
  · rintro hqueue before failure mid rfl hf hmid
    exact (queue_behind_failure hf hmid h hc).mp hqueue
  · intro hno
    obtain ⟨before, failure, mid, rfl, hf, hmid⟩ := exists_failure h hc
    exact (queue_behind_failure hf hmid h hc).mpr (hno before failure mid rfl hf hmid)

/-- **Abandoned datagrams, exactly.** In every state a run passes through, a consumer
that has left has consumed `num_messages` or read all that was delivered, if and
only if whenever the look at `producer_done` behind a failed `recv` finds it set,
nothing has arrived since that `recv`. -/
theorem keepsAll_along_iff (onMessage : B → MarketMessage → B) (messages : List MarketMessage)
    (numMessages : UInt64) (book : B) (events : List UdpEvent) :
    (∀ pre, pre <+: events → ∀ s, After onMessage messages numMessages book pre s → s.KeepsAll) ↔
      ∀ pre e, pre ++ [e] <+: events → e = .testDone →
        ∀ s, After onMessage messages numMessages book pre s → s.consumer = .failed →
          s.producerDone = true → NothingArrived onMessage messages numMessages book pre := by
  refine along_iff ?_ ?_
  · intro s h hfin
    cases h
    cases hfin
  · intro pre e _ hp
    constructor
    · rintro hnext rfl s hs hc hd
      have hstep : s.step onMessage .testDone = some { s with consumer := .finished } := by
        simp only [step, hc, hd, if_true]
      have hkeeps := hnext _ (exec_concat hs hstep)
      rw [keepsAll_step_iff (counted_of_run hs) (hp s hs) hstep] at hkeeps
      exact (queue_eq_nil_iff hs hc).mp (hkeeps rfl hd)
    · intro hno s' hs'
      obtain ⟨s, hs, hstep⟩ := exists_last_step hs'
      rw [keepsAll_step_iff (counted_of_run hs) (hp s hs) hstep]
      rintro rfl hd
      obtain ⟨hc, -⟩ := of_testDone hstep
      exact (queue_eq_nil_iff hs hc).mpr (hno rfl s hs hc hd)

/-- A `recv` times out, then the only message is sent and delivered and the flag set,
then the consumer looks at the flag. -/
def lateRun : List UdpEvent :=
  [.testCount, .recvTimeout, .sendto 5 true, .deliver 0, .setDone, .testDone]

/-- The consumer of `lateRun` leaves its only datagram unread. -/
theorem lateRun_counterexample :
    ∃ s, After (fun (n : ℕ) _ => n + 1) [MarketMessage.zero] 1 0 lateRun s ∧ s.consumer = .finished ∧
      s.state.consumed = 0 ∧ s.receiveQueue = [(MarketMessage.zero.stamp 5).image] ∧ ¬s.KeepsAll := by
  have hends : (exec (step fun (n : ℕ) _ => n + 1) (make [MarketMessage.zero] 1 0) lateRun).map
      (fun s => (s.consumer, s.state.consumed, s.numMessages, s.receiveQueue)) =
        some (.finished, 0, 1, [(MarketMessage.zero.stamp 5).image]) := by decide
  obtain ⟨s, hrun, hview⟩ := Option.map_eq_some_iff.mp hends
  simp only [Prod.mk.injEq] at hview
  obtain ⟨hc, hcount, hnum, hqueue⟩ := hview
  refine ⟨s, hrun, hc, hcount, hqueue, fun hk => ?_⟩
  rcases hk hc with heq | hnil
  · rw [hcount, hnum] at heq
    exact absurd heq (by decide)
  · rw [hqueue] at hnil
    cases hnil

end Runs

end UdpFeed

end LatencyLab
