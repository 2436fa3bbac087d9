import LatencyLab.Mutex.BoundedQueue

/-! `BoundedMutexQueue` is a closable bounded FIFO. Whatever happened while a thread
slept, it tests its predicate again under the mutex, so the data only change in the
few ways that a critical section allows. -/

namespace LatencyLab.BoundedMutexQueue

open Monitor Transition

variable {ι T C : Type*} [Fintype ι] [DecidableEq ι] {q q' : BoundedMutexQueue ι T C} {i : ι}

/-! ### What each step does -/

/-- What thread `i` does in a critical section of `call`. -/
inductive Critical (q : BoundedMutexQueue ι T C) (i : ι) (read : Option C) (chosen : Option ι) :
    QueueCall T C → BoundedMutexQueue ι T C → Prop
  | pushSleeps {call : QueueCall T C} (isPush : call.waitsOn = some .notFull) (isOpen : q.closed_ = false)
      (full : q.capacity_ ≤ q.queue_.length) (noRead : read = none) :
      Critical q i read chosen call (q.move i (.sleeping call))
  | pushRefused {call : QueueCall T C} (isPush : call.waitsOn = some .notFull) (isClosed : q.closed_ = true)
      (noRead : read = none) : Critical q i read chosen call (q.move i (.idle none))
  | appends {call : QueueCall T C} (isPush : call.waitsOn = some .notFull) {item : T}
      {threads : ι → QueuePc T C} (isOpen : q.closed_ = false) (room : q.queue_.length < q.capacity_)
      (queued : call.queuedItem read = some item) (notified : q.notify .notEmpty chosen = some threads) :
      Critical q i read chosen call
        ({ q with queue_ := q.queue_ ++ [item], appended := q.appended ++ [item], threads := threads }.move i
          (.idle none))
  | popSleeps (isOpen : q.closed_ = false) (empty : q.queue_ = []) (noRead : read = none) :
      Critical q i read chosen .pop (q.move i (.sleeping .pop))
  | popFails (isClosed : q.closed_ = true) (empty : q.queue_ = []) (noRead : read = none) :
      Critical q i read chosen .pop ({ q with results := q.results ++ [none] }.move i (.idle none))
  | takes {item : T} {rest : List T} {threads : ι → QueuePc T C} (front : q.queue_ = item :: rest)
      (noRead : read = none) (notified : q.notify .notFull chosen = some threads) :
      Critical q i read chosen .pop
        ({ q with queue_ := rest, results := q.results ++ [some item], threads := threads }.move i
          (.idle (some item)))
  | closes (noRead : read = none) :
      Critical q i read chosen .close ({ q with closed_ := true }.move i .notifyNotEmpty)

section Steps

variable {read : Option C} {chosen : Option ι} {call : QueueCall T C}

omit [Fintype ι] in
theorem of_quiet {pc : QueuePc T C} (hs : q.quiet i pc read chosen = some q') :
    read = none ∧ q' = q.move i pc := by
  unfold quiet at hs
  split at hs
  · exact ⟨rfl, (Option.some.inj hs).symm⟩
  · cases hs

theorem of_lockedPush (hcall : call.waitsOn = some .notFull)
    (hs : q.lockedPush i call read chosen = some q') : Critical q i read chosen call q' := by
  unfold lockedPush at hs
  split_ifs at hs with htest hclosed
  · obtain ⟨hread, rfl⟩ := of_quiet hs
    exact .pushRefused hcall hclosed hread
  · obtain ⟨item, hitem, hs⟩ := Option.bind_eq_some_iff.mp hs
    obtain ⟨threads, hnotify, rfl⟩ := Option.map_eq_some_iff.mp hs
    rw [Bool.not_eq_true] at hclosed
    have hroom : q.queue_.length < q.capacity_ := by simpa [hclosed] using htest
    exact .appends hcall hclosed hroom hitem hnotify
  · obtain ⟨hread, rfl⟩ := of_quiet hs
    have htest' : q.closed_ = false ∧ q.capacity_ ≤ q.queue_.length := by simpa using htest
    exact .pushSleeps hcall htest'.1 htest'.2 hread

theorem of_lockedPop (hs : q.lockedPop i read chosen = some q') : Critical q i read chosen .pop q' := by
  unfold lockedPop at hs
  split_ifs at hs with htest
  · split at hs
    · rename_i hempty
      obtain ⟨hread, rfl⟩ := of_quiet hs
      have hclosed : q.closed_ = true := by simpa [hempty] using htest
      exact .popFails hclosed hempty hread
    · rename_i item rest hfront
      obtain ⟨threads, hnotify, rfl⟩ := Option.map_eq_some_iff.mp hs
      exact .takes hfront rfl hnotify
    · cases hs
  · obtain ⟨hread, rfl⟩ := of_quiet hs
    have htest' : q.closed_ = false ∧ q.queue_ = [] := by simpa using htest
    exact .popSleeps htest'.1 htest'.2 hread

theorem of_locked (hs : q.locked i call read chosen = some q') : Critical q i read chosen call q' := by
  unfold locked at hs
  cases call with
  | push item => exact of_lockedPush rfl hs
  | pushWithMutation item mutate => exact of_lockedPush rfl hs
  | pop => exact of_lockedPop hs
  | close =>
    obtain ⟨hread, rfl⟩ := of_quiet hs
    exact .closes hread

theorem of_call (hs : q.step (.call i call) = some q') :
    (∃ item, q.threads i = .idle item) ∧ q' = q.move i (.entered call) := by
  simp only [step] at hs
  split at hs
  · rename_i item hpc
    exact ⟨⟨item, hpc⟩, (Option.some.inj hs).symm⟩
  · cases hs

theorem of_lock (hs : q.step (.lock i read chosen) = some q') :
    ∃ call, (q.threads i = .entered call ∨ q.threads i = .woken call) ∧ Critical q i read chosen call q' := by
  simp only [step] at hs
  split at hs
  · rename_i call hpc
    exact ⟨call, .inl hpc, of_locked hs⟩
  · rename_i call hpc
    exact ⟨call, .inr hpc, of_locked hs⟩
  · cases hs

theorem of_wakeSpuriously (hs : q.step (.wakeSpuriously i) = some q') :
    ∃ call, q.threads i = .sleeping call ∧ q' = q.move i (.woken call) := by
  simp only [step] at hs
  split at hs
  · rename_i call hpc
    exact ⟨call, hpc, (Option.some.inj hs).symm⟩
  · cases hs

theorem of_notifyAllNotEmpty (hs : q.step (.notifyAllNotEmpty i) = some q') :
    q.threads i = .notifyNotEmpty ∧
      q' = { q with threads := notifyAll (QueuePc.sleepsOn .notEmpty) QueuePc.wake q.threads }.move i
        .notifyNotFull := by
  simp only [step] at hs
  split at hs
  · rename_i hpc
    exact ⟨hpc, (Option.some.inj hs).symm⟩
  · cases hs

theorem of_notifyAllNotFull (hs : q.step (.notifyAllNotFull i) = some q') :
    q.threads i = .notifyNotFull ∧
      q' = { q with threads := notifyAll (QueuePc.sleepsOn .notFull) QueuePc.wake q.threads }.move i
        (.idle none) := by
  simp only [step] at hs
  split at hs
  · rename_i hpc
    exact ⟨hpc, (Option.some.inj hs).symm⟩
  · cases hs

end Steps

/-! ### The queue property -/

/-- A queue of the given capacity from which `items` have been popped, after which `n`
pops have failed. Everything appended has been popped or is held, in order, and a pop
has only failed where the queue was closed and drained. -/
structure Fifo (q : BoundedMutexQueue ι T C) (capacity : ℕ) (items : List T) (n : ℕ) : Prop where
  capacity_eq : q.capacity_ = capacity
  results : q.results = items.map some ++ List.replicate n none
  appended : q.appended = items ++ q.queue_
  bounded : q.queue_.length ≤ capacity
  drained : 0 < n → q.closed_ = true ∧ q.queue_ = []

/-- A closed queue, and what it has taken. -/
def Sealed (appended : List T) (q : BoundedMutexQueue ι T C) : Prop := q.closed_ = true ∧ q.appended = appended

section Invariant

variable {capacity : ℕ} {items : List T} {n : ℕ}

omit [Fintype ι] [DecidableEq ι] in
theorem fifo_make (capacity : ℕ) : (make capacity : BoundedMutexQueue ι T C).Fifo capacity [] 0 where
  capacity_eq := rfl
  results := rfl
  appended := rfl
  bounded := Nat.zero_le _
  drained := fun h => absurd h (Nat.lt_irrefl 0)

namespace Fifo

omit [Fintype ι] [DecidableEq ι] in
/-- Nothing is said about the threads. -/
theorem threads (h : q.Fifo capacity items n) (threads : ι → QueuePc T C) :
    Fifo { q with threads := threads } capacity items n :=
  ⟨h.capacity_eq, h.results, h.appended, h.bounded, h.drained⟩

omit [Fintype ι] [DecidableEq ι] in
/-- While the queue is open or holds something no pop has failed. -/
theorem none_failed (h : q.Fifo capacity items n) (hq : q.closed_ = false ∨ q.queue_ ≠ []) : n = 0 := by
  by_contra hn
  obtain ⟨hclosed, hempty⟩ := h.drained (Nat.pos_of_ne_zero hn)
  rcases hq with hopen | hne
  · rw [hopen] at hclosed
    cases hclosed
  · exact hne hempty

theorem critical (h : q.Fifo capacity items n) {read : Option C} {chosen : Option ι} {call : QueueCall T C}
    (hc : Critical q i read chosen call q') : ∃ items' n', q'.Fifo capacity items' n' := by
  cases hc with
  | pushSleeps | pushRefused | popSleeps => exact ⟨items, n, h.threads _⟩
  | closes => exact ⟨items, n, h.capacity_eq, h.results, h.appended, h.bounded, fun hn => ⟨rfl, (h.drained hn).2⟩⟩
  | @appends _ _ item _ hopen hroom =>
    obtain rfl := h.none_failed (.inl hopen)
    refine ⟨items, 0, h.capacity_eq, h.results, ?_, ?_, fun hn => absurd hn (Nat.lt_irrefl 0)⟩
    · show q.appended ++ [item] = items ++ (q.queue_ ++ [item])
      rw [h.appended, List.append_assoc]
    · show (q.queue_ ++ [item]).length ≤ capacity
      rw [← h.capacity_eq, List.length_append, List.length_singleton]
      exact hroom
  | popFails hclosed hempty =>
    refine ⟨items, n + 1, h.capacity_eq, ?_, h.appended, h.bounded, fun _ => ⟨hclosed, hempty⟩⟩
    show q.results ++ [none] = _
    rw [h.results, List.append_assoc, List.replicate_succ']
  | @takes item rest _ hfront =>
    obtain rfl := h.none_failed (.inr (by simp [hfront]))
    refine ⟨items ++ [item], 0, h.capacity_eq, ?_, ?_, ?_, fun hn => absurd hn (Nat.lt_irrefl 0)⟩
    · show q.results ++ [some item] = _
      rw [h.results]
      simp
    · show q.appended = items ++ [item] ++ rest
      rw [h.appended, hfront, List.append_assoc]
      rfl
    · have hbounded := h.bounded
      rw [hfront] at hbounded
      exact (Nat.le_succ _).trans hbounded

theorem step (h : q.Fifo capacity items n) {e : QueueEvent ι T C} (hs : q.step e = some q') :
    ∃ items' n', q'.Fifo capacity items' n' := by
  cases e with
  | call i call =>
    obtain ⟨-, rfl⟩ := of_call hs
    exact ⟨items, n, h.threads _⟩
  | lock i read chosen =>
    obtain ⟨call, -, hc⟩ := of_lock hs
    exact h.critical hc
  | wakeSpuriously i =>
    obtain ⟨call, -, rfl⟩ := of_wakeSpuriously hs
    exact ⟨items, n, h.threads _⟩
  | notifyAllNotEmpty i =>
    obtain ⟨-, rfl⟩ := of_notifyAllNotEmpty hs
    exact ⟨items, n, h.threads _⟩
  | notifyAllNotFull i =>
    obtain ⟨-, rfl⟩ := of_notifyAllNotFull hs
    exact ⟨items, n, h.threads _⟩

end Fifo

/-- A closed queue stays closed and takes nothing more. -/
theorem Sealed.step {appended : List T} (h : q.Sealed appended) {e : QueueEvent ι T C}
    (hs : q.step e = some q') : q'.Sealed appended := by
  obtain ⟨hclosed, rfl⟩ := h
  cases e with
  | call i call =>
    obtain ⟨-, rfl⟩ := of_call hs
    exact ⟨hclosed, rfl⟩
  | lock i read chosen =>
    obtain ⟨call, -, hc⟩ := of_lock hs
    cases hc with
    | appends _ hopen =>
      rw [hopen] at hclosed
      cases hclosed
    | closes => exact ⟨rfl, rfl⟩
    | _ => exact ⟨hclosed, rfl⟩
  | wakeSpuriously i =>
    obtain ⟨call, -, rfl⟩ := of_wakeSpuriously hs
    exact ⟨hclosed, rfl⟩
  | notifyAllNotEmpty i =>
    obtain ⟨-, rfl⟩ := of_notifyAllNotEmpty hs
    exact ⟨hclosed, rfl⟩
  | notifyAllNotFull i =>
    obtain ⟨-, rfl⟩ := of_notifyAllNotFull hs
    exact ⟨hclosed, rfl⟩

end Invariant

section Runs

variable {capacity : ℕ} {events : List (QueueEvent ι T C)}

theorem Sealed.run {appended : List T} (h : q.Sealed appended)
    (hrun : exec BoundedMutexQueue.step q events = some q') : q'.Sealed appended := by
  have hstep : ∀ (q : BoundedMutexQueue ι T C) e q', Sealed appended q → q.step e = some q' → Sealed appended q' :=
    fun q e q' h hs => h.step hs
  exact exec_invariant hstep h hrun

/-- Some items have been popped, and some pops have failed. -/
def IsFifo (capacity : ℕ) (q : BoundedMutexQueue ι T C) : Prop := ∃ items n, q.Fifo capacity items n

theorem IsFifo.step {e : QueueEvent ι T C} (h : q.IsFifo capacity) (hs : q.step e = some q') :
    q'.IsFifo capacity := by
  obtain ⟨items, n, h⟩ := h
  exact h.step hs

theorem isFifo_of_run (hrun : exec step (make capacity) events = some q) : q.IsFifo capacity := by
  have hstep : ∀ (q : BoundedMutexQueue ι T C) e q', IsFifo capacity q → q.step e = some q' →
      IsFifo capacity q' := fun q e q' h hs => h.step hs
  exact exec_invariant hstep ⟨[], 0, fifo_make capacity⟩ hrun

/-- **`BoundedMutexQueue` is a closable bounded FIFO** for any threads and in every order
of their critical sections, spurious wake-ups among them. -/
theorem closableFifo_of_run (hrun : exec step (make capacity) events = some q) :
    (∃ items n, q.Fifo capacity items n) ∧
      (q.closed_ = true → ∀ later q', exec step q later = some q' →
        q'.closed_ = true ∧ q'.appended = q.appended) := by
  refine ⟨isFifo_of_run hrun, fun hclosed later q' hlater => ?_⟩
  exact Sealed.run ⟨hclosed, rfl⟩ hlater

/-- A popper goes to sleep, is woken by a push and takes the item; after the close it
finds nothing. -/
def wakenRun : List (QueueEvent (Fin 2) ℕ ℕ) :=
  [.call 0 .pop, .lock 0 none none, .call 1 (.pushWithMutation 7 fun now item => item + now),
    .lock 1 (some 3) (some 0), .call 1 .close, .lock 0 none none, .lock 1 none none, .notifyAllNotEmpty 1,
    .call 0 .pop, .lock 0 none none, .notifyAllNotFull 1]

theorem closableFifo_wakenRun :
    ∃ q, exec step (make 1) wakenRun = some q ∧ q.results = [some 10, none] ∧
      ∃ items n, q.Fifo 1 items n :=
  ⟨_, rfl, rfl, (closableFifo_of_run (show exec step (make 1) wakenRun = _ from rfl)).1⟩

end Runs

end LatencyLab.BoundedMutexQueue
