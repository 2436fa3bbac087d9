import LatencyLab.Mutex.Calls
import LatencyLab.Transition.Progress

/-! Calls of `BoundedMutexQueue` return. A call spends its effort in critical sections
and notifications; a wake-up costs the woken thread one more test, which the thread that
notifies pays for, and only a spurious one is free. So what is left in its call when
nothing more happens is asleep, and with no wake-up lost it has a reason to be: the queue
is open, and empty or full. -/

namespace LatencyLab

open Monitor Transition

/-- What a call takes, where a notification wakes up to `n` threads. -/
def QueueCall.effort {T C : Type*} (n : ℕ) : QueueCall T C → ℕ
  | .close => 2 * n + 3
  | _ => 2

theorem QueueCall.effort_ge {T C : Type*} (n : ℕ) (call : QueueCall T C) : 2 ≤ call.effort n := by
  cases call with
  | close => exact Nat.le_add_left 2 (2 * n + 1)
  | _ => exact le_rfl

theorem QueueCall.effort_le {T C : Type*} (n : ℕ) (call : QueueCall T C) : call.effort n ≤ 2 * n + 3 := by
  cases call with
  | close => exact le_rfl
  | _ => exact Nat.le_add_left 2 (2 * n + 1)

namespace QueuePc

variable {T C : Type*}

/-- What is left of a call. -/
def effort (n : ℕ) : QueuePc T C → ℕ
  | .idle _ => 0
  | .entered call | .woken call => call.effort n
  | .sleeping call => call.effort n - 1
  | .notifyNotEmpty => 2 * n + 2
  | .notifyNotFull => n + 1

theorem effort_wake (n : ℕ) (pc : QueuePc T C) : pc.wake.effort n ≤ pc.effort n + 1 := by
  cases pc with
  | sleeping call =>
    show call.effort n ≤ call.effort n - 1 + 1
    omega
  | _ => exact Nat.le_succ _

/-- Asleep, on whatever condition variable. -/
def asleep : QueuePc T C → Bool
  | .sleeping _ => true
  | _ => false

end QueuePc

/-- A wake-up that no notification caused. -/
def QueueEvent.spurious {ι T C : Type*} : QueueEvent ι T C → Bool
  | .wakeSpuriously _ => true
  | _ => false

namespace BoundedMutexQueue

variable {ι T C : Type*} [Fintype ι] [DecidableEq ι] {q q' : BoundedMutexQueue ι T C} {i : ι}
variable {e : QueueEvent ι T C} {call : QueueCall T C} {read : Option C} {chosen : Option ι}

/-! ### Effort -/

/-- What is left of all calls. -/
def effort (q : BoundedMutexQueue ι T C) : ℕ := total (QueuePc.effort (Fintype.card ι)) q.threads

theorem effort_move (q : BoundedMutexQueue ι T C) (i : ι) (pc : QueuePc T C) :
    (q.move i pc).effort + (q.threads i).effort (Fintype.card ι) = q.effort + pc.effort (Fintype.card ι) :=
  total_update _ q.threads i pc

/-- A thread that ends its critical section with a `notify_one` that does not concern it. -/
theorem effort_notified {threads : ι → QueuePc T C} {cv : ConditionVariable}
    (hn : q.notify cv chosen = some threads) (hawake : (q.threads i).sleepsOn cv = false) (pc : QueuePc T C) :
    total (QueuePc.effort (Fintype.card ι)) (Function.update threads i pc) +
      (q.threads i).effort (Fintype.card ι) ≤ q.effort + pc.effort (Fintype.card ι) + 1 := by
  have hmove := total_update (QueuePc.effort (Fintype.card ι)) threads i pc
  have hle := total_notifyOne_le hn (QueuePc.effort_wake (Fintype.card ι))
  have hsame : threads i = q.threads i := notifyOne_of_awake hn hawake
  rw [hsame] at hmove
  unfold effort
  omega

theorem Critical.effort_lt (hc : Critical q i read chosen call q')
    (hpc : q.threads i = .entered call ∨ q.threads i = .woken call) : q'.effort < q.effort := by
  have heffort : (q.threads i).effort (Fintype.card ι) = call.effort (Fintype.card ι) := by
    rcases hpc with hpc | hpc <;> rw [hpc] <;> rfl
  have hawake : ∀ cv, (q.threads i).sleepsOn cv = false := by
    rcases hpc with hpc | hpc <;> rw [hpc] <;> exact fun _ => rfl
  have hge := call.effort_ge (Fintype.card ι)
  cases hc with
  | pushSleeps isPush isOpen full noRead =>
    have hmove := q.effort_move i (.sleeping call)
    have hsleeping : (QueuePc.sleeping call).effort (Fintype.card ι) = call.effort (Fintype.card ι) - 1 := rfl
    omega
  | pushRefused isPush isClosed noRead =>
    have hmove := q.effort_move i (.idle none)
    have hidle : (QueuePc.idle none : QueuePc T C).effort (Fintype.card ι) = 0 := rfl
    omega
  | @appends _ _ item threads isOpen room queued notified =>
    have hle := effort_notified notified (hawake .notEmpty) (.idle none)
    have hidle : (QueuePc.idle none : QueuePc T C).effort (Fintype.card ι) = 0 := rfl
    show total _ (Function.update threads i (.idle none)) < q.effort
    omega
  | popSleeps isOpen empty noRead =>
    have hmove := q.effort_move i (.sleeping .pop)
    have hsleeping : (QueuePc.sleeping .pop : QueuePc T C).effort (Fintype.card ι) = 1 := rfl
    omega
  | popFails isClosed empty noRead =>
    have hmove : total _ (Function.update q.threads i (.idle none)) + _ = _ := q.effort_move i (.idle none)
    have hidle : (QueuePc.idle none : QueuePc T C).effort (Fintype.card ι) = 0 := rfl
    show total _ (Function.update q.threads i (.idle none)) < q.effort
    omega
  | @takes item rest threads front noRead notified =>
    have hle := effort_notified notified (hawake .notFull) (.idle (some item))
    have hidle : (QueuePc.idle (some item) : QueuePc T C).effort (Fintype.card ι) = 0 := rfl
    show total _ (Function.update threads i (.idle (some item))) < q.effort
    omega
  | closes noRead =>
    have hmove : total _ (Function.update q.threads i .notifyNotEmpty) + _ = _ := q.effort_move i .notifyNotEmpty
    have hclose : (QueueCall.close : QueueCall T C).effort (Fintype.card ι) = 2 * Fintype.card ι + 3 := rfl
    have hnotify : (QueuePc.notifyNotEmpty : QueuePc T C).effort (Fintype.card ι) = 2 * Fintype.card ι + 2 := rfl
    show total _ (Function.update q.threads i .notifyNotEmpty) < q.effort
    omega

/-- A `notify_all` by a thread that does not sleep. -/
theorem effort_notifyAll (cv : ConditionVariable) (hawake : (q.threads i).sleepsOn cv = false)
    (pc : QueuePc T C) :
    total (QueuePc.effort (Fintype.card ι))
        (Function.update (notifyAll (QueuePc.sleepsOn cv) QueuePc.wake q.threads) i pc) +
      (q.threads i).effort (Fintype.card ι) ≤ q.effort + pc.effort (Fintype.card ι) + Fintype.card ι := by
  have hall := total_notifyAll_le (QueuePc.sleepsOn cv) q.threads (QueuePc.effort_wake (Fintype.card ι))
  have hmove := total_update (QueuePc.effort (Fintype.card ι))
    (notifyAll (QueuePc.sleepsOn cv) QueuePc.wake q.threads) i pc
  have hsame : notifyAll (QueuePc.sleepsOn cv) QueuePc.wake q.threads i = q.threads i := by
    rw [notifyAll, hawake]
    rfl
  rw [hsame] at hmove
  unfold effort
  omega

/-- Every step inside a call spends effort, a spurious wake-up apart. -/
theorem effort_lt_of_step (hcall : e.inCall = true) (hspurious : e.spurious = false)
    (hs : q.step e = some q') : q'.effort < q.effort := by
  cases e with
  | call i call => cases hcall
  | lock i read chosen =>
    obtain ⟨call, hpc, hc⟩ := of_lock hs
    exact hc.effort_lt hpc
  | wakeSpuriously i => cases hspurious
  | notifyAllNotEmpty i =>
    obtain ⟨hpc, rfl⟩ := of_notifyAllNotEmpty hs
    have hle := effort_notifyAll .notEmpty (i := i) (by rw [hpc]; rfl) .notifyNotFull
    rw [hpc] at hle
    simp only [QueuePc.effort] at hle
    exact Nat.lt_of_add_lt_add_right (Nat.lt_of_le_of_lt hle (by omega))
  | notifyAllNotFull i =>
    obtain ⟨hpc, rfl⟩ := of_notifyAllNotFull hs
    have hle := effort_notifyAll .notFull (i := i) (by rw [hpc]; rfl) (.idle none)
    rw [hpc] at hle
    simp only [QueuePc.effort] at hle
    exact Nat.lt_of_add_lt_add_right (Nat.lt_of_le_of_lt hle (by omega))

theorem effort_le_of_spurious (hspurious : e.spurious = true) (hs : q.step e = some q') :
    q'.effort ≤ q.effort + 1 := by
  cases e with
  | wakeSpuriously i =>
    obtain ⟨call, hpc, rfl⟩ := of_wakeSpuriously hs
    have hmove := q.effort_move i (.woken call)
    rw [hpc] at hmove
    simp only [QueuePc.effort] at hmove
    omega
  | _ => cases hspurious

theorem effort_of_call (hs : q.step (.call i call) = some q') :
    q'.effort = q.effort + call.effort (Fintype.card ι) := by
  obtain ⟨⟨item, hpc⟩, rfl⟩ := of_call hs
  have hmove := q.effort_move i (.entered call)
  rw [hpc] at hmove
  exact hmove

omit [DecidableEq ι] in
theorem effort_make (capacity : ℕ) : (make capacity : BoundedMutexQueue ι T C).effort = 0 :=
  Finset.sum_eq_zero fun _ _ => rfl

/-! ### What can happen next -/

theorem exists_notify (q : BoundedMutexQueue ι T C) (cv : ConditionVariable) :
    ∃ chosen threads, q.notify cv chosen = some threads := by
  by_cases hj : ∃ j, (q.threads j).sleepsOn cv = true
  · obtain ⟨j, hj⟩ := hj
    exact ⟨some j, _, if_pos hj⟩
  · exact ⟨none, _, if_neg hj⟩

/-- A push can queue something: a mutator finds a value to read. -/
theorem exists_queuedItem [Nonempty C] (h : call.waitsOn = some .notFull) :
    ∃ read item, call.queuedItem read = some item := by
  cases call with
  | push item => exact ⟨none, item, rfl⟩
  | pushWithMutation item mutate => exact ⟨some (Classical.arbitrary C), _, rfl⟩
  | _ => cases h

theorem exists_lockedPush [Nonempty C] (q : BoundedMutexQueue ι T C) (i : ι)
    (h : call.waitsOn = some .notFull) : ∃ read chosen, (q.lockedPush i call read chosen).isSome := by
  unfold lockedPush
  split_ifs
  · exact ⟨none, none, rfl⟩
  · obtain ⟨read, item, hitem⟩ := exists_queuedItem h
    obtain ⟨chosen, threads, hnotify⟩ :=
      exists_notify { q with queue_ := q.queue_ ++ [item], appended := q.appended ++ [item] } .notEmpty
    refine ⟨read, chosen, ?_⟩
    simp only [hitem, hnotify, Option.bind_some, Option.map_some, Option.isSome_some]
  · exact ⟨none, none, rfl⟩

theorem exists_lockedPop (q : BoundedMutexQueue ι T C) (i : ι) :
    ∃ read chosen, (q.lockedPop i read chosen).isSome := by
  unfold lockedPop
  split_ifs
  · cases q.queue_ with
    | nil => exact ⟨none, none, rfl⟩
    | cons item rest =>
      obtain ⟨chosen, threads, hnotify⟩ :=
        exists_notify { q with queue_ := rest, results := q.results ++ [some item] } .notFull
      refine ⟨none, chosen, ?_⟩
      simp only [hnotify, Option.map_some, Option.isSome_some]
  · exact ⟨none, none, rfl⟩

/-- A thread that holds the mutex finishes its critical section. -/
theorem exists_locked [Nonempty C] (q : BoundedMutexQueue ι T C) (i : ι) (call : QueueCall T C) :
    ∃ read chosen, (q.locked i call read chosen).isSome := by
  cases call with
  | push item => exact q.exists_lockedPush i rfl
  | pushWithMutation item mutate => exact q.exists_lockedPush i rfl
  | pop => exact q.exists_lockedPop i
  | close => exact ⟨none, none, rfl⟩

/-- A thread that is in a call and awake can go on. -/
theorem exists_step_of_awake [Nonempty C] (hcall : (q.threads i).call? = some call)
    (hawake : (q.threads i).asleep = false) :
    ∃ e, e.inCall = true ∧ e.spurious = false ∧ e.actor = i ∧ (q.step e).isSome := by
  cases hpc : q.threads i with
  | idle item =>
    rw [hpc] at hcall
    cases hcall
  | entered call =>
    obtain ⟨read, chosen, hs⟩ := q.exists_locked i call
    exact ⟨.lock i read chosen, rfl, rfl, rfl, by simpa only [step, hpc] using hs⟩
  | sleeping call =>
    rw [hpc] at hawake
    cases hawake
  | woken call =>
    obtain ⟨read, chosen, hs⟩ := q.exists_locked i call
    exact ⟨.lock i read chosen, rfl, rfl, rfl, by simpa only [step, hpc] using hs⟩
  | notifyNotEmpty => exact ⟨.notifyAllNotEmpty i, rfl, rfl, rfl, by simp only [step, hpc, Option.isSome_some]⟩
  | notifyNotFull => exact ⟨.notifyAllNotFull i, rfl, rfl, rfl, by simp only [step, hpc, Option.isSome_some]⟩

/-! ### Who is left waiting -/

/-- A sleeper waits on a condition variable. -/
def SleepersWait (q : BoundedMutexQueue ι T C) : Prop :=
  ∀ i call, q.threads i = .sleeping call → call.waitsOn ≠ none

omit [Fintype ι] [DecidableEq ι] in
theorem wake_ne_sleeping (pc : QueuePc T C) (call : QueueCall T C) : pc.wake ≠ .sleeping call := by
  cases pc <;> exact fun h => by cases h

theorem Critical.sleepersWait (hc : Critical q i read chosen call q') :
    ∀ call', q'.threads i = .sleeping call' → call'.waitsOn ≠ none := by
  intro call' hpc
  cases hc with
  | pushSleeps isPush =>
    rw [threads_move] at hpc
    cases hpc
    simp [isPush]
  | popSleeps =>
    rw [threads_move] at hpc
    cases hpc
    simp [QueueCall.waitsOn]
  | _ =>
    rw [threads_move] at hpc
    cases hpc

theorem SleepersWait.step (h : q.SleepersWait) (hs : q.step e = some q') : q'.SleepersWait := by
  intro j call hpc
  by_cases hj : j = e.actor
  · subst hj
    cases e with
    | lock i read chosen =>
      obtain ⟨_, -, hc⟩ := of_lock hs
      exact hc.sleepersWait call hpc
    | call i _ =>
      obtain ⟨-, rfl⟩ := of_call hs
      simp [QueueEvent.actor] at hpc
    | wakeSpuriously i =>
      obtain ⟨_, -, rfl⟩ := of_wakeSpuriously hs
      simp [QueueEvent.actor] at hpc
    | notifyAllNotEmpty i =>
      obtain ⟨-, rfl⟩ := of_notifyAllNotEmpty hs
      simp [QueueEvent.actor] at hpc
    | notifyAllNotFull i =>
      obtain ⟨-, rfl⟩ := of_notifyAllNotFull hs
      simp [QueueEvent.actor] at hpc
  · rcases other_of_step hs hj with hsame | hwake
    · rw [hsame] at hpc
      exact h j call hpc
    · rw [hwake] at hpc
      exact absurd hpc (wake_ne_sleeping _ _)

/-- A call that waits with reason. -/
def Waits (q : BoundedMutexQueue ι T C) (call : QueueCall T C) : Prop :=
  q.closed_ = false ∧
    (call.waitsOn = some .notEmpty ∧ q.queue_ = [] ∨
      call.waitsOn = some .notFull ∧ q.capacity_ ≤ q.queue_.length)

omit [DecidableEq ι] in
/-- Where every thread in a call sleeps, it waits with reason. -/
theorem waits_of_asleep (hwakeful : q.Wakeful) (hsleepers : q.SleepersWait)
    (hall : ∀ i call, (q.threads i).call? = some call → (q.threads i).asleep = true)
    (hcall : (q.threads i).call? = some call) : q.Waits call := by
  have hsleeps : ∀ {pc : QueuePc T C} {call}, pc.call? = some call → pc.asleep = true → pc = .sleeping call := by
    intro pc call hpc hasleep
    cases pc <;> simp_all [QueuePc.call?, QueuePc.asleep]
  have hpc := hsleeps hcall (hall i call hcall)
  have hawake : ∀ j, (q.threads j).closing = false ∧ ∀ cv, (q.threads j).wokenFrom cv = false := by
    intro j
    cases hj : (q.threads j).call? with
    | none => cases hpc' : q.threads j <;> simp_all [QueuePc.call?, QueuePc.closing, QueuePc.wokenFrom]
    | some call' =>
      rw [hsleeps hj (hall j call' hj)]
      exact ⟨rfl, fun _ => rfl⟩
  obtain ⟨cv, hcv⟩ := Option.ne_none_iff_exists'.mp (hsleepers i call hpc)
  have hsleepsOn : (q.threads i).sleepsOn cv = true := by
    rw [hpc]
    simp [QueuePc.sleepsOn, hcv]
  have hsupply : q.supply cv = 0 := by
    by_contra hne
    exact hwakeful.not_stranded (fun j => (hawake j).1) cv
      ⟨Nat.pos_of_ne_zero hne, ⟨i, hsleepsOn⟩, fun j => (hawake j).2 cv⟩
  have hopen : q.closed_ = false := by
    by_contra hclosed
    rcases hwakeful.owed (Bool.not_eq_false _ ▸ hclosed) cv with ⟨j, hj⟩ | hnobody
    · have hclosing := (hawake j).1
      rw [QueuePc.closing_of_owes hj] at hclosing
      cases hclosing
    · rw [hnobody i] at hsleepsOn
      cases hsleepsOn
  refine ⟨hopen, ?_⟩
  cases cv with
  | notEmpty => exact .inl ⟨hcv, List.length_eq_zero_iff.mp hsupply⟩
  | notFull => exact .inr ⟨hcv, Nat.sub_eq_zero_iff_le.mp hsupply⟩

section Runs

variable {capacity : ℕ} {events : List (QueueEvent ι T C)}

theorem sleepersWait_of_run (hrun : exec step (make capacity) events = some q) : q.SleepersWait := by
  have hstep : ∀ (q : BoundedMutexQueue ι T C) e q', SleepersWait q → q.step e = some q' → SleepersWait q' :=
    fun _ _ _ h hs => h.step hs
  have hmake : (make capacity : BoundedMutexQueue ι T C).SleepersWait := fun i call hpc => by cases hpc
  exact exec_invariant hstep hmake hrun

/-- The steps inside calls are paid for by the calls and the spurious wake-ups. -/
def Paid (events : List (QueueEvent ι T C)) (q : BoundedMutexQueue ι T C) : Prop :=
  events.countP QueueEvent.inCall + q.effort ≤
    (2 * Fintype.card ι + 3) * events.countP (fun e => !e.inCall) + 2 * events.countP QueueEvent.spurious

theorem Paid.step (h : Paid events q) (hs : q.step e = some q') : Paid (events ++ [e]) q' := by
  unfold Paid at h ⊢
  simp only [List.countP_append, List.countP_singleton, Nat.mul_add]
  cases hcall : e.inCall with
  | false =>
    cases e with
    | call i call =>
      have heffort := effort_of_call hs
      have hcost := call.effort_le (Fintype.card ι)
      simp only [QueueEvent.spurious, Bool.not_false, if_true, Bool.false_eq_true, if_false]
      omega
    | _ => cases hcall
  | true =>
    cases hspurious : e.spurious with
    | false =>
      have hlt := effort_lt_of_step hcall hspurious hs
      simp only [Bool.not_true, if_true, Bool.false_eq_true, if_false]
      omega
    | true =>
      have hback := effort_le_of_spurious hspurious hs
      simp only [Bool.not_true, if_true, Bool.false_eq_true, if_false]
      omega

theorem paid_of_run (hrun : exec step (make capacity) events = some q) : Paid events q := by
  have hmake : Paid [] (make capacity : BoundedMutexQueue ι T C) := by
    simp [Paid, effort_make]
  have hstep : ∀ (es : List (QueueEvent ι T C)) q e q', Paid es q → q.step e = some q' → Paid (es ++ [e]) q' :=
    fun _ _ _ _ h hs => h.step hs
  have hpaid := exec_history hstep hmake hrun
  rwa [List.nil_append] at hpaid

/-- **Calls return.** The steps inside calls are bounded by the number of calls and of
spurious wake-ups, so that calls come to rest; and a call that is not over when nothing
more can happen waits with reason: the queue is open, and empty or full. -/
theorem calls_return [Nonempty C] (hrun : exec step (make capacity) events = some q) :
    events.countP QueueEvent.inCall ≤
        (2 * Fintype.card ι + 3) * events.countP (fun e => !e.inCall) + 2 * events.countP QueueEvent.spurious ∧
      ((∀ e : QueueEvent ι T C, e.inCall = true → e.spurious = false → q.step e = none) →
        ∀ i call, (q.threads i).call? = some call → q.Waits call) := by
  refine ⟨Nat.le_trans (Nat.le_add_right _ _) (paid_of_run hrun), fun hrest i call hcall => ?_⟩
  refine waits_of_asleep (wakeful_of_run hrun) (sleepersWait_of_run hrun) (fun j call' hcall' => ?_) hcall
  by_contra hawake
  obtain ⟨e, hin, hspurious, -, hsome⟩ := exists_step_of_awake hcall' (Bool.not_eq_true _ ▸ hawake)
  rw [hrest e hin hspurious] at hsome
  cases hsome

/-- Two producers; the second one sleeps at a full queue. -/
def fullRun : List (QueueEvent Bool ℕ ℕ) :=
  [.call false (.push 7), .lock false none none, .call true (.push 8), .lock true none none]

theorem calls_return_fullRun :
    ∃ q, exec step (make 1) fullRun = some q ∧ q.Waits (.push 8) ∧ fullRun.countP QueueEvent.inCall ≤ 14 := by
  obtain ⟨q, hrun, hfirst, hsecond⟩ : ∃ q : BoundedMutexQueue Bool ℕ ℕ, exec step (make 1) fullRun = some q ∧
      q.threads false = .idle none ∧ q.threads true = .sleeping (.push 8) := ⟨_, rfl, rfl, rfl⟩
  obtain ⟨hle, hwaits⟩ := calls_return hrun
  refine ⟨q, hrun, hwaits (fun e hcall hspurious => ?_) true (.push 8) (by rw [hsecond]; rfl), hle⟩
  cases e with
  | call => cases hcall
  | wakeSpuriously => cases hspurious
  | lock i | notifyAllNotEmpty i | notifyAllNotFull i => cases i <;> simp only [step, hfirst, hsecond]

end Runs

end BoundedMutexQueue

end LatencyLab
