import LatencyLab.Mutex.WakeUps

/-! `BoundedMutexQueue` as its callers see it. Inside a call a step either goes on
with the call or brings one of its results; nobody else's step does more to a caller
than to wake it. -/

namespace LatencyLab

open Monitor Transition

namespace QueuePc

variable {T C : Type*}

/-- The call a thread is in. -/
def call? : QueuePc T C → Option (QueueCall T C)
  | .idle _ => none
  | .entered call | .sleeping call | .woken call => some call
  | .notifyNotEmpty | .notifyNotFull => some .close

/-- The item a finished call has handed out. -/
def handed : QueuePc T C → Option T
  | .idle item => item
  | _ => none

theorem call?_wake (pc : QueuePc T C) : pc.wake.call? = pc.call? := by cases pc <;> rfl

theorem handed_wake (pc : QueuePc T C) : pc.wake.handed = pc.handed := by cases pc <;> rfl

/-- A call in progress has handed out nothing. -/
theorem handed_of_call? {pc : QueuePc T C} {call : QueueCall T C} (h : pc.call? = some call) :
    pc.handed = none := by
  cases pc <;> first | rfl | cases h

end QueuePc

/-- What the mutator reads in a step. -/
def QueueEvent.read? {ι T C : Type*} : QueueEvent ι T C → Option C
  | .lock _ read _ => read
  | _ => none

namespace BoundedMutexQueue

variable {ι T C : Type*} [Fintype ι] [DecidableEq ι] {q q' : BoundedMutexQueue ι T C} {i j : ι}
variable {e : QueueEvent ι T C}

/-- What a step inside `call` by thread `i` brings. -/
inductive Outcome (q : BoundedMutexQueue ι T C) (i : ι) (read : Option C) (q' : BoundedMutexQueue ι T C) :
    QueueCall T C → Prop
  | goesOn {call : QueueCall T C} (noRead : read = none) (stays : (q'.threads i).call? = some call)
      (appended : q'.appended = q.appended) (results : q'.results = q.results)
      (closed : q'.closed_ = q.closed_) : Outcome q i read q' call
  | queues {call : QueueCall T C} {item : T} (queued : call.queuedItem read = some item)
      (returns : q'.threads i = .idle none) (appended : q'.appended = q.appended ++ [item])
      (results : q'.results = q.results) (closed : q'.closed_ = q.closed_) : Outcome q i read q' call
  | refuses {call : QueueCall T C} (isPush : call.waitsOn = some .notFull) (isClosed : q.closed_ = true) :
      Outcome q i read q' call
  | takes {item : T} (noRead : read = none) (returns : q'.threads i = .idle (some item))
      (appended : q'.appended = q.appended) (results : q'.results = q.results ++ [some item])
      (closed : q'.closed_ = q.closed_) : Outcome q i read q' .pop
  | fails (noRead : read = none) (returns : q'.threads i = .idle none) (appended : q'.appended = q.appended)
      (results : q'.results = q.results ++ [none]) (closed : q'.closed_ = q.closed_) :
      Outcome q i read q' .pop
  | closes (noRead : read = none) (stays : (q'.threads i).call? = some .close)
      (appended : q'.appended = q.appended) (results : q'.results = q.results) (closed : q'.closed_ = true) :
      Outcome q i read q' .close
  | returns (noRead : read = none) (returns : q'.threads i = .idle none) (appended : q'.appended = q.appended)
      (results : q'.results = q.results) (closed : q'.closed_ = q.closed_) : Outcome q i read q' .close

theorem Critical.outcome {read : Option C} {chosen : Option ι} {call : QueueCall T C}
    (hc : Critical q i read chosen call q') : Outcome q i read q' call := by
  cases hc with
  | pushSleeps isPush isOpen full noRead => exact .goesOn noRead (by rw [threads_move]; rfl) rfl rfl rfl
  | pushRefused isPush isClosed => exact .refuses isPush isClosed
  | appends isPush isOpen room queued => exact .queues queued (threads_move _ _ _) rfl rfl rfl
  | popSleeps isOpen empty noRead => exact .goesOn noRead (by rw [threads_move]; rfl) rfl rfl rfl
  | popFails isClosed empty noRead => exact .fails noRead (threads_move _ _ _) rfl rfl rfl
  | takes front noRead => exact .takes noRead (threads_move _ _ _) rfl rfl rfl
  | closes noRead => exact .closes noRead (by rw [threads_move]; rfl) rfl rfl rfl

/-- A step other than a new call is inside a call of its thread. -/
theorem outcome_of_step (hcall : e.inCall = true) (hs : q.step e = some q') :
    ∃ call, (q.threads e.actor).call? = some call ∧ Outcome q e.actor e.read? q' call := by
  cases e with
  | call i call => cases hcall
  | lock i read chosen =>
    obtain ⟨call, hpc, hc⟩ := of_lock hs
    refine ⟨call, ?_, hc.outcome⟩
    rcases hpc with hpc | hpc
    · rw [QueueEvent.actor, hpc]
      rfl
    · rw [QueueEvent.actor, hpc]
      rfl
  | wakeSpuriously i =>
    obtain ⟨call, hpc, rfl⟩ := of_wakeSpuriously hs
    exact ⟨call, by rw [QueueEvent.actor, hpc]; rfl,
      .goesOn rfl (by rw [QueueEvent.actor, threads_move]; rfl) rfl rfl rfl⟩
  | notifyAllNotEmpty i =>
    obtain ⟨hpc, rfl⟩ := of_notifyAllNotEmpty hs
    exact ⟨.close, by rw [QueueEvent.actor, hpc]; rfl,
      .goesOn rfl (by rw [QueueEvent.actor, threads_move]; rfl) rfl rfl rfl⟩
  | notifyAllNotFull i =>
    obtain ⟨hpc, rfl⟩ := of_notifyAllNotFull hs
    exact ⟨.close, by rw [QueueEvent.actor, hpc]; rfl, .returns rfl (threads_move _ _ _) rfl rfl rfl⟩

/-- Another thread's step leaves a caller in its call, or out of it with the same item. -/
theorem caller_of_step (hs : q.step e = some q') (hj : j ≠ e.actor) :
    (q'.threads j).call? = (q.threads j).call? ∧ (q'.threads j).handed = (q.threads j).handed := by
  rcases other_of_step hs hj with hsame | hwake
  · rw [hsame]
    exact ⟨rfl, rfl⟩
  · rw [hwake]
    exact ⟨QueuePc.call?_wake _, QueuePc.handed_wake _⟩

end BoundedMutexQueue

end LatencyLab
