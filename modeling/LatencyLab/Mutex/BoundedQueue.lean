import LatencyLab.Monitor.Threads
import LatencyLab.Transition.Exec

/-! `BoundedMutexQueue<T>`, one critical section at a time, for any threads. A thread
that holds the mutex tests its predicate and either goes to sleep, which releases the
mutex, or finishes its call; a thread that wakes has to take the mutex and test again.
`notify_one` is inside the critical section, the two `notify_all` of `close` come after
it. A mutator may read something outside the queue, such as a clock. -/

namespace LatencyLab

open Monitor

inductive ConditionVariable
  | notEmpty
  | notFull
  deriving DecidableEq

/-- A call of a member function; the values a mutator reads are of type `C`. -/
inductive QueueCall (T C : Type*)
  | push (item : T)
  | pushWithMutation (item : T) (mutate : C → T → T)
  | pop
  | close

namespace QueueCall

variable {T C : Type*}

/-- The condition variable a call waits on. -/
def waitsOn : QueueCall T C → Option ConditionVariable
  | .push _ | .pushWithMutation _ _ => some .notFull
  | .pop => some .notEmpty
  | .close => none

/-- The item that is queued, given what the mutator reads if there is one. -/
def queuedItem : QueueCall T C → Option C → Option T
  | .push item, none => some item
  | .pushWithMutation item mutate, some read => some (mutate read item)
  | _, _ => none

end QueueCall

/-- Where a thread stands; outside a call, the item its last call handed out, if it did. -/
inductive QueuePc (T C : Type*)
  | idle (item : Option T)
  | entered (call : QueueCall T C)
  | sleeping (call : QueueCall T C)
  | woken (call : QueueCall T C)
  | notifyNotEmpty
  | notifyNotFull

namespace QueuePc

variable {T C : Type*}

/-- Asleep on `cv`. -/
def sleepsOn (cv : ConditionVariable) : QueuePc T C → Bool
  | .sleeping call => call.waitsOn = some cv
  | _ => false

/-- Woken from `cv`, and still to test its predicate again. -/
def wokenFrom (cv : ConditionVariable) : QueuePc T C → Bool
  | .woken call => call.waitsOn = some cv
  | _ => false

def wake : QueuePc T C → QueuePc T C
  | .sleeping call => .woken call
  | pc => pc

/-- Between the critical section of `close` and its return. -/
def closing : QueuePc T C → Bool
  | .notifyNotEmpty | .notifyNotFull => true
  | _ => false

end QueuePc

/-- `appended` records every item ever queued, `results` what each `pop` returned. -/
structure BoundedMutexQueue (ι T C : Type*) where
  capacity_ : ℕ
  queue_ : List T
  closed_ : Bool
  threads : ι → QueuePc T C
  appended : List T
  results : List (Option T)

/-- `lock`: thread `i` takes the mutex for one critical section, in which a mutator may
read a value and `notify_one` wakes the chosen thread. -/
inductive QueueEvent (ι T C : Type*)
  | call (i : ι) (call : QueueCall T C)
  | lock (i : ι) (read : Option C) (chosen : Option ι)
  | wakeSpuriously (i : ι)
  | notifyAllNotEmpty (i : ι)
  | notifyAllNotFull (i : ι)

/-- The steps inside a call. -/
def QueueEvent.inCall {ι T C : Type*} : QueueEvent ι T C → Bool
  | .call _ _ => false
  | _ => true

namespace BoundedMutexQueue

variable {ι T C : Type*} [Fintype ι] [DecidableEq ι]

def make (capacity : ℕ) : BoundedMutexQueue ι T C where
  capacity_ := capacity
  queue_ := []
  closed_ := false
  threads := fun _ => .idle none
  appended := []
  results := []

omit [Fintype ι] in
/-- Thread `i` goes to `pc`. -/
def move (q : BoundedMutexQueue ι T C) (i : ι) (pc : QueuePc T C) : BoundedMutexQueue ι T C :=
  { q with threads := Function.update q.threads i pc }

omit [Fintype ι] in
@[simp] theorem threads_move (q : BoundedMutexQueue ι T C) (i : ι) (pc : QueuePc T C) :
    (q.move i pc).threads i = pc := Function.update_self _ _ _

omit [Fintype ι] in
theorem threads_move_of_ne (q : BoundedMutexQueue ι T C) {i j : ι} (hj : j ≠ i) (pc : QueuePc T C) :
    (q.move i pc).threads j = q.threads j := Function.update_of_ne hj _ _

/-- `notify_one`. -/
def notify (q : BoundedMutexQueue ι T C) (cv : ConditionVariable) (chosen : Option ι) :
    Option (ι → QueuePc T C) :=
  notifyOne (QueuePc.sleepsOn cv) QueuePc.wake q.threads chosen

omit [Fintype ι] in
/-- The end of a critical section that runs no mutator and notifies nobody. -/
def quiet (q : BoundedMutexQueue ι T C) (i : ι) (pc : QueuePc T C) :
    Option C → Option ι → Option (BoundedMutexQueue ι T C)
  | none, none => some (q.move i pc)
  | _, _ => none

/-- The critical section of `push` and `push_with_mutation`. -/
def lockedPush (q : BoundedMutexQueue ι T C) (i : ι) (call : QueueCall T C) (read : Option C)
    (chosen : Option ι) : Option (BoundedMutexQueue ι T C) :=
  if q.closed_ || q.queue_.length < q.capacity_ then
    if q.closed_ then q.quiet i (.idle none) read chosen
    else
      (call.queuedItem read).bind fun item =>
        let q := { q with queue_ := q.queue_ ++ [item], appended := q.appended ++ [item] }
        (q.notify .notEmpty chosen).map fun threads => { q with threads := threads }.move i (.idle none)
  else q.quiet i (.sleeping call) read chosen

/-- The critical section of `pop`. -/
def lockedPop (q : BoundedMutexQueue ι T C) (i : ι) (read : Option C) (chosen : Option ι) :
    Option (BoundedMutexQueue ι T C) :=
  if q.closed_ || !q.queue_.isEmpty then
    match q.queue_, read with
    | [], _ => { q with results := q.results ++ [none] }.quiet i (.idle none) read chosen
    | item :: rest, none =>
      let q := { q with queue_ := rest, results := q.results ++ [some item] }
      (q.notify .notFull chosen).map fun threads => { q with threads := threads }.move i (.idle (some item))
    | _ :: _, some _ => none
  else q.quiet i (.sleeping .pop) read chosen

/-- The critical section of a call. -/
def locked (q : BoundedMutexQueue ι T C) (i : ι) (call : QueueCall T C) (read : Option C)
    (chosen : Option ι) : Option (BoundedMutexQueue ι T C) :=
  match call with
  | .push item => q.lockedPush i (.push item) read chosen
  | .pushWithMutation item mutate => q.lockedPush i (.pushWithMutation item mutate) read chosen
  | .pop => q.lockedPop i read chosen
  | .close => { q with closed_ := true }.quiet i .notifyNotEmpty read chosen

/-- One step of one thread, `none` where that thread is not at that step. -/
def step (q : BoundedMutexQueue ι T C) : QueueEvent ι T C → Option (BoundedMutexQueue ι T C)
  | .call i call =>
    match q.threads i with
    | .idle _ => some (q.move i (.entered call))
    | _ => none
  | .lock i read chosen =>
    match q.threads i with
    | .entered call => q.locked i call read chosen
    | .woken call => q.locked i call read chosen
    | _ => none
  | .wakeSpuriously i =>
    match q.threads i with
    | .sleeping call => some (q.move i (.woken call))
    | _ => none
  | .notifyAllNotEmpty i =>
    match q.threads i with
    | .notifyNotEmpty =>
      some ({ q with threads := notifyAll (QueuePc.sleepsOn .notEmpty) QueuePc.wake q.threads }.move i .notifyNotFull)
    | _ => none
  | .notifyAllNotFull i =>
    match q.threads i with
    | .notifyNotFull =>
      some ({ q with threads := notifyAll (QueuePc.sleepsOn .notFull) QueuePc.wake q.threads }.move i (.idle none))
    | _ => none

end BoundedMutexQueue

end LatencyLab
