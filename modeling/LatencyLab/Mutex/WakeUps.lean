import LatencyLab.Mutex.Fifo

/-! No wake-up of `BoundedMutexQueue` is lost. Items are the supply behind
`not_empty_` and free slots the supply behind `not_full_`; as long as the queue is
open there is a woken thread for every unit that somebody sleeps for. A `close` owes
the sleepers two notifications, and after it nobody goes to sleep again. -/

namespace LatencyLab

open Monitor Transition

namespace QueuePc

variable {T C : Type*}

/-- The notifications a `close` has yet to make. -/
def owes (cv : ConditionVariable) : QueuePc T C → Bool
  | .notifyNotEmpty => true
  | .notifyNotFull => cv = .notFull
  | _ => false

theorem closing_of_owes {cv : ConditionVariable} {pc : QueuePc T C} (h : pc.owes cv = true) :
    pc.closing = true := by
  cases pc <;> first | rfl | cases h

theorem sleepsOn_wake (cv : ConditionVariable) (pc : QueuePc T C) : pc.wake.sleepsOn cv = false := by
  cases pc <;> rfl

theorem closing_wake (pc : QueuePc T C) : pc.wake.closing = pc.closing := by cases pc <;> rfl

theorem owes_wake (cv : ConditionVariable) (pc : QueuePc T C) : pc.wake.owes cv = pc.owes cv := by
  cases pc <;> rfl

theorem wokenFrom_wake {cv : ConditionVariable} {pc : QueuePc T C} (h : pc.sleepsOn cv = true) :
    pc.wokenFrom cv = false ∧ pc.wake.wokenFrom cv = true := by
  cases pc <;> simp_all [sleepsOn, wokenFrom, wake]

/-- A sleeper sleeps on one condition variable. -/
theorem other_of_sleepsOn {cv other : ConditionVariable} (hne : cv ≠ other) {pc : QueuePc T C}
    (h : pc.sleepsOn other = true) :
    (pc.sleepsOn cv = false ∧ pc.wake.sleepsOn cv = false) ∧
      pc.wokenFrom cv = false ∧ pc.wake.wokenFrom cv = false := by
  cases pc <;> simp_all [sleepsOn, wokenFrom, wake, Ne.symm hne]

end QueuePc

/-- The thread that takes a step. -/
def QueueEvent.actor {ι T C : Type*} : QueueEvent ι T C → ι
  | .call i _ | .lock i _ _ | .wakeSpuriously i | .notifyAllNotEmpty i | .notifyAllNotFull i => i

namespace BoundedMutexQueue

variable {ι T C : Type*} [Fintype ι] [DecidableEq ι] {q q' : BoundedMutexQueue ι T C} {i j : ι}
variable {read : Option C} {chosen : Option ι} {call : QueueCall T C} {e : QueueEvent ι T C}

/-- What a condition variable guards: the items, or the free slots. -/
def supply (q : BoundedMutexQueue ι T C) : ConditionVariable → ℕ
  | .notEmpty => q.queue_.length
  | .notFull => q.capacity_ - q.queue_.length

/-! ### The threads in a step -/

theorem Critical.other (hc : Critical q i read chosen call q') (hj : j ≠ i) :
    q'.threads j = q.threads j ∨ q'.threads j = (q.threads j).wake := by
  cases hc with
  | pushSleeps | pushRefused | popSleeps | popFails | closes => exact .inl (threads_move_of_ne _ hj _)
  | appends _ _ _ _ notified =>
    rw [threads_move_of_ne _ hj]
    exact notifyOne_apply notified j
  | takes _ _ notified =>
    rw [threads_move_of_ne _ hj]
    exact notifyOne_apply notified j

/-- All that happens to another thread is that it wakes. -/
theorem other_of_step (hs : q.step e = some q') (hj : j ≠ e.actor) :
    q'.threads j = q.threads j ∨ q'.threads j = (q.threads j).wake := by
  cases e with
  | call i call =>
    obtain ⟨-, rfl⟩ := of_call hs
    exact .inl (threads_move_of_ne _ hj _)
  | lock i read chosen =>
    obtain ⟨call, -, hc⟩ := of_lock hs
    exact hc.other hj
  | wakeSpuriously i =>
    obtain ⟨call, -, rfl⟩ := of_wakeSpuriously hs
    exact .inl (threads_move_of_ne _ hj _)
  | notifyAllNotEmpty i =>
    obtain ⟨-, rfl⟩ := of_notifyAllNotEmpty hs
    rw [threads_move_of_ne _ (show j ≠ i from hj)]
    exact notifyAll_apply _ _ _ j
  | notifyAllNotFull i =>
    obtain ⟨-, rfl⟩ := of_notifyAllNotFull hs
    rw [threads_move_of_ne _ (show j ≠ i from hj)]
    exact notifyAll_apply _ _ _ j

/-- What the acting thread does, as far as `close` is concerned. -/
inductive Acts (q : BoundedMutexQueue ι T C) (i : ι) (q' : BoundedMutexQueue ι T C) : Prop
  | stays (before : (q.threads i).closing = false) (after : (q'.threads i).closing = false)
      (closed : q'.closed_ = q.closed_)
      (awake : q.closed_ = true → ∀ cv, (q'.threads i).sleepsOn cv = false)
  | closes (after : q'.threads i = .notifyNotEmpty) (closed : q'.closed_ = true)
  | notifiesNotEmpty (before : q.threads i = .notifyNotEmpty) (after : q'.threads i = .notifyNotFull)
      (closed : q'.closed_ = q.closed_) (awake : ∀ j, (q'.threads j).sleepsOn .notEmpty = false)
  | notifiesNotFull (before : q.threads i = .notifyNotFull) (after : q'.threads i = .idle none)
      (closed : q'.closed_ = q.closed_) (awake : ∀ j, (q'.threads j).sleepsOn .notFull = false)

theorem Critical.acts (hpc : (q.threads i).closing = false) (hc : Critical q i read chosen call q') :
    Acts q i q' := by
  cases hc with
  | closes => exact .closes (threads_move _ _ _) rfl
  | pushSleeps isPush isOpen | popSleeps isOpen =>
    refine .stays hpc (by rw [threads_move]; rfl) rfl fun hclosed => ?_
    rw [isOpen] at hclosed
    cases hclosed
  | pushRefused | popFails | appends | takes =>
    exact .stays hpc (by rw [threads_move]; rfl) rfl fun _ cv => by rw [threads_move]; rfl

theorem acts_of_step (hs : q.step e = some q') : Acts q e.actor q' := by
  cases e with
  | call i call =>
    obtain ⟨⟨item, hpc⟩, rfl⟩ := of_call hs
    exact .stays (by rw [QueueEvent.actor, hpc]; rfl) (by rw [QueueEvent.actor, threads_move]; rfl) rfl
      fun _ cv => by rw [QueueEvent.actor, threads_move]; rfl
  | lock i read chosen =>
    obtain ⟨call, hpc, hc⟩ := of_lock hs
    refine hc.acts ?_
    rcases hpc with hpc | hpc
    · rw [hpc]
      rfl
    · rw [hpc]
      rfl
  | wakeSpuriously i =>
    obtain ⟨call, hpc, rfl⟩ := of_wakeSpuriously hs
    exact .stays (by rw [QueueEvent.actor, hpc]; rfl) (by rw [QueueEvent.actor, threads_move]; rfl) rfl
      fun _ cv => by rw [QueueEvent.actor, threads_move]; rfl
  | notifyAllNotEmpty i =>
    obtain ⟨hpc, rfl⟩ := of_notifyAllNotEmpty hs
    refine .notifiesNotEmpty hpc (threads_move _ _ _) rfl fun j => ?_
    by_cases hj : j = i
    · subst hj
      rw [threads_move]
      rfl
    · rw [threads_move_of_ne _ hj]
      exact asleep_notifyAll (QueuePc.sleepsOn_wake _) _ j
  | notifyAllNotFull i =>
    obtain ⟨hpc, rfl⟩ := of_notifyAllNotFull hs
    refine .notifiesNotFull hpc (threads_move _ _ _) rfl fun j => ?_
    by_cases hj : j = i
    · subst hj
      rw [threads_move]
      rfl
    · rw [threads_move_of_ne _ hj]
      exact asleep_notifyAll (QueuePc.sleepsOn_wake _) _ j

/-! ### What is owed to sleepers -/

/-- Sleepers and supply are balanced for every condition variable. -/
def AllBalanced (q : BoundedMutexQueue ι T C) : Prop :=
  ∀ cv, Balanced (QueuePc.sleepsOn cv) (QueuePc.wokenFrom cv) q.threads (q.supply cv)

/-- While the queue is open, sleepers and supply are balanced; once it is closed, a
sleeper is owed a notification, and a `close` has made those it does not owe. -/
structure Wakeful (q : BoundedMutexQueue ι T C) : Prop where
  balanced : q.closed_ = false → q.AllBalanced
  closing : ∀ i, (q.threads i).closing = true → q.closed_ = true
  owed : q.closed_ = true → ∀ cv, (∃ i, (q.threads i).owes cv = true) ∨ ∀ j, (q.threads j).sleepsOn cv = false
  paid : ∀ i cv, (q.threads i).closing = true → (q.threads i).owes cv = false →
    ∀ j, (q.threads j).sleepsOn cv = false

omit [DecidableEq ι] in
theorem wakeful_make (capacity : ℕ) : (make capacity : BoundedMutexQueue ι T C).Wakeful where
  balanced _ cv := .inl (tally_eq_zero.mpr fun _ => rfl)
  closing i hi := by cases hi
  owed h := by cases h
  paid i cv hi := by cases hi

theorem sleepsOn_of_step (hs : q.step e = some q') (hclosed : q.closed_ = true) {cv : ConditionVariable}
    (hq : ∀ j, (q.threads j).sleepsOn cv = false) (j : ι) : (q'.threads j).sleepsOn cv = false := by
  by_cases hj : j = e.actor
  · subst hj
    rcases acts_of_step hs with ⟨-, -, -, awake⟩ | ⟨after, -⟩ | ⟨-, after, -, -⟩ | ⟨-, after, -, -⟩
    · exact awake hclosed cv
    all_goals rw [after]; rfl
  · rcases other_of_step hs hj with hsame | hwake
    · rw [hsame]
      exact hq j
    · rw [hwake]
      exact QueuePc.sleepsOn_wake cv _

namespace Wakeful

/-- A thread between its critical section and the end of `close` stands where it stood. -/
theorem other_closing (hs : q.step e = some q') (hj : j ≠ e.actor) :
    (q'.threads j).closing = (q.threads j).closing ∧
      ∀ cv, (q'.threads j).owes cv = (q.threads j).owes cv := by
  rcases other_of_step hs hj with hsame | hwake
  · rw [hsame]
    exact ⟨rfl, fun _ => rfl⟩
  · rw [hwake]
    exact ⟨QueuePc.closing_wake _, fun cv => QueuePc.owes_wake cv _⟩

omit [Fintype ι] [DecidableEq ι] in
theorem closed_of_acts (ha : Acts q i q') (hclosed : q.closed_ = true) : q'.closed_ = true := by
  rcases ha with ⟨-, -, closed, -⟩ | ⟨-, closed⟩ | ⟨-, -, closed, -⟩ | ⟨-, -, closed, -⟩
  · exact closed.trans hclosed
  · exact closed
  · exact closed.trans hclosed
  · exact closed.trans hclosed

theorem closing_step (h : q.Wakeful) (hs : q.step e = some q') (i : ι)
    (hi : (q'.threads i).closing = true) : q'.closed_ = true := by
  have ha := acts_of_step hs
  by_cases hactor : i = e.actor
  · subst hactor
    rcases ha with ⟨-, after, -, -⟩ | ⟨-, closed⟩ | ⟨before, -, closed, -⟩ | ⟨-, after, -, -⟩
    · rw [after] at hi
      cases hi
    · exact closed
    · exact closed.trans (h.closing _ (by rw [before]; rfl))
    · rw [after] at hi
      cases hi
  · rw [(other_closing hs hactor).1] at hi
    exact closed_of_acts ha (h.closing i hi)

theorem owed_step (h : q.Wakeful) (hs : q.step e = some q') (hclosed' : q'.closed_ = true)
    (cv : ConditionVariable) :
    (∃ i, (q'.threads i).owes cv = true) ∨ ∀ j, (q'.threads j).sleepsOn cv = false := by
  have ha := acts_of_step hs
  cases hclosed : q.closed_ with
  | true =>
    rcases h.owed hclosed cv with ⟨i, hi⟩ | hnobody
    · by_cases hactor : i = e.actor
      · subst hactor
        rcases ha with ⟨before, -, -, -⟩ | ⟨after, -⟩ | ⟨-, after, -, awake⟩ | ⟨before, -, -, awake⟩
        · rw [QueuePc.closing_of_owes hi] at before
          cases before
        · exact .inl ⟨_, by rw [after]; rfl⟩
        · cases cv with
          | notEmpty => exact .inr awake
          | notFull => exact .inl ⟨_, by rw [after]; rfl⟩
        · cases cv with
          | notEmpty =>
            rw [before] at hi
            cases hi
          | notFull => exact .inr awake
      · exact .inl ⟨i, by rw [(other_closing hs hactor).2]; exact hi⟩
    · exact .inr (sleepsOn_of_step hs hclosed hnobody)
  | false =>
    rcases ha with ⟨-, -, closed, -⟩ | ⟨after, -⟩ | ⟨-, -, closed, -⟩ | ⟨-, -, closed, -⟩
    · simp [closed, hclosed] at hclosed'
    · exact .inl ⟨_, by rw [after]; rfl⟩
    · simp [closed, hclosed] at hclosed'
    · simp [closed, hclosed] at hclosed'

theorem paid_step (h : q.Wakeful) (hs : q.step e = some q') (i : ι) (cv : ConditionVariable)
    (hi : (q'.threads i).closing = true) (hpaid : (q'.threads i).owes cv = false) (j : ι) :
    (q'.threads j).sleepsOn cv = false := by
  by_cases hactor : i = e.actor
  · subst hactor
    rcases acts_of_step hs with ⟨-, after, -, -⟩ | ⟨after, -⟩ | ⟨-, after, -, awake⟩ | ⟨-, after, -, -⟩
    · rw [after] at hi
      cases hi
    · rw [after] at hpaid
      cases hpaid
    · rw [after] at hpaid
      cases cv with
      | notEmpty => exact awake j
      | notFull => cases hpaid
    · rw [after] at hi
      cases hi
  · obtain ⟨hclosing, howes⟩ := other_closing hs hactor
    rw [hclosing] at hi
    rw [howes] at hpaid
    exact sleepsOn_of_step hs (h.closing i hi) (h.paid i cv hi hpaid) j

/-! #### The balance -/

/-- Thread `i` is about to test the predicate of `call`. -/
structure Testing (pc : QueuePc T C) (call : QueueCall T C) : Prop where
  awake : ∀ cv, pc.sleepsOn cv = false
  unwoken : ∀ cv, call.waitsOn ≠ some cv → pc.wokenFrom cv = false

theorem testing_of_lock {pc : QueuePc T C} (hpc : pc = .entered call ∨ pc = .woken call) : Testing pc call := by
  rcases hpc with rfl | rfl
  · exact ⟨fun _ => rfl, fun _ _ => rfl⟩
  · exact ⟨fun _ => rfl, fun cv hcv => by simp [QueuePc.wokenFrom, hcv]⟩

theorem balanced_critical (h : q.AllBalanced) (hopen : q'.closed_ = false)
    (hpc : Testing (q.threads i) call) (hc : Critical q i read chosen call q') : q'.AllBalanced := by
  intro cv
  have hwoken := Bool.toNat_le ((q.threads i).wokenFrom cv)
  cases hc with
  | pushSleeps isPush isOpen full =>
    cases cv with
    | notEmpty =>
      have hother := hpc.unwoken .notEmpty (by simp [isPush])
      refine (h .notEmpty).move ?_ ?_
      · simp [QueuePc.sleepsOn, isPush]
      · rw [hother]
        exact Nat.le_add_right _ _
    | notFull =>
      have hnone : (q.move i (.sleeping call)).supply .notFull = 0 := Nat.sub_eq_zero_of_le full
      rw [hnone]
      exact .of_empty _ _ _
  | pushRefused _ isClosed =>
    have hsame : q.closed_ = false := hopen
    rw [hsame] at isClosed
    cases isClosed
  | appends isPush isOpen room queued notified =>
    have hsame := notifyOne_of_awake notified (hpc.awake .notEmpty)
    cases cv with
    | notEmpty =>
      have hother := hpc.unwoken .notEmpty (by simp [isPush])
      refine ((h .notEmpty).notify notified fun _ => QueuePc.wokenFrom_wake).move (Nat.zero_le _) ?_
      rw [hsame, hother]
      exact (List.length_append).le
    | notFull =>
      refine ((h .notFull).notifyOther notified fun _ => QueuePc.other_of_sleepsOn (by decide)).move
        (Nat.zero_le _) ?_
      rw [hsame]
      simp only [supply, move, List.length_append, List.length_singleton]
      omega
  | popSleeps isOpen empty =>
    cases cv with
    | notEmpty =>
      have hnone : (q.move i (.sleeping .pop)).supply .notEmpty = 0 := List.length_eq_zero_iff.mpr empty
      rw [hnone]
      exact .of_empty _ _ _
    | notFull =>
      have hother := hpc.unwoken .notFull (by simp [QueueCall.waitsOn])
      refine (h .notFull).move (Nat.zero_le _) ?_
      rw [hother]
      exact Nat.le_add_right _ _
  | popFails isClosed =>
    have hsame : q.closed_ = false := hopen
    rw [hsame] at isClosed
    cases isClosed
  | takes front noRead notified =>
    have hsame := notifyOne_of_awake notified (hpc.awake .notFull)
    cases cv with
    | notEmpty =>
      refine ((h .notEmpty).notifyOther notified fun _ => QueuePc.other_of_sleepsOn (by decide)).move
        (Nat.zero_le _) ?_
      rw [hsame]
      simp only [supply, move, front, List.length_cons]
      omega
    | notFull =>
      have hother := hpc.unwoken .notFull (by simp [QueueCall.waitsOn])
      refine ((h .notFull).notify notified fun _ => QueuePc.wokenFrom_wake).move (Nat.zero_le _) ?_
      rw [hsame, hother]
      simp only [supply, move, front, List.length_cons, Bool.toNat_false]
      omega
  | closes => cases hopen

theorem balanced_step (h : q.Wakeful) (hs : q.step e = some q') (hopen : q'.closed_ = false) :
    q'.AllBalanced := by
  have hwas : q.closed_ = false := by
    by_contra hclosed
    rw [closed_of_acts (acts_of_step hs) (Bool.not_eq_false _ ▸ hclosed)] at hopen
    cases hopen
  have hq := h.balanced hwas
  have hnoClose : ∀ i, (q.threads i).closing = false := by
    intro i
    by_contra hi
    rw [h.closing i (Bool.not_eq_false _ ▸ hi)] at hwas
    cases hwas
  cases e with
  | call i call =>
    obtain ⟨⟨item, hpc⟩, rfl⟩ := of_call hs
    exact fun cv => (hq cv).move (Nat.zero_le _) (by rw [hpc]; exact le_rfl)
  | lock i read chosen =>
    obtain ⟨call, hpc, hc⟩ := of_lock hs
    exact balanced_critical hq hopen (testing_of_lock hpc) hc
  | wakeSpuriously i =>
    obtain ⟨call, hpc, rfl⟩ := of_wakeSpuriously hs
    exact fun cv => (hq cv).move (Nat.zero_le _) (by rw [hpc]; exact Nat.le_add_right _ _)
  | notifyAllNotEmpty i =>
    have hi := hnoClose i
    rw [(of_notifyAllNotEmpty hs).1] at hi
    cases hi
  | notifyAllNotFull i =>
    have hi := hnoClose i
    rw [(of_notifyAllNotFull hs).1] at hi
    cases hi

theorem step (h : q.Wakeful) (hs : q.step e = some q') : q'.Wakeful where
  balanced := h.balanced_step hs
  closing := h.closing_step hs
  owed := h.owed_step hs
  paid := h.paid_step hs

end Wakeful

/-! ### Runs -/

/-- Closed, with nobody asleep. -/
def Awake (q : BoundedMutexQueue ι T C) : Prop :=
  q.closed_ = true ∧ ∀ cv j, (q.threads j).sleepsOn cv = false

theorem Awake.step (h : q.Awake) (hs : q.step e = some q') : q'.Awake :=
  ⟨Wakeful.closed_of_acts (acts_of_step hs) h.1, fun cv => sleepsOn_of_step hs h.1 (h.2 cv)⟩

/-- The return of a `close`. -/
theorem Wakeful.awake (h : q.Wakeful) (hs : q.step (.notifyAllNotFull i) = some q') : q'.Awake := by
  obtain ⟨hpc, rfl⟩ := of_notifyAllNotFull hs
  have hclosed : q.closed_ = true := h.closing i (by rw [hpc]; rfl)
  refine ⟨hclosed, fun cv j => ?_⟩
  cases cv with
  | notEmpty => exact sleepsOn_of_step hs hclosed (h.paid i .notEmpty (by rw [hpc]; rfl) (by rw [hpc]; rfl)) j
  | notFull =>
    rcases acts_of_step hs with ⟨before, -, -, -⟩ | ⟨after, -⟩ | ⟨before, -, -, -⟩ | ⟨-, -, -, awake⟩
    · rw [QueueEvent.actor, hpc] at before
      cases before
    · rw [QueueEvent.actor, threads_move] at after
      cases after
    · rw [QueueEvent.actor, hpc] at before
      cases before
    · exact awake j

omit [DecidableEq ι] in
/-- With no notification owed, nobody sleeps for a unit that no woken thread will take. -/
theorem Wakeful.not_stranded (h : q.Wakeful) (hdone : ∀ i, (q.threads i).closing = false)
    (cv : ConditionVariable) :
    ¬(0 < q.supply cv ∧ (∃ i, (q.threads i).sleepsOn cv = true) ∧
      ∀ i, (q.threads i).wokenFrom cv = false) := by
  rintro ⟨hsupply, ⟨i, hi⟩, hwoken⟩
  have hnobody : ∀ j, (q.threads j).sleepsOn cv = false := by
    cases hclosed : q.closed_ with
    | false => exact (h.balanced hclosed cv).nobody_asleep hsupply hwoken
    | true =>
      rcases h.owed hclosed cv with ⟨j, hj⟩ | hnobody
      · have hclosing := hdone j
        rw [QueuePc.closing_of_owes hj] at hclosing
        cases hclosing
      · exact hnobody
  rw [hnobody i] at hi
  cases hi

section Runs

variable {capacity : ℕ} {events : List (QueueEvent ι T C)}

theorem wakeful_of_run (hrun : exec step (make capacity) events = some q) : q.Wakeful := by
  have hstep : ∀ (q : BoundedMutexQueue ι T C) e q', Wakeful q → q.step e = some q' → Wakeful q' :=
    fun q e q' h hs => h.step hs
  exact exec_invariant hstep (wakeful_make capacity) hrun

theorem Awake.run (h : q.Awake) (hrun : exec BoundedMutexQueue.step q events = some q') : q'.Awake := by
  have hstep : ∀ (q : BoundedMutexQueue ι T C) e q', Awake q → q.step e = some q' → Awake q' :=
    fun q e q' h hs => h.step hs
  exact exec_invariant hstep h hrun

theorem awake_of_run (hrun : exec step (make capacity) events = some q)
    (hreturned : .notifyAllNotFull i ∈ events) : q.Awake := by
  obtain ⟨before, after, rfl⟩ := List.append_of_mem hreturned
  rw [exec_append] at hrun
  obtain ⟨q₁, hq₁, hrest⟩ := Option.bind_eq_some_iff.mp hrun
  obtain ⟨q₂, hq₂, hafter⟩ := Option.bind_eq_some_iff.mp hrest
  exact ((wakeful_of_run hq₁).awake hq₂).run hafter

/-- **No wake-up is lost**: unless a `close` is still notifying, nobody is stranded, asleep
on a condition variable that guards a supply with no woken thread to take it; and once
a `close` has returned nobody sleeps, then or ever after. -/
theorem no_lost_wakeUp (hrun : exec step (make capacity) events = some q) :
    ((∀ i, (q.threads i).closing = false) →
      ¬(q.queue_ ≠ [] ∧ (∃ i, (q.threads i).sleepsOn .notEmpty = true) ∧
          ∀ i, (q.threads i).wokenFrom .notEmpty = false) ∧
        ¬(q.queue_.length < q.capacity_ ∧ (∃ i, (q.threads i).sleepsOn .notFull = true) ∧
          ∀ i, (q.threads i).wokenFrom .notFull = false)) ∧
      ∀ i, .notifyAllNotFull i ∈ events → ∀ cv j, (q.threads j).sleepsOn cv = false := by
  have h := wakeful_of_run hrun
  refine ⟨fun hdone => ⟨?_, ?_⟩, fun i hreturned => (awake_of_run hrun hreturned).2⟩
  · rintro ⟨hitems, hstranded⟩
    exact h.not_stranded hdone .notEmpty ⟨List.length_pos_iff.mpr hitems, hstranded⟩
  · rintro ⟨hroom, hstranded⟩
    exact h.not_stranded hdone .notFull ⟨Nat.sub_pos_of_lt hroom, hstranded⟩

/-- Two poppers sleep, one push wakes one of them, and a close the other. -/
def twoPoppersRun : List (QueueEvent (Fin 3) ℕ ℕ) :=
  [.call 0 .pop, .lock 0 none none, .call 1 .pop, .lock 1 none none, .call 2 (.push 7), .lock 2 none (some 1),
    .call 2 .close, .lock 2 none none, .notifyAllNotEmpty 2, .notifyAllNotFull 2]

theorem no_lost_wakeUp_twoPoppers :
    ∃ q, exec step (make 1) twoPoppersRun = some q ∧ q.queue_ = [7] ∧
      ∀ cv j, (q.threads j).sleepsOn cv = false :=
  ⟨_, rfl, rfl, (no_lost_wakeUp (show exec step (make 1) twoPoppersRun = _ from rfl)).2 2 (by simp [twoPoppersRun])⟩

end Runs

end BoundedMutexQueue

end LatencyLab
