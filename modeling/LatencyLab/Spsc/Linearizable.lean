import LatencyLab.Spsc.Sequential
import LatencyLab.Spsc.Termination

/-! The ring as an atomic object. A call of `push` or `pop` takes many steps and the other
thread moves between them, but what it does to the queue it does in one step, its last. In
the order of these last steps the calls return what they return on the bounded list, one
after another. A stale load may turn a call away that the list would have served; the calls
that succeed are still calls of the list. -/

namespace LatencyLab

open Transition

/-- A call that is over. -/
inductive Completed (T : Type*)
  | push (item : T) (result : Bool)
  | pop (result : Option T)
  deriving DecidableEq

namespace Completed

variable {T : Type*}

def succeeded : Completed T → Bool
  | .push _ result => result
  | .pop result => result.isSome

/-- The call; the output argument of `pop` holds `before`. -/
def call (before : T) : Completed T → RingCall T
  | .push item _ => .push item
  | .pop _ => .pop before

def result (before : T) : Completed T → RingResult T
  | .push _ result => .pushed result
  | .pop result => .popped result.isSome (result.getD before)

end Completed

/-- The calls on a list of bounded length, one after another, and what they return. -/
def BoundedList.serveAll {T : Type*} (before : T) (capacity : ℕ) (calls : List (Completed T)) :
    BoundedList T × List (RingResult T) :=
  (calls.map (Completed.call before)).foldl BoundedList.serve (⟨capacity, []⟩, [])

/-! ### Recordings -/

/-- The call that is over when the producer has moved on. -/
def PushPc.ended {T : Type*} (pc pc' : PushPc T) : List (Completed T) :=
  match pc.item?, pc' with
  | some item, .idle result => [.push item result]
  | _, _ => []

/-- The call that is over when the consumer has moved on. -/
def PopPc.ended {T : Type*} (pc pc' : PopPc T) : List (Completed T) :=
  match pc, pc' with
  | .idle _, _ => []
  | _, .idle result => [.pop result]
  | _, _ => []

/-- The load does not return the last value stored. -/
def ChannelEvent.stale {T : Type*} (r : SpscRingBuffer T) : ChannelEvent T → Bool
  | .pushLoadTail position => position + 1 ≠ r.tail_.length
  | .popLoadHead position => position + 1 ≠ r.head_.length
  | _ => false

/-- A channel, the calls on it in the order in which they came to their ends, and whether
a load has been stale. -/
structure Recording (T : Type*) where
  channel : Channel T
  calls : List (Completed T)
  stale : Bool

namespace Recording

variable {T : Type*}

def make [Inhabited T] (capacity : ℕ) : Recording T := ⟨Channel.make capacity, [], false⟩

def step (s : Recording T) (e : ChannelEvent T) : Option (Recording T) :=
  (s.channel.step e).map fun c =>
    { channel := c
      calls := s.calls ++ (s.channel.push.ended c.push ++ s.channel.pop.ended c.pop)
      stale := s.stale || e.stale s.channel.ring }

end Recording

namespace Channel

variable {T : Type*} {c c' : Channel T} {capacity : ℕ}

/-- The items in the ring, oldest first. -/
def items (c : Channel T) : List T := c.published.drop c.returned.length

/-- What a step does to the queue, and the calls that are over with it. -/
inductive Effect (capacity : ℕ) (fresh : Prop) (c c' : Channel T) : List (Completed T) → Prop
  | inside (items : c'.items = c.items) : Effect capacity fresh c c' []
  | pushed (item : T) (room : c.items.length < capacity) (items : c'.items = c.items ++ [item]) :
      Effect capacity fresh c c' [.push item true]
  | refused (item : T) (full : fresh → c.items.length = capacity) (items : c'.items = c.items) :
      Effect capacity fresh c c' [.push item false]
  | popped (item : T) (items : c.items = item :: c'.items) : Effect capacity fresh c c' [.pop (some item)]
  | failed (empty : fresh → c.items = []) (items : c'.items = c.items) : Effect capacity fresh c c' [.pop none]

@[simp] theorem ended_push_self (pc : PushPc T) : pc.ended pc = [] := by cases pc <;> rfl

@[simp] theorem ended_pop_self (pc : PopPc T) : pc.ended pc = [] := by cases pc <;> rfl

theorem length_items (c : Channel T) : c.items.length = c.published.length - c.returned.length := List.length_drop

theorem effect_of_step (h : InvFor capacity c) {e : ChannelEvent T} (hs : c.step e = some c') :
    Effect capacity (e.stale c.ring = false) c c' (c.push.ended c'.push ++ c.pop.ended c'.pop) := by
  have hle := h.inv.returned_le_published
  cases e with
  | pushCall item =>
    obtain ⟨⟨result, hpc⟩, rfl⟩ := of_pushCall hs
    rw [ended_pop_self, hpc]
    exact .inside rfl
  | pushLoadHead =>
    obtain ⟨item, head, hpc, -, rfl⟩ := of_pushLoadHead hs
    rw [ended_pop_self, hpc]
    exact .inside rfl
  | pushLoadTail k =>
    obtain ⟨item, head, nextHead, tail, hpc, htail, -, rfl⟩ := of_pushLoadTail hs
    rw [ended_pop_self, hpc]
    dsimp only
    split_ifs with heq
    · refine .refused item (fun hfresh => ?_) rfl
      have hlast : k + 1 = c.ring.tail_.length := by simpa [ChannelEvent.stale] using hfresh
      have hfull := full_of_refused h hlast hpc htail heq
      rw [length_items]
      omega
    · exact .inside rfl
  | pushPartialWrite junk =>
    obtain ⟨item, head, nextHead, hpc, rfl⟩ := of_pushPartialWrite hs
    rw [ended_pop_self, ended_push_self]
    exact .inside rfl
  | pushWrite =>
    obtain ⟨item, head, nextHead, hpc, rfl⟩ := of_pushWrite hs
    rw [ended_pop_self, hpc]
    exact .inside rfl
  | pushStoreHead =>
    obtain ⟨item, nextHead, hpc, rfl⟩ := of_pushStoreHead hs
    rw [ended_pop_self, hpc]
    have hknows := h.inv.pushKnows
    rw [hpc] at hknows
    obtain ⟨-, hroom, -⟩ := hknows
    have hseen := h.inv.tailSeen_le
    refine .pushed item ?_ (List.drop_append_of_le_length hle)
    rw [length_items]
    rw [h.capacity_eq] at hroom
    omega
  | popCall =>
    obtain ⟨⟨result, hpc⟩, rfl⟩ := of_popCall hs
    rw [ended_push_self, hpc]
    exact .inside rfl
  | popLoadTail =>
    obtain ⟨tail, hpc, -, rfl⟩ := of_popLoadTail hs
    rw [ended_push_self, hpc]
    exact .inside rfl
  | popLoadHead k =>
    obtain ⟨tail, head, hpc, hhead, -, rfl⟩ := of_popLoadHead hs
    rw [ended_push_self, hpc]
    dsimp only
    split_ifs with heq
    · refine .failed (fun hfresh => ?_) rfl
      have hlast : k + 1 = c.ring.head_.length := by simpa [ChannelEvent.stale] using hfresh
      have hempty := empty_of_failed h hlast hpc hhead heq
      rw [← List.length_eq_zero_iff, length_items]
      omega
    · exact .inside rfl
  | popRead =>
    obtain ⟨tail, item, hpc, -, rfl⟩ := of_popRead hs
    rw [ended_push_self, hpc]
    exact .inside rfl
  | popStoreTail =>
    obtain ⟨item, tail, hpc, rfl⟩ := of_popStoreTail hs
    rw [ended_push_self, hpc]
    have hknows := h.inv.popKnows
    rw [hpc] at hknows
    obtain ⟨-, -, hitem⟩ := hknows
    obtain ⟨hlt, hget⟩ := List.getElem?_eq_some_iff.mp hitem
    refine .popped item ?_
    rw [items, items, List.length_append, List.length_singleton, List.drop_eq_getElem_cons hlt, hget]

/-! ### The calls on the list -/

/-- On the bounded list the calls return what they returned on the channel, and leave the
items that are in the ring. -/
def Explains (capacity : ℕ) (c : Channel T) (calls : List (Completed T)) : Prop :=
  ∀ before,
    BoundedList.serveAll before capacity calls = (⟨capacity, c.items⟩, calls.map (Completed.result before))

theorem Explains.snoc {calls : List (Completed T)} (h : c.Explains capacity calls) {d : Completed T}
    (hd : ∀ before results, BoundedList.serve (⟨capacity, c.items⟩, results) (d.call before) =
      (⟨capacity, c'.items⟩, results ++ [d.result before])) : c'.Explains capacity (calls ++ [d]) := by
  intro before
  have hcalls := h before
  rw [BoundedList.serveAll] at hcalls ⊢
  rw [List.map_append, List.foldl_append, hcalls, List.map_append]
  exact hd before _

/-- Calls that are served go on the list, and with fresh loads all calls do. -/
theorem Effect.explains {fresh : Prop} {ended calls : List (Completed T)} (he : Effect capacity fresh c c' ended)
    (h : c.Explains capacity calls) (hok : fresh ∨ ended.all Completed.succeeded) :
    c'.Explains capacity (calls ++ ended) := by
  cases he with
  | inside hitems =>
    rw [List.append_nil]
    intro before
    rw [h before, hitems]
  | pushed item hroom hitems =>
    refine h.snoc fun before results => ?_
    simp only [Completed.call, BoundedList.serve, BoundedList.push, if_pos hroom, hitems]
    rfl
  | refused item hfull hitems =>
    refine h.snoc fun before results => ?_
    have hfresh : fresh := hok.resolve_right (by simp [Completed.succeeded])
    have hnot : ¬ c.items.length < capacity := Nat.not_lt.mpr (hfull hfresh).ge
    simp only [Completed.call, BoundedList.serve, BoundedList.push, if_neg hnot, hitems]
    rfl
  | popped item hitems =>
    refine h.snoc fun before results => ?_
    simp only [Completed.call, BoundedList.serve, BoundedList.pop, hitems]
    rfl
  | failed hempty hitems =>
    refine h.snoc fun before results => ?_
    have hfresh : fresh := hok.resolve_right (by simp [Completed.succeeded])
    simp only [Completed.call, BoundedList.serve, BoundedList.pop, hempty hfresh, hitems]
    rfl

/-- Without the calls that failed. -/
theorem Effect.succeeded {fresh : Prop} {ended : List (Completed T)} (he : Effect capacity fresh c c' ended) :
    Effect capacity fresh c c' (ended.filter Completed.succeeded) := by
  cases he with
  | inside hitems => exact .inside hitems
  | pushed item hroom hitems => exact .pushed item hroom hitems
  | refused item hfull hitems => exact .inside hitems
  | popped item hitems => exact .popped item hitems
  | failed hempty hitems => exact .inside hitems

/-- What is known of a recording. -/
structure Recorded (capacity : ℕ) (s : Recording T) : Prop where
  channel : InvFor capacity s.channel
  succeeded : s.channel.Explains capacity (s.calls.filter Completed.succeeded)
  all : s.stale = false → s.channel.Explains capacity s.calls

theorem recorded_make [Inhabited T] (hcap : capacity + 1 < sizeMod) :
    Recorded capacity (Recording.make capacity : Recording T) where
  channel := invFor_make hcap
  succeeded _ := rfl
  all _ _ := rfl

theorem Recorded.step {s s' : Recording T} (h : Recorded capacity s) {e : ChannelEvent T}
    (hs : s.step e = some s') : Recorded capacity s' := by
  obtain ⟨c, hc, rfl⟩ := Option.map_eq_some_iff.mp hs
  have heffect := effect_of_step h.channel hc
  refine ⟨h.channel.step hc, ?_, fun hstale => ?_⟩
  · rw [List.filter_append]
    exact heffect.succeeded.explains h.succeeded (.inr (by simp))
  · obtain ⟨hpast, hfresh⟩ := Bool.or_eq_false_iff.mp hstale
    exact heffect.explains (h.all hpast) (.inl hfresh)

/-! ### Runs -/

section Runs

variable [Inhabited T]

/-- **The ring is linearizable**: in every interleaving in which no load is stale, the calls
are calls of the bounded list, each at its last step; where loads may be stale, the calls
that succeed are. -/
theorem linearizable_of_run (hcap : capacity + 1 < sizeMod) {events : List (ChannelEvent T)}
    (hrun : exec Channel.step (make capacity) events = some c) :
    ∃ s, exec Recording.step (Recording.make capacity) events = some s ∧ s.channel = c ∧
      c.Explains capacity (s.calls.filter Completed.succeeded) ∧
      (s.stale = false → c.Explains capacity s.calls) := by
  have hrecords : ∀ (s : Recording T) e c', s.channel.step e = some c' →
      ∃ s', s.step e = some s' ∧ s'.channel = c' := by
    intro s e c' hc
    exact ⟨_, by rw [Recording.step, hc, Option.map_some], rfl⟩
  obtain ⟨s, hs, rfl⟩ := exec_lift (a := Recording.make capacity) hrecords hrun
  have h : Recorded capacity s := exec_invariant (fun _ _ _ h hs => h.step hs) (recorded_make hcap) hs
  exact ⟨s, hs, rfl, h.succeeded, h.all⟩

/-- Calls that overlap: the second `push` finds the ring full while a `pop` is under way. -/
def overlappingRun : List (ChannelEvent ℕ) :=
  [.pushCall 7, .pushLoadHead, .popCall, .pushLoadTail 0, .pushWrite, .popLoadTail, .pushStoreHead, .popLoadHead 1,
    .popRead, .pushCall 8, .pushLoadHead, .pushLoadTail 0, .popStoreTail, .popCall, .popLoadTail, .popLoadHead 1]

theorem linearizable_overlappingRun :
    ∃ s c, exec Recording.step (Recording.make 1) overlappingRun = some s ∧ s.channel = c ∧
      c.Explains 1 (s.calls.filter Completed.succeeded) ∧ (s.stale = false → c.Explains 1 s.calls) := by
  obtain ⟨c, hc⟩ : ∃ c, exec Channel.step (make 1) overlappingRun = some c :=
    Option.isSome_iff_exists.mp (by decide)
  obtain ⟨s, hs⟩ := linearizable_of_run (by decide) hc
  exact ⟨s, c, hs⟩

/-- Its calls in the order in which they end. -/
example : (exec Recording.step (Recording.make 1) overlappingRun).map (fun s => (s.calls, s.stale)) =
    some ([.push 7 true, .push 8 false, .pop (some 7), .pop none], false) := by decide

/-- A `push` that still sees the tail from before a `pop` is turned away by a ring with room. -/
example : (exec Recording.step (Recording.make 1)
    [.pushCall 7, .pushLoadHead, .pushLoadTail 0, .pushWrite, .pushStoreHead, .popCall, .popLoadTail, .popLoadHead 1,
      .popRead, .popStoreTail, .pushCall 8, .pushLoadHead, .pushLoadTail 0]).map (fun s => (s.calls, s.stale)) =
    some ([.push 7 true, .pop (some 7), .push 8 false], true) := by decide

end Runs

end Channel

end LatencyLab
