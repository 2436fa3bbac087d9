import LatencyLab.Spsc.Channel

/-! `SpscRingBuffer<T>` with one call after another. A load then reads the last
value stored, and each call is a whole run of the atomic steps of its thread, so
the channel's invariant carries over to the ring between calls. Against it stands
a list that takes items while it is shorter than a bound. -/

namespace LatencyLab

open Cyclic Transition

/-- A call; `pop` with the value its output argument has before. -/
inductive RingCall (T : Type*)
  | push (item : T)
  | pop (item : T)
  | empty
  deriving DecidableEq

/-- What a call returns; `pop` with the value its output argument has after. -/
inductive RingResult (T : Type*)
  | pushed (result : Bool)
  | popped (result : Bool) (item : T)
  | empty (result : Bool)
  deriving DecidableEq

namespace SpscRingBuffer

variable {T : Type*}

/-- A load with no store behind it in flight. -/
def load (index : PaddedIndex) : ℕ := index.getLastD 0

/-- `none` where the write is outside `buffer_`. -/
def push (r : SpscRingBuffer T) (item : T) : Option (Bool × SpscRingBuffer T) :=
  let head := load r.head_
  let nextHead := r.increment head
  if nextHead = load r.tail_ then some (false, r)
  else if head < r.buffer_.length then
    some (true, { r with buffer_ := r.buffer_.set head item, head_ := r.head_ ++ [nextHead] })
  else none

/-- `none` where the read is outside `buffer_`. -/
def pop (r : SpscRingBuffer T) (item : T) : Option (Bool × T × SpscRingBuffer T) :=
  let tail := load r.tail_
  if tail = load r.head_ then some (false, item, r)
  else r.buffer_[tail]?.map fun item => (true, item, { r with tail_ := r.tail_ ++ [r.increment tail] })

def empty (r : SpscRingBuffer T) : Bool := load r.head_ = load r.tail_

section Calls

variable {r : SpscRingBuffer T}

theorem push_full (hfull : r.increment (load r.head_) = load r.tail_) (item : T) :
    r.push item = some (false, r) := if_pos hfull

theorem push_room (hroom : r.increment (load r.head_) ≠ load r.tail_)
    (hslot : load r.head_ < r.buffer_.length) (item : T) :
    r.push item = some (true, { r with
      buffer_ := r.buffer_.set (load r.head_) item
      head_ := r.head_ ++ [r.increment (load r.head_)] }) := by
  simp only [push, if_neg hroom, if_pos hslot]

theorem pop_drained (hdrained : load r.tail_ = load r.head_) (item : T) : r.pop item = some (false, item, r) :=
  if_pos hdrained

theorem pop_stored (hstored : load r.tail_ ≠ load r.head_) {oldest : T}
    (hslot : r.buffer_[load r.tail_]? = some oldest) (item : T) :
    r.pop item = some (true, oldest, { r with tail_ := r.tail_ ++ [r.increment (load r.tail_)] }) := by
  simp only [pop, if_neg hstored, hslot, Option.map_some]

/-- A refused push leaves the ring as it was. -/
theorem eq_of_push_false {item : T} {r' : SpscRingBuffer T} (h : r.push item = some (false, r')) : r' = r := by
  simp only [push] at h
  split_ifs at h
  · cases h
    rfl
  · simp at h

/-- A pop that finds nothing leaves the ring and its argument as they were. -/
theorem eq_of_pop_false {item item' : T} {r' : SpscRingBuffer T} (h : r.pop item = some (false, item', r')) :
    item' = item ∧ r' = r := by
  simp only [pop] at h
  split_ifs at h
  · cases h
    exact ⟨rfl, rfl⟩
  · simp at h

end Calls

/-- A call on a ring, its result put after those so far. -/
def serve (s : SpscRingBuffer T × List (RingResult T)) :
    RingCall T → Option (SpscRingBuffer T × List (RingResult T))
  | .push item => (s.1.push item).map fun (result, r) => (r, s.2 ++ [.pushed result])
  | .pop item => (s.1.pop item).map fun (result, item, r) => (r, s.2 ++ [.popped result item])
  | .empty => some (s.1, s.2 ++ [.empty s.1.empty])

end SpscRingBuffer

/-! ### The bounded list -/

/-- What the ring is for: a list of at most `bound` items. -/
structure BoundedList (T : Type*) where
  bound : ℕ
  items : List T
  deriving DecidableEq

namespace BoundedList

variable {T : Type*}

def push (q : BoundedList T) (item : T) : Bool × BoundedList T :=
  if q.items.length < q.bound then (true, { q with items := q.items ++ [item] }) else (false, q)

def pop (q : BoundedList T) (item : T) : Bool × T × BoundedList T :=
  match q.items with
  | [] => (false, item, q)
  | oldest :: rest => (true, oldest, { q with items := rest })

def serve (s : BoundedList T × List (RingResult T)) : RingCall T → BoundedList T × List (RingResult T)
  | .push item =>
    let (result, q) := s.1.push item
    (q, s.2 ++ [.pushed result])
  | .pop item =>
    let (result, item, q) := s.1.pop item
    (q, s.2 ++ [.popped result item])
  | .empty => (s.1, s.2 ++ [.empty s.1.items.isEmpty])

end BoundedList

/-! ### A call is a run of its thread -/

namespace Channel

variable {T : Type*} {c : Channel T}

/-- Both threads are between calls. -/
structure AtRest (c : Channel T) : Prop where
  push : ∃ result, c.push = .idle result
  pop : ∃ result, c.pop = .idle result

theorem Inv.load_head (h : c.Inv) : SpscRingBuffer.load c.ring.head_ = c.published.length % c.ring.capacity_ := by
  rw [SpscRingBuffer.load, List.getLastD_eq_getLast?, h.head, getLast?_laps]
  rfl

theorem Inv.load_tail (h : c.Inv) : SpscRingBuffer.load c.ring.tail_ = c.returned.length % c.ring.capacity_ := by
  rw [SpscRingBuffer.load, List.getLastD_eq_getLast?, h.tail, getLast?_laps]
  rfl

/-- The steps of a call to `push` that sees the last tail stored. -/
def pushEvents (c : Channel T) (item : T) : List (ChannelEvent T) :=
  [.pushCall item, .pushLoadHead, .pushLoadTail c.returned.length] ++
    if c.ring.increment (SpscRingBuffer.load c.ring.head_) = SpscRingBuffer.load c.ring.tail_ then []
    else [.pushWrite, .pushStoreHead]

/-- The steps of a call to `pop` that sees the last head stored. -/
def popEvents (c : Channel T) : List (ChannelEvent T) :=
  [.popCall, .popLoadTail, .popLoadHead c.published.length] ++
    if SpscRingBuffer.load c.ring.tail_ = SpscRingBuffer.load c.ring.head_ then []
    else [.popRead, .popStoreTail]

/-- The slot of the next head is the slot of the tail when `capacity_ - 1` items are inside. -/
theorem Inv.full_iff (h : c.Inv) :
    c.ring.increment (SpscRingBuffer.load c.ring.head_) = SpscRingBuffer.load c.ring.tail_ ↔
      c.published.length + 1 = c.returned.length + c.ring.capacity_ := by
  rw [h.load_head, h.load_tail, increment_mod h.capacity_pos h.capacity_lt]
  constructor
  · intro heq
    have hwindow := h.window
    have hle := h.returned_le_published
    by_contra hne
    have hsame := eq_of_mod_eq (show c.returned.length ≤ c.published.length + 1 by omega) (by omega) heq.symm
    omega
  · intro heq
    rw [heq, Nat.add_mod_right]

theorem Inv.drained_iff (h : c.Inv) :
    SpscRingBuffer.load c.ring.tail_ = SpscRingBuffer.load c.ring.head_ ↔
      c.returned.length = c.published.length := by
  rw [h.load_head, h.load_tail]
  exact ⟨eq_of_mod_eq h.returned_le_published h.window, fun heq => by rw [heq]⟩

/-- The view of the other index that the last value stored gives is never behind. -/
theorem Inv.tail_now (h : c.Inv) :
    c.ring.tail_[c.returned.length]? = some (SpscRingBuffer.load c.ring.tail_) := by
  rw [h.load_tail, h.tail]
  simp [laps]

theorem Inv.head_now (h : c.Inv) :
    c.ring.head_[c.published.length]? = some (SpscRingBuffer.load c.ring.head_) := by
  rw [h.load_head, h.head]
  simp [laps]

theorem Inv.own_head (h : c.Inv) : c.ring.head_.getLast? = some (SpscRingBuffer.load c.ring.head_) := by
  rw [h.load_head, h.head, getLast?_laps]

theorem Inv.own_tail (h : c.Inv) : c.ring.tail_.getLast? = some (SpscRingBuffer.load c.ring.tail_) := by
  rw [h.load_tail, h.tail, getLast?_laps]

/-- A call to `push` between calls is the run of the producer's steps. -/
theorem exec_pushEvents (h : c.Inv) (hrest : c.AtRest) (item : T) :
    ∃ result r c', c.ring.push item = some (result, r) ∧ exec step c (c.pushEvents item) = some c' ∧
      c'.AtRest ∧ c'.ring = r ∧ c'.returned = c.returned ∧
      c'.published = (if result then c.published ++ [item] else c.published) ∧
      (result = true ↔ c.published.length + 1 < c.returned.length + c.ring.capacity_) := by
  obtain ⟨⟨last, hpush⟩, hpop⟩ := hrest
  have hseen : ¬ c.returned.length < c.tailSeen := Nat.not_lt_of_le h.tailSeen_le
  have hslot : SpscRingBuffer.load c.ring.head_ < c.ring.buffer_.length := by
    rw [h.load_head]
    exact h.slot_lt _
  by_cases hfull : c.ring.increment (SpscRingBuffer.load c.ring.head_) = SpscRingBuffer.load c.ring.tail_
  · have hrun : exec step c (c.pushEvents item) =
        some { c with tailSeen := c.returned.length, push := .idle false } := by
      simp only [pushEvents, if_pos hfull, List.append_nil, exec_cons, exec_nil, step, hpush, h.own_head,
        h.tail_now, if_neg hseen, Option.bind_some]
    have hcount := h.full_iff.mp hfull
    exact ⟨false, c.ring, _, SpscRingBuffer.push_full hfull item, hrun, ⟨⟨false, rfl⟩, hpop⟩, rfl, rfl, rfl,
      by simp [hcount]⟩
  · have hrun : exec step c (c.pushEvents item) = some { c with
        tailSeen := c.returned.length
        ring := { c.ring with
          buffer_ := c.ring.buffer_.set (SpscRingBuffer.load c.ring.head_) item
          head_ := c.ring.head_ ++ [c.ring.increment (SpscRingBuffer.load c.ring.head_)] }
        push := .idle true
        published := c.published ++ [item] } := by
      simp only [pushEvents, if_neg hfull, List.cons_append, List.nil_append, exec_cons, exec_nil, step, hpush,
        h.own_head, h.tail_now, if_neg hseen, Option.bind_some]
    have hcount := mt h.full_iff.mpr hfull
    have hwindow := h.window
    exact ⟨true, _, _, SpscRingBuffer.push_room hfull hslot item, hrun, ⟨⟨true, rfl⟩, hpop⟩, rfl, rfl, rfl,
      iff_of_true rfl (by omega)⟩

/-- A call to `pop` between calls is the run of the consumer's steps. -/
theorem exec_popEvents (h : c.Inv) (hrest : c.AtRest) (item : T) :
    ∃ result item' r c', c.ring.pop item = some (result, item', r) ∧ exec step c c.popEvents = some c' ∧
      c'.AtRest ∧ c'.ring = r ∧ c'.published = c.published ∧
      (if result then c.published[c.returned.length]? = some item' ∧ c'.returned = c.returned ++ [item']
        else c.returned.length = c.published.length ∧ item' = item ∧ c'.returned = c.returned) := by
  obtain ⟨hpush, ⟨last, hpop⟩⟩ := hrest
  have hseen : ¬ c.published.length < c.headSeen := Nat.not_lt_of_le h.headSeen_le
  by_cases hdrained : SpscRingBuffer.load c.ring.tail_ = SpscRingBuffer.load c.ring.head_
  · have hrun : exec step c c.popEvents =
        some { c with headSeen := c.published.length, pop := .idle none } := by
      simp only [popEvents, if_pos hdrained, List.append_nil, exec_cons, exec_nil, step, hpop, h.own_tail,
        h.head_now, if_neg hseen, Option.bind_some]
    exact ⟨false, item, c.ring, _, SpscRingBuffer.pop_drained hdrained item, hrun, ⟨hpush, ⟨none, rfl⟩⟩,
      rfl, rfl, h.drained_iff.mp hdrained, rfl, rfl⟩
  · have hlt : c.returned.length < c.published.length :=
      Nat.lt_of_le_of_ne h.returned_le_published (mt h.drained_iff.mpr hdrained)
    obtain ⟨oldest, holdest⟩ : ∃ oldest, c.published[c.returned.length]? = some oldest :=
      ⟨_, List.getElem?_eq_getElem hlt⟩
    have hslot : c.ring.buffer_[SpscRingBuffer.load c.ring.tail_]? = some oldest := by
      rw [h.load_tail, h.stored _ le_rfl hlt, holdest]
    have hrun : exec step c c.popEvents = some { c with
        headSeen := c.published.length
        ring := { c.ring with
          tail_ := c.ring.tail_ ++ [c.ring.increment (SpscRingBuffer.load c.ring.tail_)] }
        pop := .idle (some oldest)
        returned := c.returned ++ [oldest] } := by
      simp only [popEvents, if_neg hdrained, List.cons_append, List.nil_append, exec_cons, exec_nil, step, hpop,
        h.own_tail, h.head_now, if_neg hseen, hslot, Option.bind_some, Option.map_some]
    exact ⟨true, oldest, _, _, SpscRingBuffer.pop_stored hdrained hslot item, hrun,
      ⟨hpush, ⟨some oldest, rfl⟩⟩, rfl, rfl, holdest, rfl⟩

theorem InvFor.exec {capacity : ℕ} {c' : Channel T} (h : InvFor capacity c) {events : List (ChannelEvent T)}
    (hrun : exec Channel.step c events = some c') : InvFor capacity c' :=
  exec_invariant (fun _ _ _ h => h.step) h hrun

end Channel

/-! ### Refinement -/

namespace SpscRingBuffer

variable {T : Type*} {r : SpscRingBuffer T} {q : BoundedList T}

/-- Between calls the ring stores the items of the list, oldest first. -/
def Represents (r : SpscRingBuffer T) (q : BoundedList T) : Prop :=
  ∃ c : Channel T, c.InvFor q.bound ∧ c.AtRest ∧ c.ring = r ∧ c.published = c.returned ++ q.items

theorem represents_make [Inhabited T] {capacity : ℕ} (hcap : capacity + 1 < sizeMod) :
    Represents (make capacity : SpscRingBuffer T) ⟨capacity, []⟩ :=
  ⟨Channel.make capacity, Channel.invFor_make hcap, ⟨⟨false, rfl⟩, ⟨none, rfl⟩⟩, rfl, rfl⟩

/-- The items inside, as the channel's invariant counts them. -/
theorem length_items {c : Channel T} (hitems : c.published = c.returned ++ q.items) :
    c.published.length = c.returned.length + q.items.length := by
  rw [hitems, List.length_append]

theorem Represents.capacity (h : r.Represents q) : r.capacity = q.bound := by
  obtain ⟨c, hinv, -, rfl, -⟩ := h
  have hlt := hinv.inv.capacity_lt
  rw [SpscRingBuffer.capacity, hinv.capacity_eq]
  rw [hinv.capacity_eq] at hlt
  rw [show q.bound + 1 + sizeMod - 1 = q.bound + sizeMod by omega, Nat.add_mod_right]
  exact Nat.mod_eq_of_lt (by omega)

theorem Represents.push (h : r.Represents q) (item : T) :
    ∃ r', r.push item = some ((q.push item).1, r') ∧ r'.Represents (q.push item).2 := by
  obtain ⟨c, hinv, hrest, rfl, hitems⟩ := h
  obtain ⟨result, r', c', hcall, hrun, hrest', hring, hret, hpub, hresult⟩ :=
    Channel.exec_pushEvents hinv.inv hrest item
  have hlen := length_items hitems
  rw [hinv.capacity_eq, hlen] at hresult
  refine ⟨r', ?_⟩
  rw [BoundedList.push]
  split_ifs with hroom
  · have htrue : result = true := hresult.mpr (by omega)
    rw [htrue, if_pos rfl, hitems, List.append_assoc, ← hret] at hpub
    rw [htrue] at hcall
    exact ⟨hcall, c', hinv.exec hrun, hrest', hring, hpub⟩
  · have hfalse : result = false := Bool.eq_false_iff.mpr (mt hresult.mp (by omega))
    rw [hfalse, if_neg Bool.false_ne_true, hitems, ← hret] at hpub
    rw [hfalse] at hcall
    exact ⟨hcall, c', hinv.exec hrun, hrest', hring, hpub⟩

theorem Represents.pop (h : r.Represents q) (item : T) :
    ∃ r', r.pop item = some ((q.pop item).1, (q.pop item).2.1, r') ∧ r'.Represents (q.pop item).2.2 := by
  obtain ⟨c, hinv, hrest, rfl, hitems⟩ := h
  obtain ⟨result, item', r', c', hcall, hrun, hrest', hring, hpub, hresult⟩ :=
    Channel.exec_popEvents hinv.inv hrest item
  have hlen := length_items hitems
  refine ⟨r', ?_⟩
  rw [BoundedList.pop]
  cases hq : q.items with
  | nil =>
    rw [hq, List.length_nil] at hlen
    cases result with
    | true =>
      obtain ⟨holdest, -⟩ := hresult
      rw [List.getElem?_eq_none (by omega)] at holdest
      cases holdest
    | false =>
      obtain ⟨-, rfl, hret⟩ := hresult
      rw [hitems, ← hret] at hpub
      exact ⟨hcall, c', hinv.exec hrun, hrest', hring, hpub⟩
  | cons oldest rest =>
    rw [hq, List.length_cons] at hlen
    cases result with
    | true =>
      obtain ⟨holdest, hret⟩ := hresult
      rw [hitems, hq, List.getElem?_append_right le_rfl, Nat.sub_self, List.getElem?_cons_zero,
        Option.some.injEq] at holdest
      subst holdest
      refine ⟨hcall, c', hinv.exec hrun, hrest', hring, ?_⟩
      rw [hpub, hret, hitems, hq, List.append_assoc]
      rfl
    | false =>
      obtain ⟨hsame, -⟩ := hresult
      omega

theorem Represents.empty (h : r.Represents q) : r.empty = q.items.isEmpty := by
  obtain ⟨c, hinv, -, rfl, hitems⟩ := h
  have hdrained := hinv.inv.drained_iff
  have hlen := length_items hitems
  rw [SpscRingBuffer.empty, Bool.eq_iff_iff, decide_eq_true_iff, List.isEmpty_iff, ← List.length_eq_zero_iff,
    eq_comm, hdrained]
  omega

/-- The ring represents the list, and the calls so far returned the same. -/
def Agrees (s : SpscRingBuffer T × List (RingResult T)) (a : BoundedList T × List (RingResult T)) : Prop :=
  s.1.Represents a.1 ∧ s.2 = a.2

theorem Agrees.serve {s : SpscRingBuffer T × List (RingResult T)} {a : BoundedList T × List (RingResult T)}
    (h : Agrees s a) (call : RingCall T) :
    ∃ s', SpscRingBuffer.serve s call = some s' ∧ Agrees s' (BoundedList.serve a call) := by
  obtain ⟨hrep, hresults⟩ := h
  cases call with
  | push item =>
    obtain ⟨r', hcall, hrep'⟩ := hrep.push item
    refine ⟨_, by rw [SpscRingBuffer.serve, hcall, Option.map_some], hrep', ?_⟩
    rw [hresults]
    rfl
  | pop item =>
    obtain ⟨r', hcall, hrep'⟩ := hrep.pop item
    refine ⟨_, by rw [SpscRingBuffer.serve, hcall, Option.map_some], hrep', ?_⟩
    rw [hresults]
    rfl
  | empty =>
    refine ⟨_, rfl, hrep, ?_⟩
    rw [hresults, hrep.empty]
    rfl

/-- What each call does next on a ring that represents `q`. -/
structure BehavesAs (r : SpscRingBuffer T) (q : BoundedList T) : Prop where
  capacity : r.capacity = q.bound
  within : q.items.length ≤ r.capacity
  push_room : ∀ item, q.items.length < r.capacity → ∃ r', r.push item = some (true, r')
  push_full : ∀ item, ¬ q.items.length < r.capacity → r.push item = some (false, r)
  pop_oldest : ∀ item oldest rest, q.items = oldest :: rest → ∃ r', r.pop item = some (true, oldest, r')
  pop_drained : ∀ item, q.items = [] → r.pop item = some (false, item, r)
  empty : r.empty = true ↔ q.items = []

theorem Represents.behavesAs (h : r.Represents q) : r.BehavesAs q where
  capacity := h.capacity
  within := by
    obtain ⟨c, hinv, -, rfl, hitems⟩ := id h
    have hlen := length_items hitems
    have hbound := hinv.fifo.bounded
    rw [h.capacity]
    omega
  push_room item hroom := by
    obtain ⟨r', hcall, -⟩ := h.push item
    rw [h.capacity] at hroom
    rw [BoundedList.push, if_pos hroom] at hcall
    exact ⟨r', hcall⟩
  push_full item hfull := by
    obtain ⟨r', hcall, -⟩ := h.push item
    rw [h.capacity] at hfull
    rw [BoundedList.push, if_neg hfull] at hcall
    rw [hcall, eq_of_push_false hcall]
  pop_oldest item oldest rest hitems := by
    obtain ⟨r', hcall, -⟩ := h.pop item
    simp only [BoundedList.pop, hitems] at hcall
    exact ⟨r', hcall⟩
  pop_drained item hitems := by
    obtain ⟨r', hcall, -⟩ := h.pop item
    simp only [BoundedList.pop, hitems] at hcall
    rw [hcall, (eq_of_pop_false hcall).2]
  empty := by rw [h.empty, List.isEmpty_iff]

/-- Calls one after another. -/
theorem agrees_of_calls [Inhabited T] {capacity : ℕ} (hcap : capacity + 1 < sizeMod)
    (calls : List (RingCall T)) :
    ∃ s, exec serve (make capacity, []) calls = some s ∧
      Agrees s (calls.foldl BoundedList.serve (⟨capacity, []⟩, [])) :=
  exec_refines (fun _ _ call h => h.serve call) ⟨represents_make hcap, rfl⟩ calls

/-- Any calls one after another, on a ring of any capacity that `capacity_` can hold,
return what they return on the bounded list. -/
theorem boundedList_of_calls [Inhabited T] {capacity : ℕ} (hcap : capacity + 1 < sizeMod)
    (calls : List (RingCall T)) :
    ∃ r, exec serve (make capacity, []) calls =
        some (r, (calls.foldl BoundedList.serve (⟨capacity, []⟩, [])).2) ∧
      r.BehavesAs (calls.foldl BoundedList.serve (⟨capacity, []⟩, [])).1 := by
  obtain ⟨⟨r, results⟩, hrun, hrep, hresults⟩ := agrees_of_calls hcap calls
  rw [← show results = _ from hresults]
  exact ⟨r, hrun, hrep.behavesAs⟩

/-- Two items through a ring of one, around the end of its buffer. -/
def aroundCalls : List (RingCall UInt64) :=
  [.push 5, .push 6, .pop 0, .pop 1, .push 7, .empty, .pop 0]

theorem boundedList_aroundCalls :
    ∃ r : SpscRingBuffer UInt64, exec serve (make 1, []) aroundCalls =
        some (r, [.pushed true, .pushed false, .popped true 5, .popped false 1, .pushed true, .empty false,
          .popped true 7]) ∧
      r.BehavesAs ⟨1, []⟩ := boundedList_of_calls (by decide) aroundCalls

end SpscRingBuffer

end LatencyLab
