import LatencyLab.Cyclic.Window

/-! `SpscRingBuffer<T>`, one atomic access at a time. `push` and `pop` run on two
threads, so each is a sequence of steps between which the other thread may move.
An index is its modification order: all values ever stored, oldest first. A load
of the own index reads its last value; a load of the other thread's index may be
stale and reads some value from the last one seen on. A slot is written in any
number of partial writes before the whole item is there. -/

namespace LatencyLab

/-- `std::size_t` has 64 bits. -/
def sizeMod : ℕ := 2 ^ 64

/-- The modification order of `PaddedIndex::value`. -/
abbrev PaddedIndex := List ℕ

structure SpscRingBuffer (T : Type*) where
  capacity_ : ℕ
  buffer_ : List T
  head_ : PaddedIndex
  tail_ : PaddedIndex
  deriving DecidableEq

namespace SpscRingBuffer

variable {T : Type*}

def make [Inhabited T] (capacity : ℕ) : SpscRingBuffer T where
  capacity_ := (capacity + 1) % sizeMod
  buffer_ := List.replicate ((capacity + 1) % sizeMod) default
  head_ := [0]
  tail_ := [0]

def capacity (r : SpscRingBuffer T) : ℕ := (r.capacity_ + sizeMod - 1) % sizeMod

def increment (r : SpscRingBuffer T) (value : ℕ) : ℕ :=
  let value := (value + 1) % sizeMod
  if value = r.capacity_ then 0 else value

end SpscRingBuffer

/-! ### The two threads -/

/-- Where the producer stands in `push`; outside a call, what the last call returned. -/
inductive PushPc (T : Type*)
  | idle (result : Bool)
  | entered (item : T)
  | loaded (item : T) (head nextHead : ℕ)
  | admitted (item : T) (head nextHead : ℕ)
  | written (item : T) (nextHead : ℕ)
  deriving DecidableEq

/-- Where the consumer stands in `pop`; outside a call, the item the last call
handed out, if it did. -/
inductive PopPc (T : Type*)
  | idle (result : Option T)
  | entered
  | loaded (tail : ℕ)
  | admitted (tail : ℕ)
  | read (item : T) (tail : ℕ)
  deriving DecidableEq

/-- A ring with its two threads. `tailSeen` and `headSeen` are the positions in
the modification orders that the threads' views of the other index have reached.
`published` and `returned` record the items of successful calls. -/
structure Channel (T : Type*) where
  ring : SpscRingBuffer T
  push : PushPc T
  pop : PopPc T
  tailSeen : ℕ
  headSeen : ℕ
  published : List T
  returned : List T
  deriving DecidableEq

inductive ChannelEvent (T : Type*)
  | pushCall (item : T)
  | pushLoadHead
  | pushLoadTail (position : ℕ)
  | pushPartialWrite (junk : T)
  | pushWrite
  | pushStoreHead
  | popCall
  | popLoadTail
  | popLoadHead (position : ℕ)
  | popRead
  | popStoreTail
  deriving DecidableEq

namespace Channel

variable {T : Type*}

def make [Inhabited T] (capacity : ℕ) : Channel T where
  ring := SpscRingBuffer.make capacity
  push := .idle false
  pop := .idle none
  tailSeen := 0
  headSeen := 0
  published := []
  returned := []

/-- One step of one thread, `none` where that thread is not at that step. -/
def step (c : Channel T) : ChannelEvent T → Option (Channel T)
  | .pushCall item =>
    match c.push with
    | .idle _ => some { c with push := .entered item }
    | _ => none
  | .pushLoadHead =>
    match c.push, c.ring.head_.getLast? with
    | .entered item, some head => some { c with push := .loaded item head (c.ring.increment head) }
    | _, _ => none
  | .pushLoadTail position =>
    match c.push, c.ring.tail_[position]? with
    | .loaded item head nextHead, some tail =>
      if position < c.tailSeen then none
      else if nextHead = tail then some { c with tailSeen := position, push := .idle false }
      else some { c with tailSeen := position, push := .admitted item head nextHead }
    | _, _ => none
  | .pushPartialWrite junk =>
    match c.push with
    | .admitted _ head _ =>
      some { c with ring := { c.ring with buffer_ := c.ring.buffer_.set head junk } }
    | _ => none
  | .pushWrite =>
    match c.push with
    | .admitted item head nextHead =>
      some { c with
        ring := { c.ring with buffer_ := c.ring.buffer_.set head item }
        push := .written item nextHead }
    | _ => none
  | .pushStoreHead =>
    match c.push with
    | .written item nextHead =>
      some { c with
        ring := { c.ring with head_ := c.ring.head_ ++ [nextHead] }
        push := .idle true
        published := c.published ++ [item] }
    | _ => none
  | .popCall =>
    match c.pop with
    | .idle _ => some { c with pop := .entered }
    | _ => none
  | .popLoadTail =>
    match c.pop, c.ring.tail_.getLast? with
    | .entered, some tail => some { c with pop := .loaded tail }
    | _, _ => none
  | .popLoadHead position =>
    match c.pop, c.ring.head_[position]? with
    | .loaded tail, some head =>
      if position < c.headSeen then none
      else if tail = head then some { c with headSeen := position, pop := .idle none }
      else some { c with headSeen := position, pop := .admitted tail }
    | _, _ => none
  | .popRead =>
    match c.pop with
    | .admitted tail => c.ring.buffer_[tail]?.map fun item => { c with pop := .read item tail }
    | _ => none
  | .popStoreTail =>
    match c.pop with
    | .read item tail =>
      some { c with
        ring := { c.ring with tail_ := c.ring.tail_ ++ [c.ring.increment tail] }
        pop := .idle (some item)
        returned := c.returned ++ [item] }
    | _ => none

end Channel

end LatencyLab
