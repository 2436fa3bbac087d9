import LatencyLab.Memory.HappensBefore
import LatencyLab.Spsc.Channel

/-! `SpscRingBuffer` with the memory orders that it asks for: relaxed loads of the own
index, acquiring loads of the other one, releasing stores. A load reads from any store
that coherence lets it read from, and the slots are plain data that must not be
accessed in a race. Beside the ring the threads may synchronise over a flag, and the
consumer may load the indices outside of `pop`, as `empty` does.

The channel keeps the values and the modification orders of the indices, the memory
what the threads know of each other. -/

namespace LatencyLab

open HappensBefore Transition

inductive Role
  | producer
  | consumer
  deriving DecidableEq

/-- The atomic locations: the indices of the ring, and a flag of the program around it. -/
inductive Location
  | head
  | tail
  | flag
  deriving DecidableEq

/-- The memory that the threads share. `written` and `taken` record the accesses to the
slots with the number of the item. -/
structure Sharing where
  memory : Memory Role Location ℕ
  written : List (ℕ × Access Role)
  taken : List (ℕ × Access Role)

namespace Sharing

def initial : Sharing := ⟨.initial, [], []⟩

def load (s : Sharing) (i : Role) (ℓ : Location) (position : ℕ) : Option Sharing :=
  (s.memory.load i ℓ position).map fun memory => { s with memory := memory }

def acquire (s : Sharing) (i : Role) (ℓ : Location) (position : ℕ) : Option Sharing :=
  (s.memory.acquire i ℓ position).map fun memory => { s with memory := memory }

def release (s : Sharing) (i : Role) (ℓ : Location) : Sharing := { s with memory := s.memory.release i ℓ }

/-- The producer writes item `number` to a slot. -/
def write (s : Sharing) (slot number : ℕ) : Sharing :=
  { s with
    memory := s.memory.write .producer slot
    written := s.written ++ [(number, s.memory.nextAccess .producer)] }

/-- The consumer reads item `number` from a slot. -/
def read (s : Sharing) (slot number : ℕ) : Sharing :=
  { s with
    memory := s.memory.read .consumer slot
    taken := s.taken ++ [(number, s.memory.nextAccess .consumer)] }


/-- What the threads know: the producer of its writes and of the reads that freed the
slots up to the last tail it has seen, the consumer of its reads and of the writes of
the items up to the last head it has seen. -/
structure Aware (tailSeen headSeen : ℕ) (s : Sharing) : Prop where
  wellFormed : s.memory.WellFormed
  ownsHead : s.memory.Owns .producer .head
  ownsTail : s.memory.Owns .consumer .tail
  tailSeen : tailSeen ≤ (s.memory.known .producer).seen .tail
  headSeen : headSeen ≤ (s.memory.known .consumer).seen .head
  published : s.memory.Publishes .head s.written
  freed : s.memory.Publishes .tail s.taken
  writtenKnown : ∀ x ∈ s.written, (s.memory.known .producer).Knows x.2
  takenKnown : ∀ x ∈ s.taken, (s.memory.known .consumer).Knows x.2

theorem aware_initial : initial.Aware 0 0 where
  wellFormed := Memory.wellFormed_initial
  ownsHead := rfl
  ownsTail := rfl
  tailSeen := le_rfl
  headSeen := le_rfl
  published := Memory.Publishes.nil _ _
  freed := Memory.Publishes.nil _ _
  writtenKnown _ hx := (List.not_mem_nil hx).elim
  takenKnown _ hx := (List.not_mem_nil hx).elim

variable {s s' : Sharing} {i : Role} {ℓ : Location} {position tailSeen headSeen slot number : ℕ}

/-- A load by the thread that stores to the location. -/
theorem of_load_own (h : s.memory.Owns i ℓ) (hs : s.load i ℓ position = some s') :
    position + 1 = (s.memory.stores ℓ).length ∧ s' = s := by
  obtain ⟨memory, hm, rfl⟩ := Option.map_eq_some_iff.mp hs
  obtain ⟨hlast, rfl⟩ := h.load_eq hm
  exact ⟨hlast, rfl⟩

/-- An acquiring load changes nothing but what a thread knows. -/
theorem of_acquire (hs : s.acquire i ℓ position = some s') :
    s'.memory.stores = s.memory.stores ∧ s'.memory.reads = s.memory.reads ∧ s'.memory.writes = s.memory.writes ∧
      s'.memory.raced = s.memory.raced ∧ s'.written = s.written ∧ s'.taken = s.taken := by
  obtain ⟨memory, hm, rfl⟩ := Option.map_eq_some_iff.mp hs
  obtain ⟨k, -, -, rfl⟩ := Memory.of_acquire hm
  exact ⟨rfl, rfl, rfl, rfl, rfl, rfl⟩

namespace Aware

variable (h : s.Aware tailSeen headSeen)

include h

theorem acquire (hs : s.acquire i ℓ position = some s') : s'.Aware tailSeen headSeen := by
  obtain ⟨memory, hm, rfl⟩ := Option.map_eq_some_iff.mp hs
  exact {
    wellFormed := h.wellFormed.acquire hm
    ownsHead := h.ownsHead.acquire h.wellFormed hm
    ownsTail := h.ownsTail.acquire h.wellFormed hm
    tailSeen := h.tailSeen.trans (Memory.seen_le_acquire hm .producer .tail)
    headSeen := h.headSeen.trans (Memory.seen_le_acquire hm .consumer .head)
    published := h.published.acquire hm
    freed := h.freed.acquire hm
    writtenKnown := fun x hx => Memory.knows_acquire (h.writtenKnown x hx) hm
    takenKnown := fun x hx => Memory.knows_acquire (h.takenKnown x hx) hm }

/-- The producer takes over what the consumer knew when it freed slots. -/
theorem acquireTail (hs : s.acquire .producer .tail position = some s') : s'.Aware position headSeen := by
  have hacquired := h.acquire hs
  obtain ⟨memory, hm, rfl⟩ := Option.map_eq_some_iff.mp hs
  exact { hacquired with tailSeen := h.wellFormed.le_seen_acquire hm }

/-- The consumer takes over what the producer knew when it published items. -/
theorem acquireHead (hs : s.acquire .consumer .head position = some s') : s'.Aware tailSeen position := by
  have hacquired := h.acquire hs
  obtain ⟨memory, hm, rfl⟩ := Option.map_eq_some_iff.mp hs
  exact { hacquired with headSeen := h.wellFormed.le_seen_acquire hm }

/-- The indices are stored to by their owners only. -/
theorem release (i : Role) (ℓ : Location) (hhead : Location.head = ℓ → i = .producer)
    (htail : Location.tail = ℓ → i = .consumer) : (s.release i ℓ).Aware tailSeen headSeen where
  wellFormed := h.wellFormed.release i ℓ
  ownsHead := by
    by_cases hℓ : Location.head = ℓ
    · rw [← hhead hℓ, hℓ]
      exact Memory.Owns.release_self s.memory i ℓ
    · exact h.ownsHead.release_of_ne i hℓ
  ownsTail := by
    by_cases hℓ : Location.tail = ℓ
    · rw [← htail hℓ, hℓ]
      exact Memory.Owns.release_self s.memory i ℓ
    · exact h.ownsTail.release_of_ne i hℓ
  tailSeen := h.tailSeen.trans (h.wellFormed.seen_le_release i .producer ℓ .tail)
  headSeen := h.headSeen.trans (h.wellFormed.seen_le_release i .consumer ℓ .head)
  published := h.published.release fun hℓ => by rw [hhead hℓ]; exact h.writtenKnown
  freed := h.freed.release fun hℓ => by rw [htail hℓ]; exact h.takenKnown
  writtenKnown x hx := Memory.knows_release (h.writtenKnown x hx) i ℓ
  takenKnown x hx := Memory.knows_release (h.takenKnown x hx) i ℓ

/-- A write of an item that no head has published yet. -/
theorem write (hnumber : (s.memory.stores .head).length ≤ number + 1) (slot : ℕ) :
    (s.write slot number).Aware tailSeen headSeen where
  wellFormed := h.wellFormed.write .producer slot
  ownsHead := h.ownsHead.write .producer slot
  ownsTail := h.ownsTail.write .producer slot
  tailSeen := h.tailSeen.trans_eq (congrFun (s.memory.write_seen .producer .producer slot) .tail).symm
  headSeen := h.headSeen.trans_eq (congrFun (s.memory.write_seen .producer .consumer slot) .head).symm
  published := (h.published.tag h.wellFormed hnumber _).write .producer slot
  freed := h.freed.write .producer slot
  writtenKnown x hx := by
    rcases List.mem_append.mp hx with hold | hnew
    · exact Memory.knows_write (h.writtenKnown x hold) .producer slot
    · rw [List.mem_singleton.mp hnew]
      exact s.memory.knows_nextAccess_write .producer slot
  takenKnown x hx := Memory.knows_write (h.takenKnown x hx) .producer slot

/-- A read of an item whose slot no tail has freed yet. -/
theorem read (hnumber : (s.memory.stores .tail).length ≤ number + 1) (slot : ℕ) :
    (s.read slot number).Aware tailSeen headSeen where
  wellFormed := h.wellFormed.read .consumer slot
  ownsHead := h.ownsHead.read .consumer slot
  ownsTail := h.ownsTail.read .consumer slot
  tailSeen := h.tailSeen.trans_eq (congrFun (s.memory.read_seen .consumer .producer slot) .tail).symm
  headSeen := h.headSeen.trans_eq (congrFun (s.memory.read_seen .consumer .consumer slot) .head).symm
  published := h.published.read .consumer slot
  freed := (h.freed.tag h.wellFormed hnumber _).read .consumer slot
  writtenKnown x hx := Memory.knows_read (h.writtenKnown x hx) .consumer slot
  takenKnown x hx := by
    rcases List.mem_append.mp hx with hold | hnew
    · exact Memory.knows_read (h.takenKnown x hold) .consumer slot
    · rw [List.mem_singleton.mp hnew]
      exact s.memory.knows_nextAccess_read .consumer slot

end Aware

end Sharing

structure SharedChannel (T : Type*) where
  channel : Channel T
  sharing : Sharing

/-- The steps of a channel, every load with the position that it reads from; the
producer's store to the flag, and loads of the consumer outside of `pop`. -/
inductive SharedEvent (T : Type*)
  | pushCall (item : T)
  | pushLoadHead (position : ℕ)
  | pushLoadTail (position : ℕ)
  | pushPartialWrite (junk : T)
  | pushWrite
  | pushStoreHead
  | popCall
  | popLoadTail (position : ℕ)
  | popLoadHead (position : ℕ)
  | popRead
  | popStoreTail
  | releaseFlag
  | acquire (location : Location) (position : ℕ)
  deriving DecidableEq

namespace SharedChannel

variable {T : Type*}

def make [Inhabited T] (capacity : ℕ) : SharedChannel T := ⟨Channel.make capacity, .initial⟩

/-- `buffer_[head] = item`, or part of it. -/
def writeSlot (s : SharedChannel T) : Sharing :=
  match s.channel.push with
  | .admitted _ head _ => s.sharing.write head s.channel.published.length
  | _ => s.sharing

/-- `item = buffer_[tail]`. -/
def readSlot (s : SharedChannel T) : Sharing :=
  match s.channel.pop with
  | .admitted tail => s.sharing.read tail s.channel.returned.length
  | _ => s.sharing

/-- One step of one thread. A load of the own index takes whatever value stands at the
position; that it is the last one is a consequence of coherence. -/
def step (s : SharedChannel T) : SharedEvent T → Option (SharedChannel T)
  | .pushCall item => (s.channel.step (.pushCall item)).map fun channel => { s with channel := channel }
  | .pushLoadHead position =>
    match s.channel.push, s.channel.ring.head_[position]? with
    | .entered item, some head =>
      (s.sharing.load .producer .head position).map fun sharing =>
        ⟨{ s.channel with push := .loaded item head (s.channel.ring.increment head) }, sharing⟩
    | _, _ => none
  | .pushLoadTail position =>
    (s.sharing.acquire .producer .tail position).bind fun sharing =>
      (s.channel.step (.pushLoadTail position)).map fun channel => ⟨channel, sharing⟩
  | .pushPartialWrite junk =>
    (s.channel.step (.pushPartialWrite junk)).map fun channel => ⟨channel, s.writeSlot⟩
  | .pushWrite => (s.channel.step .pushWrite).map fun channel => ⟨channel, s.writeSlot⟩
  | .pushStoreHead =>
    (s.channel.step .pushStoreHead).map fun channel => ⟨channel, s.sharing.release .producer .head⟩
  | .popCall => (s.channel.step .popCall).map fun channel => { s with channel := channel }
  | .popLoadTail position =>
    match s.channel.pop, s.channel.ring.tail_[position]? with
    | .entered, some tail =>
      (s.sharing.load .consumer .tail position).map fun sharing =>
        ⟨{ s.channel with pop := .loaded tail }, sharing⟩
    | _, _ => none
  | .popLoadHead position =>
    (s.sharing.acquire .consumer .head position).bind fun sharing =>
      (s.channel.step (.popLoadHead position)).map fun channel => ⟨channel, sharing⟩
  | .popRead => (s.channel.step .popRead).map fun channel => ⟨channel, s.readSlot⟩
  | .popStoreTail =>
    (s.channel.step .popStoreTail).map fun channel => ⟨channel, s.sharing.release .consumer .tail⟩
  | .releaseFlag => some { s with sharing := s.sharing.release .producer .flag }
  | .acquire location position =>
    (s.sharing.acquire .consumer location position).map fun sharing => { s with sharing := sharing }

variable {s s' : SharedChannel T} {capacity : ℕ}

theorem stores_writeSlot (s : SharedChannel T) : s.writeSlot.memory.stores = s.sharing.memory.stores := by
  unfold writeSlot
  split
  · rfl
  · rfl

theorem stores_readSlot (s : SharedChannel T) : s.readSlot.memory.stores = s.sharing.memory.stores := by
  unfold readSlot
  split
  · rfl
  · rfl

/-! ### The invariant -/

/-- The channel's invariant with what the threads know, every access to a slot being
one of an item that belongs there. -/
structure Inv (capacity : ℕ) (s : SharedChannel T) : Prop where
  channel : Channel.InvFor capacity s.channel
  aware : s.sharing.Aware s.channel.tailSeen s.channel.headSeen
  head : (s.sharing.memory.stores .head).length = s.channel.ring.head_.length
  tail : (s.sharing.memory.stores .tail).length = s.channel.ring.tail_.length
  writtenNear : ∀ x ∈ s.sharing.written, x.1 < s.channel.tailSeen + s.channel.ring.capacity_
  takenSeen : ∀ x ∈ s.sharing.taken, x.1 < s.channel.headSeen
  writes : ∀ d, ∀ a ∈ s.sharing.memory.writes d,
    ∃ x ∈ s.sharing.written, x.2 = a ∧ x.1 % s.channel.ring.capacity_ = d
  reads : ∀ d, ∀ a ∈ s.sharing.memory.reads d,
    ∃ x ∈ s.sharing.taken, x.2 = a ∧ x.1 % s.channel.ring.capacity_ = d
  raceFree : s.sharing.memory.raced = false

theorem inv_make [Inhabited T] (hcap : capacity + 1 < sizeMod) : (make capacity : SharedChannel T).Inv capacity where
  channel := Channel.invFor_make hcap
  aware := Sharing.aware_initial
  head := rfl
  tail := rfl
  writtenNear _ hx := (List.not_mem_nil hx).elim
  takenSeen _ hx := (List.not_mem_nil hx).elim
  writes _ _ ha := (List.not_mem_nil ha).elim
  reads _ _ ha := (List.not_mem_nil ha).elim
  raceFree := rfl

namespace Inv

/-! #### Calls and loads -/

/-- A step that touches neither slots nor indices. -/
theorem moves (h : s.Inv capacity) {channel : Channel T} (hc : Channel.InvFor capacity channel)
    (hring : channel.ring = s.channel.ring) (htail : channel.tailSeen = s.channel.tailSeen)
    (hhead : channel.headSeen = s.channel.headSeen) : Inv capacity { s with channel := channel } where
  channel := hc
  aware := by rw [htail, hhead]; exact h.aware
  head := by rw [hring]; exact h.head
  tail := by rw [hring]; exact h.tail
  writtenNear := by rw [hring, htail]; exact h.writtenNear
  takenSeen := by rw [hhead]; exact h.takenSeen
  writes := by rw [hring]; exact h.writes
  reads := by rw [hring]; exact h.reads
  raceFree := h.raceFree

theorem pushCall (h : s.Inv capacity) {item : T} (hs : s.step (.pushCall item) = some s') : s'.Inv capacity := by
  obtain ⟨channel, hc, rfl⟩ := Option.map_eq_some_iff.mp hs
  have hinv := h.channel.step hc
  obtain ⟨-, rfl⟩ := Channel.of_pushCall hc
  exact h.moves hinv rfl rfl rfl

theorem popCall (h : s.Inv capacity) (hs : s.step .popCall = some s') : s'.Inv capacity := by
  obtain ⟨channel, hc, rfl⟩ := Option.map_eq_some_iff.mp hs
  have hinv := h.channel.step hc
  obtain ⟨-, rfl⟩ := Channel.of_popCall hc
  exact h.moves hinv rfl rfl rfl

/-- The last value of a modification order. -/
theorem getLast?_of_last {order : PaddedIndex} {position value : ℕ} (h : order[position]? = some value)
    (hlast : position + 1 = order.length) : order.getLast? = some value := by
  rw [List.getLast?_eq_getElem?, ← hlast, Nat.add_sub_cancel]
  exact h

/-- A load of the own index is the channel's step, with the memory unchanged. -/
theorem pushLoadHead_eq (h : s.Inv capacity) {position : ℕ} (hs : s.step (.pushLoadHead position) = some s') :
    position + 1 = s.channel.ring.head_.length ∧ s.channel.step .pushLoadHead = some s'.channel ∧
      s'.sharing = s.sharing := by
  simp only [step] at hs
  split at hs
  · rename_i item head hpc hhead
    obtain ⟨sharing, hload, rfl⟩ := Option.map_eq_some_iff.mp hs
    obtain ⟨hlast, rfl⟩ := Sharing.of_load_own h.aware.ownsHead hload
    rw [h.head] at hlast
    have hvalue := getLast?_of_last hhead hlast
    exact ⟨hlast, by simp only [Channel.step, hpc, hvalue], rfl⟩
  · cases hs

theorem popLoadTail_eq (h : s.Inv capacity) {position : ℕ} (hs : s.step (.popLoadTail position) = some s') :
    position + 1 = s.channel.ring.tail_.length ∧ s.channel.step .popLoadTail = some s'.channel ∧
      s'.sharing = s.sharing := by
  simp only [step] at hs
  split at hs
  · rename_i tail hpc htail
    obtain ⟨sharing, hload, rfl⟩ := Option.map_eq_some_iff.mp hs
    obtain ⟨hlast, rfl⟩ := Sharing.of_load_own h.aware.ownsTail hload
    rw [h.tail] at hlast
    have hvalue := getLast?_of_last htail hlast
    exact ⟨hlast, by simp only [Channel.step, hpc, hvalue], rfl⟩
  · cases hs

theorem pushLoadHead (h : s.Inv capacity) {position : ℕ} (hs : s.step (.pushLoadHead position) = some s') :
    s'.Inv capacity := by
  obtain ⟨-, hc, hsharing⟩ := h.pushLoadHead_eq hs
  have hinv := h.channel.step hc
  obtain ⟨item, head, -, -, hchannel⟩ := Channel.of_pushLoadHead hc
  have hmoves := h.moves hinv (by rw [hchannel]) (by rw [hchannel]) (by rw [hchannel])
  rwa [← hsharing] at hmoves

theorem popLoadTail (h : s.Inv capacity) {position : ℕ} (hs : s.step (.popLoadTail position) = some s') :
    s'.Inv capacity := by
  obtain ⟨-, hc, hsharing⟩ := h.popLoadTail_eq hs
  have hinv := h.channel.step hc
  obtain ⟨tail, -, -, hchannel⟩ := Channel.of_popLoadTail hc
  have hmoves := h.moves hinv (by rw [hchannel]) (by rw [hchannel]) (by rw [hchannel])
  rwa [← hsharing] at hmoves

/-- What a thread acquires from whatever store. -/
theorem acquired (h : s.Inv capacity) {i : Role} {ℓ : Location} {position : ℕ} {sharing : Sharing}
    (hs : s.sharing.acquire i ℓ position = some sharing) {channel : Channel T}
    (hc : Channel.InvFor capacity channel) (hring : channel.ring = s.channel.ring)
    (hle : s.channel.tailSeen ≤ channel.tailSeen) (hle' : s.channel.headSeen ≤ channel.headSeen)
    (haware : sharing.Aware channel.tailSeen channel.headSeen) : Inv capacity ⟨channel, sharing⟩ := by
  obtain ⟨hstores, hreads, hwrites, hraced, hwritten, htaken⟩ := Sharing.of_acquire hs
  exact {
    channel := hc
    aware := haware
    head := by rw [hstores, hring]; exact h.head
    tail := by rw [hstores, hring]; exact h.tail
    writtenNear := by
      rw [hwritten, hring]
      exact fun x hx => (h.writtenNear x hx).trans_le (Nat.add_le_add_right hle _)
    takenSeen := by
      rw [htaken]
      exact fun x hx => (h.takenSeen x hx).trans_le hle'
    writes := by rw [hwrites, hwritten, hring]; exact h.writes
    reads := by rw [hreads, htaken, hring]; exact h.reads
    raceFree := hraced.trans h.raceFree }

theorem pushLoadTail (h : s.Inv capacity) {position : ℕ} (hs : s.step (.pushLoadTail position) = some s') :
    s'.Inv capacity := by
  obtain ⟨sharing, hload, hs⟩ := Option.bind_eq_some_iff.mp hs
  obtain ⟨channel, hc, rfl⟩ := Option.map_eq_some_iff.mp hs
  have hinv := h.channel.step hc
  obtain ⟨item, head, nextHead, tail, -, -, hle, rfl⟩ := Channel.of_pushLoadTail hc
  exact h.acquired hload hinv rfl hle le_rfl (h.aware.acquireTail hload)

theorem popLoadHead (h : s.Inv capacity) {position : ℕ} (hs : s.step (.popLoadHead position) = some s') :
    s'.Inv capacity := by
  obtain ⟨sharing, hload, hs⟩ := Option.bind_eq_some_iff.mp hs
  obtain ⟨channel, hc, rfl⟩ := Option.map_eq_some_iff.mp hs
  have hinv := h.channel.step hc
  obtain ⟨tail, head, -, -, hle, rfl⟩ := Channel.of_popLoadHead hc
  exact h.acquired hload hinv rfl le_rfl hle (h.aware.acquireHead hload)

theorem acquire (h : s.Inv capacity) {ℓ : Location} {position : ℕ}
    (hs : s.step (.acquire ℓ position) = some s') : s'.Inv capacity := by
  obtain ⟨sharing, hload, rfl⟩ := Option.map_eq_some_iff.mp hs
  exact h.acquired hload h.channel rfl le_rfl le_rfl (h.aware.acquire hload)

/-! #### Slots -/

/-- The producer knows of every access to the slot that it has been admitted to. -/
theorem knows_slot (h : s.Inv capacity) {item : T} {head nextHead : ℕ}
    (hpc : s.channel.push = .admitted item head nextHead) :
    (∀ a ∈ s.sharing.memory.reads head, (s.sharing.memory.known .producer).Knows a) ∧
      ∀ a ∈ s.sharing.memory.writes head, (s.sharing.memory.known .producer).Knows a := by
  have hknows := h.channel.inv.pushKnows
  rw [hpc] at hknows
  obtain ⟨hhead, -, hroom⟩ := hknows
  refine ⟨fun a ha => ?_, fun a ha => ?_⟩
  · obtain ⟨x, hx, rfl, hslot⟩ := h.reads head a ha
    have htaken := h.takenSeen x hx
    have hpublished := h.channel.inv.headSeen_le
    -- an item read from this slot lies a whole lap back, so its slot had been freed
    have hfreed : x.1 < s.channel.tailSeen := by
      by_contra hlate
      have heq := Cyclic.eq_of_mod_eq (show x.1 ≤ s.channel.published.length by omega) (by omega)
        (hslot.trans hhead)
      omega
    exact h.aware.freed.known .producer x hx (hfreed.trans_le h.aware.tailSeen)
  · obtain ⟨x, hx, rfl, -⟩ := h.writes head a ha
    exact h.aware.writtenKnown x hx

/-- The consumer knows of every write to the slot that it has been admitted to. -/
theorem knows_item (h : s.Inv capacity) {tail : ℕ} (hpc : s.channel.pop = .admitted tail) :
    ∀ a ∈ s.sharing.memory.writes tail, (s.sharing.memory.known .consumer).Knows a := by
  have hknows := h.channel.inv.popKnows
  rw [hpc] at hknows
  obtain ⟨htail, hlt⟩ := hknows
  intro a ha
  obtain ⟨x, hx, rfl, hslot⟩ := h.writes tail a ha
  have hnear := h.writtenNear x hx
  have hseen := h.channel.inv.tailSeen_le
  -- a later item in this slot would be a whole lap ahead, where there was no room yet
  have hpublished : x.1 < s.channel.headSeen := by
    by_contra hlate
    have heq := Cyclic.eq_of_mod_eq (show s.channel.returned.length ≤ x.1 by omega) (by omega)
      (htail.symm.trans hslot.symm)
    omega
  exact h.aware.published.known .consumer x hx (hpublished.trans_le h.aware.headSeen)

/-- A write to the slot, whole or in part. -/
theorem wrote (h : s.Inv capacity) {item : T} {head nextHead : ℕ}
    (hpc : s.channel.push = .admitted item head nextHead)
    {channel : Channel T} (hc : Channel.InvFor capacity channel)
    (hcapacity : channel.ring.capacity_ = s.channel.ring.capacity_)
    (hhead : channel.ring.head_ = s.channel.ring.head_) (htail : channel.ring.tail_ = s.channel.ring.tail_)
    (htailSeen : channel.tailSeen = s.channel.tailSeen) (hheadSeen : channel.headSeen = s.channel.headSeen) :
    Inv capacity ⟨channel, s.writeSlot⟩ := by
  obtain ⟨hreads, hwrites⟩ := h.knows_slot hpc
  have hknows := h.channel.inv.pushKnows
  rw [hpc] at hknows
  obtain ⟨hslot, -, hroom⟩ := hknows
  have hlength : (s.sharing.memory.stores .head).length = s.channel.published.length + 1 := by
    rw [h.head, h.channel.inv.head, Cyclic.length_laps]
  rw [writeSlot, hpc]
  exact {
    channel := hc
    aware := by rw [htailSeen, hheadSeen]; exact h.aware.write hlength.le head
    head := by rw [hhead]; exact h.head
    tail := by rw [htail]; exact h.tail
    writtenNear := by
      intro x hx
      rw [htailSeen, hcapacity]
      rcases List.mem_append.mp hx with hold | hnew
      · exact h.writtenNear x hold
      · rw [List.mem_singleton.mp hnew]
        exact Nat.lt_of_succ_lt hroom
    takenSeen := by rw [hheadSeen]; exact h.takenSeen
    writes := by
      intro d a ha
      rw [hcapacity]
      rcases Memory.mem_writes_write ha with hold | ⟨rfl, rfl⟩
      · obtain ⟨x, hx, heq⟩ := h.writes d a hold
        exact ⟨x, List.mem_append_left _ hx, heq⟩
      · exact ⟨_, List.mem_append_right _ (List.mem_singleton_self _), rfl, hslot.symm⟩
    reads := by rw [hcapacity]; exact h.reads
    raceFree := Memory.write_raced h.raceFree hreads hwrites }

theorem pushPartialWrite (h : s.Inv capacity) {junk : T} (hs : s.step (.pushPartialWrite junk) = some s') :
    s'.Inv capacity := by
  obtain ⟨channel, hc, rfl⟩ := Option.map_eq_some_iff.mp hs
  have hinv := h.channel.step hc
  obtain ⟨item, head, nextHead, hpc, rfl⟩ := Channel.of_pushPartialWrite hc
  exact h.wrote hpc hinv rfl rfl rfl rfl rfl

theorem pushWrite (h : s.Inv capacity) (hs : s.step .pushWrite = some s') : s'.Inv capacity := by
  obtain ⟨channel, hc, rfl⟩ := Option.map_eq_some_iff.mp hs
  have hinv := h.channel.step hc
  obtain ⟨item, head, nextHead, hpc, rfl⟩ := Channel.of_pushWrite hc
  exact h.wrote hpc hinv rfl rfl rfl rfl rfl

theorem popRead (h : s.Inv capacity) (hs : s.step .popRead = some s') : s'.Inv capacity := by
  obtain ⟨channel, hc, rfl⟩ := Option.map_eq_some_iff.mp hs
  have hinv := h.channel.step hc
  obtain ⟨tail, item, hpc, -, rfl⟩ := Channel.of_popRead hc
  have hwrites := h.knows_item hpc
  have hknows := h.channel.inv.popKnows
  rw [hpc] at hknows
  obtain ⟨hslot, hlt⟩ := hknows
  have hlength : (s.sharing.memory.stores .tail).length = s.channel.returned.length + 1 := by
    rw [h.tail, h.channel.inv.tail, Cyclic.length_laps]
  rw [readSlot, hpc]
  exact {
    channel := hinv
    aware := h.aware.read hlength.le tail
    head := h.head
    tail := h.tail
    writtenNear := h.writtenNear
    takenSeen := by
      intro x hx
      rcases List.mem_append.mp hx with hold | hnew
      · exact h.takenSeen x hold
      · rw [List.mem_singleton.mp hnew]
        exact hlt
    writes := h.writes
    reads := by
      intro d a ha
      rcases Memory.mem_reads_read ha with hold | ⟨rfl, rfl⟩
      · obtain ⟨x, hx, heq⟩ := h.reads d a hold
        exact ⟨x, List.mem_append_left _ hx, heq⟩
      · exact ⟨_, List.mem_append_right _ (List.mem_singleton_self _), rfl, hslot.symm⟩
    raceFree := Memory.read_raced h.raceFree hwrites }

/-! #### Stores -/

theorem length_release (s : Sharing) (i : Role) (ℓ : Location) :
    ((s.release i ℓ).memory.stores ℓ).length = (s.memory.stores ℓ).length + 1 := by
  rw [Sharing.release, Memory.release_stores_self, List.length_append, List.length_singleton]

theorem pushStoreHead (h : s.Inv capacity) (hs : s.step .pushStoreHead = some s') : s'.Inv capacity := by
  obtain ⟨channel, hc, rfl⟩ := Option.map_eq_some_iff.mp hs
  have hinv := h.channel.step hc
  obtain ⟨item, nextHead, -, rfl⟩ := Channel.of_pushStoreHead hc
  have haware := h.aware.release .producer .head (fun _ => rfl) (fun heq => by cases heq)
  have htail : (s.sharing.release .producer .head).memory.stores .tail = s.sharing.memory.stores .tail :=
    Memory.release_stores_of_ne _ _ (by decide)
  exact { h with
    channel := hinv
    aware := haware
    head := by rw [length_release, h.head, List.length_append, List.length_singleton]
    tail := by rw [htail]; exact h.tail }

theorem popStoreTail (h : s.Inv capacity) (hs : s.step .popStoreTail = some s') : s'.Inv capacity := by
  obtain ⟨channel, hc, rfl⟩ := Option.map_eq_some_iff.mp hs
  have hinv := h.channel.step hc
  obtain ⟨item, tail, -, rfl⟩ := Channel.of_popStoreTail hc
  have haware := h.aware.release .consumer .tail (fun heq => by cases heq) (fun _ => rfl)
  have hhead : (s.sharing.release .consumer .tail).memory.stores .head = s.sharing.memory.stores .head :=
    Memory.release_stores_of_ne _ _ (by decide)
  exact { h with
    channel := hinv
    aware := haware
    head := by rw [hhead]; exact h.head
    tail := by rw [length_release, h.tail, List.length_append, List.length_singleton] }

theorem releaseFlag (h : s.Inv capacity) (hs : s.step .releaseFlag = some s') : s'.Inv capacity := by
  obtain rfl := Option.some.inj hs
  have haware := h.aware.release .producer .flag (fun heq => by cases heq) (fun heq => by cases heq)
  have hhead : (s.sharing.release .producer .flag).memory.stores .head = s.sharing.memory.stores .head :=
    Memory.release_stores_of_ne _ _ (by decide)
  have htail : (s.sharing.release .producer .flag).memory.stores .tail = s.sharing.memory.stores .tail :=
    Memory.release_stores_of_ne _ _ (by decide)
  exact { h with
    aware := haware
    head := by rw [hhead]; exact h.head
    tail := by rw [htail]; exact h.tail }

theorem step (h : s.Inv capacity) {e : SharedEvent T} (hs : s.step e = some s') : s'.Inv capacity := by
  cases e with
  | pushCall item => exact h.pushCall hs
  | pushLoadHead position => exact h.pushLoadHead hs
  | pushLoadTail position => exact h.pushLoadTail hs
  | pushPartialWrite junk => exact h.pushPartialWrite hs
  | pushWrite => exact h.pushWrite hs
  | pushStoreHead => exact h.pushStoreHead hs
  | popCall => exact h.popCall hs
  | popLoadTail position => exact h.popLoadTail hs
  | popLoadHead position => exact h.popLoadHead hs
  | popRead => exact h.popRead hs
  | popStoreTail => exact h.popStoreTail hs
  | releaseFlag => exact h.releaseFlag hs
  | acquire location position => exact h.acquire hs

end Inv

/-! ### The flag -/

/-- The ring's own steps store nothing to the flag. -/
theorem flag_step (h : s.Inv capacity) {e : SharedEvent T} (hs : s.step e = some s') (he : e ≠ .releaseFlag) :
    s'.sharing.memory.stores .flag = s.sharing.memory.stores .flag := by
  cases e with
  | releaseFlag => exact absurd rfl he
  | pushCall item =>
    obtain ⟨channel, -, rfl⟩ := Option.map_eq_some_iff.mp hs
    rfl
  | popCall =>
    obtain ⟨channel, -, rfl⟩ := Option.map_eq_some_iff.mp hs
    rfl
  | pushLoadHead position => rw [(h.pushLoadHead_eq hs).2.2]
  | popLoadTail position => rw [(h.popLoadTail_eq hs).2.2]
  | pushLoadTail position =>
    obtain ⟨sharing, hload, hs⟩ := Option.bind_eq_some_iff.mp hs
    obtain ⟨channel, -, rfl⟩ := Option.map_eq_some_iff.mp hs
    exact congrFun (Sharing.of_acquire hload).1 .flag
  | popLoadHead position =>
    obtain ⟨sharing, hload, hs⟩ := Option.bind_eq_some_iff.mp hs
    obtain ⟨channel, -, rfl⟩ := Option.map_eq_some_iff.mp hs
    exact congrFun (Sharing.of_acquire hload).1 .flag
  | acquire location position =>
    obtain ⟨sharing, hload, rfl⟩ := Option.map_eq_some_iff.mp hs
    exact congrFun (Sharing.of_acquire hload).1 .flag
  | pushPartialWrite junk =>
    obtain ⟨channel, -, rfl⟩ := Option.map_eq_some_iff.mp hs
    exact congrFun s.stores_writeSlot .flag
  | pushWrite =>
    obtain ⟨channel, -, rfl⟩ := Option.map_eq_some_iff.mp hs
    exact congrFun s.stores_writeSlot .flag
  | popRead =>
    obtain ⟨channel, -, rfl⟩ := Option.map_eq_some_iff.mp hs
    exact congrFun s.stores_readSlot .flag
  | pushStoreHead =>
    obtain ⟨channel, -, rfl⟩ := Option.map_eq_some_iff.mp hs
    exact Memory.release_stores_of_ne _ _ (by decide)
  | popStoreTail =>
    obtain ⟨channel, -, rfl⟩ := Option.map_eq_some_iff.mp hs
    exact Memory.release_stores_of_ne _ _ (by decide)

/-! ### Runs -/

/-- The step of the channel without its memory. -/
def withoutMemory : SharedEvent T → Option (ChannelEvent T)
  | .pushCall item => some (.pushCall item)
  | .pushLoadHead _ => some .pushLoadHead
  | .pushLoadTail position => some (.pushLoadTail position)
  | .pushPartialWrite junk => some (.pushPartialWrite junk)
  | .pushWrite => some .pushWrite
  | .pushStoreHead => some .pushStoreHead
  | .popCall => some .popCall
  | .popLoadTail _ => some .popLoadTail
  | .popLoadHead position => some (.popLoadHead position)
  | .popRead => some .popRead
  | .popStoreTail => some .popStoreTail
  | .releaseFlag => none
  | .acquire _ _ => none

/-- The memory lets the channel do nothing new. -/
theorem Inv.channel_step (h : s.Inv capacity) {e : SharedEvent T} (hs : s.step e = some s') :
    exec Channel.step s.channel (withoutMemory e).toList = some s'.channel := by
  cases e with
  | pushLoadHead position => exact (exec_singleton _).trans (h.pushLoadHead_eq hs).2.1
  | popLoadTail position => exact (exec_singleton _).trans (h.popLoadTail_eq hs).2.1
  | pushLoadTail position =>
    obtain ⟨sharing, -, hs⟩ := Option.bind_eq_some_iff.mp hs
    obtain ⟨channel, hc, rfl⟩ := Option.map_eq_some_iff.mp hs
    exact (exec_singleton _).trans hc
  | popLoadHead position =>
    obtain ⟨sharing, -, hs⟩ := Option.bind_eq_some_iff.mp hs
    obtain ⟨channel, hc, rfl⟩ := Option.map_eq_some_iff.mp hs
    exact (exec_singleton _).trans hc
  | releaseFlag =>
    obtain rfl := Option.some.inj hs
    rfl
  | acquire location position =>
    obtain ⟨sharing, -, rfl⟩ := Option.map_eq_some_iff.mp hs
    rfl
  | _ =>
    obtain ⟨channel, hc, rfl⟩ := Option.map_eq_some_iff.mp hs
    exact (exec_singleton _).trans hc

/-- No race on a slot, and the channel that there would be without the memory. -/
structure Sound [Inhabited T] (capacity : ℕ) (events : List (SharedEvent T)) (s : SharedChannel T) : Prop where
  raceFree : s.sharing.memory.raced = false
  refines : exec Channel.step (Channel.make capacity) (events.filterMap withoutMemory) = some s.channel
  fifo : s.channel.Fifo capacity
  /-- A relaxed load of the own index cannot be stale. -/
  ownHead : ∀ position s', s.step (.pushLoadHead position) = some s' → position + 1 = s.channel.ring.head_.length
  ownTail : ∀ position s', s.step (.popLoadTail position) = some s' → position + 1 = s.channel.ring.tail_.length

section Runs

variable [Inhabited T]

theorem inv_of_run (hcap : capacity + 1 < sizeMod) {events : List (SharedEvent T)}
    (hrun : exec step (make capacity) events = some s) : s.Inv capacity :=
  exec_invariant (fun _ _ _ h hs => h.step hs) (inv_make hcap) hrun

theorem channel_of_run (hcap : capacity + 1 < sizeMod) {events : List (SharedEvent T)}
    (hrun : exec step (make capacity) events = some s) :
    exec Channel.step (Channel.make capacity) (events.filterMap withoutMemory) = some s.channel := by
  have hboth : s.Inv capacity ∧
      exec Channel.step (Channel.make capacity) (events.filterMap withoutMemory) = some s.channel := by
    rw [← List.nil_append events]
    refine exec_history (P := fun events (s : SharedChannel T) => s.Inv capacity ∧
      exec Channel.step (Channel.make capacity) (events.filterMap withoutMemory) = some s.channel) ?_
      ⟨inv_make hcap, rfl⟩ hrun
    rintro past s e s' ⟨h, hpast⟩ hs
    refine ⟨h.step hs, ?_⟩
    rw [filterMap_snoc, exec_append, hpast]
    have hstep := h.channel_step hs
    cases he : withoutMemory e with
    | none =>
      rw [he] at hstep
      exact hstep
    | some e' =>
      rw [he] at hstep
      exact hstep
  exact hboth.2

/-- **The memory orders suffice**: in every run that they allow no access to a slot races
with another, and the ring is the channel that it is in an interleaving. -/
theorem raceFree_of_run (hcap : capacity + 1 < sizeMod) {events : List (SharedEvent T)}
    (hrun : exec step (make capacity) events = some s) : s.Sound capacity events where
  raceFree := (inv_of_run hcap hrun).raceFree
  refines := channel_of_run hcap hrun
  fifo := (inv_of_run hcap hrun).channel.fifo
  ownHead _ _ hs := ((inv_of_run hcap hrun).pushLoadHead_eq hs).1
  ownTail _ _ hs := ((inv_of_run hcap hrun).popLoadTail_eq hs).1

/-- A lap of a ring of two cells: the second item goes to the second cell, and the third,
after a tail seen late, to the first again. -/
def lapRun : List (SharedEvent ℕ) :=
  [.pushCall 7, .pushLoadHead 0, .pushLoadTail 0, .pushWrite, .pushStoreHead,
    .popCall, .popLoadTail 0, .popLoadHead 1, .popRead, .popStoreTail,
    .pushCall 8, .pushLoadHead 1, .pushLoadTail 0,
    .pushCall 8, .pushLoadHead 1, .pushLoadTail 1, .pushPartialWrite 3, .pushWrite, .pushStoreHead,
    .popCall, .popLoadTail 1, .popLoadHead 1, .popCall, .popLoadTail 1, .popLoadHead 2, .popRead, .popStoreTail,
    .pushCall 9, .pushLoadHead 2, .pushLoadTail 2, .pushWrite, .pushStoreHead]

theorem raceFree_lapRun :
    ∃ s, exec step (make 1) lapRun = some s ∧ s.channel.returned = [7, 8] ∧ s.Sound 1 lapRun := by
  have hends : (exec step (make 1) lapRun).map (fun s => s.channel.returned) = some [7, 8] := by decide
  obtain ⟨s, hrun, hreturned⟩ := Option.map_eq_some_iff.mp hends
  exact ⟨s, hrun, hreturned, raceFree_of_run (by decide) hrun⟩

end Runs

end SharedChannel

end LatencyLab
