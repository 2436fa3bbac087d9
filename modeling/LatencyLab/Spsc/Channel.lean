import LatencyLab.Spsc.RingBuffer
import LatencyLab.Transition.Exec

/-! `SpscRingBuffer` is a FIFO channel. Item number `i` of the published sequence
lives in slot `i` modulo `capacity_`, and both indices are counters modulo
`capacity_`. A stale view of the other index only makes a thread more careful:
the producer counts room from the last tail it has seen, the consumer counts
items up to the last head it has seen. -/

namespace LatencyLab.Channel

open Cyclic Transition

variable {T : Type*} {c c' : Channel T}

/-! ### What each step does -/

section Steps

theorem of_pushCall {item : T} (hs : c.step (.pushCall item) = some c') :
    (∃ result, c.push = .idle result) ∧ c' = { c with push := .entered item } := by
  simp only [step] at hs
  split at hs
  · rename_i result hpc
    exact ⟨⟨result, hpc⟩, (Option.some.inj hs).symm⟩
  · cases hs

theorem of_pushLoadHead (hs : c.step .pushLoadHead = some c') :
    ∃ item head, c.push = .entered item ∧ c.ring.head_.getLast? = some head ∧
      c' = { c with push := .loaded item head (c.ring.increment head) } := by
  simp only [step] at hs
  split at hs
  · rename_i item head hpc hhead
    exact ⟨item, head, hpc, hhead, (Option.some.inj hs).symm⟩
  · cases hs

theorem of_pushLoadTail {k : ℕ} (hs : c.step (.pushLoadTail k) = some c') :
    ∃ item head nextHead tail, c.push = .loaded item head nextHead ∧ c.ring.tail_[k]? = some tail ∧
      c.tailSeen ≤ k ∧
      c' = { c with
        tailSeen := k
        push := if nextHead = tail then .idle false else .admitted item head nextHead } := by
  simp only [step] at hs
  split at hs
  · rename_i item head nextHead tail hpc htail
    split_ifs at hs with hlt heq
    · exact ⟨item, head, nextHead, tail, hpc, htail, Nat.le_of_not_lt hlt,
        by rw [if_pos heq]; exact (Option.some.inj hs).symm⟩
    · exact ⟨item, head, nextHead, tail, hpc, htail, Nat.le_of_not_lt hlt,
        by rw [if_neg heq]; exact (Option.some.inj hs).symm⟩
  · cases hs

theorem of_pushPartialWrite {junk : T} (hs : c.step (.pushPartialWrite junk) = some c') :
    ∃ item head nextHead, c.push = .admitted item head nextHead ∧
      c' = { c with ring := { c.ring with buffer_ := c.ring.buffer_.set head junk } } := by
  simp only [step] at hs
  split at hs
  · rename_i item head nextHead hpc
    exact ⟨item, head, nextHead, hpc, (Option.some.inj hs).symm⟩
  · cases hs

theorem of_pushWrite (hs : c.step .pushWrite = some c') :
    ∃ item head nextHead, c.push = .admitted item head nextHead ∧
      c' = { c with
        ring := { c.ring with buffer_ := c.ring.buffer_.set head item }
        push := .written item nextHead } := by
  simp only [step] at hs
  split at hs
  · rename_i item head nextHead hpc
    exact ⟨item, head, nextHead, hpc, (Option.some.inj hs).symm⟩
  · cases hs

theorem of_pushStoreHead (hs : c.step .pushStoreHead = some c') :
    ∃ item nextHead, c.push = .written item nextHead ∧
      c' = { c with
        ring := { c.ring with head_ := c.ring.head_ ++ [nextHead] }
        push := .idle true
        published := c.published ++ [item] } := by
  simp only [step] at hs
  split at hs
  · rename_i item nextHead hpc
    exact ⟨item, nextHead, hpc, (Option.some.inj hs).symm⟩
  · cases hs

theorem of_popCall (hs : c.step .popCall = some c') :
    (∃ result, c.pop = .idle result) ∧ c' = { c with pop := .entered } := by
  simp only [step] at hs
  split at hs
  · rename_i result hpc
    exact ⟨⟨result, hpc⟩, (Option.some.inj hs).symm⟩
  · cases hs

theorem of_popLoadTail (hs : c.step .popLoadTail = some c') :
    ∃ tail, c.pop = .entered ∧ c.ring.tail_.getLast? = some tail ∧ c' = { c with pop := .loaded tail } := by
  simp only [step] at hs
  split at hs
  · rename_i tail hpc htail
    exact ⟨tail, hpc, htail, (Option.some.inj hs).symm⟩
  · cases hs

theorem of_popLoadHead {k : ℕ} (hs : c.step (.popLoadHead k) = some c') :
    ∃ tail head, c.pop = .loaded tail ∧ c.ring.head_[k]? = some head ∧ c.headSeen ≤ k ∧
      c' = { c with headSeen := k, pop := if tail = head then .idle none else .admitted tail } := by
  simp only [step] at hs
  split at hs
  · rename_i tail head hpc hhead
    split_ifs at hs with hlt heq
    · exact ⟨tail, head, hpc, hhead, Nat.le_of_not_lt hlt,
        by rw [if_pos heq]; exact (Option.some.inj hs).symm⟩
    · exact ⟨tail, head, hpc, hhead, Nat.le_of_not_lt hlt,
        by rw [if_neg heq]; exact (Option.some.inj hs).symm⟩
  · cases hs

theorem of_popRead (hs : c.step .popRead = some c') :
    ∃ tail item, c.pop = .admitted tail ∧ c.ring.buffer_[tail]? = some item ∧
      c' = { c with pop := .read item tail } := by
  simp only [step] at hs
  split at hs
  · rename_i tail hpc
    obtain ⟨item, hitem, he⟩ := Option.map_eq_some_iff.mp hs
    exact ⟨tail, item, hpc, hitem, he.symm⟩
  · cases hs

theorem of_popStoreTail (hs : c.step .popStoreTail = some c') :
    ∃ item tail, c.pop = .read item tail ∧
      c' = { c with
        ring := { c.ring with tail_ := c.ring.tail_ ++ [c.ring.increment tail] }
        pop := .idle (some item)
        returned := c.returned ++ [item] } := by
  simp only [step] at hs
  split at hs
  · rename_i item tail hpc
    exact ⟨item, tail, hpc, (Option.some.inj hs).symm⟩
  · cases hs

end Steps

/-! ### The invariant -/

/-- What the producer knows, with `h` items published. -/
def PushKnows (r : SpscRingBuffer T) (h tailSeen : ℕ) : PushPc T → Prop
  | .idle _ => True
  | .entered _ => True
  | .loaded _ head nextHead => head = h % r.capacity_ ∧ nextHead = (h + 1) % r.capacity_
  | .admitted _ head nextHead =>
    head = h % r.capacity_ ∧ nextHead = (h + 1) % r.capacity_ ∧ h + 1 < tailSeen + r.capacity_
  | .written item nextHead =>
    nextHead = (h + 1) % r.capacity_ ∧ h + 1 < tailSeen + r.capacity_ ∧
      r.buffer_[h % r.capacity_]? = some item

/-- What the consumer knows, with `t` items returned. -/
def PopKnows (r : SpscRingBuffer T) (published : List T) (t headSeen : ℕ) : PopPc T → Prop
  | .idle _ => True
  | .entered => True
  | .loaded tail => tail = t % r.capacity_
  | .admitted tail => tail = t % r.capacity_ ∧ t < headSeen
  | .read item tail => tail = t % r.capacity_ ∧ t < headSeen ∧ published[t]? = some item

/-- What the consumer knows is not about the cells. -/
theorem popKnows_congr {r r' : SpscRingBuffer T} (hcap : r'.capacity_ = r.capacity_) {published : List T}
    {t headSeen : ℕ} (pc : PopPc T) :
    PopKnows r' published t headSeen pc ↔ PopKnows r published t headSeen pc := by
  cases pc <;> simp [PopKnows, hcap]

structure Inv (c : Channel T) : Prop where
  capacity_pos : 0 < c.ring.capacity_
  capacity_lt : c.ring.capacity_ < sizeMod
  cells : c.ring.buffer_.length = c.ring.capacity_
  head : c.ring.head_ = laps c.ring.capacity_ c.published.length
  tail : c.ring.tail_ = laps c.ring.capacity_ c.returned.length
  tailSeen_le : c.tailSeen ≤ c.returned.length
  returned_le : c.returned.length ≤ c.headSeen
  headSeen_le : c.headSeen ≤ c.published.length
  room : c.published.length < c.tailSeen + c.ring.capacity_
  stored : Stores c.ring.capacity_ c.ring.buffer_ c.published c.returned.length
  fifo : c.returned <+: c.published
  pushKnows : PushKnows c.ring c.published.length c.tailSeen c.push
  popKnows : PopKnows c.ring c.published c.returned.length c.headSeen c.pop

theorem increment_mod {r : SpscRingBuffer T} (h0 : 0 < r.capacity_) (hlt : r.capacity_ < sizeMod) (n : ℕ) :
    r.increment (n % r.capacity_) = (n + 1) % r.capacity_ := by
  have hn := Nat.mod_lt n h0
  rw [SpscRingBuffer.increment, Nat.mod_eq_of_lt (show n % r.capacity_ + 1 < sizeMod by omega), succ_mod h0]

theorem inv_make [Inhabited T] {capacity : ℕ} (hcap : capacity + 1 < sizeMod) :
    (make capacity : Channel T).Inv where
  capacity_pos := by simp [make, SpscRingBuffer.make, Nat.mod_eq_of_lt hcap]
  capacity_lt := by simpa [make, SpscRingBuffer.make, Nat.mod_eq_of_lt hcap]
  cells := by simp [make, SpscRingBuffer.make]
  head := (laps_zero _).symm
  tail := (laps_zero _).symm
  tailSeen_le := le_rfl
  returned_le := le_rfl
  headSeen_le := le_rfl
  room := by simp [make, SpscRingBuffer.make, Nat.mod_eq_of_lt hcap]
  stored := Stores.empty _ _
  fifo := List.prefix_rfl
  pushKnows := trivial
  popKnows := trivial

namespace Inv

theorem returned_le_published (h : c.Inv) : c.returned.length ≤ c.published.length :=
  h.returned_le.trans h.headSeen_le

/-- The slot after the published items is in the buffer. -/
theorem slot_lt (h : c.Inv) (n : ℕ) : n % c.ring.capacity_ < c.ring.buffer_.length := by
  rw [h.cells]
  exact Nat.mod_lt n h.capacity_pos

/-- Fewer than `capacity_` items are unconsumed, also counted from the real tail. -/
theorem window (h : c.Inv) : c.published.length < c.returned.length + c.ring.capacity_ := by
  have h1 := h.room
  have h2 := h.tailSeen_le
  omega

/-! #### Producer steps -/

theorem pushCall (h : c.Inv) {item : T} (hs : c.step (.pushCall item) = some c') : c'.Inv := by
  obtain ⟨-, rfl⟩ := of_pushCall hs
  exact { h with pushKnows := trivial }

theorem pushLoadHead (h : c.Inv) (hs : c.step .pushLoadHead = some c') : c'.Inv := by
  obtain ⟨item, head, -, hhead, rfl⟩ := of_pushLoadHead hs
  rw [h.head, getLast?_laps, Option.some.injEq] at hhead
  subst hhead
  exact { h with pushKnows := ⟨rfl, increment_mod h.capacity_pos h.capacity_lt _⟩ }

/-- A tail the producer sees, however stale, is not behind the last one it saw.
When the next head differs from it there is room up to the real tail. -/
theorem pushLoadTail (h : c.Inv) {k : ℕ} (hs : c.step (.pushLoadTail k) = some c') : c'.Inv := by
  obtain ⟨item, head, nextHead, tail, hpc, htail, hk, rfl⟩ := of_pushLoadTail hs
  rw [h.tail] at htail
  obtain ⟨hle, rfl⟩ := getElem?_laps htail
  have hknows := h.pushKnows
  rw [hpc] at hknows
  obtain ⟨hhead, hnext⟩ := hknows
  have hroom := h.room
  have hroom' : c.published.length < k + c.ring.capacity_ := by omega
  refine { h with tailSeen_le := hle, room := hroom', pushKnows := ?_ }
  split_ifs with heq
  · trivial
  · rw [hnext] at heq
    have hfree : c.published.length + 1 < k + c.ring.capacity_ := lt_of_mod_ne (by omega) heq
    exact ⟨hhead, hnext, hfree⟩

theorem pushPartialWrite (h : c.Inv) {junk : T} (hs : c.step (.pushPartialWrite junk) = some c') :
    c'.Inv := by
  obtain ⟨item, head, nextHead, hpc, rfl⟩ := of_pushPartialWrite hs
  have hknows := h.pushKnows
  rw [hpc] at hknows
  obtain ⟨hhead, hnext, hlt⟩ := hknows
  have hstored := h.stored.set h.window junk
  have hcells : (c.ring.buffer_.set head junk).length = c.ring.capacity_ := by
    rw [List.length_set, h.cells]
  rw [← hhead] at hstored
  have hpush : c.push = .admitted item head nextHead := hpc
  refine { h with
    cells := hcells
    stored := hstored
    pushKnows := ?_
    popKnows := (popKnows_congr rfl _).mpr h.popKnows }
  rw [hpush]
  exact ⟨hhead, hnext, hlt⟩

theorem pushWrite (h : c.Inv) (hs : c.step .pushWrite = some c') : c'.Inv := by
  obtain ⟨item, head, nextHead, hpc, rfl⟩ := of_pushWrite hs
  have hknows := h.pushKnows
  rw [hpc] at hknows
  obtain ⟨hhead, hnext, hlt⟩ := hknows
  have hstored := h.stored.set h.window item
  have hcells : (c.ring.buffer_.set head item).length = c.ring.capacity_ := by
    rw [List.length_set, h.cells]
  have hslot : (c.ring.buffer_.set head item)[head]? = some item := by
    rw [List.getElem?_set_self]
    rw [hhead]
    exact h.slot_lt _
  rw [← hhead] at hstored
  refine { h with
    cells := hcells
    stored := hstored
    pushKnows := ⟨hnext, hlt, ?_⟩
    popKnows := (popKnows_congr rfl _).mpr h.popKnows }
  rw [← hhead]
  exact hslot

theorem pushStoreHead (h : c.Inv) (hs : c.step .pushStoreHead = some c') : c'.Inv := by
  obtain ⟨item, nextHead, hpc, rfl⟩ := of_pushStoreHead hs
  have hknows := h.pushKnows
  rw [hpc] at hknows
  obtain ⟨hnext, hlt, hslot⟩ := hknows
  have hlen : (c.published ++ [item]).length = c.published.length + 1 := by simp
  have hhead := h.head
  refine { h with
    head := ?_
    headSeen_le := ?_
    room := ?_
    stored := h.stored.snoc hslot
    fifo := h.fifo.trans (List.prefix_append _ _)
    pushKnows := trivial
    popKnows := ?_ }
  · rw [hlen, laps_succ, ← hhead, ← hnext]
  · rw [hlen]
    exact Nat.le_succ_of_le h.headSeen_le
  · rw [hlen]
    exact hlt
  · have hpop := h.popKnows
    cases hp : c.pop with
    | read got tail =>
      rw [hp] at hpop
      obtain ⟨htail, hseen, hgot⟩ := hpop
      have hpub : c.returned.length < c.published.length := Nat.lt_of_lt_of_le hseen h.headSeen_le
      exact ⟨htail, hseen, by rw [List.getElem?_append_left hpub]; exact hgot⟩
    | _ => rw [hp] at hpop; exact hpop

/-! #### Consumer steps -/

theorem popCall (h : c.Inv) (hs : c.step .popCall = some c') : c'.Inv := by
  obtain ⟨-, rfl⟩ := of_popCall hs
  exact { h with popKnows := trivial }

theorem popLoadTail (h : c.Inv) (hs : c.step .popLoadTail = some c') : c'.Inv := by
  obtain ⟨tail, -, htail, rfl⟩ := of_popLoadTail hs
  rw [h.tail, getLast?_laps, Option.some.injEq] at htail
  exact { h with popKnows := htail.symm }

/-- A head that differs from the tail is ahead of it by at least one item, and the
items up to it are published. -/
theorem popLoadHead (h : c.Inv) {k : ℕ} (hs : c.step (.popLoadHead k) = some c') : c'.Inv := by
  obtain ⟨tail, head, hpc, hhead, hk, rfl⟩ := of_popLoadHead hs
  rw [h.head] at hhead
  obtain ⟨hle, rfl⟩ := getElem?_laps hhead
  have hknows := h.popKnows
  rw [hpc] at hknows
  have htail : tail = c.returned.length % c.ring.capacity_ := hknows
  have hret : c.returned.length ≤ k := h.returned_le.trans hk
  refine { h with returned_le := hret, headSeen_le := hle, popKnows := ?_ }
  split_ifs with heq
  · trivial
  · rw [htail] at heq
    have hne : c.returned.length ≠ k := fun e => heq (by rw [e])
    have hlt : c.returned.length < k := by omega
    exact ⟨htail, hlt⟩

theorem popRead (h : c.Inv) (hs : c.step .popRead = some c') : c'.Inv := by
  obtain ⟨tail, item, hpc, hitem, rfl⟩ := of_popRead hs
  have hknows := h.popKnows
  rw [hpc] at hknows
  obtain ⟨htail, hlt⟩ := hknows
  have hpub := h.headSeen_le
  rw [htail, h.stored _ le_rfl (by omega)] at hitem
  exact { h with popKnows := ⟨htail, hlt, hitem⟩ }

theorem popStoreTail (h : c.Inv) (hs : c.step .popStoreTail = some c') : c'.Inv := by
  obtain ⟨item, tail, hpc, rfl⟩ := of_popStoreTail hs
  have hknows := h.popKnows
  rw [hpc] at hknows
  obtain ⟨htail, hlt, hitem⟩ := hknows
  have hlen : (c.returned ++ [item]).length = c.returned.length + 1 := by simp
  refine { h with
    tail := ?_
    tailSeen_le := ?_
    returned_le := ?_
    stored := ?_
    fifo := ?_
    popKnows := trivial }
  · rw [hlen, laps_succ, ← h.tail, htail, increment_mod h.capacity_pos h.capacity_lt]
  · rw [hlen]
    exact Nat.le_succ_of_le h.tailSeen_le
  · rw [hlen]
    exact hlt
  · exact h.stored.mono (by rw [hlen]; omega)
  · rw [List.prefix_iff_eq_take, hlen, List.take_add_one, hitem, ← List.prefix_iff_eq_take.mp h.fifo]
    rfl

theorem step (h : c.Inv) {e : ChannelEvent T} (hs : c.step e = some c') : c'.Inv := by
  cases e with
  | pushCall item => exact h.pushCall hs
  | pushLoadHead => exact h.pushLoadHead hs
  | pushLoadTail k => exact h.pushLoadTail hs
  | pushPartialWrite junk => exact h.pushPartialWrite hs
  | pushWrite => exact h.pushWrite hs
  | pushStoreHead => exact h.pushStoreHead hs
  | popCall => exact h.popCall hs
  | popLoadTail => exact h.popLoadTail hs
  | popLoadHead k => exact h.popLoadHead hs
  | popRead => exact h.popRead hs
  | popStoreTail => exact h.popStoreTail hs

end Inv

/-! ### The channel property -/

/-- A channel of the given capacity: what came out is a prefix of what went in,
no more than `capacity` items are inside, each of them sits undamaged in its slot,
and the producer writes to none of those slots. -/
structure Fifo (c : Channel T) (capacity : ℕ) : Prop where
  in_order : c.returned <+: c.published
  bounded : c.published.length ≤ c.returned.length + capacity
  held : ∀ i, c.returned.length ≤ i → i < c.published.length →
    c.ring.buffer_[i % c.ring.capacity_]? = c.published[i]?
  undisturbed : ∀ item head nextHead, c.push = .admitted item head nextHead →
    head < c.ring.buffer_.length ∧
      ∀ i, c.returned.length ≤ i → i < c.published.length → i % c.ring.capacity_ ≠ head
  read_inside : ∀ tail, c.pop = .admitted tail → tail < c.ring.buffer_.length

/-- The capacity of the ring never changes. -/
theorem capacity_of_step {e : ChannelEvent T} (hs : c.step e = some c') :
    c'.ring.capacity_ = c.ring.capacity_ := by
  cases e with
  | pushCall item => obtain ⟨-, rfl⟩ := of_pushCall hs; rfl
  | pushLoadHead => obtain ⟨_, _, -, -, rfl⟩ := of_pushLoadHead hs; rfl
  | pushLoadTail k => obtain ⟨_, _, _, _, -, -, -, rfl⟩ := of_pushLoadTail hs; rfl
  | pushPartialWrite junk => obtain ⟨_, _, _, -, rfl⟩ := of_pushPartialWrite hs; rfl
  | pushWrite => obtain ⟨_, _, _, -, rfl⟩ := of_pushWrite hs; rfl
  | pushStoreHead => obtain ⟨_, _, -, rfl⟩ := of_pushStoreHead hs; rfl
  | popCall => obtain ⟨-, rfl⟩ := of_popCall hs; rfl
  | popLoadTail => obtain ⟨_, -, -, rfl⟩ := of_popLoadTail hs; rfl
  | popLoadHead k => obtain ⟨_, _, -, -, -, rfl⟩ := of_popLoadHead hs; rfl
  | popRead => obtain ⟨_, _, -, -, rfl⟩ := of_popRead hs; rfl
  | popStoreTail => obtain ⟨_, _, -, rfl⟩ := of_popStoreTail hs; rfl

/-- The invariant with the capacity the ring was made with. -/
structure InvFor (capacity : ℕ) (c : Channel T) : Prop where
  inv : c.Inv
  capacity_eq : c.ring.capacity_ = capacity + 1

theorem InvFor.step {capacity : ℕ} (h : InvFor capacity c) {e : ChannelEvent T}
    (hs : c.step e = some c') : InvFor capacity c' :=
  ⟨h.inv.step hs, (capacity_of_step hs).trans h.capacity_eq⟩

theorem invFor_make [Inhabited T] {capacity : ℕ} (hcap : capacity + 1 < sizeMod) :
    InvFor capacity (make capacity : Channel T) :=
  ⟨inv_make hcap, Nat.mod_eq_of_lt hcap⟩

theorem InvFor.fifo {capacity : ℕ} (h : InvFor capacity c) : c.Fifo capacity where
  in_order := h.inv.fifo
  bounded := by
    have hw := h.inv.window
    rw [h.capacity_eq] at hw
    omega
  held := h.inv.stored
  undisturbed item head nextHead hpc := by
    have hknows := h.inv.pushKnows
    rw [hpc] at hknows
    obtain ⟨hhead, -, -⟩ := hknows
    rw [hhead]
    exact ⟨h.inv.slot_lt _, fun i hlo hi => mod_ne_of_window hlo hi h.inv.window⟩
  read_inside tail hpc := by
    have hknows := h.inv.popKnows
    rw [hpc] at hknows
    obtain ⟨htail, -⟩ := hknows
    rw [htail]
    exact h.inv.slot_lt _

section Runs

variable [Inhabited T] {capacity : ℕ}

theorem invFor_of_run (hcap : capacity + 1 < sizeMod) {events : List (ChannelEvent T)}
    (hrun : exec step (make capacity) events = some c) : InvFor capacity c :=
  exec_invariant (fun _ _ _ h hs => h.step hs) (invFor_make hcap) hrun

/-- **`SpscRingBuffer` is a FIFO channel** in every interleaving of one producer
and one consumer, with stale views of the other index. -/
theorem fifo_of_run (hcap : capacity + 1 < sizeMod) {events : List (ChannelEvent T)}
    (hrun : exec step (make capacity) events = some c) : c.Fifo capacity :=
  (invFor_of_run hcap hrun).fifo

/-- A push, a pop that still sees the head from before it, and a pop that sees it. -/
def staleRun : List (ChannelEvent ℕ) :=
  [.pushCall 7, .pushLoadHead, .pushLoadTail 0, .pushPartialWrite 3, .popCall, .popLoadTail, .pushWrite,
    .pushStoreHead, .popLoadHead 0, .popCall, .popLoadTail, .popLoadHead 1, .popRead, .popStoreTail]

theorem fifo_staleRun :
    ∃ c, exec step (make 1) staleRun = some c ∧ c.returned = [7] ∧ c.Fifo 1 :=
  ⟨_, rfl, rfl, fifo_of_run (by decide) (show exec step (make 1) staleRun = _ from rfl)⟩

end Runs

end LatencyLab.Channel
