import LatencyLab.Market.Generator
import Mathlib.Data.Finset.Card
import Mathlib.Data.Finset.Dedup
import Mathlib.Data.List.Range

/-! What the messages of a generator have in common, for every seed, clock, length
and number of calls: they are numbered through from 1, their order ids cycle over
at most 10000 values, and their quantities lie between 100 and 10099. -/

namespace LatencyLab

/-- Message number `i` of a call of `generate` on `g`. -/
structure DrawnAt (g : MarketDataGenerator) (i : ℕ) (msg : MarketMessage) : Prop where
  sequenceNumber : msg.sequenceNumber = g.sequenceNumber_ + UInt64.ofNat i
  orderId : msg.orderId = g.nextOrderId_ + UInt64.ofNat i % 10000
  quantity_ge : 100 ≤ msg.quantity.toNat
  quantity_lt : msg.quantity.toNat < 10100

/-- The first `k` messages of a call, with what the generator has become. -/
structure Batch (g : MarketDataGenerator) (k : ℕ) (g' : MarketDataGenerator) (batch : List MarketMessage) :
    Prop where
  messages : g'.messages_ = g.messages_ ++ batch
  length : batch.length = k
  drawn : ∀ i msg, batch[i]? = some msg → DrawnAt g i msg
  sequenceNumber : g'.sequenceNumber_ = g.sequenceNumber_ + UInt64.ofNat k
  nextOrderId : g'.nextOrderId_ = g.nextOrderId_
  numMessages : g'.numMessages_ = g.numMessages_

namespace MarketDataGenerator

theorem toNat_quantity (x : UInt64) : (100 + (x % 10000).toUInt32).toNat = 100 + x.toNat % 10000 := by
  have hlt : x.toNat % 10000 < 10000 := Nat.mod_lt _ (by decide)
  rw [UInt32.toNat_add, UInt64.toNat_toUInt32, UInt64.toNat_mod]
  show (100 + x.toNat % 10000 % 2 ^ 32) % 2 ^ 32 = _
  omega

theorem randomBounded_spec (g : MarketDataGenerator) (upperBound : UInt64) :
    ∃ random seed, g.randomBounded upperBound = (random % upperBound, { g with seed_ := seed }) :=
  ⟨_, _, rfl⟩

/-- The body of the loop appends one message and moves the seed and the counter. -/
theorem generateOne_spec (g : MarketDataGenerator) (i now : UInt64) :
    ∃ msg seed, g.generateOne i now = { g with
        seed_ := seed
        sequenceNumber_ := g.sequenceNumber_ + 1
        messages_ := g.messages_ ++ [msg] } ∧
      msg.sequenceNumber = g.sequenceNumber_ ∧ msg.orderId = g.nextOrderId_ + i % 10000 ∧
        100 ≤ msg.quantity.toNat ∧ msg.quantity.toNat < 10100 := by
  obtain ⟨price, s₁, h₁⟩ := g.randomBounded_spec 19000
  obtain ⟨quantity, s₂, h₂⟩ := { g with seed_ := s₁ }.randomBounded_spec 10000
  obtain ⟨side, s₃, h₃⟩ := { g with seed_ := s₂ }.randomBounded_spec 2
  obtain ⟨type, s₄, h₄⟩ := { g with seed_ := s₃ }.randomBounded_spec 100
  have hquantity := toNat_quantity quantity
  have hmod : quantity.toNat % 10000 < 10000 := Nat.mod_lt _ (by decide)
  simp only [generateOne, h₁, h₂, h₃, h₄]
  refine ⟨_, s₄, rfl, rfl, rfl, ?_, ?_⟩
  · show 100 ≤ (100 + (quantity % 10000).toUInt32).toNat
    omega
  · show (100 + (quantity % 10000).toUInt32).toNat < 10100
    omega

end MarketDataGenerator

namespace Batch

variable {g g' : MarketDataGenerator} {k : ℕ} {batch : List MarketMessage}

theorem empty (g : MarketDataGenerator) : Batch g 0 g [] where
  messages := (List.append_nil _).symm
  length := rfl
  drawn := by simp
  sequenceNumber := by simp
  nextOrderId := rfl
  numMessages := rfl

theorem snoc (h : Batch g k g' batch) (now : UInt64) :
    ∃ msg, Batch g (k + 1) (g'.generateOne (UInt64.ofNat k) now) (batch ++ [msg]) := by
  obtain ⟨msg, seed, hone, hseq, hid, hge, hlt⟩ := g'.generateOne_spec (UInt64.ofNat k) now
  rw [h.sequenceNumber] at hseq
  rw [h.nextOrderId] at hid
  have hdrawn : DrawnAt g k msg := ⟨hseq, hid, hge, hlt⟩
  rw [hone]
  refine ⟨msg, ?_, ?_, ?_, ?_, h.nextOrderId, h.numMessages⟩
  · rw [h.messages, List.append_assoc]
  · rw [List.length_append, h.length, List.length_singleton]
  · intro i msg' hi
    rcases lt_trichotomy i batch.length with hlt' | heq | hgt
    · rw [List.getElem?_append_left hlt'] at hi
      exact h.drawn i msg' hi
    · subst heq
      rw [List.getElem?_concat_length, Option.some.injEq] at hi
      rwa [← hi, h.length]
    · rw [List.getElem?_eq_none (by rw [List.length_append, List.length_singleton]; omega)] at hi
      cases hi
  · rw [h.sequenceNumber, UInt64.ofNat_add, add_assoc]
    rfl

theorem range (g : MarketDataGenerator) (clock : ℕ → UInt64) (k : ℕ) :
    ∃ batch, Batch g k
      ((List.range k).foldl (fun g i => g.generateOne (UInt64.ofNat i) (clock i)) g) batch := by
  induction k with
  | zero => exact ⟨[], empty g⟩
  | succ k ih =>
    obtain ⟨batch, h⟩ := ih
    obtain ⟨msg, h'⟩ := h.snoc (clock k)
    rw [List.range_succ, List.foldl_append]
    exact ⟨batch ++ [msg], h'⟩

theorem generate (g : MarketDataGenerator) (clock : ℕ → UInt64) :
    ∃ batch, Batch g g.numMessages_.toNat (g.generate clock) batch := range g clock _

/-- Within one cycle no order id comes twice. -/
theorem nodup_take (h : Batch g k g' batch) {m : ℕ} (hm : m ≤ 10000) :
    ((batch.take m).map MarketMessage.orderId).Nodup := by
  rw [List.nodup_iff_getElem?_ne_getElem?]
  intro i j hij hj heq
  rw [List.length_map, List.length_take] at hj
  have hid : ∀ i, i < m → i < batch.length →
      ((batch.take m).map MarketMessage.orderId)[i]? = some (g.nextOrderId_ + UInt64.ofNat i) := by
    intro i hi hlen
    have hget : batch[i]? = some batch[i] := List.getElem?_eq_getElem hlen
    have hsmall : UInt64.ofNat i % 10000 = UInt64.ofNat i := by
      rw [← UInt64.toNat_inj, UInt64.toNat_mod, UInt64.toNat_ofNat_of_lt' (show i < 2 ^ 64 by omega)]
      exact Nat.mod_eq_of_lt (show i < 10000 by omega)
    rw [List.getElem?_map, List.getElem?_take_of_lt hi, hget, Option.map_some, (h.drawn i _ hget).orderId,
      hsmall]
  rw [hid i (by omega) (by omega), hid j (by omega) (by omega), Option.some.injEq, add_right_inj,
    ← UInt64.toNat_inj, UInt64.toNat_ofNat_of_lt' (show i < 2 ^ 64 by omega),
    UInt64.toNat_ofNat_of_lt' (show j < 2 ^ 64 by omega)] at heq
  omega

end Batch

/-! ### Streams of any number of calls -/

/-- The first `k` order ids of the cycle. -/
def cycleIds (k : ℕ) : Finset UInt64 := (Finset.range k).image fun j => 1000 + UInt64.ofNat j

theorem card_cycleIds_le (k : ℕ) : (cycleIds k).card ≤ k := by
  have h := Finset.card_image_le (s := Finset.range k) (f := fun j => (1000 : UInt64) + UInt64.ofNat j)
  rwa [Finset.card_range] at h

/-- The stream of a generator that makes `n` messages in a call. -/
structure GeneratedFeed (n : UInt64) (msgs : List MarketMessage) : Prop where
  sequenceNumbers : ∀ i msg, msgs[i]? = some msg → msg.sequenceNumber = UInt64.ofNat (i + 1)
  orderIds : ∀ msg ∈ msgs, msg.orderId ∈ cycleIds (min 10000 n.toNat)
  quantity_ge : ∀ msg ∈ msgs, 100 ≤ msg.quantity.toNat
  quantity_lt : ∀ msg ∈ msgs, msg.quantity.toNat < 10100

/-- A generator between calls. -/
structure Between (n : UInt64) (g : MarketDataGenerator) : Prop where
  feed : GeneratedFeed n g.messages_
  numMessages : g.numMessages_ = n
  nextOrderId : g.nextOrderId_ = 1000
  sequenceNumber : g.sequenceNumber_ = UInt64.ofNat (g.messages_.length + 1)

namespace Between

variable {n : UInt64} {g : MarketDataGenerator}

theorem start (n : UInt64) (symbol : List UInt8) (seed : UInt64) :
    Between n { MarketDataGenerator.make n symbol with seed_ := seed } where
  feed := ⟨by simp [MarketDataGenerator.make], by simp [MarketDataGenerator.make],
    by simp [MarketDataGenerator.make], by simp [MarketDataGenerator.make]⟩
  numMessages := rfl
  nextOrderId := rfl
  sequenceNumber := rfl

theorem orderId_mem (h : Between n g) {i : ℕ} (hi : i < n.toNat) {msg : MarketMessage}
    (hd : DrawnAt g i msg) : msg.orderId ∈ cycleIds (min 10000 n.toNat) := by
  have hlt := n.toNat_lt
  have hmod : UInt64.ofNat i % 10000 = UInt64.ofNat (i % 10000) := by
    have hle : i % 10000 ≤ i := Nat.mod_le i 10000
    rw [← UInt64.toNat_inj, UInt64.toNat_mod, UInt64.toNat_ofNat_of_lt' (show i < 2 ^ 64 by omega),
      UInt64.toNat_ofNat_of_lt' (show i % 10000 < 2 ^ 64 by omega)]
    rfl
  rw [hd.orderId, h.nextOrderId, hmod]
  refine Finset.mem_image_of_mem _ (Finset.mem_range.mpr ?_)
  have hcycle : i % 10000 < 10000 := Nat.mod_lt i (by decide)
  have hle : i % 10000 ≤ i := Nat.mod_le i 10000
  omega

theorem generate (h : Between n g) (clock : ℕ → UInt64) : Between n (g.generate clock) := by
  obtain ⟨batch, hb⟩ := Batch.generate g clock
  rw [h.numMessages] at hb
  have hmem : ∀ msg ∈ batch, ∃ i < n.toNat, DrawnAt g i msg := by
    intro msg hm
    obtain ⟨i, hi⟩ := List.mem_iff_getElem?.mp hm
    have hlt : i < batch.length := (List.getElem?_eq_some_iff.mp hi).1
    exact ⟨i, hb.length ▸ hlt, hb.drawn i msg hi⟩
  have hfeed : GeneratedFeed n (g.messages_ ++ batch) := by
    refine ⟨fun i msg hi => ?_, fun msg hm => ?_, fun msg hm => ?_, fun msg hm => ?_⟩
    · rcases Nat.lt_or_ge i g.messages_.length with hlt | hge
      · rw [List.getElem?_append_left hlt] at hi
        exact h.feed.sequenceNumbers i msg hi
      · rw [List.getElem?_append_right hge] at hi
        rw [(hb.drawn _ msg hi).sequenceNumber, h.sequenceNumber, ← UInt64.ofNat_add]
        congr 1
        omega
    · rcases List.mem_append.mp hm with hm | hm
      · exact h.feed.orderIds msg hm
      · obtain ⟨i, hi, hd⟩ := hmem msg hm
        exact h.orderId_mem hi hd
    · rcases List.mem_append.mp hm with hm | hm
      · exact h.feed.quantity_ge msg hm
      · obtain ⟨i, -, hd⟩ := hmem msg hm
        exact hd.quantity_ge
    · rcases List.mem_append.mp hm with hm | hm
      · exact h.feed.quantity_lt msg hm
      · obtain ⟨i, -, hd⟩ := hmem msg hm
        exact hd.quantity_lt
  refine ⟨by rw [hb.messages]; exact hfeed, hb.numMessages.trans h.numMessages,
    hb.nextOrderId.trans h.nextOrderId, ?_⟩
  rw [hb.sequenceNumber, h.sequenceNumber, hb.messages, List.length_append, hb.length, ← UInt64.ofNat_add]
  congr 1
  omega

theorem generateAll (h : Between n g) (clocks : List (ℕ → UInt64)) : Between n (g.generateAll clocks) := by
  induction clocks generalizing g with
  | nil => exact h
  | cons clock clocks ih => exact ih (h.generate clock)

/-- Every call appends `num_messages_` messages. -/
theorem length_generateAll (h : Between n g) (clocks : List (ℕ → UInt64)) :
    (g.generateAll clocks).messages_.length = g.messages_.length + clocks.length * n.toNat := by
  induction clocks generalizing g with
  | nil => simp [MarketDataGenerator.generateAll]
  | cons clock clocks ih =>
    obtain ⟨batch, hb⟩ := Batch.generate g clock
    have hrest := ih (h.generate clock)
    rw [hb.messages, List.length_append, hb.length, h.numMessages] at hrest
    rw [List.length_cons, Nat.succ_mul]
    exact hrest.trans (by omega)

end Between

/-- The distinct order ids of a feed. -/
def distinctIds (msgs : List MarketMessage) : Finset UInt64 := (msgs.map MarketMessage.orderId).toFinset

theorem GeneratedFeed.card_distinctIds_le {n : UInt64} {msgs : List MarketMessage} (h : GeneratedFeed n msgs) :
    (distinctIds msgs).card ≤ min 10000 (min n.toNat msgs.length) := by
  have hsub : distinctIds msgs ⊆ cycleIds (min 10000 n.toNat) := by
    intro id hid
    rw [distinctIds, List.mem_toFinset, List.mem_map] at hid
    obtain ⟨msg, hm, rfl⟩ := hid
    exact h.orderIds msg hm
  have hcycle := (Finset.card_le_card hsub).trans (card_cycleIds_le _)
  have hlen := (msgs.map MarketMessage.orderId).toFinset_card_le
  rw [List.length_map] at hlen
  rw [distinctIds] at hcycle ⊢
  omega

end LatencyLab
