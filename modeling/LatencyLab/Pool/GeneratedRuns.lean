import LatencyLab.Book.ExactArithmetic
import LatencyLab.Market.GeneratedFeed
import LatencyLab.Pool.Agreement

/-! Both books on generated feeds. The ids of a feed bound the number of live orders
and the quantities bound each of them, so all aggregates are exact and far below
`2 ^ 31`, and a pool with a slot for every id is never empty when one is wanted. -/

namespace LatencyLab

open Std Keyed ReferenceBook Transition

namespace OrderBook

/-- The live order of an id. -/
def orderOf (b : OrderBook) (id : UInt64) : Option Order := b.orderMap_[id]?

/-- Every aggregate is the exact sum of its live quantities, below `2 ^ 31`. -/
def Exact (b : OrderBook) : Prop :=
  ∀ buy p l, b.levelAt buy p = some l →
    l.totalQuantity.toNat = b.liveQuantity buy p ∧ b.liveQuantity buy p < 2 ^ 31

end OrderBook

namespace PooledOrderBook

/-- Every aggregate is the exact sum of its live quantities, below `2 ^ 31`. -/
def Exact (b : PooledOrderBook) : Prop :=
  ∀ buy p l, b.levelAt buy p = some l →
    l.totalQuantity.toNat = b.liveQuantity buy p ∧ b.liveQuantity buy p < 2 ^ 31

end PooledOrderBook

/-- A message about one of `ids`, of a positive quantity up to `bound`. -/
structure Small (ids : Finset UInt64) (bound : ℕ) (msg : MarketMessage) : Prop where
  orderId : msg.orderId ∈ ids
  pos : 0 < msg.quantity.toNat
  quantity : msg.quantity.toNat ≤ bound

section

variable {ids : Finset UInt64} {bound : ℕ} {r : ReferenceBook} {msg : MarketMessage}

/-- Exact arithmetic leaves nothing for the casts of Modify to go wrong with. -/
theorem ExactArithmetic.modifyInRange {b : OrderBook} (h : ExactArithmetic b.orderOf b.levelAt msg) :
    b.ModifyInRange msg := by
  intro hm o l ho hl
  obtain ⟨hlo, hhi⟩ := h.modify hm o l ho hl
  obtain ⟨hnew, hold, htotal⟩ := h.casts hm o l ho hl
  rw [castInt32_eq, castInt32_eq, castInt32_eq, if_pos hnew, if_pos hold, if_pos htotal]
  unfold FitsInt32
  omega

theorem Within.total_eq (h : Within r ids bound) (hsmall : ids.card * bound < 2 ^ 31) (buy : Bool)
    (p : Int64) : (total (r.level buy p)).toNat = exactTotal (r.level buy p) := by
  have hle := h.exactTotal_level_le buy p
  rw [toNat_total]
  exact Nat.mod_eq_of_lt (by omega)

end

/-! ### The plain book -/

section Plain

variable {ids : Finset UInt64} {bound : ℕ} {b : OrderBook} {r : ReferenceBook} {msg : MarketMessage}

theorem Represents.totalQuantity_eq (h : Represents b r) (hw : Within r ids bound)
    (hsmall : ids.card * bound < 2 ^ 31) (buy : Bool) (p : Int64) (l : PriceLevel)
    (hl : b.levelAt buy p = some l) : l.totalQuantity.toNat = exactTotal (r.level buy p) := by
  rw [(h.of_levelAt hl).2.2.1]
  exact hw.total_eq hsmall buy p

theorem Represents.exact (h : Represents b r) (hw : Within r ids bound)
    (hsmall : ids.card * bound < 2 ^ 31) : b.Exact := by
  intro buy p l hl
  have hle := hw.exactTotal_level_le buy p
  rw [h.liveQuantity_eq]
  exact ⟨h.totalQuantity_eq hw hsmall buy p l hl, by omega⟩

theorem Represents.exactArithmetic (h : Represents b r) (hw : Within r ids bound)
    (hsmall : ids.card * bound < 2 ^ 31) (hmsg : Small ids bound msg) :
    ExactArithmetic b.orderOf b.levelAt msg :=
  hw.exactArithmetic hsmall hmsg.orderId hmsg.pos hmsg.quantity h.orders
    fun buy p l => h.totalQuantity_eq hw hsmall buy p l

end Plain

/-! ### The pooled book -/

section Pooled

variable {ids : Finset UInt64} {bound : ℕ} {b : PooledOrderBook} {r : ReferenceBook} {n : UInt64}
variable {msg : MarketMessage}

/-- A pooled book whose few, small orders are aggregated without drift. -/
structure Steady (ids : Finset UInt64) (bound : ℕ) (n : UInt64) (b : PooledOrderBook) (r : ReferenceBook) :
    Prop where
  holds : Holds b r n.toNat
  aggregates : Aggregates b r
  within : Within r ids bound

theorem Steady.make (ids : Finset UInt64) (bound data : ℕ) (n : UInt64) :
    Steady ids bound n (PooledOrderBook.make data n) KeyedList.empty :=
  ⟨Holds.make data n, Aggregates.make data n, Within.empty ids bound⟩

theorem Within.applyUpTo (h : Within r ids bound) (hmsg : Small ids bound msg) (n : ℕ) :
    Within (r.applyUpTo n msg) ids bound := by
  unfold ReferenceBook.applyUpTo
  split_ifs
  · exact h
  · exact h.apply hmsg.orderId hmsg.quantity

theorem Steady.not_clamped (h : Steady ids bound n b r) (hsmall : ids.card * bound < 2 ^ 31)
    (msg : MarketMessage) : ¬b.ClampedModify msg := by
  have hle := h.within.exactTotal_le
  exact h.holds.not_clamped h.aggregates (h.holds.levelsFit_of_rows (by omega)) msg

/-- One message. -/
theorem Steady.onMessage (h : Steady ids bound n b r) (hsmall : ids.card * bound < 2 ^ 31)
    (hmsg : Small ids bound msg) :
    ∃ b', b.onMessage msg = some b' ∧ Steady ids bound n b' (r.applyUpTo n.toNat msg) ∧
      b'.poolExhaustions_ = b.poolExhaustions_ + if r.Drops n.toNat msg then 1 else 0 := by
  obtain ⟨b', he, hr⟩ := h.holds.onMessage msg
  have hagg := (hr.aggregates h.aggregates).mpr (h.not_clamped hsmall msg)
  exact ⟨b', he, ⟨hr.holds, hagg, h.within.applyUpTo hmsg n.toNat⟩, hr.exhaustions⟩

theorem Steady.totalQuantity_eq (h : Steady ids bound n b r) (hsmall : ids.card * bound < 2 ^ 31)
    (buy : Bool) (p : Int64) (l : PriceLevel) (hl : b.levelAt buy p = some l) :
    l.totalQuantity.toNat = exactTotal (r.level buy p) := by
  rw [aggregates_iff.mp h.aggregates buy p l hl]
  exact h.within.total_eq hsmall buy p

theorem Steady.exact (h : Steady ids bound n b r) (hsmall : ids.card * bound < 2 ^ 31) : b.Exact := by
  intro buy p l hl
  have hle := h.within.exactTotal_level_le buy p
  rw [h.holds.liveQuantity_eq]
  exact ⟨h.totalQuantity_eq hsmall buy p l hl, by omega⟩

theorem Steady.exactArithmetic (h : Steady ids bound n b r) (hsmall : ids.card * bound < 2 ^ 31)
    (hmsg : Small ids bound msg) : ExactArithmetic b.orderOf b.levelAt msg :=
  h.within.exactArithmetic hsmall hmsg.orderId hmsg.pos hmsg.quantity (orderOf_eq h.holds.pointers)
    fun buy p l => h.totalQuantity_eq hsmall buy p l

/-- A slot for every id is enough. -/
theorem Within.not_drops (h : Within r ids bound) (hmsg : Small ids bound msg) {n : ℕ}
    (hn : ids.card ≤ n) : ¬r.Drops n msg := by
  rintro ⟨-, hfresh, hfull⟩
  have hlt := h.length_lt hmsg.orderId hfresh
  omega

end Pooled

/-! ### Generated feeds -/

section Feed

variable {n capacity : UInt64} {data : ℕ} {msgs : List MarketMessage}

/-- Along a feed `OrderBook` only computes exactly. -/
structure ExactRun (msgs : List MarketMessage) : Prop where
  exact : ∀ pre, pre <+: msgs → (bookAfter pre).Exact
  arithmetic : ∀ pre msg, pre ++ [msg] <+: msgs →
    ExactArithmetic (bookAfter pre).orderOf (bookAfter pre).levelAt msg
  modifyInRange : ∀ pre msg, pre ++ [msg] <+: msgs → (bookAfter pre).ModifyInRange msg

/-- Along a feed `PooledOrderBook` is defined and only computes exactly. -/
structure PooledExactRun (data : ℕ) (capacity : UInt64) (msgs : List MarketMessage) : Prop where
  exact : ∀ pre, pre <+: msgs → ∃ b, PooledAfter data capacity pre b ∧ b.Exact
  arithmetic : ∀ pre msg, pre ++ [msg] <+: msgs → ∀ b, PooledAfter data capacity pre b →
    ExactArithmetic b.orderOf b.levelAt msg
  not_clamped : ∀ pre msg, pre ++ [msg] <+: msgs → ∀ b, PooledAfter data capacity pre b →
    ¬b.ClampedModify msg

/-- Along a feed `PooledOrderBook` never turns an Add down and shows what `OrderBook` shows. -/
def NeverExhausted (data : ℕ) (capacity : UInt64) (msgs : List MarketMessage) : Prop :=
  ∀ pre, pre <+: msgs → ∃ b, PooledAfter data capacity pre b ∧ b.poolExhaustions = 0 ∧
    Agrees b (bookAfter pre)

theorem GeneratedFeed.small (h : GeneratedFeed n msgs) {msg : MarketMessage} (hm : msg ∈ msgs) :
    Small (distinctIds msgs) 10099 msg where
  orderId := List.mem_toFinset.mpr (List.mem_map_of_mem hm)
  pos := Nat.lt_of_lt_of_le (by decide) (h.quantity_ge msg hm)
  quantity := Nat.le_of_lt_succ (h.quantity_lt msg hm)

theorem GeneratedFeed.card_mul_lt (h : GeneratedFeed n msgs) : (distinctIds msgs).card * 10099 < 2 ^ 31 := by
  have hcard := h.card_distinctIds_le
  omega

theorem GeneratedFeed.exactRun (h : GeneratedFeed n msgs) : ExactRun msgs := by
  have hsmall := h.card_mul_lt
  have hwithin : ∀ pre, pre <+: msgs → Within (refAfter pre) (distinctIds msgs) 10099 := by
    intro pre hpre
    refine (Within.empty _ _).run fun msg hm => ?_
    exact ⟨(h.small (hpre.subset hm)).orderId, (h.small (hpre.subset hm)).quantity⟩
  have harith : ∀ pre msg, pre ++ [msg] <+: msgs →
      ExactArithmetic (bookAfter pre).orderOf (bookAfter pre).levelAt msg := by
    intro pre msg hpre
    have hw := hwithin pre ((List.prefix_append pre [msg]).trans hpre)
    exact (bookAfter_represents pre).exactArithmetic hw hsmall (h.small (hpre.subset (by simp)))
  exact ⟨fun pre hpre => (bookAfter_represents pre).exact (hwithin pre hpre) hsmall, harith,
    fun pre msg hpre => (harith pre msg hpre).modifyInRange⟩

theorem GeneratedFeed.steady (h : GeneratedFeed n msgs) (data : ℕ) (capacity : UInt64)
    {pre : List MarketMessage} (hpre : pre <+: msgs) :
    ∃ b, PooledAfter data capacity pre b ∧
      Steady (distinctIds msgs) 10099 capacity b (runUpTo capacity.toNat KeyedList.empty pre) := by
  refine exec_refines_on (fun b r msg hm hs => ?_) (Steady.make _ _ data capacity)
  obtain ⟨b', he, hs', -⟩ := hs.onMessage h.card_mul_lt (h.small (hpre.subset hm))
  exact ⟨b', he, hs'⟩

theorem GeneratedFeed.pooledExactRun (h : GeneratedFeed n msgs) (data : ℕ) (capacity : UInt64) :
    PooledExactRun data capacity msgs := by
  have hsteady : ∀ pre msg, pre ++ [msg] <+: msgs → ∀ b, PooledAfter data capacity pre b →
      ∃ r, Steady (distinctIds msgs) 10099 capacity b r := by
    intro pre msg hpre b hb
    obtain ⟨b', hb', hs⟩ := h.steady data capacity ((List.prefix_append pre [msg]).trans hpre)
    cases hb.symm.trans hb'
    exact ⟨_, hs⟩
  refine ⟨fun pre hpre => ?_, fun pre msg hpre b hb => ?_, fun pre msg hpre b hb => ?_⟩
  · obtain ⟨b, hb, hs⟩ := h.steady data capacity hpre
    exact ⟨b, hb, hs.exact h.card_mul_lt⟩
  · obtain ⟨r, hs⟩ := hsteady pre msg hpre b hb
    exact hs.exactArithmetic h.card_mul_lt (h.small (hpre.subset (by simp)))
  · obtain ⟨r, hs⟩ := hsteady pre msg hpre b hb
    exact hs.not_clamped h.card_mul_lt msg

/-- With a slot for every id the bounded reference book is the plain one. -/
theorem GeneratedFeed.neverExhausted (h : GeneratedFeed n msgs) (data : ℕ)
    (hcapacity : (distinctIds msgs).card ≤ capacity.toNat) : NeverExhausted data capacity msgs := by
  intro pre hpre
  have hstep : ∀ b r, ∀ msg ∈ pre,
      Steady (distinctIds msgs) 10099 capacity b r ∧ b.poolExhaustions_ = 0 →
        ∃ b', b.onMessage msg = some b' ∧
          Steady (distinctIds msgs) 10099 capacity b' (r.apply msg) ∧ b'.poolExhaustions_ = 0 := by
    rintro b r msg hm ⟨hs, hzero⟩
    have hmsg := h.small (hpre.subset hm)
    obtain ⟨b', he, hs', hcount⟩ := hs.onMessage h.card_mul_lt hmsg
    have hroom := hs.within.not_drops hmsg hcapacity
    rw [ReferenceBook.applyUpTo, if_neg hroom] at hs'
    rw [hzero, if_neg hroom] at hcount
    exact ⟨b', he, hs', hcount⟩
  obtain ⟨b, hb, hs, hzero⟩ := exec_refines_on hstep ⟨Steady.make _ _ data capacity, rfl⟩
  have hlocked : Locked b (bookAfter pre) (refAfter pre) capacity :=
    ⟨hs.holds, hs.aggregates, bookAfter_represents pre⟩
  exact ⟨b, hb, hzero, hlocked.agrees⟩

/-- All messages after some calls of `generate`, from any seed. -/
def generatedFeed (n : UInt64) (symbol : List UInt8) (seed : UInt64) (clocks : List (ℕ → UInt64)) :
    List MarketMessage :=
  ({ MarketDataGenerator.make n symbol with seed_ := seed }.generateAll clocks).messages_

/-- **Generated feeds are within all bounds**, for every number of messages in a call,
seed, clock and number of calls: each call adds its number of messages, they are
numbered from 1, have at most 10000 order ids, never take either book out of exact
arithmetic, and never exhaust a pool with a slot for each id or message. -/
theorem generatedFeed_safe (n : UInt64) (symbol : List UInt8) (seed : UInt64)
    (clocks : List (ℕ → UInt64)) (data : ℕ) (capacity : UInt64) :
    (generatedFeed n symbol seed clocks).length = clocks.length * n.toNat ∧
      (∀ i msg, (generatedFeed n symbol seed clocks)[i]? = some msg →
        msg.sequenceNumber = UInt64.ofNat (i + 1)) ∧
      (distinctIds (generatedFeed n symbol seed clocks)).card ≤ 10000 ∧
      ExactRun (generatedFeed n symbol seed clocks) ∧
      PooledExactRun data capacity (generatedFeed n symbol seed clocks) ∧
      (min 10000 (min n.toNat (generatedFeed n symbol seed clocks).length) ≤ capacity.toNat →
        NeverExhausted data capacity (generatedFeed n symbol seed clocks)) := by
  have hfeed : GeneratedFeed n (generatedFeed n symbol seed clocks) :=
    ((Between.start n symbol seed).generateAll clocks).feed
  have hcard := hfeed.card_distinctIds_le
  have hlength := (Between.start n symbol seed).length_generateAll clocks
  exact ⟨hlength.trans (Nat.zero_add _), hfeed.sequenceNumbers, by omega, hfeed.exactRun,
    hfeed.pooledExactRun data capacity, fun hcapacity => hfeed.neverExhausted data (hcard.trans hcapacity)⟩

/-- Three messages in each of two calls, in a pool of three. -/
theorem generatedFeed_safe_three :
    NeverExhausted 0 3 (generatedFeed 3 [65] 12345 [fun _ => 0, fun _ => 1]) := by
  have hthree : (3 : UInt64).toNat = 3 := rfl
  refine (generatedFeed_safe 3 [65] 12345 [fun _ => 0, fun _ => 1] 0 3).2.2.2.2.2 ?_
  rw [hthree]
  omega

end Feed

end LatencyLab
