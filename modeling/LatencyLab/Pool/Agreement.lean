import LatencyLab.Pool.Accounting
import LatencyLab.Pool.Aggregates

/-! `PooledOrderBook` against `OrderBook`. The pooled book drops fresh Adds when
its pool is empty; on the feed without those Adds the plain book ends in the same
state. Both stand for the same reference book after every message, although
Modify is computed differently, as long as the level sums fit 32 bits: a clamped
Modify needs a level that has wrapped. -/

namespace LatencyLab

open Std Keyed ReferenceBook Transition

namespace PooledOrderBook

/-- The live orders, in no particular order. -/
def liveOrders (b : PooledOrderBook) : List Order :=
  b.orderMap_.toList.filterMap fun e => b.orderPool_.deref e.2

/-- The exact sum of the live quantities at one side and price. -/
def liveQuantity (b : PooledOrderBook) (buy : Bool) (price : Int64) : ℕ :=
  exactTotal (b.liveOrders.filter (·.restsAt buy price))

/-- Every level's exact aggregate fits its declared type. -/
def LevelsFit (b : PooledOrderBook) : Prop := ∀ buy price, b.liveQuantity buy price ≤ 2 ^ 32 - 1

/-- An Add whose id is not live, while `n` orders are. -/
def Exhausts (b : PooledOrderBook) (n : UInt64) (msg : MarketMessage) : Prop :=
  msg.type = .add ∧ msg.orderId ∉ b.orderMap_ ∧ b.orderMap_.size = n.toNat

instance (b : PooledOrderBook) (n : UInt64) (msg : MarketMessage) : Decidable (b.Exhausts n msg) :=
  inferInstanceAs (Decidable (_ ∧ _ ∧ _))

/-- The feed without the Adds that a book of capacity `n` in state `b` drops. -/
def admitted (n : UInt64) (b : PooledOrderBook) : List MarketMessage → List MarketMessage
  | [] => []
  | msg :: msgs =>
    let rest := (b.onMessage msg).elim [] fun b' => admitted n b' msgs
    if b.Exhausts n msg then rest else msg :: rest

end PooledOrderBook

section Fit

variable {b : PooledOrderBook} {r : ReferenceBook} {n : ℕ}

theorem Holds.liveOrders_perm (h : Holds b r n) : b.liveOrders.Perm r.rows := by
  have hlook : ∀ e ∈ b.orderMap_.toList, ∃ o, r.lookup e.1 = some o ∧ b.orderPool_.deref e.2 = some o := by
    rintro ⟨id, q⟩ he
    rw [ExtTreeMap.mem_toList_iff_getElem?_eq_some] at he
    exact h.pointers.lookup_of he
  have hids : b.liveOrders.map Order.orderId = b.orderMap_.keys := by
    rw [PooledOrderBook.liveOrders, List.map_filterMap, ← ExtTreeMap.map_fst_toList_eq_keys,
      ← List.filterMap_eq_map]
    apply List.filterMap_congr
    intro e he
    obtain ⟨o, ho, hd⟩ := hlook e he
    simp [hd, orderId_of_lookup ho]
  refine r.perm_rows (hids ▸ keys_nodup b.orderMap_) fun o => ?_
  rw [PooledOrderBook.liveOrders, List.mem_filterMap]
  constructor
  · rintro ⟨e, he, hd⟩
    obtain ⟨o', ho', hd'⟩ := hlook e he
    cases hd.symm.trans hd'
    rw [orderId_of_lookup ho']
    exact ho'
  · intro ho
    obtain ⟨q, hq, hd⟩ := h.pointers.of_lookup ho
    exact ⟨(o.orderId, q), ExtTreeMap.mem_toList_iff_getElem?_eq_some.mpr hq, hd⟩

theorem Holds.liveQuantity_eq (h : Holds b r n) (buy : Bool) (price : Int64) :
    b.liveQuantity buy price = exactTotal (r.level buy price) :=
  ((h.liveOrders_perm.filter _).map _).sum_eq

theorem Holds.levelsFit_of_rows (h : Holds b r n) (hr : exactTotal r.rows ≤ 2 ^ 32 - 1) :
    b.LevelsFit := by
  intro buy price
  rw [h.liveQuantity_eq]
  exact (r.level_le_rows buy price).trans hr

/-- No Modify is clamped at a level whose sum fits: the sum covers each order. -/
theorem Holds.not_clamped (h : Holds b r n) (hagg : Aggregates b r) (hfit : b.LevelsFit)
    (msg : MarketMessage) : ¬b.ClampedModify msg := by
  rintro ⟨-, o, l, ho, hl, hlt⟩
  rw [orderOf_eq h.pointers] at ho
  have hle := quantity_le_level ho
  have hsum := hfit o.isBuy o.price
  rw [h.liveQuantity_eq] at hsum
  rw [aggregates_iff.mp hagg _ _ l hl, toNat_total, Nat.mod_eq_of_lt (by omega)] at hlt
  omega

end Fit

/-! ### The pair of runs -/

section Agreement

variable {b : PooledOrderBook} {c : OrderBook} {r : ReferenceBook} {n : UInt64}

/-- The two books show the same live orders, level tables and public view. -/
structure Agrees (b : PooledOrderBook) (c : OrderBook) : Prop where
  orders : ∀ id, b.orderOf id = c.orderMap_[id]?
  bids : b.bids_ = c.bids_
  asks : b.asks_ = c.asks_
  totalOrders : b.totalOrders = c.totalOrders
  buySideLevels : b.buySideLevels = c.buySideLevels
  sellSideLevels : b.sellSideLevels = c.sellSideLevels
  bestBid : b.bestBid = c.bestBid
  bestAsk : b.bestAsk = c.bestAsk

/-- Both books stand for the same live orders. -/
structure Locked (b : PooledOrderBook) (c : OrderBook) (r : ReferenceBook) (n : UInt64) : Prop where
  holds : Holds b r n.toNat
  aggregates : Aggregates b r
  represents : Represents c r

theorem Locked.make (data : ℕ) (n : UInt64) :
    Locked (PooledOrderBook.make data n) OrderBook.empty KeyedList.empty n :=
  ⟨Holds.make data n, Aggregates.make data n, Represents.empty⟩

theorem Locked.agrees (h : Locked b c r n) : Agrees b c := by
  have hbids := h.holds.bids.unique h.represents.bids h.aggregates.bids h.represents.bidTotals
  have hasks := h.holds.asks.unique h.represents.asks h.aggregates.asks h.represents.askTotals
  refine ⟨fun id => ?_, hbids, hasks, ?_, ?_, ?_, ?_, ?_⟩
  · rw [orderOf_eq h.holds.pointers, h.represents.orders]
  · rw [PooledOrderBook.totalOrders, OrderBook.totalOrders, h.holds.pointers.size_eq,
      h.represents.size_orderMap]
  · rw [PooledOrderBook.buySideLevels, OrderBook.buySideLevels, hbids]
  · rw [PooledOrderBook.sellSideLevels, OrderBook.sellSideLevels, hasks]
  · rw [PooledOrderBook.bestBid, OrderBook.bestBid, hbids]
  · rw [PooledOrderBook.bestAsk, OrderBook.bestAsk, hasks]

theorem Holds.exhausts_iff (h : Holds b r n.toNat) (msg : MarketMessage) :
    b.Exhausts n msg ↔ r.Drops n.toNat msg := by
  rw [PooledOrderBook.Exhausts, ReferenceBook.Drops, h.pointers.mem_iff, h.pointers.size_eq]

/-- One message. The plain book gets it only if the pooled book does not drop it. -/
theorem Locked.onMessage (h : Locked b c r n) (hfit : b.LevelsFit) (msg : MarketMessage) :
    ∃ b', b.onMessage msg = some b' ∧
      Locked b' (if b.Exhausts n msg then c else c.onMessage msg) (r.applyUpTo n.toNat msg) n ∧
      b'.poolExhaustions_ = b.poolExhaustions_ + if b.Exhausts n msg then 1 else 0 := by
  obtain ⟨b', he, hr⟩ := h.holds.onMessage msg
  have hagg := (hr.aggregates h.aggregates).mpr (h.holds.not_clamped h.aggregates hfit msg)
  refine ⟨b', he, ⟨hr.holds, hagg, ?_⟩, ?_⟩
  · simp only [h.holds.exhausts_iff, applyUpTo]
    split_ifs
    · exact h.represents
    · exact h.represents.onMessage msg
  · simp only [h.holds.exhausts_iff]
    exact hr.exhaustions

theorem length_admitted_le (n : UInt64) (b : PooledOrderBook) (msgs : List MarketMessage) :
    (b.admitted n msgs).length ≤ msgs.length := by
  induction msgs generalizing b with
  | nil => exact le_rfl
  | cons msg msgs ih =>
    have hrest : ((b.onMessage msg).elim [] fun b' => b'.admitted n msgs).length ≤ msgs.length := by
      cases b.onMessage msg with
      | none => exact Nat.zero_le _
      | some b' => exact ih b'
    rw [PooledOrderBook.admitted]
    split_ifs
    · exact hrest.trans (Nat.le_succ _)
    · exact Nat.succ_le_succ hrest

/-- One feed: the plain book runs on the admitted messages. -/
theorem Locked.run (h : Locked b c r n) {msgs : List MarketMessage}
    (hfit : ∀ pre b', pre <+: msgs → b.run pre = some b' → b'.LevelsFit) :
    ∃ b' r', b.run msgs = some b' ∧ Locked b' (c.run (b.admitted n msgs)) r' n ∧
      b'.poolExhaustions_ =
        b.poolExhaustions_ + UInt64.ofNat (msgs.length - (b.admitted n msgs).length) := by
  induction msgs generalizing b c r with
  | nil => exact ⟨b, r, rfl, h, by simp [PooledOrderBook.admitted]⟩
  | cons msg msgs ih =>
    obtain ⟨b₁, he, h₁, hcount⟩ := h.onMessage (hfit [] b List.nil_prefix rfl) msg
    have hcons : ∀ pre, b.run (msg :: pre) = b₁.run pre := by
      intro pre
      rw [PooledOrderBook.run, exec_cons, he]
      rfl
    obtain ⟨b', r', hrun, h', hcount'⟩ := ih h₁ fun pre b' hpre hb' =>
      hfit (msg :: pre) b' (List.cons_prefix_cons.mpr ⟨rfl, hpre⟩) ((hcons pre).trans hb')
    have hle := length_admitted_le n b₁ msgs
    refine ⟨b', r', (hcons msgs).trans hrun, ?_, ?_⟩
    · simp only [PooledOrderBook.admitted, he, Option.elim_some]
      split_ifs at h' ⊢
      · exact h'
      · exact h'
    · rw [hcount', hcount]
      simp only [PooledOrderBook.admitted, he, Option.elim_some, List.length_cons]
      split_ifs
      · rw [Nat.succ_sub hle, Nat.succ_eq_add_one, UInt64.ofNat_add, UInt64.ofNat_one]
        abel
      · rw [List.length_cons, Nat.add_sub_add_right, add_zero]

end Agreement

section Feed

variable {data : ℕ} {n : UInt64} {msgs : List MarketMessage}

/-- **Agreement.** On a feed whose level sums fit along the pooled run, the pooled
book ends like the plain book on the admitted messages, and counts the others. -/
theorem pooled_agrees
    (hfit : ∀ pre b, pre <+: msgs → PooledAfter data n pre b → b.LevelsFit) :
    ∃ b, PooledAfter data n msgs b ∧
      Agrees b (bookAfter ((PooledOrderBook.make data n).admitted n msgs)) ∧
      b.poolExhaustions =
        UInt64.ofNat (msgs.length - ((PooledOrderBook.make data n).admitted n msgs).length) ∧
      (msgs.length < 2 ^ 64 → b.poolExhaustions.toNat =
        msgs.length - ((PooledOrderBook.make data n).admitted n msgs).length) := by
  obtain ⟨b, r, hrun, h, hcount⟩ := (Locked.make data n).run hfit
  have hcount' : b.poolExhaustions =
      UInt64.ofNat (msgs.length - ((PooledOrderBook.make data n).admitted n msgs).length) :=
    hcount.trans (zero_add _)
  refine ⟨b, hrun, h.agrees, hcount', fun hlen => ?_⟩
  rw [hcount', UInt64.toNat_ofNat', Nat.mod_eq_of_lt (by omega)]

/-- A feed whose live orders never sum past 32 bits fits at every level. -/
theorem pooledFits_of_rows
    (h : ∀ pre ∈ msgs.inits,
      exactTotal (ReferenceBook.runUpTo n.toNat KeyedList.empty pre).rows ≤ 2 ^ 32 - 1)
    {pre : List MarketMessage} {b : PooledOrderBook} (hpre : pre <+: msgs)
    (hb : PooledAfter data n pre b) : b.LevelsFit := by
  obtain ⟨b', hb', h'⟩ := (Holds.make data n).run pre
  cases hb.symm.trans hb'
  exact h'.levelsFit_of_rows (h pre ((List.mem_inits _ _).mpr hpre))

/-- A second order that finds the pool of one empty, then messages about both. -/
def exhaustFeed : List MarketMessage :=
  [orderMessage .add 1 .buy 100 10, orderMessage .add 2 .sell 101 7, orderMessage .modify 2 .sell 101 9,
    orderMessage .trade 1 .buy 100 4]

theorem pooled_agrees_exhaustFeed :
    ∃ b, PooledAfter 0 1 exhaustFeed b ∧
      Agrees b (bookAfter ((PooledOrderBook.make 0 1).admitted 1 exhaustFeed)) ∧
      b.poolExhaustions =
        UInt64.ofNat (exhaustFeed.length - ((PooledOrderBook.make 0 1).admitted 1 exhaustFeed).length) ∧
      (exhaustFeed.length < 2 ^ 64 → b.poolExhaustions.toNat =
        exhaustFeed.length - ((PooledOrderBook.make 0 1).admitted 1 exhaustFeed).length) :=
  pooled_agrees fun _ _ hpre hb => pooledFits_of_rows (by decide) hpre hb

example : ((PooledOrderBook.make 0 1).admitted 1 exhaustFeed).length = 3 := by decide

end Feed

end LatencyLab
