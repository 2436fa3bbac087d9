import LatencyLab.Book.PublicView
import LatencyLab.Transition.Exec
import Mathlib.Algebra.Order.BigOperators.Group.List
import Mathlib.Algebra.Order.Ring.Nat

/-! Ghost liquidity. Trade removes an order that reaches zero, Modify does not:
a Modify to quantity zero leaves a live order, and possibly a whole level, of
quantity zero. As long as the aggregates fit their 32 bits, that is the only way
an order of a feed of positive Adds becomes empty. -/

namespace LatencyLab

open Std Keyed ReferenceBook Transition

namespace OrderBook

/-- The live orders, in no particular order. -/
def liveOrders (b : OrderBook) : List Order := b.orderMap_.toList.map Prod.snd

/-- The exact sum of the live quantities at one side and price. -/
def liveQuantity (b : OrderBook) (buy : Bool) (price : Int64) : ℕ :=
  exactTotal (b.liveOrders.filter (·.restsAt buy price))

/-- Every level's exact aggregate fits its declared type. -/
def LevelsFit (b : OrderBook) : Prop := ∀ buy price, b.liveQuantity buy price ≤ 2 ^ 32 - 1

/-- Every live order and every stored level, the best ones among them, has
something left. -/
structure NoGhost (b : OrderBook) : Prop where
  orders : ∀ (id : UInt64) (o : Order), b.orderMap_[id]? = some o → 0 < o.quantity
  levels : ∀ buy p l, b.levelAt buy p = some l → 0 < l.totalQuantity
  bestBid : ∀ l, b.bestBid = some l → 0 < l.totalQuantity
  bestAsk : ∀ l, b.bestAsk = some l → 0 < l.totalQuantity

/-- The message sets a live order's quantity to zero without removing it. -/
def ZeroModify (b : OrderBook) (msg : MarketMessage) : Prop :=
  msg.type = .modify ∧ msg.quantity = 0 ∧ msg.orderId ∈ b.orderMap_

end OrderBook

namespace ReferenceBook

theorem perm_rows (r : ReferenceBook) {os : List Order} (hids : (os.map Order.orderId).Nodup)
    (hmem : ∀ o, o ∈ os ↔ r.lookup o.orderId = some o) : os.Perm r.rows := by
  refine (List.perm_ext_iff_of_nodup (List.Nodup.of_map _ hids) (List.Nodup.of_map _ r.distinct)).mpr fun o => ?_
  rw [hmem, r.lookup_eq_some]
  exact and_iff_left rfl

theorem quantity_le_level {r : ReferenceBook} {id : UInt64} {o : Order} (ho : r.lookup id = some o) :
    o.quantity.toNat ≤ exactTotal (r.level o.isBuy o.price) :=
  List.single_le_sum (fun _ _ => Nat.zero_le _) _ (List.mem_map_of_mem (mem_of_lookup (lookup_level ho)).1)

theorem level_le_rows (r : ReferenceBook) (buy : Bool) (price : Int64) :
    exactTotal (r.level buy price) ≤ exactTotal r.rows :=
  (List.filter_sublist.map _).sum_le_sum fun _ _ => Nat.zero_le _

end ReferenceBook

namespace Represents

variable {b : OrderBook} {r : ReferenceBook}

theorem liveOrders_perm (h : Represents b r) : b.liveOrders.Perm r.rows := by
  have hkey : ∀ p ∈ b.orderMap_.toList, p.2.orderId = p.1 := by
    rintro ⟨id, o⟩ hp
    rw [ExtTreeMap.mem_toList_iff_getElem?_eq_some, h.orders] at hp
    exact orderId_of_lookup hp
  have hids : b.liveOrders.map Order.orderId = b.orderMap_.keys := by
    rw [OrderBook.liveOrders, List.map_map, ← ExtTreeMap.map_fst_toList_eq_keys]
    exact List.map_congr_left hkey
  refine r.perm_rows (hids ▸ keys_nodup b.orderMap_) fun o => ?_
  constructor
  · intro ho
    obtain ⟨⟨id, o'⟩, hp, rfl⟩ := List.mem_map.mp ho
    rw [ExtTreeMap.mem_toList_iff_getElem?_eq_some, h.orders] at hp
    rw [orderId_of_lookup hp]
    exact hp
  · intro ho
    refine List.mem_map.mpr ⟨(o.orderId, o), ?_, rfl⟩
    rw [ExtTreeMap.mem_toList_iff_getElem?_eq_some, h.orders]
    exact ho

theorem liveQuantity_eq (h : Represents b r) (buy : Bool) (price : Int64) :
    b.liveQuantity buy price = exactTotal (r.level buy price) :=
  ((h.liveOrders_perm.filter _).map _).sum_eq

/-- No level holds more than the whole book. -/
theorem levelsFit_of_rows (h : Represents b r) (hr : exactTotal r.rows ≤ 2 ^ 32 - 1) :
    b.LevelsFit := by
  intro buy price
  rw [h.liveQuantity_eq]
  exact (r.level_le_rows buy price).trans hr

theorem totalQuantity_pos (h : Represents b r) (hfit : b.LevelsFit)
    (hpos : ∀ o ∈ r.rows, 0 < o.quantity) {buy : Bool} {p : Int64} {l : PriceLevel}
    (hl : b.levelAt buy p = some l) : 0 < l.totalQuantity := by
  obtain ⟨-, -, htotal, hne⟩ := h.of_levelAt hl
  obtain ⟨o, ho⟩ := List.exists_mem_of_ne_nil _ hne
  have hq : 0 < o.quantity.toNat := UInt32.lt_iff_toNat_lt.mp (hpos o (mem_level.mp ho).1)
  have hle : o.quantity.toNat ≤ exactTotal (r.level buy p) :=
    List.single_le_sum (fun _ _ => Nat.zero_le _) _ (List.mem_map_of_mem ho)
  have hlt := hfit buy p
  rw [h.liveQuantity_eq] at hlt
  rw [UInt32.lt_iff_toNat_lt, htotal, toNat_total, Nat.mod_eq_of_lt (by omega)]
  exact hq.trans_le hle

theorem noGhost_iff (h : Represents b r) (hfit : b.LevelsFit) :
    b.NoGhost ↔ ∀ o ∈ r.rows, 0 < o.quantity := by
  constructor
  · intro hn o ho
    exact hn.orders o.orderId o (by rw [h.orders]; exact r.lookup_eq_some.mpr ⟨ho, rfl⟩)
  · intro hpos
    have hlev : ∀ buy p l, b.levelAt buy p = some l → 0 < l.totalQuantity :=
      fun buy p l hl => h.totalQuantity_pos hfit hpos hl
    refine ⟨fun id o ho => ?_, hlev, fun l hl => ?_, fun l hl => ?_⟩
    · rw [h.orders] at ho
      exact hpos o (r.lookup_eq_some.mp ho).1
    · obtain ⟨⟨p, l⟩, hp, rfl⟩ := Option.map_eq_some_iff.mp hl
      exact hlev true p l (of_head_toList hp).1
    · obtain ⟨⟨p, l⟩, hp, rfl⟩ := Option.map_eq_some_iff.mp hl
      exact hlev false p l (of_head_toList hp).1

end Represents

namespace ReferenceBook

/-- Every live order has something left. -/
def AllPositive (r : ReferenceBook) : Prop := ∀ o ∈ r.rows, 0 < o.quantity

theorem AllPositive.add {r : ReferenceBook} (h : r.AllPositive) {msg : MarketMessage}
    (hq : 0 < msg.quantity) : (r.add msg).AllPositive := by
  intro o ho
  rcases of_mem_add ho with ho | rfl
  · exact h o ho
  · exact hq

/-- An edit keeps all quantities positive exactly when it gives none of zero. -/
theorem AllPositive.edit_iff {r : ReferenceBook} (h : r.AllPositive) (id : UInt64)
    (g : UInt32 → Option UInt32) :
    (r.edit id g).AllPositive ↔ ∀ o q, r.lookup id = some o → g o.quantity = some q → 0 < q := by
  constructor
  · intro hp o q ho hg
    have hnew : (r.edit id g).lookup id = some { o with quantity := q } := by
      rw [lookup_edit, if_pos rfl, ho]
      simp [Order.requantify, hg]
    exact hp _ ((r.edit id g).lookup_eq_some.mp hnew).1
  · intro hg o hm
    rcases of_mem_edit hm with ho | ⟨o', ho', hid, q, hq, rfl⟩
    · exact h o ho
    · exact hg o' q (r.lookup_eq_some.mpr ⟨ho', hid⟩) hq

end ReferenceBook

/-! ### Feeds -/

section Feed

variable {msgs : List MarketMessage}

/-- The state of `OrderBook` after a feed. -/
abbrev bookAfter (msgs : List MarketMessage) : OrderBook := OrderBook.empty.run msgs

abbrev refAfter (msgs : List MarketMessage) : ReferenceBook := ReferenceBook.run KeyedList.empty msgs

theorem bookAfter_represents (msgs : List MarketMessage) : Represents (bookAfter msgs) (refAfter msgs) :=
  Represents.empty.run msgs

theorem refAfter_snoc (msgs : List MarketMessage) (msg : MarketMessage) :
    refAfter (msgs ++ [msg]) = (refAfter msgs).apply msg := by
  simp [refAfter, ReferenceBook.run]

def PositiveAdds (msgs : List MarketMessage) : Prop := ∀ msg ∈ msgs, msg.type = .add → 0 < msg.quantity

instance : DecidablePred PositiveAdds := fun msgs =>
  inferInstanceAs (Decidable (∀ msg ∈ msgs, msg.type = .add → 0 < msg.quantity))

/-- The exact level sums fit `std::uint32_t` in every state passed through. -/
def FitsAlong (msgs : List MarketMessage) : Prop := ∀ pre, pre <+: msgs → (bookAfter pre).LevelsFit

theorem fill_pos {m q q' : UInt32} (h : fill m q = some q') : 0 < q' := by
  simp only [fill] at h
  split_ifs at h with h0
  cases h
  exact UInt32.pos_iff_ne_zero.mpr h0

theorem zeroModify_iff {b : OrderBook} {r : ReferenceBook} (h : Represents b r) (msg : MarketMessage) :
    b.ZeroModify msg ↔ msg.type = .modify ∧ msg.quantity = 0 ∧ ∃ o, r.lookup msg.orderId = some o := by
  rw [OrderBook.ZeroModify, ExtTreeMap.mem_iff_isSome_getElem?, h.orders, Option.isSome_iff_exists]

/-- One message keeps all orders positive unless it modifies one to zero. -/
theorem allPositive_apply_iff {b : OrderBook} {r : ReferenceBook} (h : Represents b r)
    (hr : r.AllPositive) {msg : MarketMessage} (hq : msg.type = .add → 0 < msg.quantity) :
    (r.apply msg).AllPositive ↔ ¬b.ZeroModify msg := by
  rw [zeroModify_iff h]
  by_cases hm : msg.type = .modify
  · rw [r.apply_of_modify hm, hr.edit_iff]
    simp only [hm, true_and, not_and, not_exists, Option.some.injEq]
    constructor
    · intro hp h0 o ho
      have := hp o msg.quantity ho rfl
      simp [h0] at this
    · rintro hz o q ho rfl
      exact UInt32.pos_iff_ne_zero.mpr fun h0 => hz h0 o ho
  · simp only [hm, false_and, not_false_eq_true, iff_true]
    unfold ReferenceBook.apply
    split_ifs with hadd
    · exact hr.add (hq hadd)
    · exact (hr.edit_iff _ _).mpr (by simp)
    · exact (hr.edit_iff _ _).mpr fun o q _ hf => fill_pos hf
    · exact hr

/-- **Ghost liquidity, exactly.** On a feed of positive Adds whose level sums fit,
every state passed through is free of empty orders and empty levels if and only
if no message modifies a live order to quantity zero. -/
theorem noGhost_along_iff (hadd : PositiveAdds msgs) (hfit : FitsAlong msgs) :
    (∀ pre, pre <+: msgs → (bookAfter pre).NoGhost) ↔
      ∀ pre msg, pre ++ [msg] <+: msgs → ¬(bookAfter pre).ZeroModify msg := by
  have hpos : ∀ pre, pre <+: msgs → ((bookAfter pre).NoGhost ↔ (refAfter pre).AllPositive) :=
    fun pre hpre => (bookAfter_represents pre).noGhost_iff (hfit pre hpre)
  refine along_iff ((hpos [] List.nil_prefix).mpr (by simp [AllPositive, refAfter, ReferenceBook.run])) ?_
  intro pre msg hpre hp
  have hpre' := (List.prefix_append pre [msg]).trans hpre
  rw [hpos _ hpre, refAfter_snoc]
  refine allPositive_apply_iff (bookAfter_represents pre) ((hpos pre hpre').mp hp) ?_
  exact hadd msg (hpre.subset (by simp))

/-- A feed whose rows never exceed 32 bits in all fits at every level. -/
theorem fitsAlong_of_rows (h : ∀ pre ∈ msgs.inits, exactTotal (refAfter pre).rows ≤ 2 ^ 32 - 1) :
    FitsAlong msgs :=
  fun pre hpre => (bookAfter_represents pre).levelsFit_of_rows (h pre ((List.mem_inits _ _).mpr hpre))

/-- Ten bought at 100, then partly traded. -/
def fillFeed : List MarketMessage :=
  [orderMessage .add 1 .buy 100 10, orderMessage .trade 1 .buy 100 4]

theorem noGhost_fillFeed :
    PositiveAdds fillFeed ∧ FitsAlong fillFeed ∧
      ∀ pre, pre <+: fillFeed → (bookAfter pre).NoGhost := by
  have hadd : PositiveAdds fillFeed := by decide
  have hfit : FitsAlong fillFeed := fitsAlong_of_rows (by decide)
  refine ⟨hadd, hfit, (noGhost_along_iff hadd hfit).mpr ?_⟩
  intro pre msg hpre hz
  have hm : msg ∈ fillFeed := hpre.subset (by simp)
  have hother : ∀ m ∈ fillFeed, m.type ≠ .modify := by decide
  exact hother msg hm hz.1

/-- Ten bought at 100, then modified to nothing. -/
def ghostFeed : List MarketMessage :=
  [orderMessage .add 1 .buy 100 10, orderMessage .modify 1 .buy 100 0]

/-- The best bid of `ghostFeed` is an empty level. -/
theorem ghostFeed_counterexample :
    PositiveAdds ghostFeed ∧ FitsAlong ghostFeed ∧
      (bookAfter ghostFeed).bestBid = some ⟨100, [1], 0⟩ ∧ ¬(bookAfter ghostFeed).NoGhost := by
  have hbid : (bookAfter ghostFeed).bestBid = some ⟨100, [1], 0⟩ := by decide
  refine ⟨by decide, fitsAlong_of_rows (by decide), hbid, fun h => ?_⟩
  exact absurd (h.bestBid _ hbid) (by decide)

end Feed

end LatencyLab
