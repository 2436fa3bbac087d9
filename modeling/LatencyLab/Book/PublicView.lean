import LatencyLab.Book.WellFormed
import LatencyLab.Keyed.OrderedMap

/-! What a caller of `OrderBook` can observe, as functions of the live orders in
arrival order: the counts, and the best level of each side with its ids in time
priority. -/

namespace LatencyLab

open Std Keyed ReferenceBook

namespace ReferenceBook

/-- The distinct prices with a live order of one side. -/
def prices (r : ReferenceBook) (buy : Bool) : Finset Int64 :=
  ((r.rows.filter (·.isBuy = buy)).map Order.price).toFinset

theorem mem_prices {r : ReferenceBook} {buy : Bool} {p : Int64} :
    p ∈ r.prices buy ↔ ∃ o ∈ r.rows, o.isBuy = buy ∧ o.price = p := by
  simp [prices, and_assoc]

theorem level_eq_nil_iff {r : ReferenceBook} {buy : Bool} {p : Int64} :
    r.level buy p = [] ↔ p ∉ r.prices buy := by
  rw [mem_prices, List.eq_nil_iff_forall_not_mem]
  simp only [mem_level, not_exists, not_and]

/-- `l` is the level of one side whose price no other live price of the side
`better`s, with its ids in arrival order and its aggregate in 32 bits. -/
structure IsBest (r : ReferenceBook) (buy : Bool) (noBetter : Int64 → Int64 → Prop) (l : PriceLevel) :
    Prop where
  live : ∃ o ∈ r.rows, o.isBuy = buy ∧ o.price = l.price
  best : ∀ o ∈ r.rows, o.isBuy = buy → noBetter l.price o.price
  ids : l.orderIds = (r.level buy l.price).map Order.orderId
  aggregate : l.totalQuantity.toNat = exactTotal (r.level buy l.price) % 2 ^ 32

end ReferenceBook

/-- The public view of `b` is the one `r` determines. -/
structure PublicView (b : OrderBook) (r : ReferenceBook) : Prop where
  orders_size : b.orderMap_.size = r.rows.length
  totalOrders : b.totalOrders = UInt64.ofNat r.rows.length
  buySideLevels : b.buySideLevels.toNat = (r.prices true).card % 2 ^ 32
  sellSideLevels : b.sellSideLevels.toNat = (r.prices false).card % 2 ^ 32
  bestBid_none : b.bestBid = none ↔ ∀ o ∈ r.rows, o.side ≠ .buy
  bestBid_some : ∀ l, b.bestBid = some l → r.IsBest true (· ≥ ·) l
  bestAsk_none : b.bestAsk = none ↔ ∀ o ∈ r.rows, o.side = .buy
  bestAsk_some : ∀ l, b.bestAsk = some l → r.IsBest false (· ≤ ·) l

section Side

variable {cmp : Int64 → Int64 → Ordering} [TransCmp cmp] [LawfulEqCmp cmp]
variable {m : SideMap cmp} {r : ReferenceBook} {buy : Bool}

omit [LawfulEqCmp cmp] in
theorem Lists.mem_iff (h : Lists m r buy) (p : Int64) : p ∈ m ↔ p ∈ r.prices buy := by
  rw [ExtTreeMap.mem_iff_isSome_getElem?, ← Option.isSome_iff_ne_none.symm, Ne, h.absent, level_eq_nil_iff,
    not_not]

theorem Lists.size_eq (h : Lists m r buy) : m.size = (r.prices buy).card := size_eq_card m h.mem_iff

theorem Lists.front_eq_none_iff (h : Lists m r buy) :
    m.front = none ↔ ∀ o ∈ r.rows, o.isBuy ≠ buy := by
  rw [SideMap.front, Option.map_eq_none_iff, head_toList_eq_none_iff]
  simp only [h.mem_iff, mem_prices]
  constructor
  · intro hn o ho hb
    exact hn o.price ⟨o, ho, hb, rfl⟩
  · rintro hn p ⟨o, ho, hb, -⟩
    exact hn o ho hb

/-- The level at `begin()` is the best of its side in the order of the map. -/
theorem Lists.front_isBest (h : Lists m r buy) (ht : Totals m r buy) {l : PriceLevel}
    (hl : m.front = some l) : r.IsBest buy (fun p p' => (cmp p p').isLE) l := by
  obtain ⟨⟨p, l'⟩, hhead, rfl⟩ := Option.map_eq_some_iff.mp hl
  obtain ⟨hget, hmin⟩ := of_head_toList hhead
  obtain ⟨rfl, hids⟩ := h.shows _ _ hget
  have hmem : l'.price ∈ r.prices buy := by
    rw [← h.mem_iff]
    simp [ExtTreeMap.mem_iff_isSome_getElem?, hget]
  refine ⟨mem_prices.mp hmem, ?_, hids, ?_⟩
  · intro o ho hb
    exact hmin _ ((h.mem_iff _).mpr (mem_prices.mpr ⟨o, ho, hb, rfl⟩))
  · rw [ht _ _ hget, toNat_total]

end Side

theorem Represents.size_orderMap {b : OrderBook} {r : ReferenceBook} (h : Represents b r) :
    b.orderMap_.size = r.rows.length := size_eq_rows _ r fun id => by rw [h.orders]

theorem Represents.publicView {b : OrderBook} {r : ReferenceBook} (h : Represents b r) :
    PublicView b r where
  orders_size := h.size_orderMap
  totalOrders := by rw [OrderBook.totalOrders, h.size_orderMap]
  buySideLevels := by rw [OrderBook.buySideLevels, h.bids.size_eq, UInt32.toNat_ofNat']
  sellSideLevels := by rw [OrderBook.sellSideLevels, h.asks.size_eq, UInt32.toNat_ofNat']
  bestBid_none := by
    rw [OrderBook.bestBid, h.bids.front_eq_none_iff]
    simp [Order.isBuy]
  bestBid_some l hl := by
    obtain ⟨hlive, hbest, hids, hagg⟩ := h.bids.front_isBest h.bidTotals hl
    exact ⟨hlive, fun o ho hb => by simpa [greater, Std.isLE_compare] using hbest o ho hb, hids, hagg⟩
  bestAsk_none := by
    rw [OrderBook.bestAsk, h.asks.front_eq_none_iff]
    simp [Order.isBuy]
  bestAsk_some l hl := by
    obtain ⟨hlive, hbest, hids, hagg⟩ := h.asks.front_isBest h.askTotals hl
    exact ⟨hlive, fun o ho hb => by simpa [less, Std.isLE_compare] using hbest o ho hb, hids, hagg⟩

/-- After any feed the public view of `OrderBook` is that of the reference book. -/
theorem run_publicView (msgs : List MarketMessage) :
    PublicView (OrderBook.empty.run msgs) (ReferenceBook.run KeyedList.empty msgs) :=
  (Represents.empty.run msgs).publicView

end LatencyLab
