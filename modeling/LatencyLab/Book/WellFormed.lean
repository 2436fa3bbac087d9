import LatencyLab.Book.Refinement

/-! The representation invariant of `OrderBook`, in terms of its own containers:
the order map, the level tables and the id lists hold overlapping copies of the
same facts, and after any feed the copies agree. -/

namespace LatencyLab

open Std Keyed ReferenceBook

namespace OrderBook

/-- The level stored under a price on one side. -/
def levelAt (b : OrderBook) (buy : Bool) (price : Int64) : Option PriceLevel :=
  if buy then b.bids_[price]? else b.asks_[price]?

/-- The remaining quantity of a live order. -/
def quantityOf (b : OrderBook) (id : UInt64) : ℕ :=
  (b.orderMap_[id]?.map (·.quantity.toNat)).getD 0

structure WellFormed (b : OrderBook) : Prop where
  key_eq : ∀ id (o : Order), b.orderMap_[id]? = some o → o.orderId = id
  listed_once : ∀ id (o : Order), b.orderMap_[id]? = some o →
    ∃ l, b.levelAt o.isBuy o.price = some l ∧ l.orderIds.count id = 1
  listed_nowhere_else : ∀ id (o : Order) buy p l, b.orderMap_[id]? = some o →
    b.levelAt buy p = some l → id ∈ l.orderIds → buy = o.isBuy ∧ p = o.price
  listed_live : ∀ buy p l id, b.levelAt buy p = some l → id ∈ l.orderIds →
    ∃ o, b.orderMap_[id]? = some o ∧ o.isBuy = buy ∧ o.price = p
  level_price : ∀ buy p l, b.levelAt buy p = some l → l.price = p
  level_nonempty : ∀ buy p l, b.levelAt buy p = some l → l.orderIds ≠ []
  level_nodup : ∀ buy p l, b.levelAt buy p = some l → l.orderIds.Nodup
  aggregate : ∀ buy p l, b.levelAt buy p = some l →
    l.totalQuantity.toNat = (l.orderIds.map b.quantityOf).sum % 2 ^ 32

end OrderBook

namespace Represents

variable {b : OrderBook} {r : ReferenceBook}

theorem levelAt_eq_none_iff (h : Represents b r) {buy : Bool} {p : Int64} :
    b.levelAt buy p = none ↔ r.level buy p = [] := by
  cases buy
  · exact h.asks.absent p
  · exact h.bids.absent p

/-- A stored level shows the orders resting there. -/
theorem of_levelAt (h : Represents b r) {buy : Bool} {p : Int64} {l : PriceLevel}
    (hl : b.levelAt buy p = some l) :
    l.price = p ∧ l.orderIds = (r.level buy p).map Order.orderId ∧
      l.totalQuantity = total (r.level buy p) ∧ r.level buy p ≠ [] := by
  have hne : r.level buy p ≠ [] := by
    rw [Ne, ← h.levelAt_eq_none_iff, hl]
    simp
  cases buy
  · obtain ⟨hp, hids⟩ := h.asks.shows p l hl
    exact ⟨hp, hids, h.askTotals p l hl, hne⟩
  · obtain ⟨hp, hids⟩ := h.bids.shows p l hl
    exact ⟨hp, hids, h.bidTotals p l hl, hne⟩

theorem exists_levelAt (h : Represents b r) {id : UInt64} {o : Order} (ho : r.lookup id = some o) :
    ∃ l, b.levelAt o.isBuy o.price = some l := by
  apply Option.ne_none_iff_exists'.mp
  rw [Ne, h.levelAt_eq_none_iff]
  exact List.ne_nil_of_mem (mem_of_lookup (lookup_level ho)).1

theorem quantityOf_eq (h : Represents b r) {o : Order} (ho : o ∈ r.rows) :
    b.quantityOf o.orderId = o.quantity.toNat := by
  have := r.lookup_eq_some.mpr ⟨ho, rfl⟩
  simp [OrderBook.quantityOf, h.orders, this]

/-- Summing over the listed ids is summing over the level. -/
theorem sum_quantityOf (h : Represents b r) (buy : Bool) (p : Int64) :
    (((r.level buy p).map Order.orderId).map b.quantityOf).sum = exactTotal (r.level buy p) := by
  rw [List.map_map, exactTotal]
  congr 1
  apply List.map_congr_left
  intro o ho
  exact h.quantityOf_eq (mem_level.mp ho).1

theorem mem_ids_iff {buy : Bool} {p : Int64} {id : UInt64} :
    id ∈ (r.level buy p).map Order.orderId ↔ ∃ o, r.lookup id = some o ∧ o.isBuy = buy ∧ o.price = p := by
  simp only [List.mem_map, mem_level, r.lookup_eq_some]
  constructor
  · rintro ⟨o, ⟨hm, hb, hp⟩, hid⟩
    exact ⟨o, ⟨hm, hid⟩, hb, hp⟩
  · rintro ⟨o, ⟨hm, hid⟩, hb, hp⟩
    exact ⟨o, ⟨hm, hb, hp⟩, hid⟩

theorem wellFormed (h : Represents b r) : b.WellFormed where
  key_eq id o ho := orderId_of_lookup (by rw [← h.orders, ho])
  listed_once id o ho := by
    rw [h.orders] at ho
    obtain ⟨l, hl⟩ := h.exists_levelAt ho
    refine ⟨l, hl, ?_⟩
    rw [(h.of_levelAt hl).2.1]
    exact List.count_eq_one_of_mem (r.level_distinct _ _) (mem_ids_iff.mpr ⟨o, ho, rfl, rfl⟩)
  listed_nowhere_else id o buy p l ho hl hid := by
    rw [h.orders] at ho
    rw [(h.of_levelAt hl).2.1, mem_ids_iff] at hid
    obtain ⟨o', ho', hb, hp⟩ := hid
    cases ho.symm.trans ho'
    exact ⟨hb.symm, hp.symm⟩
  listed_live buy p l id hl hid := by
    rw [(h.of_levelAt hl).2.1, mem_ids_iff] at hid
    simpa only [h.orders] using hid
  level_price buy p l hl := (h.of_levelAt hl).1
  level_nonempty buy p l hl := by
    obtain ⟨-, hids, -, hne⟩ := h.of_levelAt hl
    rw [hids, Ne, List.map_eq_nil_iff]
    exact hne
  level_nodup buy p l hl := by
    rw [(h.of_levelAt hl).2.1]
    exact r.level_distinct _ _
  aggregate buy p l hl := by
    obtain ⟨-, hids, htotal, -⟩ := h.of_levelAt hl
    rw [hids, h.sum_quantityOf, htotal, toNat_total]

end Represents

/-- The containers of `OrderBook` agree in every reachable state. -/
theorem run_wellFormed (msgs : List MarketMessage) : (OrderBook.empty.run msgs).WellFormed :=
  (Represents.empty.run msgs).wellFormed

end LatencyLab
