import LatencyLab.Book.Streams

/-! The book from a snapshot. Level by level and in the order of arrival within a level,
the live orders are a feed of Adds; the book that this feed makes is the book they were
taken from, in every container and aggregate. No message of the feed that led to it is
needed any more: not what was cancelled or filled, and not what was modified. -/

namespace LatencyLab

open Std Keyed

/-- The Add that puts an order back. -/
def Order.addMessage (o : Order) : MarketMessage :=
  { MarketMessage.zero with
    orderId := o.orderId
    price := o.price
    quantity := o.quantity
    side := o.side
    type := .add }

theorem Order.ofMessage_addMessage (o : Order) : Order.ofMessage o.addMessage = o := rfl

namespace OrderBook

/-- The orders of one side, as Adds. -/
def sideSnapshot {cmp : Int64 → Int64 → Ordering} [TransCmp cmp] (orders : IdMap Order) (side : SideMap cmp) :
    List MarketMessage :=
  side.toList.flatMap fun e => e.2.orderIds.filterMap fun id => orders[id]?.map Order.addMessage

/-- The live orders, as Adds. -/
def snapshot (b : OrderBook) : List MarketMessage :=
  sideSnapshot b.orderMap_ b.bids_ ++ sideSnapshot b.orderMap_ b.asks_

end OrderBook

/-! ### Places -/

/-- Where an order rests. -/
def Order.place (o : Order) : Bool × Int64 := (o.isBuy, o.price)

namespace ReferenceBook

variable {r r' : ReferenceBook}

theorem level_eq_streamOf (r : ReferenceBook) (buy : Bool) (p : Int64) :
    r.level buy p = streamOf Order.place (buy, p) r.rows := by
  refine List.filter_congr fun o _ => ?_
  rw [Order.restsAt, Order.place, decide_eq_decide, Prod.mk.injEq]

theorem lookup_of_perm (h : r.rows.Perm r'.rows) (id : UInt64) : r.lookup id = r'.lookup id := by
  apply Option.ext
  intro o
  rw [r.lookup_eq_some, r'.lookup_eq_some, h.mem_iff]

/-- Adds of fresh orders put them behind the others. -/
theorem rows_run_adds {orders : List Order} (h : ((r.rows ++ orders).map Order.orderId).Nodup) :
    (r.run (orders.map Order.addMessage)).rows = r.rows ++ orders := by
  induction orders generalizing r with
  | nil => rw [List.append_nil]; rfl
  | cons o orders ih =>
    have hfresh : r.lookup o.addMessage.orderId = none := by
      rw [KeyedList.lookup, lookup_eq_none_iff]
      intro hmem
      rw [List.map_append, List.nodup_append] at h
      exact h.2.2 _ hmem _ (List.mem_map_of_mem List.mem_cons_self) rfl
    have hadd : (r.apply o.addMessage).rows = r.rows ++ [o] := by
      have htype : o.addMessage.type = .add := rfl
      rw [apply, if_pos htype, rows_add hfresh, Order.ofMessage_addMessage]
    have hrest := ih (r := r.apply o.addMessage) (by rwa [hadd, List.append_assoc, List.singleton_append])
    rw [hadd, List.append_assoc, List.singleton_append] at hrest
    exact hrest

end ReferenceBook

/-- The containers see the live orders place by place only. -/
theorem Represents.of_sameStreams {b : OrderBook} {r r' : ReferenceBook} (h : Represents b r)
    (hr : SameStreams Order.place r'.rows r.rows) : Represents b r' := by
  have hlevel : ∀ buy p, r'.level buy p = r.level buy p := by
    intro buy p
    rw [r'.level_eq_streamOf, r.level_eq_streamOf, hr]
  refine ⟨fun id => ?_, h.bids.congr (hlevel true), h.asks.congr (hlevel false), h.bidTotals.congr (hlevel true),
    h.askTotals.congr (hlevel false)⟩
  rw [h.orders, ReferenceBook.lookup_of_perm hr.perm]

/-! ### Snapshots -/

section Side

variable {cmp : Int64 → Int64 → Ordering} [TransCmp cmp] [LawfulEqCmp cmp]
variable {side : SideMap cmp} {orders : IdMap Order} {r : ReferenceBook} {buy : Bool}

/-- The places of one side. -/
def SideMap.places (side : SideMap cmp) (buy : Bool) : List (Bool × Int64) := side.keys.map fun p => (buy, p)

theorem SideMap.nodup_places (side : SideMap cmp) (buy : Bool) : (side.places buy).Nodup :=
  (keys_nodup side).map fun _ _ h => (Prod.mk.inj h).2

theorem sideSnapshot_eq (h : Lists side r buy) (ho : ∀ id : UInt64, orders[id]? = r.lookup id) :
    OrderBook.sideSnapshot orders side = (regroup Order.place (side.places buy) r.rows).map Order.addMessage := by
  rw [OrderBook.sideSnapshot, regroup, SideMap.places, List.map_flatMap, List.flatMap_map,
    ← ExtTreeMap.map_fst_toList_eq_keys, List.flatMap_map]
  refine List.flatMap_congr fun e he => ?_
  obtain ⟨-, hids⟩ := h.shows e.1 e.2 (ExtTreeMap.mem_toList_iff_getElem?_eq_some.mp he)
  rw [hids, ← r.level_eq_streamOf, List.filterMap_map, ← List.filterMap_eq_map]
  refine List.filterMap_congr fun o hmem => ?_
  have hlive : r.lookup o.orderId = some o := r.lookup_eq_some.mpr ⟨(List.mem_filter.mp hmem).1, rfl⟩
  simp only [Function.comp_apply, ho, hlive, Option.map_some]

theorem Lists.mem_places (h : Lists side r buy) {o : Order} (ho : o ∈ r.rows) (hs : o.isBuy = buy) :
    o.place ∈ side.places buy := by
  obtain ⟨l, hl⟩ := h.present (r.lookup_eq_some.mpr ⟨ho, rfl⟩) hs
  refine List.mem_map.mpr ⟨o.price, ?_, ?_⟩
  · rw [ExtTreeMap.mem_keys, ExtTreeMap.mem_iff_isSome_getElem?, hl]
    rfl
  · rw [Order.place, hs]

end Side

/-- The places of the stored levels. -/
def OrderBook.places (b : OrderBook) : List (Bool × Int64) := b.bids_.places true ++ b.asks_.places false

theorem OrderBook.nodup_places (b : OrderBook) : b.places.Nodup := by
  refine List.nodup_append.mpr ⟨b.bids_.nodup_places true, b.asks_.nodup_places false, ?_⟩
  rintro _ hbid _ hask rfl
  obtain ⟨p, -, rfl⟩ := List.mem_map.mp hbid
  obtain ⟨p', -, hp'⟩ := List.mem_map.mp hask
  simp at hp'

namespace Represents

variable {b : OrderBook} {r : ReferenceBook}

theorem snapshot (h : Represents b r) :
    ∃ orders, b.snapshot = orders.map Order.addMessage ∧ SameStreams Order.place orders r.rows := by
  have hall : ∀ o ∈ r.rows, o.place ∈ b.places := by
    intro o ho
    rw [OrderBook.places, List.mem_append]
    cases hs : o.isBuy with
    | true => exact .inl (h.bids.mem_places ho hs)
    | false => exact .inr (h.asks.mem_places ho hs)
  refine ⟨_, ?_, sameStreams_regroup b.nodup_places hall⟩
  rw [OrderBook.snapshot, sideSnapshot_eq h.bids h.orders, sideSnapshot_eq h.asks h.orders,
    ← List.map_append, regroup, regroup, regroup, OrderBook.places, List.flatMap_append]

theorem length_snapshot (h : Represents b r) : b.snapshot.length = b.orderMap_.size := by
  obtain ⟨orders, hsnapshot, hstreams⟩ := h.snapshot
  rw [hsnapshot, List.length_map, hstreams.perm.length_eq, h.size_orderMap]

theorem rebuilt (h : Represents b r) : bookAfter b.snapshot = b := by
  obtain ⟨orders, hsnapshot, hstreams⟩ := h.snapshot
  have hrows : (refAfter (orders.map Order.addMessage)).rows = orders :=
    ReferenceBook.rows_run_adds (r := KeyedList.empty)
      ((hstreams.perm.map Order.orderId).nodup_iff.mpr r.distinct)
  rw [hsnapshot]
  exact (bookAfter_represents _).unique (h.of_sameStreams (by rwa [hrows]))

end Represents

/-- **The book can be rebuilt from a snapshot**: a feed of one Add for each live order,
read off the containers, makes the very book it was taken from. -/
theorem bookAfter_snapshot (msgs : List MarketMessage) :
    bookAfter (bookAfter msgs).snapshot = bookAfter msgs ∧
      (bookAfter msgs).snapshot.length = (bookAfter msgs).orderMap_.size ∧
      ∀ msg ∈ (bookAfter msgs).snapshot, msg.type = .add := by
  have h := bookAfter_represents msgs
  refine ⟨h.rebuilt, h.length_snapshot, ?_⟩
  obtain ⟨orders, hsnapshot, -⟩ := h.snapshot
  rw [hsnapshot]
  intro msg hmsg
  obtain ⟨o, -, rfl⟩ := List.mem_map.mp hmsg
  rfl

end LatencyLab
