import LatencyLab.Book.Snapshot
import Mathlib.Order.Bounds.Basic

/-! Which books there are. What `WellFormed` says of the containers is not only true of
every book that a feed leads to: it is all that is true of them. From the containers of a
well-formed book the live orders can be read off, place by place, and a feed of one Add
for each of them leads to that book. -/

namespace LatencyLab

open Std Keyed

namespace OrderBook

/-- The live orders at one place, in time priority. -/
def ordersAt (b : OrderBook) (place : Bool × Int64) : List Order :=
  ((b.levelAt place.1 place.2).elim [] PriceLevel.orderIds).filterMap fun id => b.orderMap_[id]?

variable {b : OrderBook} {buy : Bool} {p : Int64} {o : Order}

theorem mem_sidePlaces {cmp : Int64 → Int64 → Ordering} [TransCmp cmp] [LawfulEqCmp cmp] (side : SideMap cmp)
    (buy' : Bool) : (buy, p) ∈ side.places buy' ↔ buy' = buy ∧ side[p]? ≠ none := by
  simp only [SideMap.places, List.mem_map, ExtTreeMap.mem_keys, ExtTreeMap.mem_iff_isSome_getElem?, Prod.mk.injEq,
    Option.isSome_iff_ne_none]
  constructor
  · rintro ⟨_, hp, hbuy, rfl⟩
    exact ⟨hbuy, hp⟩
  · rintro ⟨hbuy, hp⟩
    exact ⟨p, hp, hbuy, rfl⟩

theorem mem_places : (buy, p) ∈ b.places ↔ b.levelAt buy p ≠ none := by
  rw [places, List.mem_append, mem_sidePlaces, mem_sidePlaces]
  cases buy with
  | true => simp [levelAt]
  | false => simp [levelAt]

namespace WellFormed

theorem mem_ordersAt (h : b.WellFormed) :
    o ∈ b.ordersAt (buy, p) ↔ b.orderMap_[o.orderId]? = some o ∧ o.place = (buy, p) := by
  rw [ordersAt, List.mem_filterMap, Order.place, Prod.mk.injEq]
  constructor
  · rintro ⟨id, hid, ho⟩
    obtain rfl := h.key_eq id o ho
    cases hl : b.levelAt buy p with
    | none =>
      rw [hl] at hid
      simp at hid
    | some l =>
      rw [hl] at hid
      obtain ⟨hb, hp⟩ := h.listed_nowhere_else _ o buy p l ho hl hid
      exact ⟨ho, hb.symm, hp.symm⟩
  · rintro ⟨ho, rfl, rfl⟩
    obtain ⟨l, hl, hcount⟩ := h.listed_once _ o ho
    refine ⟨o.orderId, ?_, ho⟩
    rw [hl]
    show o.orderId ∈ l.orderIds
    rw [← List.count_pos_iff, hcount]
    exact Nat.one_pos

/-- A stored level lists the orders at its place. -/
theorem orderIds_eq (h : b.WellFormed) {l : PriceLevel} (hl : b.levelAt buy p = some l) :
    (b.ordersAt (buy, p)).map Order.orderId = l.orderIds := by
  rw [ordersAt, hl, List.map_filterMap]
  have hself : ∀ id ∈ l.orderIds, b.orderMap_[id]?.map Order.orderId = some id := by
    intro id hid
    obtain ⟨o, ho, -⟩ := h.listed_live buy p l id hl hid
    rw [ho, Option.map_some, h.key_eq id o ho]
  exact (List.filterMap_congr hself).trans List.filterMap_some

theorem ordersAt_eq_nil_iff (h : b.WellFormed) : b.ordersAt (buy, p) = [] ↔ b.levelAt buy p = none := by
  cases hl : b.levelAt buy p with
  | none => simp [ordersAt, hl]
  | some l =>
    rw [← List.map_eq_nil_iff (f := Order.orderId), h.orderIds_eq hl]
    simp [h.level_nonempty buy p l hl]

/-- Each id is listed once, at the place of its order. -/
theorem nodup_orderIds (h : b.WellFormed) : ((b.places.flatMap b.ordersAt).map Order.orderId).Nodup := by
  rw [List.map_flatMap, List.nodup_flatMap]
  refine ⟨?_, ?_⟩
  · rintro ⟨buy, p⟩ -
    cases hl : b.levelAt buy p with
    | none =>
      rw [h.ordersAt_eq_nil_iff.mpr hl]
      exact List.nodup_nil
    | some l =>
      rw [h.orderIds_eq hl]
      exact h.level_nodup buy p l hl
  · refine b.nodup_places.pairwise_of_forall_ne fun place _ place' _ hne => ?_
    intro id hid hid'
    obtain ⟨o, ho, rfl⟩ := List.mem_map.mp hid
    obtain ⟨o', ho', heq⟩ := List.mem_map.mp hid'
    obtain ⟨hlive, hplace⟩ := h.mem_ordersAt.mp ho
    obtain ⟨hlive', hplace'⟩ := h.mem_ordersAt.mp ho'
    rw [heq, hlive] at hlive'
    cases hlive'
    exact hne (hplace.symm.trans hplace')

/-- The live orders of a well-formed book, side by side and level by level. -/
def reference (h : b.WellFormed) : ReferenceBook := ⟨b.places.flatMap b.ordersAt, h.nodup_orderIds⟩

theorem level_reference (h : b.WellFormed) (buy : Bool) (p : Int64) :
    h.reference.level buy p = b.ordersAt (buy, p) := by
  rw [ReferenceBook.level_eq_streamOf, reference,
    streamOf_flatMap b.nodup_places fun place o ho => (h.mem_ordersAt.mp ho).2]
  split_ifs with hplace
  · rfl
  · rw [mem_places, not_not] at hplace
    exact (h.ordersAt_eq_nil_iff.mpr hplace).symm

theorem lookup_reference (h : b.WellFormed) (id : UInt64) : h.reference.lookup id = b.orderMap_[id]? := by
  apply Option.ext
  intro o
  rw [KeyedList.lookup_eq_some, reference, List.mem_flatMap]
  constructor
  · rintro ⟨⟨place, -, ho⟩, rfl⟩
    exact (h.mem_ordersAt.mp ho).1
  · intro ho
    obtain rfl := h.key_eq id o ho
    have hat : o ∈ b.ordersAt o.place := h.mem_ordersAt.mpr ⟨ho, rfl⟩
    have hplace : o.place ∈ b.places := by
      rw [Order.place, mem_places, Ne, ← h.ordersAt_eq_nil_iff]
      exact List.ne_nil_of_mem hat
    exact ⟨⟨o.place, hplace, hat⟩, rfl⟩

theorem totalQuantity_eq (h : b.WellFormed) {l : PriceLevel} (hl : b.levelAt buy p = some l) :
    l.totalQuantity = ReferenceBook.total (b.ordersAt (buy, p)) := by
  rw [← UInt32.toNat_inj, h.aggregate buy p l hl, ReferenceBook.toNat_total, ReferenceBook.exactTotal,
    ← h.orderIds_eq hl, List.map_map]
  congr 2
  refine List.map_congr_left fun o ho => ?_
  rw [Function.comp_apply, quantityOf, (h.mem_ordersAt.mp ho).1]
  rfl

theorem represents (h : b.WellFormed) : Represents b h.reference := by
  have habsent : ∀ buy p, b.levelAt buy p = none ↔ h.reference.level buy p = [] := by
    intro buy p
    rw [h.level_reference, h.ordersAt_eq_nil_iff]
  have hshows : ∀ buy p l, b.levelAt buy p = some l →
      l.price = p ∧ l.orderIds = (h.reference.level buy p).map Order.orderId := by
    intro buy p l hl
    rw [h.level_reference, h.orderIds_eq hl]
    exact ⟨h.level_price buy p l hl, rfl⟩
  have htotals : ∀ buy p l, b.levelAt buy p = some l →
      l.totalQuantity = ReferenceBook.total (h.reference.level buy p) := by
    intro buy p l hl
    rw [h.level_reference]
    exact h.totalQuantity_eq hl
  exact ⟨fun id => (h.lookup_reference id).symm, ⟨habsent true, hshows true⟩, ⟨habsent false, hshows false⟩,
    htotals true, htotals false⟩

end WellFormed

end OrderBook

/-! ### The shortest feed -/

namespace ReferenceBook

theorem length_apply_le (r : ReferenceBook) (msg : MarketMessage) :
    (r.apply msg).rows.length ≤ r.rows.length + 1 := by
  have hedit : ∀ g, (r.edit msg.orderId g).rows.length ≤ r.rows.length + 1 :=
    fun g => (List.length_filterMap_le _ _).trans (Nat.le_succ _)
  unfold apply
  split_ifs
  · cases ho : r.lookup msg.orderId with
    | some o =>
      rw [add_of_live ho]
      exact Nat.le_succ _
    | none => rw [rows_add ho, List.length_append, List.length_singleton]
  · exact hedit _
  · exact hedit _
  · exact hedit _
  · exact Nat.le_succ _

theorem length_run_le (r : ReferenceBook) (msgs : List MarketMessage) :
    (r.run msgs).rows.length ≤ r.rows.length + msgs.length := by
  induction msgs generalizing r with
  | nil => exact le_rfl
  | cons msg msgs ih =>
    have hstep := r.length_apply_le msg
    have hrest := ih (r.apply msg)
    rw [List.length_cons]
    show ((r.apply msg).run msgs).rows.length ≤ _
    omega

end ReferenceBook

/-- **The invariant is complete**: the books that feeds lead to are the well-formed ones,
each of them after as many messages as it holds orders, and after no fewer. -/
theorem reachable_iff_wellFormed (b : OrderBook) :
    ((∃ msgs, bookAfter msgs = b) ↔ b.WellFormed) ∧
      (b.WellFormed →
        IsLeast {n | ∃ msgs : List MarketMessage, msgs.length = n ∧ bookAfter msgs = b} b.orderMap_.size) := by
  refine ⟨⟨?_, fun h => ⟨_, h.represents.rebuilt⟩⟩, fun h => ⟨?_, ?_⟩⟩
  · rintro ⟨msgs, rfl⟩
    exact (bookAfter_represents msgs).wellFormed
  · exact ⟨b.snapshot, h.represents.length_snapshot, h.represents.rebuilt⟩
  · rintro _ ⟨msgs, rfl, rfl⟩
    rw [(bookAfter_represents msgs).size_orderMap]
    exact (ReferenceBook.length_run_le _ msgs).trans_eq (Nat.zero_add _)

end LatencyLab
