import LatencyLab.Book.Liquidity
import LatencyLab.Keyed.Streams

/-! Orders do not interfere. Every handler touches the order named in the message
and nothing of any other order, so each order id is a machine driven by its own
messages. Interleavings of the same streams end in books that differ only in the
arrival order within a level, and an order that was added and cancelled leaves
nothing behind. -/

namespace LatencyLab

open Std Keyed

/-- What a message makes of the order it names, `none` being an order not live. -/
def Order.react (msg : MarketMessage) (live : Option Order) : Option Order :=
  if msg.type = .add then some (live.getD (Order.ofMessage msg))
  else if msg.type = .modify then live.bind (Order.requantify fun _ => some msg.quantity)
  else if msg.type = .cancel then none
  else if msg.type = .trade then live.bind (Order.requantify (fill msg.quantity))
  else live

namespace ReferenceBook

theorem lookup_apply (r : ReferenceBook) (msg : MarketMessage) (id : UInt64) :
    (r.apply msg).lookup id = if id = msg.orderId then Order.react msg (r.lookup id) else r.lookup id := by
  unfold apply Order.react
  by_cases hid : id = msg.orderId
  · subst hid
    rw [if_pos rfl]
    split_ifs
    · cases ho : r.lookup msg.orderId with
      | none => rw [lookup_add ho, if_pos rfl]; rfl
      | some o => rw [add_of_live ho, ho]; rfl
    · rw [modify, lookup_edit, if_pos rfl]
    · rw [cancel, lookup_edit, if_pos rfl]
      cases r.lookup msg.orderId <;> rfl
    · rw [trade, lookup_edit, if_pos rfl]
    · rfl
  · rw [if_neg hid]
    split_ifs
    · cases ho : r.lookup msg.orderId with
      | none => rw [lookup_add ho, if_neg hid]
      | some o => rw [add_of_live ho]
    · rw [modify, lookup_edit, if_neg hid]
    · rw [cancel, lookup_edit, if_neg hid]
    · rw [trade, lookup_edit, if_neg hid]
    · rfl

/-- Order ids are independent keys of the book. -/
theorem independent :
    Independent (fun (r : ReferenceBook) id => r.lookup id) MarketMessage.orderId apply Order.react :=
  lookup_apply

end ReferenceBook

/-! ### Reordering -/

/-- Two levels that differ in the order of their ids at most. -/
structure SameLevel (l l' : PriceLevel) : Prop where
  price : l.price = l'.price
  orderIds : l.orderIds.Perm l'.orderIds
  totalQuantity : l.totalQuantity = l'.totalQuantity

/-- Two books that differ in the order of the ids within levels at most. -/
structure SameUpToOrder (b b' : OrderBook) : Prop where
  orderMap : b.orderMap_ = b'.orderMap_
  levels : ∀ buy p, Option.Rel SameLevel (b.levelAt buy p) (b'.levelAt buy p)
  totalOrders : b.totalOrders = b'.totalOrders
  buySideLevels : b.buySideLevels = b'.buySideLevels
  sellSideLevels : b.sellSideLevels = b'.sellSideLevels
  bestBid : Option.Rel SameLevel b.bestBid b'.bestBid
  bestAsk : Option.Rel SameLevel b.bestAsk b'.bestAsk

section Side

variable {cmp : Int64 → Int64 → Ordering} [TransCmp cmp] [LawfulEqCmp cmp]
variable {m m' : SideMap cmp} {r r' : ReferenceBook} {buy : Bool}

omit [LawfulEqCmp cmp] in
/-- The levels of a side are decided by the live orders, whatever their order. -/
theorem Lists.sameLevel (h : Lists m r buy) (h' : Lists m' r' buy) (ht : Totals m r buy)
    (ht' : Totals m' r' buy) (hr : r.rows.Perm r'.rows) (p : Int64) :
    Option.Rel SameLevel m[p]? m'[p]? := by
  have hlevel : (r.level buy p).Perm (r'.level buy p) := hr.filter _
  cases hm : m[p]? with
  | none =>
    have hnil := (h.absent p).mp hm
    rw [hnil, List.nil_perm, ← h'.absent] at hlevel
    rw [hlevel]
    exact .none
  | some l =>
    cases hm' : m'[p]? with
    | none =>
      have hnil := (h'.absent p).mp hm'
      rw [hnil, List.perm_nil, ← h.absent, hm] at hlevel
      cases hlevel
    | some l' =>
      obtain ⟨hp, hids⟩ := h.shows p l hm
      obtain ⟨hp', hids'⟩ := h'.shows p l' hm'
      refine .some ⟨hp.trans hp'.symm, ?_, ?_⟩
      · rw [hids, hids']
        exact hlevel.map _
      · rw [ht p l hm, ht' p l' hm']
        exact (hlevel.map _).sum_eq

theorem SideMap.front_rel (h : ∀ p : Int64, Option.Rel SameLevel m[p]? m'[p]?) :
    Option.Rel SameLevel m.front m'.front := by
  have hhead := head_toList_rel h
  unfold SideMap.front
  generalize m.toList.head? = x, m'.toList.head? = y at hhead
  cases hhead with
  | none => exact .none
  | some he => exact .some he.2

end Side

theorem Represents.sameUpToOrder {b b' : OrderBook} {r r' : ReferenceBook} (h : Represents b r)
    (h' : Represents b' r') (hr : ∀ id, r.lookup id = r'.lookup id) : SameUpToOrder b b' := by
  have hrows := KeyedList.perm_of_lookup hr
  have hbids := h.bids.sameLevel h'.bids h.bidTotals h'.bidTotals hrows
  have hasks := h.asks.sameLevel h'.asks h.askTotals h'.askTotals hrows
  have horders : b.orderMap_ = b'.orderMap_ := by
    apply ExtTreeMap.ext_getElem?
    intro id
    rw [h.orders, h'.orders, hr]
  refine ⟨horders, fun buy p => ?_, ?_, ?_, ?_, SideMap.front_rel hbids, SideMap.front_rel hasks⟩
  · cases buy
    · exact hasks p
    · exact hbids p
  · rw [OrderBook.totalOrders, OrderBook.totalOrders, horders]
  · rw [OrderBook.buySideLevels, OrderBook.buySideLevels, size_congr hbids]
  · rw [OrderBook.sellSideLevels, OrderBook.sellSideLevels, size_congr hasks]

/-- **Reordering messages of different orders does not change the book**, up to the
arrival order within its levels. -/
theorem bookAfter_sameUpToOrder {msgs msgs' : List MarketMessage}
    (h : SameStreams MarketMessage.orderId msgs msgs') :
    SameUpToOrder (bookAfter msgs) (bookAfter msgs') :=
  (bookAfter_represents msgs).sameUpToOrder (bookAfter_represents msgs')
    (ReferenceBook.independent.look_congr h KeyedList.empty)

/-- Two orders of one level, arriving in either order. -/
theorem bookAfter_sameUpToOrder_swapped :
    SameUpToOrder (bookAfter [orderMessage .add 1 .buy 100 10, orderMessage .add 2 .buy 100 20])
      (bookAfter [orderMessage .add 2 .buy 100 20, orderMessage .add 1 .buy 100 10]) :=
  bookAfter_sameUpToOrder (SameStreams.swap (by decide) [] [])

/-! ### Orders without a trace -/

namespace ReferenceBook

/-- The book without one order. -/
def without (r : ReferenceBook) (id : UInt64) : ReferenceBook := r.edit id fun _ => none

/-- Edits of different orders commute. -/
theorem without_edit (r : ReferenceBook) {id id' : UInt64} (h : id' ≠ id) (g : UInt32 → Option UInt32) :
    (r.edit id' g).without id = (r.without id).edit id' g := by
  apply KeyedList.ext
  exact alter_comm h.symm (Order.requantify_keeps _) (Order.requantify_keeps g) r.rows

theorem without_add (r : ReferenceBook) {id : UInt64} {msg : MarketMessage} (h : msg.orderId ≠ id) :
    (r.add msg).without id = (r.without id).add msg := by
  have hlook : (r.without id).lookup msg.orderId = r.lookup msg.orderId := by
    rw [without, lookup_edit, if_neg h]
  cases ho : r.lookup msg.orderId with
  | some o => rw [add_of_live ho, add_of_live (hlook.trans ho)]
  | none =>
    apply KeyedList.ext
    rw [rows_add (hlook.trans ho)]
    show alter _ _ _ (r.add msg).rows = alter _ _ _ r.rows ++ [Order.ofMessage msg]
    have hkey : (Order.ofMessage msg).orderId ≠ id := h
    rw [rows_add ho, alter_append, alter_cons, if_neg hkey]
    rfl

/-- An order that has just been added leaves nothing. -/
theorem without_added {r : ReferenceBook} {msg : MarketMessage} (h : r.lookup msg.orderId = none) :
    (r.add msg).without msg.orderId = r := by
  apply KeyedList.ext
  show alter _ _ _ (r.add msg).rows = r.rows
  have hkey : (Order.ofMessage msg).orderId = msg.orderId := rfl
  rw [rows_add h, alter_append, alter_of_not_mem _ (lookup_eq_none_iff.mp h), alter_cons, if_pos hkey]
  exact List.append_nil _

/-- A message about another order does not see whether the order is there. -/
theorem without_apply (r : ReferenceBook) {id : UInt64} {msg : MarketMessage} (h : msg.orderId ≠ id) :
    (r.apply msg).without id = (r.without id).apply msg := by
  unfold apply
  split_ifs
  · exact r.without_add h
  · exact r.without_edit h _
  · exact r.without_edit h _
  · exact r.without_edit h _
  · rfl

theorem without_run {id : UInt64} {msgs : List MarketMessage} (h : ∀ msg ∈ msgs, msg.orderId ≠ id)
    (r : ReferenceBook) : (r.run msgs).without id = (r.without id).run msgs := by
  induction msgs generalizing r with
  | nil => rfl
  | cons msg msgs ih =>
    rw [List.forall_mem_cons] at h
    show ((r.apply msg).run msgs).without id = ((r.without id).apply msg).run msgs
    rw [ih h.2, without_apply r h.1]

end ReferenceBook

/-- **Cancel leaves no trace**: an order added and later cancelled, with any messages
about other orders in between, leaves the book as if it had never been there. -/
theorem add_cancel_traceless (history : List MarketMessage) {added cancelled : MarketMessage}
    (hadd : added.type = .add) (hcancel : cancelled.type = .cancel)
    (hid : cancelled.orderId = added.orderId)
    (hfresh : added.orderId ∉ (bookAfter history).orderMap_) {msgs : List MarketMessage}
    (hmsgs : ∀ msg ∈ msgs, msg.orderId ≠ added.orderId) :
    (((bookAfter history).onMessage added).run msgs).onMessage cancelled =
      (bookAfter history).run msgs := by
  have h := bookAfter_represents history
  have hnone : (refAfter history).lookup added.orderId = none := by
    rw [← h.orders, ← Option.not_isSome_iff_eq_none, ← ExtTreeMap.mem_iff_isSome_getElem?]
    exact hfresh
  have hleft := ((h.onMessage added).run msgs).onMessage cancelled
  rw [ReferenceBook.apply_of_cancel _ hcancel, hid, ReferenceBook.apply_of_add _ hadd, ← ReferenceBook.without,
    ReferenceBook.without_run hmsgs, ReferenceBook.without_added hnone] at hleft
  exact hleft.unique (h.run msgs)

/-- An order comes and goes while another one arrives at its level. -/
theorem add_cancel_traceless_shared :
    (((bookAfter []).onMessage (orderMessage .add 1 .buy 100 10)).run
        [orderMessage .add 2 .buy 100 20]).onMessage (orderMessage .cancel 1 .sell 0 0) =
      (bookAfter []).run [orderMessage .add 2 .buy 100 20] := by
  have hfresh : (orderMessage .add 1 .buy 100 10).orderId ∉ (bookAfter []).orderMap_ := by decide
  have hother : ∀ msg ∈ [orderMessage .add 2 .buy 100 20],
      msg.orderId ≠ (orderMessage .add 1 .buy 100 10).orderId := by decide
  have hadd : (orderMessage .add 1 .buy 100 10).type = .add := rfl
  have hcancel : (orderMessage .cancel 1 .sell 0 0).type = .cancel := rfl
  exact add_cancel_traceless [] hadd hcancel rfl hfresh hother

end LatencyLab
