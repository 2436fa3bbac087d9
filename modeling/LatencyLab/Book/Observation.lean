import LatencyLab.Book.Snapshot
import LatencyLab.Book.Symmetry
import LatencyLab.Transition.Observation

/-! How much of the book its getters give away. They show the best level of each side and
some counts, but Cancels uncover the rest: cancel all orders but one, and that order is on
show; cancel all orders away from a level, and its queue is. So two books that no further
feed tells apart are the same book, but for one thing. Of the side of an order the book only
ever asks whether it is Buy, and which other byte it holds never comes out. -/

namespace LatencyLab

open Std Keyed Transition

/-- What the getters of `OrderBook` return. -/
structure BookView where
  totalOrders : UInt64
  buySideLevels : UInt32
  sellSideLevels : UInt32
  bestBid : Option PriceLevel
  bestAsk : Option PriceLevel
  deriving DecidableEq

def OrderBook.view (b : OrderBook) : BookView where
  totalOrders := b.totalOrders
  buySideLevels := b.buySideLevels
  sellSideLevels := b.sellSideLevels
  bestBid := b.bestBid
  bestAsk := b.bestAsk

/-- The order with the side that it is treated as. -/
def Order.plain (o : Order) : Order := { o with side := if o.side = .buy then .buy else .sell }

/-- The books agree but for the bytes of sides that are not Buy. -/
structure SameButForSides (b b' : OrderBook) : Prop where
  bids : b.bids_ = b'.bids_
  asks : b.asks_ = b'.asks_
  orders : ∀ id : UInt64, b.orderMap_[id]?.map Order.plain = b'.orderMap_[id]?.map Order.plain

/-- All sides that are not Buy as Sell. -/
def Relabeling.plain : Relabeling Set.univ where
  id k := k
  price p := p
  side s := if s = .buy then .buy else .sell
  swap := false
  id_injective := Function.injective_id
  price_lt _ _ _ _ h := h
  side_buy s := by
    have hsell : Side.sell ≠ .buy := by decide
    by_cases hs : s = .buy
    · simp [hs]
    · simp [hs, hsell]

/-! ### Plain orders -/

theorem Order.place_plain (o : Order) : o.plain.place = o.place := by
  have hbuy : o.plain.isBuy = o.isBuy := (Relabeling.plain.isBuy_order o).trans (Bool.xor_false _)
  rw [Order.place, Order.place, hbuy]
  rfl

namespace ReferenceBook

variable {r r' : ReferenceBook} {buy : Bool} {p : Int64}

/-- The books hold the same orders at the same places, in the same order there. -/
def SamePlain (r r' : ReferenceBook) : Prop :=
  ∀ buy p, (r.level buy p).map Order.plain = (r'.level buy p).map Order.plain

theorem level_plain (r : ReferenceBook) (buy : Bool) (p : Int64) :
    (Relabeling.plain.book r).level buy p = (r.level buy p).map Order.plain := by
  have h := Relabeling.level_book (ρ := Relabeling.plain) (r := r) (fun _ _ => Set.mem_univ _) buy (Set.mem_univ p)
  rwa [show Relabeling.plain.swap = false from rfl, Bool.xor_false] at h

theorem lookup_plain (r : ReferenceBook) (id : UInt64) :
    (Relabeling.plain.book r).lookup id = (r.lookup id).map Order.plain :=
  Relabeling.lookup_book (ρ := Relabeling.plain) (r := r) id

theorem SamePlain.sameStreams (h : SamePlain r r') :
    SameStreams Order.place (Relabeling.plain.book r).rows (Relabeling.plain.book r').rows := by
  rintro ⟨buy, p⟩
  rw [← level_eq_streamOf, ← level_eq_streamOf, level_plain, level_plain, h buy p]

theorem SamePlain.lookup (h : SamePlain r r') (id : UInt64) :
    (r.lookup id).map Order.plain = (r'.lookup id).map Order.plain := by
  rw [← lookup_plain, ← lookup_plain, lookup_of_perm h.sameStreams.perm]

/-- A level is its queue of ids and what is known of each of them. -/
theorem map_plain_level (r : ReferenceBook) (buy : Bool) (p : Int64) :
    (r.level buy p).map Order.plain =
      ((r.level buy p).map Order.orderId).filterMap fun id => (r.lookup id).map Order.plain := by
  rw [List.filterMap_map, ← List.filterMap_eq_map]
  refine List.filterMap_congr fun o ho => ?_
  have hlive : r.lookup o.orderId = some o := r.lookup_eq_some.mpr ⟨(mem_level.mp ho).1, rfl⟩
  rw [Function.comp_apply, Function.comp_apply, hlive, Option.map_some]

theorem samePlain_of_queues (hids : ∀ buy p, (r.level buy p).map Order.orderId = (r'.level buy p).map Order.orderId)
    (horders : ∀ id, (r.lookup id).map Order.plain = (r'.lookup id).map Order.plain) : SamePlain r r' := by
  intro buy p
  rw [map_plain_level, map_plain_level, hids]
  exact List.filterMap_congr fun id _ => horders id

theorem map_orderId_levelAt (r : ReferenceBook) (buy : Bool) (p : Int64) :
    (r.levelAt buy p).elim [] PriceLevel.orderIds = (r.level buy p).map Order.orderId := by
  rw [levelAt]
  split_ifs with hnil
  · rw [hnil]
    rfl
  · rfl

theorem SamePlain.levelAt (h : SamePlain r r') (buy : Bool) (p : Int64) : r.levelAt buy p = r'.levelAt buy p := by
  have hids : (r.level buy p).map Order.orderId = (r'.level buy p).map Order.orderId := by
    have hmap := congrArg (List.map Order.orderId) (h buy p)
    rwa [List.map_map, List.map_map] at hmap
  have hquantities : (r.level buy p).map Order.quantity = (r'.level buy p).map Order.quantity := by
    have hmap := congrArg (List.map Order.quantity) (h buy p)
    rwa [List.map_map, List.map_map] at hmap
  have hnil : r.level buy p = [] ↔ r'.level buy p = [] := by
    rw [← List.map_eq_nil_iff (f := Order.orderId), hids, List.map_eq_nil_iff]
  simp only [ReferenceBook.levelAt, hids, total, hquantities, hnil]

end ReferenceBook

open ReferenceBook

theorem Represents.sameButForSides_iff {b b' : OrderBook} {r r' : ReferenceBook} (h : Represents b r)
    (h' : Represents b' r') : SameButForSides b b' ↔ SamePlain r r' := by
  constructor
  · intro hsame
    refine samePlain_of_queues (fun buy p => ?_) fun id => ?_
    · have hlevel : b.levelAt buy p = b'.levelAt buy p := by
        rw [OrderBook.levelAt, OrderBook.levelAt, hsame.bids, hsame.asks]
      rw [← map_orderId_levelAt, ← map_orderId_levelAt, ← h.levelAt_eq, ← h'.levelAt_eq, hlevel]
    · rw [← h.orders, ← h'.orders, hsame.orders]
  · intro hsame
    refine ⟨ExtTreeMap.ext_getElem? fun p => ?_, ExtTreeMap.ext_getElem? fun p => ?_, fun id => ?_⟩
    · exact (h.levelAt_eq true p).trans ((hsame.levelAt true p).trans (h'.levelAt_eq true p).symm)
    · exact (h.levelAt_eq false p).trans ((hsame.levelAt false p).trans (h'.levelAt_eq false p).symm)
    · rw [h.orders, h'.orders, hsame.lookup]

/-! ### What never comes out -/

/-- `c` is the book with plain orders. -/
def PlainBook (b c : OrderBook) : Prop := ∃ r, Represents b r ∧ Represents c (Relabeling.plain.book r)

theorem PlainBook.onMessage {b c : OrderBook} (h : PlainBook b c) (msg : MarketMessage) :
    PlainBook (b.onMessage msg) (c.onMessage (Relabeling.plain.message msg)) := by
  obtain ⟨r, hb, hc⟩ := h
  refine ⟨r.apply msg, hb.onMessage msg, ?_⟩
  rw [← Relabeling.apply_book]
  exact hc.onMessage _

theorem PlainBook.view {b c : OrderBook} (h : PlainBook b c) : b.view = c.view := by
  obtain ⟨r, hb, hc⟩ := h
  have hsame := hb.relabeled (fun _ _ => Set.mem_univ _) hc
  have hlevel : ∀ best : Option PriceLevel, best.map Relabeling.plain.level = best := by
    intro best
    have hid : ∀ l, Relabeling.plain.level l = l := fun l => by rw [Relabeling.level]; simp [Relabeling.plain]
    cases best with
    | none => rfl
    | some l => rw [Option.map_some, hid]
  rw [OrderBook.view, OrderBook.view, BookView.mk.injEq]
  refine ⟨hsame.totalOrders.symm, (hsame.sideLevels true).symm, (hsame.sideLevels false).symm, ?_, ?_⟩
  · exact ((hsame.best true).trans (hlevel _)).symm
  · exact ((hsame.best false).trans (hlevel _)).symm

theorem represents_rows (r : ReferenceBook) : Represents (bookAfter (r.rows.map Order.addMessage)) r := by
  have hrows : refAfter (r.rows.map Order.addMessage) = r :=
    KeyedList.ext (rows_run_adds (r := KeyedList.empty) r.distinct)
  have h := bookAfter_represents (r.rows.map Order.addMessage)
  rwa [hrows] at h

theorem Represents.indistinguishable {b b' : OrderBook} {r r' : ReferenceBook} (h : Represents b r)
    (h' : Represents b' r') (hsame : SamePlain r r') :
    Indistinguishable OrderBook.onMessage OrderBook.view b b' := by
  have hplain := represents_rows (Relabeling.plain.book r')
  exact indistinguishable_of_simulation (R := PlainBook) (fun _ _ msg hr => hr.onMessage msg) (fun _ _ hr => hr.view)
    ⟨r, h, hplain.of_sameStreams hsame.sameStreams⟩ ⟨r', h', hplain⟩

/-! ### What Cancels uncover -/

/-- One Cancel for each id. -/
def cancels (ids : List UInt64) : List MarketMessage :=
  ids.map fun id => { MarketMessage.zero with orderId := id, type := .cancel }

namespace ReferenceBook

variable {r r' : ReferenceBook} {buy : Bool} {p : Int64} {id : UInt64}

theorem rows_run_cancels (r : ReferenceBook) (ids : List UInt64) :
    (r.run (cancels ids)).rows = r.rows.filter fun o => o.orderId ∉ ids := by
  induction ids generalizing r with
  | nil => simp [cancels, run]
  | cons id ids ih =>
    have hcancel : (r.without id).rows = r.rows.filter fun o => o.orderId ≠ id := by
      show r.rows.filterMap _ = _
      rw [← List.filterMap_eq_filter]
      refine List.filterMap_congr fun o _ => ?_
      by_cases hid : o.orderId = id <;> simp [hid, Order.requantify, Option.guard]
    show ((r.without id).run (cancels ids)).rows = _
    rw [ih, hcancel, List.filter_filter]
    refine List.filter_congr fun o _ => ?_
    simp [Bool.and_comm]

/-- All but one order cancelled. -/
theorem rows_run_others {ids : List UInt64} (hids : ∀ o ∈ r.rows, o.orderId ∈ ids ↔ o.orderId ≠ id) :
    (r.run (cancels ids)).rows = (r.lookup id).toList := by
  have hstream : (r.run (cancels ids)).rows = streamOf Order.orderId id r.rows := by
    rw [rows_run_cancels]
    refine List.filter_congr fun o ho => ?_
    rw [decide_eq_decide, hids o ho, not_not]
  rw [hstream]
  cases ho : r.lookup id with
  | none =>
    refine streamOf_eq_nil fun o hmem he => ?_
    rw [r.lookup_eq_some.mpr ⟨hmem, he⟩] at ho
    cases ho
  | some o =>
    obtain ⟨hmem, rfl⟩ := r.lookup_eq_some.mp ho
    exact streamOf_of_nodup r.distinct hmem

/-- The ids of the orders that are not at a place. -/
def elsewhere (r : ReferenceBook) (buy : Bool) (p : Int64) : List UInt64 :=
  (r.rows.filter fun o => o.place ≠ (buy, p)).map Order.orderId

/-- All orders cancelled but those at one place. -/
theorem rows_run_elsewhere (h : ∀ id, (r.lookup id).map Order.plain = (r'.lookup id).map Order.plain) (buy : Bool)
    (p : Int64) : (r'.run (cancels (r.elsewhere buy p))).rows = r'.level buy p := by
  rw [rows_run_cancels, level_eq_streamOf]
  refine List.filter_congr fun o' ho' => ?_
  have hplain := h o'.orderId
  rw [r'.lookup_eq_some.mpr ⟨ho', rfl⟩, Option.map_some] at hplain
  obtain ⟨o, ho, heq⟩ := Option.map_eq_some_iff.mp hplain
  have hplace : o.place = o'.place := by rw [← o.place_plain, heq, o'.place_plain]
  rw [decide_eq_decide, elsewhere, List.mem_map, ← hplace]
  constructor
  · intro hnot
    by_contra hne
    obtain ⟨hmem, hid⟩ := r.lookup_eq_some.mp ho
    exact hnot ⟨o, List.mem_filter.mpr ⟨hmem, decide_eq_true hne⟩, hid⟩
  · rintro hat ⟨o₂, ho₂, hid⟩
    obtain ⟨hmem, hne⟩ := List.mem_filter.mp ho₂
    have hlookup : r.lookup o'.orderId = some o₂ := r.lookup_eq_some.mpr ⟨hmem, hid⟩
    cases ho.symm.trans hlookup
    exact of_decide_eq_true hne hat

end ReferenceBook

/-- The order that a level would show if it were the only one. -/
def PriceLevel.lone (l : PriceLevel) (side : Side) : Order := ⟨l.orderIds.headD 0, l.price, l.totalQuantity, side⟩

namespace BookView

/-- The order that a view shows, of a book that holds no other. -/
def lone (v : BookView) : Option Order := (v.bestBid.map (·.lone .buy)).or (v.bestAsk.map (·.lone .sell))

def best (v : BookView) (buy : Bool) : Option PriceLevel := if buy then v.bestBid else v.bestAsk

end BookView

namespace Represents

variable {b b' : OrderBook} {r r' : ReferenceBook} {o : Order} {buy : Bool} {p : Int64}

theorem best_of_lone (h : Represents b r) (hrows : r.rows = [o]) :
    b.best o.isBuy = some ⟨o.price, [o.orderId], o.quantity⟩ ∧ b.best (!o.isBuy) = none := by
  constructor
  · have hsome : b.best o.isBuy ≠ none := by
      rw [Ne, h.best_eq_none_iff, hrows]
      simp
    obtain ⟨l, hl⟩ := Option.ne_none_iff_exists'.mp hsome
    obtain ⟨⟨o', ho', -, hprice⟩, -, hids, htotal⟩ := h.isBest hl
    rw [hrows, List.mem_singleton] at ho'
    subst ho'
    have hlevel : r.level o'.isBuy o'.price = [o'] := by simp [level, hrows, Order.restsAt]
    rw [← hprice, hlevel] at hids htotal
    have hquantity : l.totalQuantity = o'.quantity := by
      rw [← UInt32.toNat_inj, htotal]
      simp [exactTotal, Nat.mod_eq_of_lt o'.quantity.toNat_lt]
    rw [hl, Option.some.injEq, PriceLevel.mk.injEq]
    exact ⟨hprice.symm, hids, hquantity⟩
  · rw [h.best_eq_none_iff, hrows]
    simp

theorem view_lone (h : Represents b r) {live : Option Order} (hrows : r.rows = live.toList) :
    b.view.lone = live.map Order.plain := by
  cases live with
  | none =>
    have hnone : ∀ buy, b.best buy = none := by
      intro buy
      rw [h.best_eq_none_iff, hrows]
      simp
    have hbid : b.bestBid = none := hnone true
    have hask : b.bestAsk = none := hnone false
    simp [BookView.lone, OrderBook.view, hbid, hask]
  | some o =>
    obtain ⟨hbest, hother⟩ := h.best_of_lone hrows
    cases hs : o.isBuy with
    | true =>
      rw [hs] at hbest hother
      have hbid : b.bestBid = some ⟨o.price, [o.orderId], o.quantity⟩ := hbest
      simp [BookView.lone, OrderBook.view, hbid, PriceLevel.lone, Order.plain, Order.isBuy_eq_true.mp hs]
    | false =>
      rw [hs] at hbest hother
      have hask : b.bestAsk = some ⟨o.price, [o.orderId], o.quantity⟩ := hbest
      have hbid : b.bestBid = none := hother
      simp [BookView.lone, OrderBook.view, hbid, hask, PriceLevel.lone, Order.plain, Order.isBuy_eq_false.mp hs]

theorem view_queue (h : Represents b r) (hrows : r.rows = r.level buy p) :
    (b.view.best buy).elim [] PriceLevel.orderIds = r.rows.map Order.orderId := by
  have hview : b.view.best buy = b.best buy := rfl
  rw [hview]
  cases hl : b.best buy with
  | none =>
    have hnone := (h.best_eq_none_iff buy).mp hl
    have hnil : r.rows = [] := by
      rw [List.eq_nil_iff_forall_not_mem]
      intro o ho
      have hat := ho
      rw [hrows, mem_level] at hat
      exact hnone o ho hat.2.1
    rw [hnil]
    rfl
  | some l =>
    obtain ⟨⟨o, ho, -, hprice⟩, -, hids, -⟩ := h.isBest hl
    have hat := ho
    rw [hrows, mem_level] at hat
    obtain ⟨-, -, hp⟩ := hat
    rw [Option.elim_some, hids, ← hprice, hp, ← hrows]

theorem lookup_of_indistinguishable (h : Represents b r) (h' : Represents b' r')
    (hsame : Indistinguishable OrderBook.onMessage OrderBook.view b b') (id : UInt64) :
    (r.lookup id).map Order.plain = (r'.lookup id).map Order.plain := by
  let ids := ((r.rows ++ r'.rows).map Order.orderId).filter (· ≠ id)
  have hids : ∀ o ∈ r.rows ++ r'.rows, o.orderId ∈ ids ↔ o.orderId ≠ id := by
    intro o ho
    rw [List.mem_filter, decide_eq_true_iff]
    exact and_iff_right (List.mem_map_of_mem ho)
  have hlone := (h.run (cancels ids)).view_lone (rows_run_others fun o ho => hids o (List.mem_append_left _ ho))
  have hlone' := (h'.run (cancels ids)).view_lone (rows_run_others fun o ho => hids o (List.mem_append_right _ ho))
  rw [← hlone, ← hlone']
  exact congrArg BookView.lone (hsame (cancels ids))

theorem queue_of_indistinguishable (h : Represents b r) (h' : Represents b' r')
    (hsame : Indistinguishable OrderBook.onMessage OrderBook.view b b') (buy : Bool) (p : Int64) :
    (r.level buy p).map Order.orderId = (r'.level buy p).map Order.orderId := by
  have hrows := rows_run_elsewhere (r := r) (fun _ => rfl) buy p
  have hrows' := rows_run_elsewhere (h.lookup_of_indistinguishable h' hsame) buy p
  have hat : ∀ {r r₂ : ReferenceBook}, r.rows = r₂.level buy p → r.rows = r.level buy p := by
    intro r r₂ hr
    rw [ReferenceBook.level, List.filter_eq_self.mpr]
    intro o ho
    rw [hr] at ho
    exact (List.mem_filter.mp ho).2
  have hqueue := (h.run (cancels (r.elsewhere buy p))).view_queue (hat hrows)
  have hqueue' := (h'.run (cancels (r.elsewhere buy p))).view_queue (hat hrows')
  rw [hrows] at hqueue
  rw [hrows'] at hqueue'
  rw [← hqueue, ← hqueue']
  exact congrArg (fun v : BookView => (v.best buy).elim [] PriceLevel.orderIds) (hsame _)

theorem samePlain_of_indistinguishable (h : Represents b r) (h' : Represents b' r')
    (hsame : Indistinguishable OrderBook.onMessage OrderBook.view b b') : SamePlain r r' :=
  samePlain_of_queues (h.queue_of_indistinguishable h' hsame) (h.lookup_of_indistinguishable h' hsame)

end Represents

/-- **The getters give the whole book away**, in time, except which byte stands for a side
that is not Buy: two feeds lead to the same book up to these exactly when no feed that
follows both leads to books with different views. -/
theorem indistinguishable_iff (msgs msgs' : List MarketMessage) :
    Indistinguishable OrderBook.onMessage OrderBook.view (bookAfter msgs) (bookAfter msgs') ↔
      SameButForSides (bookAfter msgs) (bookAfter msgs') := by
  have h := bookAfter_represents msgs
  have h' := bookAfter_represents msgs'
  rw [h.sameButForSides_iff h']
  exact ⟨h.samePlain_of_indistinguishable h', h.indistinguishable h'⟩

end LatencyLab
