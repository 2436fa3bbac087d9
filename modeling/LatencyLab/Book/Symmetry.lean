import LatencyLab.Book.Streams

/-! Symmetries of the book. Renaming the orders, moving the prices of a feed without
changing their order, and turning the market round (Buy for Sell, with the prices in the
other direction) change the book that the feed makes in the same way: the handlers compare
ids for equality and prices for their order on one side, and do nothing else with them.
Only the prices in the feed count: on all of `std::int64_t` nothing but the identity keeps
the order. The ids need no such care, as new names for some of them extend to all. -/

namespace LatencyLab

open Std Keyed

/-- Other names for the orders, other prices in the place of `prices`, and other bytes for
the sides, which are exchanged or not. Exchanged sides need the prices turned round. -/
structure Relabeling (prices : Set Int64) where
  id : UInt64 → UInt64
  price : Int64 → Int64
  side : Side → Side
  swap : Bool
  id_injective : Function.Injective id
  price_lt : ∀ p ∈ prices, ∀ q ∈ prices, p < q → if swap then price q < price p else price p < price q
  side_buy : ∀ s, side s = .buy ↔ if swap then s ≠ .buy else s = .buy

namespace Relabeling

variable {prices : Set Int64} (ρ : Relabeling prices)

def message (msg : MarketMessage) : MarketMessage :=
  { msg with orderId := ρ.id msg.orderId, price := ρ.price msg.price, side := ρ.side msg.side }

def order (o : Order) : Order :=
  { o with orderId := ρ.id o.orderId, price := ρ.price o.price, side := ρ.side o.side }

def level (l : PriceLevel) : PriceLevel :=
  { l with price := ρ.price l.price, orderIds := l.orderIds.map ρ.id }

theorem price_le {p q : Int64} (hp : p ∈ prices) (hq : q ∈ prices) (h : p ≤ q) :
    if ρ.swap then ρ.price q ≤ ρ.price p else ρ.price p ≤ ρ.price q := by
  rcases Decidable.em (p = q) with rfl | hne
  · split_ifs <;> exact Int64.le_refl _
  · have hlt := ρ.price_lt p hp q hq (Int64.lt_iff_le_and_ne.mpr ⟨h, hne⟩)
    split_ifs at hlt ⊢
    · exact Int64.le_of_lt hlt
    · exact Int64.le_of_lt hlt

theorem price_ne {p q : Int64} (hp : p ∈ prices) (hq : q ∈ prices) (hlt : p < q) : ρ.price p ≠ ρ.price q := by
  intro h
  have hprice := ρ.price_lt p hp q hq hlt
  rw [h] at hprice
  split_ifs at hprice <;> exact Int64.lt_irrefl hprice

theorem price_injOn : Set.InjOn ρ.price prices := by
  intro p hp q hq h
  by_contra hne
  rcases Int64.lt_or_lt_of_ne hne with hlt | hlt
  · exact ρ.price_ne hp hq hlt h
  · exact ρ.price_ne hq hp hlt h.symm

theorem isBuy_order (o : Order) : (ρ.order o).isBuy = (o.isBuy ^^ ρ.swap) := by
  have hbuy := ρ.side_buy o.side
  rw [Bool.eq_iff_iff, Bool.xor_iff_ne, Order.isBuy, Order.isBuy, order, decide_eq_true_iff, hbuy]
  cases ρ.swap with
  | false => simp
  | true => simp

theorem restsAt_order {o : Order} {p : Int64} (ho : o.price ∈ prices) (hp : p ∈ prices) (buy : Bool) :
    (ρ.order o).restsAt (buy ^^ ρ.swap) (ρ.price p) = o.restsAt buy p := by
  rw [Order.restsAt, Order.restsAt, isBuy_order, decide_eq_decide, Bool.xor_left_inj]
  exact and_congr_right fun _ => ρ.price_injOn.eq_iff ho hp

theorem requantify_order (g : UInt32 → Option UInt32) (o : Order) :
    (ρ.order o).requantify g = (o.requantify g).map ρ.order := by
  rw [Order.requantify, Order.requantify, Option.map_map]
  rfl

/-! ### The reference book -/

/-- The book of the relabeled orders. -/
def book (r : ReferenceBook) : ReferenceBook where
  rows := r.rows.map ρ.order
  distinct := by
    have h := r.distinct.map ρ.id_injective
    rw [List.map_map] at h ⊢
    exact h

variable {ρ} {r : ReferenceBook}

theorem rows_book : (ρ.book r).rows = r.rows.map ρ.order := rfl

theorem lookup_book (id : UInt64) : (ρ.book r).lookup (ρ.id id) = (r.lookup id).map ρ.order := by
  rw [KeyedList.lookup, KeyedList.lookup, Keyed.lookup, Keyed.lookup, rows_book, List.find?_map]
  congr 2
  funext o
  exact decide_eq_decide.mpr ρ.id_injective.eq_iff

theorem edit_book (id : UInt64) (g : UInt32 → Option UInt32) :
    (ρ.book r).edit (ρ.id id) g = ρ.book (r.edit id g) := by
  apply KeyedList.ext
  show (r.rows.map ρ.order).filterMap _ = (r.rows.filterMap _).map ρ.order
  rw [List.filterMap_map, List.map_filterMap]
  refine List.filterMap_congr fun o _ => ?_
  by_cases hid : o.orderId = id
  · have hid' : (ρ.order o).orderId = ρ.id id := congrArg ρ.id hid
    simp only [Function.comp_apply, if_pos hid, if_pos hid', requantify_order]
  · have hid' : (ρ.order o).orderId ≠ ρ.id id := fun h => hid (ρ.id_injective h)
    simp only [Function.comp_apply, if_neg hid, if_neg hid', Option.map_some]

theorem add_book (msg : MarketMessage) : (ρ.book r).add (ρ.message msg) = ρ.book (r.add msg) := by
  have hlook : (ρ.book r).lookup (ρ.message msg).orderId = (r.lookup msg.orderId).map ρ.order := lookup_book _
  cases ho : r.lookup msg.orderId with
  | some o =>
    rw [ho] at hlook
    rw [ReferenceBook.add_of_live hlook, ReferenceBook.add_of_live ho]
  | none =>
    rw [ho] at hlook
    apply KeyedList.ext
    rw [ReferenceBook.rows_add hlook, rows_book, rows_book, ReferenceBook.rows_add ho, List.map_append]
    rfl

/-- A message means the same to the relabeled book. -/
theorem apply_book (msg : MarketMessage) : (ρ.book r).apply (ρ.message msg) = ρ.book (r.apply msg) := by
  unfold ReferenceBook.apply
  show (if msg.type = _ then _ else if msg.type = _ then _ else if msg.type = _ then _ else
    if msg.type = _ then _ else _) = _
  split_ifs
  · exact add_book msg
  · exact edit_book _ _
  · exact edit_book _ _
  · exact edit_book _ _
  · rfl

theorem run_book (msgs : List MarketMessage) : (ρ.book r).run (msgs.map ρ.message) = ρ.book (r.run msgs) := by
  induction msgs generalizing r with
  | nil => rfl
  | cons msg msgs ih =>
    rw [List.map_cons, ReferenceBook.run, List.foldl_cons, apply_book]
    exact ih

theorem level_book (hr : ∀ o ∈ r.rows, o.price ∈ prices) (buy : Bool) {p : Int64} (hp : p ∈ prices) :
    (ρ.book r).level (buy ^^ ρ.swap) (ρ.price p) = (r.level buy p).map ρ.order := by
  rw [ReferenceBook.level, ReferenceBook.level, rows_book, List.filter_map]
  congr 1
  refine List.filter_congr fun o ho => ?_
  exact ρ.restsAt_order (hr o ho) hp buy

/-! ### What callers see -/

end Relabeling

namespace ReferenceBook

/-- The level that stands for the orders resting at one place. -/
def levelAt (r : ReferenceBook) (buy : Bool) (p : Int64) : Option PriceLevel :=
  if r.level buy p = [] then none
  else some { price := p, orderIds := (r.level buy p).map Order.orderId, totalQuantity := total (r.level buy p) }

end ReferenceBook

section Side

variable {cmp : Int64 → Int64 → Ordering} [TransCmp cmp] [LawfulEqCmp cmp]
variable {side : SideMap cmp} {r : ReferenceBook} {buy : Bool}

omit [LawfulEqCmp cmp] in
theorem Lists.getElem?_eq (h : Lists side r buy) (ht : Totals side r buy) (p : Int64) :
    side[p]? = r.levelAt buy p := by
  rw [ReferenceBook.levelAt]
  split_ifs with hnil
  · exact (h.absent p).mpr hnil
  · obtain ⟨l, hl⟩ := Option.ne_none_iff_exists'.mp (mt (h.absent p).mp hnil)
    obtain ⟨hp, hids⟩ := h.shows p l hl
    rw [hl, ← ht p l hl, ← hids, ← hp]

end Side

theorem Represents.levelAt_eq {b : OrderBook} {r : ReferenceBook} (h : Represents b r) (buy : Bool) (p : Int64) :
    b.levelAt buy p = r.levelAt buy p := by
  cases buy with
  | true => exact h.bids.getElem?_eq h.bidTotals p
  | false => exact h.asks.getElem?_eq h.askTotals p

namespace OrderBook

/-- The best level of one side. -/
def best (b : OrderBook) (buy : Bool) : Option PriceLevel := if buy then b.bestBid else b.bestAsk

def sideLevels (b : OrderBook) (buy : Bool) : UInt32 := if buy then b.buySideLevels else b.sellSideLevels

end OrderBook

namespace Relabeling

variable {prices : Set Int64} {ρ : Relabeling prices} {r : ReferenceBook}

theorem levelAt_book (hr : ∀ o ∈ r.rows, o.price ∈ prices) (buy : Bool) {p : Int64} (hp : p ∈ prices) :
    (ρ.book r).levelAt (buy ^^ ρ.swap) (ρ.price p) = (r.levelAt buy p).map ρ.level := by
  simp only [ReferenceBook.levelAt, level_book hr buy hp, List.map_eq_nil_iff]
  split_ifs
  · rfl
  · rw [Option.map_some, level, ReferenceBook.total, ReferenceBook.total, List.map_map, List.map_map, List.map_map]
    rfl

theorem prices_book (buy : Bool) : (ρ.book r).prices (buy ^^ ρ.swap) = (r.prices buy).image ρ.price := by
  ext p
  rw [Finset.mem_image, ReferenceBook.mem_prices, rows_book]
  constructor
  · rintro ⟨o', ho', hb, rfl⟩
    obtain ⟨o, ho, rfl⟩ := List.mem_map.mp ho'
    rw [isBuy_order, Bool.xor_left_inj] at hb
    exact ⟨o.price, ReferenceBook.mem_prices.mpr ⟨o, ho, hb, rfl⟩, rfl⟩
  · rintro ⟨_, hp, rfl⟩
    obtain ⟨o, ho, hb, rfl⟩ := ReferenceBook.mem_prices.mp hp
    exact ⟨ρ.order o, List.mem_map_of_mem ho, by rw [isBuy_order, hb], rfl⟩

end Relabeling

/-! ### The best level -/

namespace ReferenceBook

/-- The first price is at least as good as the second, on one side. -/
def noBetter (buy : Bool) (p q : Int64) : Prop := if buy then p ≥ q else p ≤ q

theorem noBetter_antisymm {buy : Bool} {p q : Int64} (h : noBetter buy p q) (h' : noBetter buy q p) : p = q := by
  cases buy with
  | true => exact Int64.le_antisymm h' h
  | false => exact Int64.le_antisymm h h'

theorem IsBest.unique {r : ReferenceBook} {buy : Bool} {l l' : PriceLevel} (h : r.IsBest buy (noBetter buy) l)
    (h' : r.IsBest buy (noBetter buy) l') : l = l' := by
  obtain ⟨o, ho, hb, hp⟩ := h.live
  obtain ⟨o', ho', hb', hp'⟩ := h'.live
  have hprice : l.price = l'.price := noBetter_antisymm (hp' ▸ h.best o' ho' hb') (hp ▸ h'.best o ho hb)
  have hids := h.ids.trans ((congrArg (fun p => (r.level buy p).map Order.orderId) hprice).trans h'.ids.symm)
  have htotal : l.totalQuantity = l'.totalQuantity := by
    rw [← UInt32.toNat_inj, h.aggregate, h'.aggregate, hprice]
  rw [PriceLevel.mk.injEq]
  exact ⟨hprice, hids, htotal⟩

end ReferenceBook

namespace Represents

variable {b : OrderBook} {r : ReferenceBook}

theorem best_eq_none_iff (h : Represents b r) (buy : Bool) : b.best buy = none ↔ ∀ o ∈ r.rows, o.isBuy ≠ buy := by
  cases buy with
  | true => exact h.bids.front_eq_none_iff
  | false => exact h.asks.front_eq_none_iff

theorem isBest (h : Represents b r) {buy : Bool} {l : PriceLevel} (hl : b.best buy = some l) :
    r.IsBest buy (ReferenceBook.noBetter buy) l := by
  cases buy with
  | true => exact h.publicView.bestBid_some l hl
  | false => exact h.publicView.bestAsk_some l hl

end Represents

namespace Relabeling

variable {prices : Set Int64} {ρ : Relabeling prices} {r : ReferenceBook}

theorem noBetter_price {buy : Bool} {p q : Int64} (hp : p ∈ prices) (hq : q ∈ prices)
    (h : ReferenceBook.noBetter buy p q) : ReferenceBook.noBetter (buy ^^ ρ.swap) (ρ.price p) (ρ.price q) := by
  cases buy with
  | true =>
    have hle := ρ.price_le hq hp h
    cases hs : ρ.swap <;> simpa [ReferenceBook.noBetter, hs] using hle
  | false =>
    have hle := ρ.price_le hp hq h
    cases hs : ρ.swap <;> simpa [ReferenceBook.noBetter, hs] using hle

theorem isBest_book (hr : ∀ o ∈ r.rows, o.price ∈ prices) {buy : Bool} {l : PriceLevel}
    (h : r.IsBest buy (ReferenceBook.noBetter buy) l) :
    (ρ.book r).IsBest (buy ^^ ρ.swap) (ReferenceBook.noBetter (buy ^^ ρ.swap)) (ρ.level l) := by
  obtain ⟨o, ho, hb, hp⟩ := h.live
  have hl : l.price ∈ prices := hp ▸ hr o ho
  refine ⟨?_, ?_, ?_, ?_⟩
  · exact ⟨ρ.order o, List.mem_map_of_mem ho, by rw [isBuy_order, hb], congrArg ρ.price hp⟩
  · intro o' ho' hb
    obtain ⟨o, ho, rfl⟩ := List.mem_map.mp ho'
    rw [isBuy_order, Bool.xor_left_inj] at hb
    exact noBetter_price hl (hr o ho) (h.best o ho hb)
  · show l.orderIds.map ρ.id = _
    rw [h.ids, level, level_book hr buy hl, List.map_map, List.map_map]
    rfl
  · show l.totalQuantity.toNat = _
    rw [h.aggregate, level, level_book hr buy hl, ReferenceBook.exactTotal, ReferenceBook.exactTotal, List.map_map]
    rfl

end Relabeling

/-- What the relabeled feed makes of the book: the same orders, levels and counts under
their new labels, and no others. -/
structure Relabeled {prices : Set Int64} (ρ : Relabeling prices) (b b' : OrderBook) : Prop where
  orders : ∀ id : UInt64, b'.orderMap_[ρ.id id]? = b.orderMap_[id]?.map ρ.order
  levels : ∀ buy, ∀ p ∈ prices, b'.levelAt (buy ^^ ρ.swap) (ρ.price p) = (b.levelAt buy p).map ρ.level
  noOthers : ∀ buy p' l', b'.levelAt buy p' = some l' → ∃ p ∈ prices, ρ.price p = p'
  totalOrders : b'.totalOrders = b.totalOrders
  sideLevels : ∀ buy, b'.sideLevels (buy ^^ ρ.swap) = b.sideLevels buy
  best : ∀ buy, b'.best (buy ^^ ρ.swap) = (b.best buy).map ρ.level

theorem Represents.relabeled {prices : Set Int64} {ρ : Relabeling prices} {b b' : OrderBook} {r : ReferenceBook}
    (hr : ∀ o ∈ r.rows, o.price ∈ prices) (h : Represents b r) (h' : Represents b' (ρ.book r)) :
    Relabeled ρ b b' where
  orders id := by rw [h'.orders, h.orders, Relabeling.lookup_book]
  levels buy p hp := by rw [h'.levelAt_eq, h.levelAt_eq, Relabeling.levelAt_book hr buy hp]
  noOthers buy p' l' hl' := by
    have hlevel : (ρ.book r).level buy p' ≠ [] := by
      intro hnil
      rw [h'.levelAt_eq, ReferenceBook.levelAt, if_pos hnil] at hl'
      cases hl'
    obtain ⟨o', ho'⟩ := List.exists_mem_of_ne_nil _ hlevel
    obtain ⟨hrow, -, hprice⟩ := ReferenceBook.mem_level.mp ho'
    obtain ⟨o, ho, rfl⟩ := List.mem_map.mp hrow
    exact ⟨o.price, hr o ho, hprice⟩
  totalOrders := by
    rw [h'.publicView.totalOrders, h.publicView.totalOrders, Relabeling.rows_book, List.length_map]
  sideLevels buy := by
    have hside : ∀ {b : OrderBook} {r : ReferenceBook}, Represents b r → ∀ buy,
        (b.sideLevels buy).toNat = (r.prices buy).card % 2 ^ 32 := by
      intro b r h buy
      cases buy with
      | true => exact h.publicView.buySideLevels
      | false => exact h.publicView.sellSideLevels
    have hprices : (r.prices buy : Set Int64) ⊆ prices := by
      intro p hp
      obtain ⟨o, ho, -, rfl⟩ := ReferenceBook.mem_prices.mp hp
      exact hr o ho
    rw [← UInt32.toNat_inj, hside h', hside h, Relabeling.prices_book,
      Finset.card_image_of_injOn (ρ.price_injOn.mono hprices)]
  best buy := by
    cases hl : b.best buy with
    | none =>
      rw [Option.map_none, h'.best_eq_none_iff, Relabeling.rows_book, List.forall_mem_map]
      intro o ho
      rw [Relabeling.isBuy_order, Ne, Bool.xor_left_inj]
      exact (h.best_eq_none_iff buy).mp hl o ho
    | some l =>
      have hbest := Relabeling.isBest_book (ρ := ρ) hr (h.isBest hl)
      obtain ⟨o, ho, hb, -⟩ := hbest.live
      have hsome : b'.best (buy ^^ ρ.swap) ≠ none := fun hnone => (h'.best_eq_none_iff _).mp hnone o ho hb
      obtain ⟨l', hl'⟩ := Option.ne_none_iff_exists'.mp hsome
      rw [hl', (h'.isBest hl').unique hbest, Option.map_some]

/-! ### Feeds -/

/-- The prices in a feed. -/
def feedPrices (msgs : List MarketMessage) : Set Int64 := {p | ∃ msg ∈ msgs, msg.price = p}

namespace ReferenceBook

theorem price_of_mem_apply {r : ReferenceBook} {msg : MarketMessage} {o : Order} (h : o ∈ (r.apply msg).rows) :
    (∃ o' ∈ r.rows, o'.price = o.price) ∨ msg.price = o.price := by
  have hedit : ∀ g, o ∈ (r.edit msg.orderId g).rows → ∃ o' ∈ r.rows, o'.price = o.price := by
    intro g ho
    rcases of_mem_edit ho with hold | ⟨o', ho', -, q, -, rfl⟩
    · exact ⟨o, hold, rfl⟩
    · exact ⟨o', ho', rfl⟩
  unfold apply at h
  split_ifs at h
  · rcases of_mem_add h with hold | rfl
    · exact .inl ⟨o, hold, rfl⟩
    · exact .inr rfl
  · exact .inl (hedit _ h)
  · exact .inl (hedit _ h)
  · exact .inl (hedit _ h)
  · exact .inl ⟨o, h, rfl⟩

theorem price_of_mem_run {r : ReferenceBook} {msgs : List MarketMessage} {o : Order} (h : o ∈ (r.run msgs).rows) :
    (∃ o' ∈ r.rows, o'.price = o.price) ∨ o.price ∈ feedPrices msgs := by
  induction msgs generalizing r with
  | nil => exact .inl ⟨o, h, rfl⟩
  | cons msg msgs ih =>
    rcases ih (r := r.apply msg) h with ⟨o', ho', hprice⟩ | ⟨msg', hmsg', hprice⟩
    · rcases price_of_mem_apply ho' with ⟨o'', ho'', hprice'⟩ | hprice'
      · exact .inl ⟨o'', ho'', hprice'.trans hprice⟩
      · exact .inr ⟨msg, List.mem_cons_self, hprice'.trans hprice⟩
    · exact .inr ⟨msg', List.mem_cons_of_mem _ hmsg', hprice⟩

end ReferenceBook

theorem price_mem_feedPrices {msgs : List MarketMessage} {o : Order} (h : o ∈ (refAfter msgs).rows) :
    o.price ∈ feedPrices msgs :=
  (ReferenceBook.price_of_mem_run (r := KeyedList.empty) h).resolve_left fun ⟨_, ho, _⟩ => by cases ho

theorem refAfter_relabeled {prices : Set Int64} (ρ : Relabeling prices) (msgs : List MarketMessage) :
    refAfter (msgs.map ρ.message) = ρ.book (refAfter msgs) := Relabeling.run_book (r := KeyedList.empty) msgs

theorem Relabeling.represents {prices : Set Int64} (ρ : Relabeling prices) (msgs : List MarketMessage) :
    Represents (bookAfter (msgs.map ρ.message)) (ρ.book (refAfter msgs)) :=
  refAfter_relabeled ρ msgs ▸ bookAfter_represents _

/-- **The book is symmetric** in the names of the orders, in the prices of the feed up to
their order, and in the sides. -/
theorem bookAfter_relabeled (msgs : List MarketMessage) (ρ : Relabeling (feedPrices msgs)) :
    Relabeled ρ (bookAfter msgs) (bookAfter (msgs.map ρ.message)) :=
  (bookAfter_represents msgs).relabeled (fun _ ho => price_mem_feedPrices ho) (ρ.represents msgs)

/-- Prices in ticks that are `k` times finer, where none of them overflows. -/
def Relabeling.rescale {prices : Set Int64} {k : Int64} (hk : 0 < k)
    (hfit : ∀ p ∈ prices, (k * p).toInt = k.toInt * p.toInt) : Relabeling prices where
  id i := i
  price p := k * p
  side s := s
  swap := false
  id_injective := Function.injective_id
  price_lt p hp q hq h := by
    rw [if_neg Bool.false_ne_true, Int64.lt_iff_toInt_lt, hfit p hp, hfit q hq]
    exact Int.mul_lt_mul_of_pos_left (Int64.lt_iff_toInt_lt.mp h) (Int64.lt_iff_toInt_lt.mp hk)
  side_buy _ := Iff.rfl

/-- The book of a feed in finer ticks is the book in coarser ones, with its prices rescaled. -/
theorem best_rescale {msgs : List MarketMessage} {k : Int64} (hk : 0 < k)
    (hfit : ∀ p ∈ feedPrices msgs, (k * p).toInt = k.toInt * p.toInt) (buy : Bool) :
    (bookAfter (msgs.map fun msg => { msg with price := k * msg.price })).best buy =
      ((bookAfter msgs).best buy).map fun l => { l with price := k * l.price } := by
  have h := (bookAfter_represents msgs).relabeled (fun _ ho => price_mem_feedPrices ho)
    ((Relabeling.rescale hk hfit).represents msgs)
  have hbest := h.best buy
  have hlevel : (Relabeling.rescale hk hfit).level = fun l => { l with price := k * l.price } := by
    funext l
    rw [Relabeling.level, Relabeling.rescale, List.map_id']
  rw [hlevel, show (Relabeling.rescale hk hfit).swap = false from rfl, Bool.xor_false] at hbest
  exact hbest

theorem toInt_complement (p : Int64) : (~~~p).toInt = -1 - p.toInt := by
  have hle := p.le_toInt
  have hlt := p.toInt_lt
  rw [Int64.toInt_not, Int.bmod_eq_of_le_mul_two] <;> omega

/-- The market turned round: `~p` is `-1 - p`, which no price overflows. -/
def Relabeling.mirror : Relabeling Set.univ where
  id k := k
  price p := ~~~p
  side s := if s = .buy then .sell else .buy
  swap := true
  id_injective := Function.injective_id
  price_lt p _ q _ h := by
    rw [if_pos rfl, Int64.lt_iff_toInt_lt, toInt_complement, toInt_complement]
    rw [Int64.lt_iff_toInt_lt] at h
    omega
  side_buy s := by
    have hsell : Side.sell ≠ .buy := by decide
    by_cases hs : s = .buy
    · simp [hs, hsell]
    · simp [hs]

/-- The best ask of the mirrored market is the mirrored best bid. -/
theorem bestAsk_mirror (msgs : List MarketMessage) :
    (bookAfter (msgs.map Relabeling.mirror.message)).bestAsk =
      (bookAfter msgs).bestBid.map Relabeling.mirror.level := by
  exact ((bookAfter_represents msgs).relabeled (fun _ _ => Set.mem_univ _)
    (Relabeling.mirror.represents msgs)).best true

end LatencyLab
