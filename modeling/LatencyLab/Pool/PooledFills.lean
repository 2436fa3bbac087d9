import LatencyLab.Book.Fills
import LatencyLab.Pool.Aggregates

/-! Fills of one order in `PooledOrderBook`. The reference book does not decide the
pool, nor an aggregate that has drifted, so the states are compared field by field:
a fill rewrites one level and one object, and what is taken adds up in both. -/

namespace LatencyLab

open Std Keyed Transition ObjectPool

namespace ObjectPool

variable {T : Type*} {p : ObjectPool T} {q : Ptr} {v₀ : T}

/-- The pool after an assignment through `q`. -/
def stored (p : ObjectPool T) (q : Ptr) (v : T) : ObjectPool T :=
  { p with storage_ := p.storage_.set (p.slab.index q) (some v) }

theorem stored_stored (p : ObjectPool T) (q : Ptr) (v w : T) : (p.stored q v).stored q w = p.stored q w := by
  simp only [stored, List.set_set]

theorem deref_stored (hq : p.deref q = some v₀) (v : T) : (p.stored q v).deref q = some v := by
  obtain ⟨hptr, hst⟩ := deref_eq_some.mp hq
  have hlt := (List.getElem?_eq_some_iff.mp hst).1
  exact deref_eq_some.mpr ⟨hptr, List.getElem?_set_self hlt⟩

/-- A slot taken back forgets what was last written to it. -/
theorem deallocate_stored (hq : p.deref q = some v₀) (v : T) :
    (p.stored q v).deallocate (some q) = p.deallocate (some q) := by
  simp only [deallocate, deref_stored hq, hq]
  simp only [stored, List.set_set, Option.isSome_some]

end ObjectPool

theorem SideMap.put_put {cmp : Int64 → Int64 → Ordering} [TransCmp cmp] [LawfulEqCmp cmp] (m : SideMap cmp)
    (price : Int64) (x y : Option PriceLevel) : (m.put price x).put price y = m.put price y := by
  apply ExtTreeMap.ext_getElem?
  intro p
  rw [SideMap.getElem?_put, SideMap.getElem?_put, SideMap.getElem?_put]
  split_ifs
  · rfl
  · rfl

/-- The level with `q` taken from its aggregate. -/
def PriceLevel.take (l : PriceLevel) (q : UInt32) : PriceLevel :=
  { l with totalQuantity := l.totalQuantity - q }

/-- The order with `q` taken from its quantity. -/
def Order.take (o : Order) (q : UInt32) : Order := { o with quantity := o.quantity - q }

/-- The level that `trade_level` stores or erases. -/
def tradedLevel (msg : MarketMessage) (o : Order) (l : PriceLevel) : Option PriceLevel :=
  if leftAfter msg o = 0 then droppedLevel msg.orderId (l.take (min msg.quantity o.quantity))
  else some (l.take (min msg.quantity o.quantity))

section

variable {cmp : Int64 → Int64 → Ordering} [TransCmp cmp] [LawfulEqCmp cmp]
variable {m : SideMap cmp} {o : Order} {l : PriceLevel} {msg : MarketMessage}

omit [LawfulEqCmp cmp] in
theorem tradeLevel_eq_put (hm : m[o.price]? = some l) :
    tradeLevel msg o m =
      some (m.put o.price (tradedLevel msg o l), { o with quantity := leftAfter msg o }) := by
  rw [tradeLevel_eq hm, dropId_eq_put, tradedLevel]
  split_ifs
  · rfl
  · rfl

omit [LawfulEqCmp cmp] in
theorem cancelLevel_eq_put (hm : m[o.price]? = some l) :
    cancelLevel msg o m = m.put o.price (droppedLevel msg.orderId (l.take o.quantity)) := by
  simp only [cancelLevel, hm]
  exact dropId_eq_put _ _ _ _

end

namespace PooledOrderBook

/-- Store or erase the level at one side and price. -/
def putLevel (b : PooledOrderBook) (buy : Bool) (price : Int64) (level : Option PriceLevel) :
    PooledOrderBook :=
  if buy then { b with bids_ := b.bids_.put price level } else { b with asks_ := b.asks_.put price level }

/-- The book with `a` taken from order `o` behind `q` and from its level `l`. -/
def take (b : PooledOrderBook) (q : Ptr) (o : Order) (l : PriceLevel) (a : UInt32) : PooledOrderBook :=
  { b.putLevel o.isBuy o.price (some (l.take a)) with orderPool_ := b.orderPool_.stored q (o.take a) }

/-- The book without order `o` behind `q` in level `l`, where the pool takes the slot back. -/
def drop (b : PooledOrderBook) (id : UInt64) (q : Ptr) (o : Order) (l : PriceLevel) :
    Option PooledOrderBook :=
  (b.putLevel o.isBuy o.price (droppedLevel id (l.take o.quantity))).release id q

/-- Order `id` is `o`, stored behind `q` and listed in `l`. -/
structure Rests (b : PooledOrderBook) (id : UInt64) (q : Ptr) (o : Order) (l : PriceLevel) : Prop where
  pointer : b.orderMap_[id]? = some q
  object : b.orderPool_.deref q = some o
  level : b.levelAt o.isBuy o.price = some l

section

variable {b : PooledOrderBook} {id : UInt64} {q : Ptr} {o : Order} {l : PriceLevel} {msg : MarketMessage}

@[simp] theorem putLevel_orderMap (b : PooledOrderBook) (buy : Bool) (price : Int64)
    (level : Option PriceLevel) : (b.putLevel buy price level).orderMap_ = b.orderMap_ := by
  cases buy <;> rfl

@[simp] theorem putLevel_orderPool (b : PooledOrderBook) (buy : Bool) (price : Int64)
    (level : Option PriceLevel) : (b.putLevel buy price level).orderPool_ = b.orderPool_ := by
  cases buy <;> rfl

theorem levelAt_putLevel (b : PooledOrderBook) (buy : Bool) (price : Int64) (level : Option PriceLevel) :
    (b.putLevel buy price level).levelAt buy price = level := by
  cases buy <;> simp [putLevel, levelAt, SideMap.getElem?_put]

/-- Storing a level twice, whatever happens to the pool in between. -/
theorem putLevel_putLevel (b : PooledOrderBook) (buy : Bool) (price : Int64) (x y : Option PriceLevel)
    (pool : ObjectPool Order) :
    { b.putLevel buy price x with orderPool_ := pool }.putLevel buy price y =
      { b.putLevel buy price y with orderPool_ := pool } := by
  cases buy <;> simp [putLevel, SideMap.put_put]

/-- `trade_level`, on whichever side the order is. -/
theorem Rests.trade_eq (h : b.Rests id q o l) (hm : msg.Fills id) :
    b.onMessage msg = (b.putLevel o.isBuy o.price (tradedLevel msg o l)).settle id q
      { o with quantity := leftAfter msg o } := by
  obtain ⟨htype, rfl⟩ := hm
  have hlevel := h.level
  simp only [b.onMessage_of_trade htype, handleTrade, h.pointer, h.object, Option.bind_some]
  by_cases hs : o.side = .buy
  · rw [Order.isBuy_eq_true.mpr hs] at hlevel ⊢
    rw [if_pos hs, tradeLevel_eq_put hlevel]
    rfl
  · rw [Order.isBuy_eq_false.mpr hs] at hlevel ⊢
    rw [if_neg hs, tradeLevel_eq_put hlevel]
    rfl

theorem Rests.cancel_eq (h : b.Rests id q o l) (hm : msg.Cancels id) : b.onMessage msg = b.drop id q o l := by
  obtain ⟨htype, rfl⟩ := hm
  have hlevel := h.level
  simp only [b.onMessage_of_cancel htype, handleCancel, h.pointer, h.object, Option.bind_some, drop]
  by_cases hs : o.side = .buy
  · rw [Order.isBuy_eq_true.mpr hs] at hlevel ⊢
    rw [if_pos hs, cancelLevel_eq_put hlevel]
    rfl
  · rw [Order.isBuy_eq_false.mpr hs] at hlevel ⊢
    rw [if_neg hs, cancelLevel_eq_put hlevel]
    rfl

/-- A partial fill. -/
theorem Rests.trade_part (h : b.Rests id q o l) (hm : msg.Fills id)
    (hlt : msg.quantity.toNat < o.quantity.toNat) : b.onMessage msg = some (b.take q o l msg.quantity) := by
  have hleft := left_ne_zero hlt
  rw [h.trade_eq hm, tradedLevel, leftAfter, min_of_lt hlt, if_neg hleft, settle, putLevel_orderPool,
    write_live h.object, Option.bind_some]
  exact if_neg hleft

/-- A fill that covers the order: what is written to it goes with it. -/
theorem Rests.trade_full (h : b.Rests id q o l) (hm : msg.Fills id)
    (hle : o.quantity.toNat ≤ msg.quantity.toNat) : b.onMessage msg = b.drop id q o l := by
  have hid := hm.2
  have hfreed := deallocate_stored h.object { o with quantity := 0 }
  rw [h.trade_eq hm, tradedLevel, leftAfter, min_of_le hle, sub_self, if_pos rfl, settle, putLevel_orderPool,
    write_live h.object, Option.bind_some, hid, drop]
  simp only [release, if_true, putLevel_orderMap, putLevel_orderPool]
  rw [stored] at hfreed
  rw [hfreed]

/-! ### Portions -/

theorem Rests.take (h : b.Rests id q o l) (a : UInt32) :
    (b.take q o l a).Rests id q (o.take a) (l.take a) where
  pointer := (congrArg (·[id]?) (putLevel_orderMap b _ _ _)).trans h.pointer
  object := deref_stored h.object _
  level := levelAt_putLevel b _ _ _

theorem take_take (b : PooledOrderBook) (q : Ptr) (o : Order) (l : PriceLevel) (a c : UInt32) :
    (b.take q o l a).take q (o.take a) (l.take a) c = b.take q o l (a + c) := by
  have horder : (o.take a).take c = o.take (a + c) := by simp only [Order.take, sub_sub]
  have hlevel : (l.take a).take c = l.take (a + c) := by simp only [PriceLevel.take, sub_sub]
  have hput := b.putLevel_putLevel o.isBuy o.price (some (l.take a)) (some (l.take (a + c)))
    (b.orderPool_.stored q (o.take a))
  rw [take, hlevel, horder]
  show { PooledOrderBook.putLevel { b.putLevel o.isBuy o.price (some (l.take a)) with
    orderPool_ := b.orderPool_.stored q (o.take a) } o.isBuy o.price (some (l.take (a + c))) with
      orderPool_ := (b.orderPool_.stored q (o.take a)).stored q (o.take (a + c)) } = _
  rw [hput, stored_stored]
  rfl

theorem Rests.take_drop (h : b.Rests id q o l) (a : UInt32) :
    (b.take q o l a).drop id q (o.take a) (l.take a) = b.drop id q o l := by
  have hlevel : (l.take a).take (o.take a).quantity = l.take o.quantity := by
    simp only [PriceLevel.take, Order.take, PriceLevel.mk.injEq, true_and]
    abel
  have hput := b.putLevel_putLevel o.isBuy o.price (some (l.take a)) (droppedLevel id (l.take o.quantity))
    (b.orderPool_.stored q (o.take a))
  have hfreed := deallocate_stored h.object (o.take a)
  rw [drop, hlevel]
  show (PooledOrderBook.putLevel { b.putLevel o.isBuy o.price (some (l.take a)) with
    orderPool_ := b.orderPool_.stored q (o.take a) } o.isBuy o.price
      (droppedLevel id (l.take o.quantity))).release id q = _
  rw [hput, drop]
  simp only [release, putLevel_orderMap, putLevel_orderPool, hfreed]

/-- Order `id` is live with quantity `x`, in a state that a feed can reach. -/
def Remains (id : UInt64) (b : PooledOrderBook) (x : ℕ) : Prop :=
  ∃ r n q o l, Holds b r n ∧ b.Rests id q o l ∧ o.quantity.toNat = x

theorem Remains.of_orderOf {r : ReferenceBook} {n : ℕ} (h : Holds b r n) (ho : b.orderOf id = some o) :
    Remains id b o.quantity.toNat := by
  rw [orderOf_eq h.pointers] at ho
  obtain ⟨q, hq, hd⟩ := h.pointers.of_lookup ho
  have hl : ∃ l, b.levelAt o.isBuy o.price = some l := by
    cases hs : o.isBuy
    · exact h.asks.present ho hs
    · exact h.bids.present ho hs
  obtain ⟨l, hl⟩ := hl
  exact ⟨r, n, q, o, l, h, ⟨hq, hd, hl⟩, rfl⟩

/-- A Trade of an order that is not live. -/
theorem trade_ignored (hm : msg.Fills id) (h : b.orderMap_[id]? = none) : b.onMessage msg = some b := by
  obtain ⟨htype, rfl⟩ := hm
  rw [b.onMessage_of_trade htype, handleTrade, h]

/-- A Cancel leaves its order not live. -/
theorem orderMap_of_cancel {r : ReferenceBook} {n : ℕ} {b' : PooledOrderBook}
    (hm : msg.Cancels id) (hr : Reacts b r n msg b') : b'.orderMap_[id]? = none := by
  have hroom : ¬r.Drops n msg := by
    rintro ⟨hadd, -⟩
    rw [hm.1] at hadd
    cases hadd
  rw [hr.holds.pointers.absent, ReferenceBook.applyUpTo, if_neg hroom, ReferenceBook.apply_cancels hm,
    ReferenceBook.lookup_edit, if_pos rfl]
  cases r.lookup id <;> rfl

/-- A pooled order is drained by its Trades and removed by a Cancel. -/
theorem draining (id : UInt64) :
    Draining onMessage (Remains id) (MarketMessage.Fills id) (MarketMessage.Cancels id)
      (·.quantity.toNat) where
  divisible := by
    rintro b _ a ⟨r, n, q, o, l, -, -, rfl⟩ ha
    exact exists_fill id o.quantity ha
  congr := by
    rintro b _ m m' ⟨r, n, q, o, l, -, h, rfl⟩ hm hm' hamount
    rcases Nat.lt_or_ge m.quantity.toNat o.quantity.toNat with hlt | hge
    · rw [h.trade_part hm hlt, h.trade_part hm' (hamount ▸ hlt), UInt32.toNat_inj.mp hamount]
    · rw [h.trade_full hm hge, h.trade_full hm' (hamount ▸ hge)]
  part := by
    rintro b _ m ⟨r, n, q, o, l, hholds, h, rfl⟩ hm hlt
    have he := h.trade_part hm hlt
    refine ⟨_, he, _, n, q, o.take m.quantity, l.take m.quantity, (hholds.of_onMessage he).holds,
      h.take m.quantity, ?_⟩
    exact UInt32.toNat_sub_of_le _ _ (UInt32.le_iff_toNat_le.mpr hlt.le)
  part_part := by
    rintro b _ _ m m' m'' ⟨r, n, q, o, l, -, h, rfl⟩ hm hm' hm'' hlt hsum he
    have hword : m.quantity + m'.quantity = m''.quantity := by
      have hbound := m''.quantity.toNat_lt
      rw [← UInt32.toNat_inj, UInt32.toNat_add]
      omega
    have hle : m.quantity ≤ o.quantity := UInt32.le_iff_toNat_le.mpr (by omega)
    have hleft : (o.take m.quantity).quantity.toNat = o.quantity.toNat - m.quantity.toNat :=
      UInt32.toNat_sub_of_le _ _ hle
    rw [h.trade_part hm (by omega)] at he
    cases he
    rw [(h.take m.quantity).trade_part hm' (by omega), take_take, hword, h.trade_part hm'' hlt]
  part_removal := by
    rintro b _ _ m d ⟨r, n, q, o, l, -, h, rfl⟩ hm hd hlt he
    rw [h.trade_part hm hlt] at he
    cases he
    rw [(h.take m.quantity).cancel_eq hd, h.take_drop, h.cancel_eq hd]
  full := by
    rintro b _ m d ⟨r, n, q, o, l, -, h, rfl⟩ hm hd hle
    rw [h.trade_full hm hle, h.cancel_eq hd]
  removed := by
    rintro b _ d ⟨r, n, q, o, l, hholds, h, rfl⟩ hd
    obtain ⟨b', he, hr⟩ := hholds.onMessage d
    exact ⟨b', he, fun m hm => trade_ignored hm (orderMap_of_cancel hd hr)⟩

end

end PooledOrderBook

section Pooled

variable {b : PooledOrderBook} {r : ReferenceBook} {n : ℕ} {id : UInt64} {o : Order}
variable {trades : List MarketMessage}

theorem Holds.fills_part (h : Holds b r n) (ho : b.orderOf id = some o)
    (htrades : ∀ msg ∈ trades, msg.Fills id) (hne : trades ≠ []) (hlt : traded trades < o.quantity.toNat)
    {single : MarketMessage} (hsingle : single.Fills id) (hsum : single.quantity.toNat = traded trades) :
    ∃ b', b.run trades = some b' ∧ b.onMessage single = some b' := by
  obtain ⟨b', he, -⟩ := h.onMessage single
  have hrun := (PooledOrderBook.draining id).exec_part (.of_orderOf h ho) htrades hne hlt hsingle hsum
  exact ⟨b', hrun.trans he, he⟩

theorem Holds.fills_full (h : Holds b r n) (ho : b.orderOf id = some o)
    (htrades : ∀ msg ∈ trades, msg.Fills id) (hne : trades ≠ []) (hle : o.quantity.toNat ≤ traded trades)
    {cancel : MarketMessage} (hcancel : cancel.Cancels id) :
    ∃ b', b.run trades = some b' ∧ b.onMessage cancel = some b' := by
  obtain ⟨b', he, -⟩ := h.onMessage cancel
  have hrun := (PooledOrderBook.draining id).exec_full (.of_orderOf h ho) htrades hne hle hcancel
  exact ⟨b', hrun.trans he, he⟩

end Pooled

/-- **Fills compose.** In every reachable state of either book, Trades of a live order
that leave something of it are one Trade of their sum, and Trades that cover it are
a Cancel, down to the free list, the in-use flags and the counters. -/
theorem fills_compose (id : UInt64) {trades : List MarketMessage} (hne : trades ≠ [])
    (htrades : ∀ msg ∈ trades, msg.Fills id) :
    (∀ history o, (bookAfter history).orderMap_[id]? = some o →
      (traded trades < o.quantity.toNat → ∀ single : MarketMessage, single.Fills id →
        single.quantity.toNat = traded trades →
          (bookAfter history).run trades = (bookAfter history).onMessage single) ∧
      (o.quantity.toNat ≤ traded trades → ∀ cancel : MarketMessage, cancel.Cancels id →
        (bookAfter history).run trades = (bookAfter history).onMessage cancel)) ∧
    ∀ data n history b o, PooledAfter data n history b → b.orderOf id = some o →
      (traded trades < o.quantity.toNat → ∀ single : MarketMessage, single.Fills id →
        single.quantity.toNat = traded trades →
          ∃ b', b.run trades = some b' ∧ b.onMessage single = some b') ∧
      (o.quantity.toNat ≤ traded trades → ∀ cancel : MarketMessage, cancel.Cancels id →
        ∃ b', b.run trades = some b' ∧ b.onMessage cancel = some b') := by
  constructor
  · intro history o ho
    have h := bookAfter_represents history
    exact ⟨fun hlt single hsingle hsum => h.fills_part ho htrades hne hlt hsingle hsum,
      fun hle cancel hcancel => h.fills_full ho htrades hne hle hcancel⟩
  · intro data n history b o hb ho
    obtain ⟨b₁, hb₁, h⟩ := (Holds.make data n).run history
    cases hb.symm.trans hb₁
    exact ⟨fun hlt single hsingle hsum => h.fills_part ho htrades hne hlt hsingle hsum,
      fun hle cancel hcancel => h.fills_full ho htrades hne hle hcancel⟩

/-- Two fills that cover an order of ten, against its Cancel. -/
theorem fills_compose_ten :
    (bookAfter [orderMessage .add 1 .buy 100 10]).run
        [orderMessage .trade 1 .buy 0 4, orderMessage .trade 1 .sell 0 9] =
      (bookAfter [orderMessage .add 1 .buy 100 10]).onMessage (orderMessage .cancel 1 .sell 0 0) := by
  have htrades : ∀ msg ∈ [orderMessage .trade 1 .buy 0 4, orderMessage .trade 1 .sell 0 9],
      msg.Fills 1 := by simp [MarketMessage.Fills, orderMessage]
  have hcancel : (orderMessage .cancel 1 .sell 0 0).Cancels 1 := ⟨rfl, rfl⟩
  exact ((fills_compose 1 (by simp) htrades).1 [orderMessage .add 1 .buy 100 10]
    ⟨1, 100, 10, .buy⟩ (by decide)).2 (by decide) _ hcancel

end LatencyLab
