import LatencyLab.Keyed.KeyedList
import LatencyLab.Book.Levels

/-! The purpose of an order book, without its containers: the live orders in
arrival order, and how one message changes them. A level is whatever rests at
one side and price, in arrival order. Modify, Cancel and Trade are edits of the
remaining quantity of one order; they never move it. -/

namespace LatencyLab

open Keyed

/-- The book proper tests `side == Side::Buy` only: every other byte is an ask. -/
def Order.isBuy (o : Order) : Bool := o.side = .buy

def Order.restsAt (o : Order) (buy : Bool) (price : Int64) : Bool :=
  o.isBuy = buy ∧ o.price = price

/-- Replace the remaining quantity `q` by `g q`; `none` removes the order. -/
def Order.requantify (g : UInt32 → Option UInt32) (o : Order) : Option Order :=
  (g o.quantity).map fun q => { o with quantity := q }

theorem Order.requantify_eq_some {g : UInt32 → Option UInt32} {o o' : Order}
    (h : o.requantify g = some o') : ∃ q, g o.quantity = some q ∧ o' = { o with quantity := q } := by
  obtain ⟨q, hq, rfl⟩ := Option.map_eq_some_iff.mp h
  exact ⟨q, hq, rfl⟩

theorem Order.requantify_keeps (g : UInt32 → Option UInt32) :
    Keeps Order.orderId (Order.requantify g) := by
  intro o o' h
  obtain ⟨q, -, rfl⟩ := requantify_eq_some h
  rfl

theorem Order.requantify_restsAt (g : UInt32 → Option UInt32) (buy : Bool) (price : Int64)
    (o o' : Order) (h : o.requantify g = some o') : o'.restsAt buy price = o.restsAt buy price := by
  obtain ⟨q, -, rfl⟩ := requantify_eq_some h
  rfl

/-- What a fill of `m` leaves of a remaining quantity. -/
def fill (m q : UInt32) : Option UInt32 :=
  let left := q - min m q
  if left = 0 then none else some left

theorem toNat_min (m q : UInt32) : (min m q).toNat = min m.toNat q.toNat := by
  show (if m ≤ q then m else q).toNat = _
  split_ifs with h
  · exact (Nat.min_eq_left (UInt32.le_iff_toNat_le.mp h)).symm
  · rw [UInt32.le_iff_toNat_le] at h
    omega

/-- What is left of a quantity, before it is compared with zero. -/
theorem toNat_sub_min (m q : UInt32) : (q - min m q).toNat = q.toNat - m.toNat := by
  have hle : min m q ≤ q := UInt32.le_iff_toNat_le.mpr (by rw [toNat_min]; exact min_le_right _ _)
  rw [UInt32.toNat_sub_of_le _ _ hle, toNat_min]
  omega

theorem toNat_fill (m q : UInt32) : ((fill m q).getD 0).toNat = q.toNat - m.toNat := by
  rw [← toNat_sub_min, fill]
  split_ifs with hzero
  · rw [hzero]
    rfl
  · rfl

/-- Live orders in arrival order. -/
abbrev ReferenceBook := KeyedList Order.orderId

namespace ReferenceBook

def add (r : ReferenceBook) (msg : MarketMessage) : ReferenceBook :=
  match h : r.lookup msg.orderId with
  | some _ => r
  | none => r.push (Order.ofMessage msg) h

/-- Edit the quantity of order `id` where it stands. -/
def edit (r : ReferenceBook) (id : UInt64) (g : UInt32 → Option UInt32) : ReferenceBook :=
  r.alter id (Order.requantify g) (Order.requantify_keeps g)

def modify (r : ReferenceBook) (msg : MarketMessage) : ReferenceBook :=
  r.edit msg.orderId fun _ => some msg.quantity

def cancel (r : ReferenceBook) (msg : MarketMessage) : ReferenceBook :=
  r.edit msg.orderId fun _ => none

def trade (r : ReferenceBook) (msg : MarketMessage) : ReferenceBook :=
  r.edit msg.orderId (fill msg.quantity)

def apply (r : ReferenceBook) (msg : MarketMessage) : ReferenceBook :=
  if msg.type = .add then r.add msg
  else if msg.type = .modify then r.modify msg
  else if msg.type = .cancel then r.cancel msg
  else if msg.type = .trade then r.trade msg
  else r

def run (r : ReferenceBook) (msgs : List MarketMessage) : ReferenceBook := msgs.foldl apply r

/-- The orders resting at one side and price, in arrival order. -/
def level (r : ReferenceBook) (buy : Bool) (price : Int64) : List Order :=
  r.rows.filter (·.restsAt buy price)

/-- The aggregate of some orders, as the level's 32 bits hold it. -/
def total (os : List Order) : UInt32 := (os.map Order.quantity).sum

/-- The exact aggregate. -/
def exactTotal (os : List Order) : ℕ := (os.map (·.quantity.toNat)).sum

theorem toNat_total (os : List Order) : (total os).toNat = exactTotal os % 2 ^ 32 := by
  induction os with
  | nil => rfl
  | cons o os ih =>
    simp only [total, exactTotal, List.map_cons, List.sum_cons, UInt32.toNat_add] at ih ⊢
    rw [ih, Nat.add_mod_mod]

/-! ### What each type of message does -/

theorem apply_of_add (r : ReferenceBook) {msg : MarketMessage} (h : msg.type = .add) : r.apply msg = r.add msg := by
  rw [apply, if_pos h]

theorem apply_of_modify (r : ReferenceBook) {msg : MarketMessage} (h : msg.type = .modify) :
    r.apply msg = r.edit msg.orderId fun _ => some msg.quantity := by
  simp [apply, modify, h, MessageType.add, MessageType.modify]

theorem apply_of_cancel (r : ReferenceBook) {msg : MarketMessage} (h : msg.type = .cancel) :
    r.apply msg = r.edit msg.orderId fun _ => none := by
  simp [apply, cancel, h, MessageType.add, MessageType.modify, MessageType.cancel]

theorem apply_of_trade (r : ReferenceBook) {msg : MarketMessage} (h : msg.type = .trade) :
    r.apply msg = r.edit msg.orderId (fill msg.quantity) := by
  simp [apply, trade, h, MessageType.add, MessageType.modify, MessageType.cancel, MessageType.trade]

/-! ### Lookups -/

theorem add_of_live {r : ReferenceBook} {msg : MarketMessage} {o : Order}
    (h : r.lookup msg.orderId = some o) : r.add msg = r := by
  unfold add
  split
  · rfl
  · simp_all

theorem add_of_fresh {r : ReferenceBook} {msg : MarketMessage} (h : r.lookup msg.orderId = none) :
    r.add msg = r.push (Order.ofMessage msg) h := by
  unfold add
  split
  · simp_all
  · rfl

theorem rows_add {r : ReferenceBook} {msg : MarketMessage} (h : r.lookup msg.orderId = none) :
    (r.add msg).rows = r.rows ++ [Order.ofMessage msg] := by
  rw [add_of_fresh h]
  rfl

/-- The orders after an Add. -/
theorem of_mem_add {r : ReferenceBook} {msg : MarketMessage} {o : Order} (h : o ∈ (r.add msg).rows) :
    o ∈ r.rows ∨ o = Order.ofMessage msg := by
  cases hlook : r.lookup msg.orderId with
  | some o' =>
    rw [add_of_live hlook] at h
    exact .inl h
  | none => rwa [rows_add hlook, List.mem_append, List.mem_singleton] at h

/-- The orders after an edit. -/
theorem of_mem_edit {r : ReferenceBook} {id : UInt64} {g : UInt32 → Option UInt32} {o : Order}
    (h : o ∈ (r.edit id g).rows) :
    o ∈ r.rows ∨
      ∃ o' ∈ r.rows, o'.orderId = id ∧ ∃ q, g o'.quantity = some q ∧ o = { o' with quantity := q } := by
  rcases mem_alter.mp h with ⟨ho, -⟩ | ⟨o', ho', hid, hreq⟩
  · exact .inl ho
  · exact .inr ⟨o', ho', hid, Order.requantify_eq_some hreq⟩

theorem lookup_add {r : ReferenceBook} {msg : MarketMessage} (h : r.lookup msg.orderId = none)
    (id : UInt64) :
    (r.add msg).lookup id = if id = msg.orderId then some (Order.ofMessage msg) else r.lookup id := by
  rw [add_of_fresh h]
  exact r.lookup_push (Order.ofMessage msg) h id

theorem lookup_edit (r : ReferenceBook) (id : UInt64) (g : UInt32 → Option UInt32) (id' : UInt64) :
    (r.edit id g).lookup id' =
      if id' = id then (r.lookup id).bind (Order.requantify g) else r.lookup id' :=
  r.lookup_alter id _ (Order.requantify_keeps g) id'

/-- An edit of an unknown id does nothing. -/
theorem edit_of_unknown {r : ReferenceBook} {id : UInt64} (h : r.lookup id = none)
    (g : UInt32 → Option UInt32) : r.edit id g = r := by
  apply KeyedList.ext
  exact alter_of_not_mem _ (lookup_eq_none_iff.mp h)

/-- An edit with the same outcome on the stored quantity is the same edit. -/
theorem edit_congr {r : ReferenceBook} {id : UInt64} {o : Order} (ho : r.lookup id = some o)
    {g g' : UInt32 → Option UInt32} (h : g o.quantity = g' o.quantity) : r.edit id g = r.edit id g' := by
  apply KeyedList.ext
  apply List.filterMap_congr
  intro a ha
  split_ifs with hk
  · have : a = o := Option.some.inj ((r.lookup_eq_some.mpr ⟨ha, hk⟩).symm.trans ho)
    simp [Order.requantify, this, h]
  · rfl

theorem edit_edit (r : ReferenceBook) (id : UInt64) (q : UInt32) (g : UInt32 → Option UInt32) :
    (r.edit id fun _ => some q).edit id g = r.edit id fun _ => g q := by
  apply KeyedList.ext
  show Keyed.alter _ _ _ (Keyed.alter _ _ _ _) = Keyed.alter _ _ _ _
  simp only [Keyed.alter, List.filterMap_filterMap]
  congr 1
  funext o
  by_cases hid : o.orderId = id <;> simp [hid, Order.requantify]

theorem orderId_of_lookup {r : ReferenceBook} {id : UInt64} {o : Order} (h : r.lookup id = some o) :
    o.orderId = id := (r.lookup_eq_some.mp h).2

/-! ### Levels -/

theorem mem_level {r : ReferenceBook} {buy : Bool} {price : Int64} {o : Order} :
    o ∈ r.level buy price ↔ o ∈ r.rows ∧ o.isBuy = buy ∧ o.price = price := by
  simp [level, Order.restsAt]

theorem level_distinct (r : ReferenceBook) (buy : Bool) (price : Int64) :
    ((r.level buy price).map Order.orderId).Nodup :=
  r.distinct.sublist (List.filter_sublist.map _)

theorem lookup_level {r : ReferenceBook} {id : UInt64} {o : Order} (h : r.lookup id = some o) :
    Keyed.lookup Order.orderId (r.level o.isBuy o.price) id = some o := by
  rw [lookup_eq_some_iff (r.level_distinct _ _), mem_level]
  obtain ⟨hm, hk⟩ := r.lookup_eq_some.mp h
  exact ⟨⟨hm, rfl, rfl⟩, hk⟩

theorem level_push (r : ReferenceBook) (o : Order) (h) (buy : Bool) (price : Int64) :
    level (r.push o h) buy price =
      if o.isBuy = buy ∧ o.price = price then r.level buy price ++ [o] else r.level buy price := by
  simp only [level, KeyedList.rows_push, List.filter_append, List.filter_cons, List.filter_nil,
    Order.restsAt]
  split_ifs <;> simp_all

theorem level_add {r : ReferenceBook} {msg : MarketMessage} (h : r.lookup msg.orderId = none)
    (buy : Bool) (price : Int64) :
    (r.add msg).level buy price =
      if (Order.ofMessage msg).isBuy = buy ∧ msg.price = price then
        r.level buy price ++ [Order.ofMessage msg] else r.level buy price := by
  rw [add_of_fresh h]
  exact level_push r (Order.ofMessage msg) h buy price

theorem level_edit (r : ReferenceBook) (id : UInt64) (g : UInt32 → Option UInt32) (buy : Bool)
    (price : Int64) :
    (r.edit id g).level buy price =
      Keyed.alter Order.orderId id (Order.requantify g) (r.level buy price) :=
  filter_alter _ (Order.requantify_restsAt g buy price) r.rows

/-- An edit shows at the level of the order only. -/
theorem level_edit_other {r : ReferenceBook} {id : UInt64} {o : Order} (ho : r.lookup id = some o)
    (g : UInt32 → Option UInt32) {buy : Bool} {price : Int64}
    (hne : ¬(o.isBuy = buy ∧ o.price = price)) :
    (r.edit id g).level buy price = r.level buy price := by
  rw [level_edit]
  apply alter_of_not_mem
  rw [List.mem_map]
  rintro ⟨o', hm, hid⟩
  rw [mem_level] at hm
  have : o' = o := Option.some.inj ((r.lookup_eq_some.mpr ⟨hm.1, hid⟩).symm.trans ho)
  exact hne (this ▸ hm.2)

/-- The level of an edited order changes its aggregate by the edit. -/
theorem total_level_edit {r : ReferenceBook} {id : UInt64} {o : Order} (ho : r.lookup id = some o)
    (g : UInt32 → Option UInt32) :
    total ((r.edit id g).level o.isBuy o.price) =
      total (r.level o.isBuy o.price) - o.quantity + (g o.quantity).getD 0 := by
  rw [level_edit, total, sum_alter Order.quantity (r.level_distinct _ _) (lookup_level ho)]
  cases h : g o.quantity <;> simp [Order.requantify, h, total]

/-- The exact aggregate changes by the same. -/
theorem exactTotal_level_edit {r : ReferenceBook} {id : UInt64} {o : Order} (ho : r.lookup id = some o)
    (g : UInt32 → Option UInt32) :
    exactTotal ((r.edit id g).level o.isBuy o.price) + o.quantity.toNat =
      exactTotal (r.level o.isBuy o.price) + ((g o.quantity).getD 0).toNat := by
  have hcast : ∀ os : List Order, (exactTotal os : ℤ) = (os.map fun o => (o.quantity.toNat : ℤ)).sum := by
    intro os
    induction os with
    | nil => rfl
    | cons o os ih =>
      rw [exactTotal, List.map_cons, List.sum_cons, Nat.cast_add, List.map_cons, List.sum_cons, ← ih]
      rfl
  have hleft : ((o.requantify g).map fun o => (o.quantity.toNat : ℤ)).getD 0 = ((g o.quantity).getD 0).toNat := by
    cases hg : g o.quantity <;> simp [Order.requantify, hg]
  have hsum := sum_alter (fun o : Order => (o.quantity.toNat : ℤ)) (f := Order.requantify g)
    (r.level_distinct o.isBuy o.price) (lookup_level ho)
  rw [← level_edit, ← hcast, ← hcast, hleft] at hsum
  omega

theorem ids_level_replace (r : ReferenceBook) (id : UInt64) {g : UInt32 → Option UInt32}
    (hg : ∀ q, (g q).isSome) (buy : Bool) (price : Int64) :
    ((r.edit id g).level buy price).map Order.orderId = (r.level buy price).map Order.orderId := by
  rw [level_edit]
  exact map_key_replace (Order.requantify_keeps g) (fun o => by simp [Order.requantify, hg]) _

theorem ids_level_remove (r : ReferenceBook) (id : UInt64) (buy : Bool) (price : Int64) :
    ((r.edit id fun _ => none).level buy price).map Order.orderId =
      ((r.level buy price).map Order.orderId).erase id := by
  rw [level_edit]
  exact map_key_remove (r.level_distinct buy price) id

end ReferenceBook

end LatencyLab
