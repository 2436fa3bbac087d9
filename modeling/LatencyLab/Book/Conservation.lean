import LatencyLab.Book.Snapshot
import LatencyLab.Transition.Conservation
import Mathlib.Data.Nat.ModEq

/-! Quantity is conserved, level by level. Adds and Modifies bring it to a level; Trades,
Cancels and Modifies take it away, and it never goes from one level to another, whatever
price and side the messages name. -/

namespace LatencyLab

open Std Keyed ReferenceBook Transition

/-- The ways in which quantity comes and goes. -/
inductive Flow
  | added
  | raised
  | executed
  | cancelled
  | lowered
  deriving DecidableEq

namespace OrderBook

/-- What a message moves, of the order it names. -/
def moved (b : OrderBook) (msg : MarketMessage) (flow : Flow) : ℕ :=
  match flow, b.orderMap_[msg.orderId]? with
  | .added, none => if msg.type = .add then msg.quantity.toNat else 0
  | .raised, some order => if msg.type = .modify then msg.quantity.toNat - order.quantity.toNat else 0
  | .lowered, some order => if msg.type = .modify then order.quantity.toNat - msg.quantity.toNat else 0
  | .cancelled, some order => if msg.type = .cancel then order.quantity.toNat else 0
  | .executed, some order => if msg.type = .trade then min msg.quantity.toNat order.quantity.toNat else 0
  | _, _ => 0

/-- Where it moves it: at the place of the order, or where the order would be put. -/
def placeOf (b : OrderBook) (msg : MarketMessage) : Bool × Int64 :=
  (b.orderMap_[msg.orderId]?.getD (Order.ofMessage msg)).place

/-- What it moves at one place. -/
def movedAt (place : Bool × Int64) (flow : Flow) (b : OrderBook) (msg : MarketMessage) : ℕ :=
  if b.placeOf msg = place then b.moved msg flow else 0

end OrderBook

/-- What a feed moves at one place. -/
def movedBy (msgs : List MarketMessage) (place : Bool × Int64) (flow : Flow) : ℕ :=
  sumAlong OrderBook.onMessage (OrderBook.movedAt place flow) OrderBook.empty msgs

/-- What a feed brings to a place. -/
def broughtTo (msgs : List MarketMessage) (place : Bool × Int64) : ℕ :=
  movedBy msgs place .added + movedBy msgs place .raised

/-- What it takes away from it. -/
def takenFrom (msgs : List MarketMessage) (place : Bool × Int64) : ℕ :=
  movedBy msgs place .executed + movedBy msgs place .cancelled + movedBy msgs place .lowered

/-! ### One order -/

namespace ReferenceBook

/-- The level of an edited order changes by the edit, and no other level does. -/
theorem exactTotal_edit {r : ReferenceBook} {id : UInt64} {o : Order} (ho : r.lookup id = some o)
    (g : UInt32 → Option UInt32) {inflow outflow : ℕ}
    (hbalance : inflow + o.quantity.toNat = ((g o.quantity).getD 0).toNat + outflow) (buy : Bool) (p : Int64) :
    (if o.place = (buy, p) then inflow else 0) + exactTotal (r.level buy p) =
      exactTotal ((r.edit id g).level buy p) + (if o.place = (buy, p) then outflow else 0) := by
  split_ifs with hplace
  · rw [Order.place, Prod.mk.injEq] at hplace
    obtain ⟨rfl, rfl⟩ := hplace
    have hedit := exactTotal_level_edit ho g
    omega
  · rw [level_edit_other ho g fun hat => hplace (Prod.ext hat.1 hat.2), Nat.zero_add, Nat.add_zero]

end ReferenceBook

/-! ### One message -/

namespace OrderBook

/-- What comes to a place with a message. -/
def inflow (place : Bool × Int64) (b : OrderBook) (msg : MarketMessage) : ℕ :=
  b.movedAt place .added msg + b.movedAt place .raised msg

/-- What goes from it. -/
def outflow (place : Bool × Int64) (b : OrderBook) (msg : MarketMessage) : ℕ :=
  b.movedAt place .executed msg + b.movedAt place .cancelled msg + b.movedAt place .lowered msg

theorem inflow_eq (place : Bool × Int64) (b : OrderBook) (msg : MarketMessage) :
    b.inflow place msg = if b.placeOf msg = place then b.moved msg .added + b.moved msg .raised else 0 := by
  simp only [inflow, movedAt]
  split_ifs <;> rfl

theorem outflow_eq (place : Bool × Int64) (b : OrderBook) (msg : MarketMessage) :
    b.outflow place msg =
      if b.placeOf msg = place then
        b.moved msg .executed + b.moved msg .cancelled + b.moved msg .lowered else 0 := by
  simp only [outflow, movedAt]
  split_ifs <;> rfl

end OrderBook

namespace Represents

variable {b : OrderBook} {r : ReferenceBook} {msg : MarketMessage}

theorem balanced_of_unknown (h : Represents b r) (ho : r.lookup msg.orderId = none) (buy : Bool) (p : Int64) :
    b.inflow (buy, p) msg + exactTotal (r.level buy p) =
      exactTotal ((r.apply msg).level buy p) + b.outflow (buy, p) msg := by
  have hlook : b.orderMap_[msg.orderId]? = none := (h.orders _).trans ho
  have hplace : b.placeOf msg = (Order.ofMessage msg).place := by
    rw [OrderBook.placeOf, hlook]
    rfl
  rw [OrderBook.inflow_eq, OrderBook.outflow_eq, hplace]
  simp only [OrderBook.moved, hlook, Nat.add_zero, ite_self]
  by_cases hadd : msg.type = .add
  · simp only [r.apply_of_add hadd, level_add ho, Order.place, Prod.mk.injEq, if_pos hadd]
    change (if (Order.ofMessage msg).isBuy = buy ∧ msg.price = p then _ else _) + _ = _
    split_ifs
    · rw [exactTotal, exactTotal, List.map_append, List.sum_append, Nat.add_comm]
      rfl
    · exact Nat.zero_add _
  · have hsame : r.apply msg = r := by
      unfold ReferenceBook.apply
      split_ifs
      · exact edit_of_unknown ho _
      · exact edit_of_unknown ho _
      · exact edit_of_unknown ho _
      · rfl
    rw [hsame, if_neg hadd, ite_self, Nat.zero_add]

theorem balanced_of_live (h : Represents b r) {o : Order} (ho : r.lookup msg.orderId = some o) (buy : Bool)
    (p : Int64) :
    b.inflow (buy, p) msg + exactTotal (r.level buy p) =
      exactTotal ((r.apply msg).level buy p) + b.outflow (buy, p) msg := by
  have hlook : b.orderMap_[msg.orderId]? = some o := (h.orders _).trans ho
  have hplace : b.placeOf msg = o.place := by
    rw [OrderBook.placeOf, hlook]
    rfl
  rw [OrderBook.inflow_eq, OrderBook.outflow_eq, hplace]
  simp only [OrderBook.moved, hlook, Nat.zero_add]
  by_cases hmodify : msg.type = .modify
  · have hcancel : msg.type ≠ .cancel := by rw [hmodify]; decide
    have htrade : msg.type ≠ .trade := by rw [hmodify]; decide
    simp only [if_pos hmodify, if_neg hcancel, if_neg htrade, Nat.zero_add, r.apply_of_modify hmodify]
    refine exactTotal_edit ho _ ?_ buy p
    rw [Option.getD_some]
    omega
  by_cases hcancel : msg.type = .cancel
  · have htrade : msg.type ≠ .trade := by rw [hcancel]; decide
    simp only [if_neg hmodify, if_pos hcancel, if_neg htrade, Nat.zero_add, Nat.add_zero,
      r.apply_of_cancel hcancel]
    refine exactTotal_edit ho (fun _ => none) ?_ buy p
    rw [Option.getD_none, UInt32.toNat_zero]
  by_cases htrade : msg.type = .trade
  · simp only [if_neg hmodify, if_neg hcancel, if_pos htrade, Nat.add_zero, r.apply_of_trade htrade]
    refine exactTotal_edit ho _ ?_ buy p
    rw [toNat_fill]
    omega
  · have hsame : r.apply msg = r := by
      rw [ReferenceBook.apply, if_neg hmodify, if_neg hcancel, if_neg htrade, add_of_live ho, ite_self]
    simp only [hsame, if_neg hmodify, if_neg hcancel, if_neg htrade, ite_self, Nat.zero_add, Nat.add_zero]

/-- Each message keeps the balance of each level. -/
theorem balanced (h : Represents b r) (msg : MarketMessage) (buy : Bool) (p : Int64) :
    b.inflow (buy, p) msg + b.liveQuantity buy p =
      (b.onMessage msg).liveQuantity buy p + b.outflow (buy, p) msg := by
  rw [h.liveQuantity_eq, (h.onMessage msg).liveQuantity_eq]
  cases ho : r.lookup msg.orderId with
  | none => exact h.balanced_of_unknown ho buy p
  | some o => exact h.balanced_of_live ho buy p

end Represents

/-! ### Feeds -/

/-- What came to one level is there, or it went. The aggregate is kept in 32 bits. -/
structure Conserved (msgs : List MarketMessage) (buy : Bool) (p : Int64) : Prop where
  live : broughtTo msgs (buy, p) = (bookAfter msgs).liveQuantity buy p + takenFrom msgs (buy, p)
  displayed : ∀ l, (bookAfter msgs).levelAt buy p = some l →
    l.totalQuantity.toNat + takenFrom msgs (buy, p) ≡ broughtTo msgs (buy, p) [MOD 2 ^ 32]
  gone : (bookAfter msgs).levelAt buy p = none → broughtTo msgs (buy, p) = takenFrom msgs (buy, p)

theorem live_of_feed (msgs : List MarketMessage) (buy : Bool) (p : Int64) :
    broughtTo msgs (buy, p) = (bookAfter msgs).liveQuantity buy p + takenFrom msgs (buy, p) := by
  have hnone : OrderBook.empty.liveQuantity buy p = 0 := by
    rw [Represents.empty.liveQuantity_eq]
    rfl
  have hin : sumAlong OrderBook.onMessage (OrderBook.inflow (buy, p)) OrderBook.empty msgs =
      broughtTo msgs (buy, p) := sumAlong_add _ _ _ _
  have hout : sumAlong OrderBook.onMessage (OrderBook.outflow (buy, p)) OrderBook.empty msgs =
      takenFrom msgs (buy, p) := by
    rw [takenFrom, movedBy, movedBy, ← sumAlong_add, movedBy, ← sumAlong_add]
    rfl
  have hkept : ∀ (b : OrderBook) msg, (∃ r, Represents b r) → ∃ r, Represents (b.onMessage msg) r :=
    fun _ msg ⟨_, hr⟩ => ⟨_, hr.onMessage msg⟩
  have hbalance := conserved_of_step hkept (fun b msg ⟨_, hr⟩ => hr.balanced msg buy p)
    ⟨_, Represents.empty⟩ msgs
  rw [hin, hout, hnone, Nat.add_zero] at hbalance
  exact hbalance

/-- **Quantity is conserved** at every level by every feed: what was added and raised there
is live there or was executed, cancelled or lowered there, and nowhere else. -/
theorem quantity_conserved (msgs : List MarketMessage) (buy : Bool) (p : Int64) : Conserved msgs buy p where
  live := live_of_feed msgs buy p
  displayed l hl := by
    have h := bookAfter_represents msgs
    rw [live_of_feed, h.liveQuantity_eq, (h.of_levelAt hl).2.2.1, toNat_total]
    exact (Nat.mod_modEq _ _).add_right _
  gone hnone := by
    have h := bookAfter_represents msgs
    rw [live_of_feed, h.liveQuantity_eq, h.levelAt_eq_none_iff.mp hnone]
    exact Nat.zero_add _

end LatencyLab
