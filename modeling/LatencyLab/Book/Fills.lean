import LatencyLab.Book.Liquidity
import LatencyLab.Transition.Draining

/-! Fills of one order. An order is drained by Trades: any number of partial fills is
one fill of their sum, and fills that cover the order are a Cancel, however they come
about. Here this is said of the reference book, which decides the plain book. -/

namespace LatencyLab

open Keyed Transition

/-- A Trade of order `id`. -/
def MarketMessage.Fills (id : UInt64) (msg : MarketMessage) : Prop := msg.type = .trade ∧ msg.orderId = id

/-- A Cancel of order `id`. -/
def MarketMessage.Cancels (id : UInt64) (msg : MarketMessage) : Prop :=
  msg.type = .cancel ∧ msg.orderId = id

/-- Every part of a quantity is the quantity of some Trade. -/
theorem exists_fill (id : UInt64) (q : UInt32) {a : ℕ} (ha : a < q.toNat) :
    ∃ msg : MarketMessage, msg.Fills id ∧ msg.quantity.toNat = a := by
  have hlt := q.toNat_lt
  refine ⟨orderMessage .trade id .buy 0 (UInt32.ofNat a), ⟨rfl, rfl⟩, ?_⟩
  exact UInt32.toNat_ofNat_of_lt' (show a < 2 ^ 32 by omega)

/-- The exact sum of the quantities of some messages. -/
def traded (msgs : List MarketMessage) : ℕ := (msgs.map (·.quantity.toNat)).sum

theorem min_of_lt {m q : UInt32} (h : m.toNat < q.toNat) : min m q = m := by
  rw [← UInt32.toNat_inj, toNat_min]
  omega

theorem min_of_le {m q : UInt32} (h : q.toNat ≤ m.toNat) : min m q = q := by
  rw [← UInt32.toNat_inj, toNat_min]
  omega

theorem left_ne_zero {m q : UInt32} (h : m.toNat < q.toNat) : q - m ≠ 0 := by
  intro h0
  rw [sub_eq_zero.mp h0] at h
  omega

theorem fill_of_lt {m q : UInt32} (h : m.toNat < q.toNat) : fill m q = some (q - m) := by
  simp only [fill, min_of_lt h, if_neg (left_ne_zero h)]

theorem fill_of_le {m q : UInt32} (h : q.toNat ≤ m.toNat) : fill m q = none := by
  simp only [fill, min_of_le h, sub_self, if_true]

/-- Two partial fills leave what one of their sum leaves. -/
theorem fill_fill {m m' m'' q : UInt32} (h : m''.toNat < q.toNat) (hsum : m.toNat + m'.toNat = m''.toNat) :
    fill m' (q - m) = fill m'' q := by
  have hm : m + m' = m'' := by
    have hlt := m''.toNat_lt
    rw [← UInt32.toNat_inj, UInt32.toNat_add]
    omega
  have hle : m ≤ q := UInt32.le_iff_toNat_le.mpr (by omega)
  have hleft : (q - m).toNat = q.toNat - m.toNat := UInt32.toNat_sub_of_le _ _ hle
  rw [fill_of_lt h, fill_of_lt (by omega), sub_sub, hm]

namespace ReferenceBook

/-- Order `id` is live with quantity `x`. -/
def Remains (id : UInt64) (r : ReferenceBook) (x : ℕ) : Prop :=
  ∃ o, r.lookup id = some o ∧ o.quantity.toNat = x

section

variable {r : ReferenceBook} {id : UInt64} {o : Order} {msg : MarketMessage}

theorem apply_fills (h : msg.Fills id) : r.apply msg = r.edit id (fill msg.quantity) := by
  obtain ⟨htype, rfl⟩ := h
  exact r.apply_of_trade htype

theorem apply_cancels (h : msg.Cancels id) : r.apply msg = r.edit id fun _ => none := by
  obtain ⟨htype, rfl⟩ := h
  exact r.apply_of_cancel htype

theorem lookup_edit_self (ho : r.lookup id = some o) (g : UInt32 → Option UInt32) :
    (r.edit id g).lookup id = o.requantify g := by
  rw [lookup_edit, if_pos rfl, ho, Option.bind_some]

/-- A partial fill. -/
theorem apply_fills_of_lt (h : msg.Fills id) (ho : r.lookup id = some o)
    (hlt : msg.quantity.toNat < o.quantity.toNat) :
    r.apply msg = r.edit id fun _ => some (o.quantity - msg.quantity) := by
  rw [apply_fills h]
  exact edit_congr ho (fill_of_lt hlt)

end

/-- An order is drained by its Trades and removed by a Cancel. -/
theorem draining (id : UInt64) :
    Draining (fun r msg => some (ReferenceBook.apply r msg)) (Remains id) (MarketMessage.Fills id)
      (MarketMessage.Cancels id) (·.quantity.toNat) where
  divisible := by
    rintro r _ a ⟨o, ho, rfl⟩ ha
    exact exists_fill id o.quantity ha
  congr := by
    intro r x m m' _ hm hm' hamount
    rw [apply_fills hm, apply_fills hm', UInt32.toNat_inj.mp hamount]
  part := by
    rintro r _ m ⟨o, ho, rfl⟩ hm hlt
    refine ⟨_, rfl, { o with quantity := o.quantity - m.quantity }, ?_, ?_⟩
    · rw [apply_fills_of_lt hm ho hlt, lookup_edit_self ho]
      rfl
    · exact UInt32.toNat_sub_of_le _ _ (UInt32.le_iff_toNat_le.mpr hlt.le)
  part_part := by
    rintro r _ _ m m' m'' ⟨o, ho, rfl⟩ hm hm' hm'' hlt hsum ⟨rfl⟩
    rw [apply_fills_of_lt hm ho (by omega), apply_fills hm', edit_edit, apply_fills hm'', Option.some.injEq]
    exact edit_congr ho (fill_fill hlt hsum)
  part_removal := by
    rintro r _ _ m d ⟨o, ho, rfl⟩ hm hd hlt ⟨rfl⟩
    rw [apply_fills_of_lt hm ho hlt, apply_cancels hd, edit_edit, apply_cancels hd]
  full := by
    rintro r _ m d ⟨o, ho, rfl⟩ hm hd hle
    rw [apply_fills hm, apply_cancels hd, Option.some.injEq]
    exact edit_congr ho (fill_of_le hle)
  removed := by
    rintro r _ d ⟨o, ho, rfl⟩ hd
    refine ⟨_, rfl, fun m hm => ?_⟩
    have hgone : (r.apply d).lookup id = none := by
      rw [apply_cancels hd, lookup_edit_self ho]
      rfl
    rw [apply_fills hm, edit_of_unknown hgone]

end ReferenceBook

/-! ### The plain book -/

section Plain

variable {b : OrderBook} {r : ReferenceBook} {id : UInt64} {o : Order} {trades : List MarketMessage}

theorem Represents.fills_part (h : Represents b r) (ho : b.orderMap_[id]? = some o)
    (htrades : ∀ msg ∈ trades, msg.Fills id) (hne : trades ≠ []) (hlt : traded trades < o.quantity.toNat)
    {single : MarketMessage} (hsingle : single.Fills id) (hsum : single.quantity.toNat = traded trades) :
    b.run trades = b.onMessage single := by
  rw [h.orders] at ho
  have hrun := (ReferenceBook.draining id).exec_part ⟨o, ho, rfl⟩ htrades hne hlt hsingle hsum
  rw [exec_some, Option.some.injEq] at hrun
  have htarget := h.onMessage single
  rw [← hrun] at htarget
  exact (h.run trades).unique htarget

theorem Represents.fills_full (h : Represents b r) (ho : b.orderMap_[id]? = some o)
    (htrades : ∀ msg ∈ trades, msg.Fills id) (hne : trades ≠ []) (hle : o.quantity.toNat ≤ traded trades)
    {cancel : MarketMessage} (hcancel : cancel.Cancels id) : b.run trades = b.onMessage cancel := by
  rw [h.orders] at ho
  have hrun := (ReferenceBook.draining id).exec_full ⟨o, ho, rfl⟩ htrades hne hle hcancel
  rw [exec_some, Option.some.injEq] at hrun
  have htarget := h.onMessage cancel
  rw [← hrun] at htarget
  exact (h.run trades).unique htarget

end Plain

end LatencyLab
