import LatencyLab.Book.Liquidity

/-! Signed overflow in `OrderBook::handle_modify`. Quantities and aggregates are
`std::uint32_t` and reinterpreted as `std::int32_t` before the difference and the
sum, which only keeps values below `2 ^ 31`. An overflow is undefined behaviour and
needs two operands on different sides of `2 ^ 31`. -/

namespace LatencyLab

open Std Keyed ReferenceBook Transition

/-- An integer that a `std::int32_t` can hold. -/
def FitsInt32 (x : ℤ) : Prop := -2 ^ 31 ≤ x ∧ x ≤ 2 ^ 31 - 1

instance : DecidablePred FitsInt32 := fun x => inferInstanceAs (Decidable (-2 ^ 31 ≤ x ∧ x ≤ 2 ^ 31 - 1))

/-- `static_cast<std::int32_t>` of a `std::uint32_t`, as an integer. -/
def castInt32 (q : UInt32) : ℤ := q.toInt32.toInt

theorem castInt32_eq (q : UInt32) :
    castInt32 q = if q.toNat < 2 ^ 31 then (q.toNat : ℤ) else q.toNat - 2 ^ 32 := by
  show q.toBitVec.toInt = _
  rw [BitVec.toInt_eq_toNat_cond]
  show (if 2 * q.toNat < 2 ^ 32 then (q.toNat : ℤ) else q.toNat - (2 ^ 32 : ℕ)) = _
  split_ifs <;> omega

namespace OrderBook

/-- The two signed computations of `handle_modify`, on integers, are in range. -/
def ModifyInRange (b : OrderBook) (msg : MarketMessage) : Prop :=
  msg.type = .modify → ∀ o l, b.orderMap_[msg.orderId]? = some o →
    b.levelAt o.isBuy o.price = some l →
      FitsInt32 (castInt32 msg.quantity - castInt32 o.quantity) ∧
        FitsInt32 (castInt32 l.totalQuantity + (castInt32 msg.quantity - castInt32 o.quantity))

/-- A Modify of a live order keeps its quantity and the exact sum over its level on
their sides of `2 ^ 31`, or changes the quantity by more than 31 bits. -/
def KeepsSides (b : OrderBook) (msg : MarketMessage) : Prop :=
  msg.type = .modify → ∀ o, b.orderMap_[msg.orderId]? = some o →
    (((2 ^ 31 ≤ o.quantity.toNat ↔ 2 ^ 31 ≤ msg.quantity.toNat) ∧
      (2 ^ 31 ≤ b.liveQuantity o.isBuy o.price ↔
        2 ^ 31 + o.quantity.toNat ≤ b.liveQuantity o.isBuy o.price + msg.quantity.toNat)) ∨
      ¬FitsInt32 ((msg.quantity.toNat : ℤ) - o.quantity.toNat))

end OrderBook

/-- The casts are exact below `2 ^ 31` and off by `2 ^ 32` above. With an aggregate
that covers the old quantity and has room for the new one, the two computations are
in range exactly if nothing changes sides, or the difference itself is too large. -/
theorem fitsInt32_iff {total new old : UInt32} (hold : old.toNat ≤ total.toNat)
    (hnew : total.toNat + new.toNat < 2 ^ 32 + old.toNat) :
    FitsInt32 (castInt32 new - castInt32 old) ∧ FitsInt32 (castInt32 total + (castInt32 new - castInt32 old)) ↔
      ((2 ^ 31 ≤ old.toNat ↔ 2 ^ 31 ≤ new.toNat) ∧
        (2 ^ 31 ≤ total.toNat ↔ 2 ^ 31 + old.toNat ≤ total.toNat + new.toNat)) ∨
      ¬FitsInt32 ((new.toNat : ℤ) - old.toNat) := by
  have htotal := total.toNat_lt
  rw [castInt32_eq, castInt32_eq, castInt32_eq]
  unfold FitsInt32
  split_ifs <;> omega

/-- One Modify, between two states whose level sums fit. -/
theorem Represents.modifyInRange_iff {b : OrderBook} {r : ReferenceBook} (h : Represents b r)
    (hfit : b.LevelsFit) {msg : MarketMessage} (hfit' : (b.onMessage msg).LevelsFit) :
    b.ModifyInRange msg ↔ b.KeepsSides msg := by
  refine forall_congr' fun hm => forall_congr' fun o => ?_
  have hstep : ∀ ho : r.lookup msg.orderId = some o, ∀ l, b.levelAt o.isBuy o.price = some l →
      l.totalQuantity.toNat = b.liveQuantity o.isBuy o.price ∧
        o.quantity.toNat ≤ l.totalQuantity.toNat ∧
          l.totalQuantity.toNat + msg.quantity.toNat < 2 ^ 32 + o.quantity.toNat := by
    intro ho l hl
    have hnow := hfit o.isBuy o.price
    have hnext := hfit' o.isBuy o.price
    have hedit := exactTotal_level_edit ho fun _ => some msg.quantity
    rw [Option.getD_some] at hedit
    rw [h.liveQuantity_eq] at hnow
    rw [(h.onMessage msg).liveQuantity_eq, r.apply_of_modify hm] at hnext
    have htotal : l.totalQuantity.toNat = exactTotal (r.level o.isBuy o.price) := by
      rw [(h.of_levelAt hl).2.2.1, toNat_total, Nat.mod_eq_of_lt (by omega)]
    rw [h.liveQuantity_eq, htotal]
    exact ⟨rfl, quantity_le_level ho, by omega⟩
  constructor
  · intro hrange ho
    rw [h.orders] at ho
    obtain ⟨l, hl⟩ := h.exists_levelAt ho
    obtain ⟨htotal, hold, hnew⟩ := hstep ho l hl
    rw [← htotal]
    exact (fitsInt32_iff hold hnew).mp (hrange l (by rw [h.orders, ho]) hl)
  · intro hsides l ho hl
    have hlook := ho
    rw [h.orders] at hlook
    obtain ⟨htotal, hold, hnew⟩ := hstep hlook l hl
    have hkeep := hsides ho
    rw [← htotal] at hkeep
    exact (fitsInt32_iff hold hnew).mpr hkeep

/-- While everything stays below `2 ^ 31` nothing changes sides. -/
theorem Represents.keepsSides_of_rows {b : OrderBook} {r : ReferenceBook} (h : Represents b r)
    {msg : MarketMessage} (hr : exactTotal r.rows + msg.quantity.toNat < 2 ^ 31) : b.KeepsSides msg := by
  intro _ o ho
  rw [h.orders] at ho
  have hlevel := r.level_le_rows o.isBuy o.price
  have hle := quantity_le_level ho
  rw [h.liveQuantity_eq]
  left
  constructor <;> omega

section Feed

variable {msgs : List MarketMessage}

/-- **Signed overflow, exactly.** On a feed whose level sums fit, no Modify overflows
if and only if every Modify keeps the quantity and the sum over its level on their
sides of `2 ^ 31`, or changes the quantity by more than 31 bits. -/
theorem modifyInRange_along_iff (hfit : FitsAlong msgs) :
    (∀ pre msg, pre ++ [msg] <+: msgs → (bookAfter pre).ModifyInRange msg) ↔
      ∀ pre msg, pre ++ [msg] <+: msgs → (bookAfter pre).KeepsSides msg := by
  refine forall_congr' fun pre => forall_congr' fun msg => forall_congr' fun hpre => ?_
  have hnext := hfit _ hpre
  rw [bookAfter, OrderBook.run, List.foldl_append] at hnext
  exact (bookAfter_represents pre).modifyInRange_iff (hfit pre ((List.prefix_append pre [msg]).trans hpre)) hnext

/-- Ten modified to twenty-five. -/
def smallFeed : List MarketMessage :=
  [orderMessage .add 1 .buy 100 10, orderMessage .modify 1 .buy 100 25]

theorem modifyInRange_smallFeed :
    FitsAlong smallFeed ∧
      ∀ pre msg, pre ++ [msg] <+: smallFeed → (bookAfter pre).ModifyInRange msg := by
  have hfit : FitsAlong smallFeed := fitsAlong_of_rows (by decide)
  refine ⟨hfit, (modifyInRange_along_iff hfit).mpr fun pre msg hpre => ?_⟩
  have hsmall : ∀ pre ∈ smallFeed.inits, ∀ msg ∈ smallFeed,
      exactTotal (refAfter pre).rows + msg.quantity.toNat < 2 ^ 31 := by decide
  have hinit : pre ∈ smallFeed.inits := (List.mem_inits _ _).mpr ((List.prefix_append pre [msg]).trans hpre)
  exact (bookAfter_represents pre).keepsSides_of_rows (hsmall pre hinit msg (hpre.subset (by simp)))

/-- Three thousand million modified to two thousand million. -/
def crossingFeed : List MarketMessage :=
  [orderMessage .add 1 .buy 100 3000000000, orderMessage .modify 1 .buy 100 2000000000]

theorem crossingFeed_counterexample :
    FitsAlong crossingFeed ∧
      ¬∀ pre msg, pre ++ [msg] <+: crossingFeed → (bookAfter pre).ModifyInRange msg := by
  refine ⟨fitsAlong_of_rows (by decide), fun h => ?_⟩
  have hrange := h [orderMessage .add 1 .buy 100 3000000000] (orderMessage .modify 1 .buy 100 2000000000)
    List.prefix_rfl rfl ⟨1, 100, 3000000000, .buy⟩ ⟨100, [1], 3000000000⟩ (by decide) (by decide)
  exact absurd hrange.1 (by decide)

end Feed

end LatencyLab
