import LatencyLab.Book.Liquidity
import LatencyLab.Pool.PooledRefinement

/-! Level aggregates of `PooledOrderBook`. Add, Cancel and Trade compute in 32
bits; Modify computes in 64 bits and clamps at zero. The two agree as long as a
Modify does not take more from an order than the 32 bits of its level's sum
hold, which takes a level whose exact sum is past 32 bits. -/

namespace LatencyLab

open Std Keyed ReferenceBook Transition

namespace PooledOrderBook

/-- The remaining quantity of a live order. -/
def quantityOf (b : PooledOrderBook) (id : UInt64) : ℕ :=
  ((b.orderOf id).map (·.quantity.toNat)).getD 0

/-- The exact sum of the quantities of the orders listed in a level. -/
def listedQuantity (b : PooledOrderBook) (l : PriceLevel) : ℕ := (l.orderIds.map b.quantityOf).sum

/-- Every aggregate is the listed quantity in 32 bits, and the listed quantity
itself where that fits. -/
structure NoDrift (b : PooledOrderBook) : Prop where
  modular : ∀ buy p l, b.levelAt buy p = some l → l.totalQuantity.toNat = b.listedQuantity l % 2 ^ 32
  exact : ∀ buy p l, b.levelAt buy p = some l → b.listedQuantity l ≤ 2 ^ 32 - 1 →
    l.totalQuantity.toNat = b.listedQuantity l

/-- A Modify of a live order that takes more from the order than the 32 bits of
the sum over its level. -/
def OverdrawnModify (b : PooledOrderBook) (msg : MarketMessage) : Prop :=
  msg.type = .modify ∧ ∃ o l, b.orderOf msg.orderId = some o ∧
    b.levelAt o.isBuy o.price = some l ∧
      b.listedQuantity l % 2 ^ 32 + msg.quantity.toNat < o.quantity.toNat

end PooledOrderBook

section

variable {b : PooledOrderBook} {r : ReferenceBook} {n : ℕ}

theorem Holds.of_levelAt (h : Holds b r n) {buy : Bool} {p : Int64} {l : PriceLevel}
    (hl : b.levelAt buy p = some l) : l.orderIds = (r.level buy p).map Order.orderId := by
  cases buy
  · exact (h.asks.shows p l hl).2
  · exact (h.bids.shows p l hl).2

theorem Holds.listedQuantity_eq (h : Holds b r n) {buy : Bool} {p : Int64} {l : PriceLevel}
    (hl : b.levelAt buy p = some l) : b.listedQuantity l = exactTotal (r.level buy p) := by
  rw [PooledOrderBook.listedQuantity, h.of_levelAt hl, List.map_map, exactTotal]
  congr 1
  apply List.map_congr_left
  intro o ho
  have hlook := r.lookup_eq_some.mpr ⟨(mem_level.mp ho).1, rfl⟩
  simp [PooledOrderBook.quantityOf, orderOf_eq h.pointers, hlook]

theorem aggregates_iff : Aggregates b r ↔
    ∀ buy p l, b.levelAt buy p = some l → l.totalQuantity = total (r.level buy p) := by
  constructor
  · rintro h (_ | _) p l hl
    · exact h.asks p l hl
    · exact h.bids p l hl
  · exact fun h => ⟨fun p l hl => h true p l hl, fun p l hl => h false p l hl⟩

theorem Holds.noDrift_iff (h : Holds b r n) : b.NoDrift ↔ Aggregates b r := by
  rw [aggregates_iff]
  constructor
  · intro hd buy p l hl
    rw [← UInt32.toNat_inj, toNat_total, hd.modular buy p l hl, h.listedQuantity_eq hl]
  · intro ha
    have hmod : ∀ buy p l, b.levelAt buy p = some l →
        l.totalQuantity.toNat = b.listedQuantity l % 2 ^ 32 := by
      intro buy p l hl
      rw [ha buy p l hl, toNat_total, h.listedQuantity_eq hl]
    refine ⟨hmod, fun buy p l hl hfit => ?_⟩
    rw [hmod buy p l hl]
    exact Nat.mod_eq_of_lt (by omega)

theorem PooledOrderBook.NoDrift.overdrawn_iff (h : b.NoDrift) (msg : MarketMessage) :
    b.OverdrawnModify msg ↔ b.ClampedModify msg := by
  refine and_congr_right fun _ => exists_congr fun o => exists_congr fun l => and_congr_right fun _ => ?_
  refine and_congr_right fun hl => ?_
  rw [← h.modular _ _ l hl]

end

section Feed

variable {data : ℕ} {n : UInt64} {msgs : List MarketMessage}

/-- `b` is the state of `PooledOrderBook` of capacity `n` after a feed. -/
abbrev PooledAfter (data : ℕ) (n : UInt64) (msgs : List MarketMessage) (b : PooledOrderBook) : Prop :=
  (PooledOrderBook.make data n).run msgs = some b

theorem pooledAfter_snoc {msg : MarketMessage} {b b' : PooledOrderBook} (hb : PooledAfter data n msgs b) :
    PooledAfter data n (msgs ++ [msg]) b' ↔ b.onMessage msg = some b' := by
  rw [PooledAfter, PooledOrderBook.run, exec_snoc, show exec _ _ msgs = some b from hb, Option.bind_some]

/-- **Drift, exactly.** In every state a feed passes through the aggregates are the
sums over their levels in 32 bits, if and only if no message of the feed is a
Modify that overdraws its level's sum. -/
theorem noDrift_along_iff (data : ℕ) (n : UInt64) (msgs : List MarketMessage) :
    (∀ pre, pre <+: msgs → ∀ b, PooledAfter data n pre b → b.NoDrift) ↔
      ∀ pre msg, pre ++ [msg] <+: msgs → ∀ b, PooledAfter data n pre b → ¬b.OverdrawnModify msg := by
  refine along_iff ?_ ?_
  · intro b hb
    cases hb
    exact (Holds.make data n).noDrift_iff.mpr (Aggregates.make data n)
  · intro pre msg _ hp
    obtain ⟨b, hb, h⟩ := (Holds.make data n).run pre
    have hd := hp b hb
    obtain ⟨b', he, hr⟩ := h.onMessage msg
    have hstep := hr.aggregates (h.noDrift_iff.mp hd)
    rw [← hr.holds.noDrift_iff, ← hd.overdrawn_iff] at hstep
    constructor
    · intro hnext b₁ hb₁
      cases hb.symm.trans hb₁
      exact hstep.mp (hnext b' ((pooledAfter_snoc hb).mpr he))
    · intro hc b₁ hb₁
      cases he.symm.trans ((pooledAfter_snoc hb).mp hb₁)
      exact hstep.mpr (hc b hb)

/-- Two bids whose sum is one past 32 bits, the larger then modified to nothing. -/
def wrapFeed : List MarketMessage :=
  [orderMessage .add 1 .buy 100 4294967295, orderMessage .add 2 .buy 100 2,
    orderMessage .modify 1 .buy 100 0]

/-- The best bid reports nothing where two are left. -/
theorem wrapFeed_counterexample :
    ∃ b, PooledAfter 0 2 wrapFeed b ∧ b.bestBid = some ⟨100, [1, 2], 0⟩ ∧
      b.listedQuantity ⟨100, [1, 2], 0⟩ = 2 ∧ ¬b.NoDrift := by
  have hrun : ((PooledOrderBook.make 0 2).run wrapFeed).map (fun b =>
      (b.bestBid, b.levelAt true 100, b.listedQuantity ⟨100, [1, 2], 0⟩)) =
        some (some ⟨100, [1, 2], 0⟩, some ⟨100, [1, 2], 0⟩, 2) := by decide
  obtain ⟨b, hb, hview⟩ := Option.map_eq_some_iff.mp hrun
  simp only [Prod.mk.injEq] at hview
  obtain ⟨hbid, hlevel, hsum⟩ := hview
  refine ⟨b, hb, hbid, hsum, fun h => ?_⟩
  have htotal := h.exact true 100 _ hlevel
  rw [hsum] at htotal
  exact absurd (htotal (by decide)) (by decide)

end Feed

end LatencyLab
