import LatencyLab.Book.Overflow

/-! Feeds on which all arithmetic of the books is exact. A book whose live orders
have few ids and small quantities holds little in all, and then no sum,
difference or cast of a handler leaves its type. -/

namespace LatencyLab

open Std Keyed ReferenceBook Transition

/-- All arithmetic that a handler does on `msg` is exact, for a book with the given
live orders and levels: no sum or difference of `std::uint32_t` wraps, and Modify
casts nothing of `2 ^ 31` or more and arrives at a positive aggregate below that. -/
structure ExactArithmetic (orderOf : UInt64 → Option Order) (levelAt : Bool → Int64 → Option PriceLevel)
    (msg : MarketMessage) : Prop where
  add : msg.type = .add → orderOf msg.orderId = none →
    ∀ l, levelAt (Order.ofMessage msg).isBuy msg.price = some l →
      l.totalQuantity.toNat + msg.quantity.toNat < 2 ^ 32
  modify : msg.type = .modify → ∀ o l, orderOf msg.orderId = some o →
    levelAt o.isBuy o.price = some l →
      o.quantity.toNat < l.totalQuantity.toNat + msg.quantity.toNat ∧
        l.totalQuantity.toNat + msg.quantity.toNat < 2 ^ 31 + o.quantity.toNat
  casts : msg.type = .modify → ∀ o l, orderOf msg.orderId = some o →
    levelAt o.isBuy o.price = some l →
      msg.quantity.toNat < 2 ^ 31 ∧ o.quantity.toNat < 2 ^ 31 ∧ l.totalQuantity.toNat < 2 ^ 31
  cancel : msg.type = .cancel → ∀ o l, orderOf msg.orderId = some o →
    levelAt o.isBuy o.price = some l → o.quantity.toNat ≤ l.totalQuantity.toNat
  trade : msg.type = .trade → ∀ o l, orderOf msg.orderId = some o →
    levelAt o.isBuy o.price = some l →
      (min msg.quantity o.quantity).toNat ≤ l.totalQuantity.toNat

/-- The live orders have ids among `ids` and quantities up to `bound`. -/
def Within (r : ReferenceBook) (ids : Finset UInt64) (bound : ℕ) : Prop :=
  ∀ o ∈ r.rows, o.orderId ∈ ids ∧ o.quantity.toNat ≤ bound

namespace Within

variable {r : ReferenceBook} {ids : Finset UInt64} {bound : ℕ} {msg : MarketMessage}

theorem empty (ids : Finset UInt64) (bound : ℕ) : Within KeyedList.empty ids bound := by
  intro o ho
  simp at ho

theorem add (h : Within r ids bound) (hid : msg.orderId ∈ ids) (hq : msg.quantity.toNat ≤ bound) :
    Within (r.add msg) ids bound := by
  intro o ho
  rcases of_mem_add ho with ho | rfl
  · exact h o ho
  · exact ⟨hid, hq⟩

/-- An edit that puts no quantity past the bound. -/
theorem edit (h : Within r ids bound) (id : UInt64) {g : UInt32 → Option UInt32}
    (hg : ∀ q q', q.toNat ≤ bound → g q = some q' → q'.toNat ≤ bound) :
    Within (r.edit id g) ids bound := by
  intro o hm
  rcases of_mem_edit hm with ho | ⟨o', ho', -, q, hq, rfl⟩
  · exact h o ho
  · obtain ⟨hid, hle⟩ := h o' ho'
    exact ⟨hid, hg _ _ hle hq⟩

theorem fill_le {m q q' : UInt32} (h : fill m q = some q') : q'.toNat ≤ q.toNat := by
  simp only [fill] at h
  split_ifs at h
  cases h
  rw [toNat_sub_min]
  exact Nat.sub_le _ _

theorem apply (h : Within r ids bound) (hid : msg.orderId ∈ ids) (hq : msg.quantity.toNat ≤ bound) :
    Within (r.apply msg) ids bound := by
  unfold ReferenceBook.apply
  split_ifs
  · exact h.add hid hq
  · refine h.edit _ fun _ _ _ he => ?_
    cases he
    exact hq
  · refine h.edit _ fun _ _ _ he => ?_
    cases he
  · exact h.edit _ fun _ _ hle he => (fill_le he).trans hle
  · exact h

theorem run (h : Within r ids bound) {msgs : List MarketMessage}
    (hmsgs : ∀ msg ∈ msgs, msg.orderId ∈ ids ∧ msg.quantity.toNat ≤ bound) :
    Within (r.run msgs) ids bound := by
  induction msgs generalizing r with
  | nil => exact h
  | cons msg msgs ih =>
    rw [List.forall_mem_cons] at hmsgs
    exact ih (h.apply hmsgs.1.1 hmsgs.1.2) hmsgs.2

/-- There are no more live orders than ids. -/
theorem length_le (h : Within r ids bound) : r.rows.length ≤ ids.card := by
  rw [← List.length_map Order.orderId, ← List.toFinset_card_of_nodup r.distinct]
  apply Finset.card_le_card
  intro id hid
  obtain ⟨o, ho, rfl⟩ := List.mem_map.mp (List.mem_toFinset.mp hid)
  exact (h o ho).1

/-- A fresh id leaves room for its order. -/
theorem length_lt (h : Within r ids bound) (hid : msg.orderId ∈ ids)
    (hfresh : r.lookup msg.orderId = none) : r.rows.length < ids.card := by
  have hadd : Within (r.add { msg with quantity := 0 }) ids bound := h.add hid (Nat.zero_le _)
  have hrows : (r.add { msg with quantity := 0 }).rows = r.rows ++ [Order.ofMessage { msg with quantity := 0 }] :=
    rows_add hfresh
  have hlen := hadd.length_le
  rw [hrows, List.length_append] at hlen
  exact hlen

theorem exactTotal_le (h : Within r ids bound) : exactTotal r.rows ≤ ids.card * bound := by
  have hsum := List.sum_le_card_nsmul (r.rows.map (·.quantity.toNat)) bound (by
    intro q hq
    obtain ⟨o, ho, rfl⟩ := List.mem_map.mp hq
    exact (h o ho).2)
  rw [List.length_map, nsmul_eq_mul, Nat.cast_id] at hsum
  exact hsum.trans (Nat.mul_le_mul_right bound h.length_le)

theorem exactTotal_level_le (h : Within r ids bound) (buy : Bool) (price : Int64) :
    exactTotal (r.level buy price) ≤ ids.card * bound :=
  (r.level_le_rows buy price).trans h.exactTotal_le

/-- A view of `r` with exact aggregates does exact arithmetic. -/
theorem exactArithmetic (h : Within r ids bound) (hsmall : ids.card * bound < 2 ^ 31)
    (hid : msg.orderId ∈ ids) (hpos : 0 < msg.quantity.toNat) (hq : msg.quantity.toNat ≤ bound)
    {orderOf : UInt64 → Option Order} {levelAt : Bool → Int64 → Option PriceLevel}
    (horder : ∀ id, orderOf id = r.lookup id)
    (hlevel : ∀ buy p l, levelAt buy p = some l → l.totalQuantity.toNat = exactTotal (r.level buy p)) :
    ExactArithmetic orderOf levelAt msg where
  add _ hfresh l hl := by
    rw [horder] at hfresh
    have hnew := (h.add hid hq).exactTotal_level_le (Order.ofMessage msg).isBuy msg.price
    rw [level_add_here hfresh, exactTotal, List.map_append, List.sum_append] at hnew
    have htotal := hlevel _ _ l hl
    rw [exactTotal] at htotal
    have hone : (List.map (fun o : Order => o.quantity.toNat) [Order.ofMessage msg]).sum =
        msg.quantity.toNat := by simp [Order.ofMessage]
    omega
  modify hm o l ho hl := by
    rw [horder] at ho
    have hnew := (h.apply hid hq).exactTotal_level_le o.isBuy o.price
    have hedit := exactTotal_level_edit ho fun _ => some msg.quantity
    rw [Option.getD_some] at hedit
    have hle := quantity_le_level ho
    rw [r.apply_of_modify hm] at hnew
    rw [hlevel _ _ l hl]
    constructor <;> omega
  casts _ o l ho hl := by
    rw [horder] at ho
    have hcard : 0 < ids.card := Finset.card_pos.mpr ⟨_, hid⟩
    have hbound : bound ≤ ids.card * bound := Nat.le_mul_of_pos_left bound hcard
    have hle := quantity_le_level ho
    have hall := h.exactTotal_level_le o.isBuy o.price
    rw [hlevel _ _ l hl]
    refine ⟨?_, ?_, ?_⟩ <;> omega
  cancel _ o l ho hl := by
    rw [horder] at ho
    rw [hlevel _ _ l hl]
    exact quantity_le_level ho
  trade _ o l ho hl := by
    rw [horder] at ho
    rw [hlevel _ _ l hl]
    rw [toNat_min]
    exact (Nat.min_le_right _ _).trans (quantity_le_level ho)

end Within

end LatencyLab
